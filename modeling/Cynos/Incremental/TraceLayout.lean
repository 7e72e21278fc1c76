import Cynos.Incremental.Trace
import Cynos.Query.Relation

/-! Reading a value of a tuple without putting its row together. The segments of a tuple tile
it; then the value at an index is the one at that index of the row. -/
namespace Cynos.Incremental

open Core
open Query (joinRowId leftJoinNullRowId rightJoinNullRowId)

variable {V : Type}

section Values

/-- The binary search for the segment that an index falls into. -/
def searchSegments (segments : List (TraceTupleSegment V)) (index low high : Nat) :
    Option (TraceTupleSegment V) :=
  if low < high then
    let mid := low + (high - low) / 2
    match segments[mid]? with
    | none => none
    | some segment =>
      if index < segment.outputStart then searchSegments segments index low mid
      else if index ≥ segment.outputStart + segment.len then
        searchSegments segments index (mid + 1) high
      else some segment
  else none
termination_by high - low

def TraceTupleLayout.segmentAt (layout : TraceTupleLayout V) (index : Nat) :
    Option (TraceTupleSegment V) :=
  match layout.segments with
  | [] => none
  | [segment] =>
    if index ≥ segment.outputStart ∧ index < segment.outputStart + segment.len then some segment
    else none
  | segments => searchSegments segments index 0 segments.length

/-- The value at an offset of a segment. -/
def TraceTupleSegment.read (segment : TraceTupleSegment V) (offset : Nat) : Option (Value V) :=
  match segment.kind with
  | .values row rowStart => row.get (rowStart + offset)
  | .nulls => some .null
  | .missing => none

def TraceTupleHandle.valueAt (handle : TraceTupleHandle V) (index : Nat) : Option (Value V) :=
  if index ≥ handle.layout.len then none
  else (handle.layout.segmentAt index).bind fun segment =>
    segment.read (index - segment.outputStart)

end Values

section Tuples

variable [DecidableEq V]

/-- A left and a right tuple side by side. -/
def TraceTupleLayout.concat (left right : TraceTupleLayout V) (leftWidth : Nat) :
    TraceTupleLayout V :=
  { len := leftWidth + right.len
    rowId := joinRowId left.rowId right.rowId
    version := (left.version + right.version) % 2 ^ 64
    segments := appendLayoutRange (appendLayoutRange [] left 0 leftWidth 0) right 0 right.len
      leftWidth }

def TraceTupleLayout.nullPadLeft (right : TraceTupleLayout V) (leftWidth : Nat) :
    TraceTupleLayout V :=
  { len := leftWidth + right.len
    rowId := rightJoinNullRowId right.rowId
    version := right.version
    segments := appendLayoutRange (pushSegment [] ⟨0, leftWidth, .nulls⟩) right 0 right.len
      leftWidth }

def TraceTupleLayout.nullPadRight (left : TraceTupleLayout V) (rightWidth : Nat) :
    TraceTupleLayout V :=
  { len := left.len + rightWidth
    rowId := leftJoinNullRowId left.rowId
    version := left.version
    segments := pushSegment (appendLayoutRange [] left 0 left.len 0)
      ⟨left.len, rightWidth, .nulls⟩ }

namespace TraceTupleHandle

def concat (left right : TraceTupleHandle V) (leftWidth : Nat) : TraceTupleHandle V :=
  ⟨left.layout.concat right.layout leftWidth, none⟩

def nullPadLeft (right : TraceTupleHandle V) (leftWidth : Nat) : TraceTupleHandle V :=
  ⟨right.layout.nullPadLeft leftWidth, none⟩

def nullPadRight (left : TraceTupleHandle V) (rightWidth : Nat) : TraceTupleHandle V :=
  ⟨left.layout.nullPadRight rightWidth, none⟩

end TraceTupleHandle

end Tuples

section Tiles

/-- A segment all of whose values exist. -/
def TraceTupleSegment.Filled (segment : TraceTupleSegment V) : Prop :=
  match segment.kind with
  | .values row rowStart => rowStart + segment.len ≤ row.values.length
  | .nulls => True
  | .missing => False

/-- Segments that follow each other without a gap. -/
def Tiles : Nat → List (TraceTupleSegment V) → Nat → Prop
  | start, [], stop => start = stop
  | start, segment :: segments, stop =>
    segment.outputStart = start ∧ 0 < segment.len ∧ segment.Filled ∧
      Tiles (start + segment.len) segments stop

/-- The values of segments one after the other. -/
def segmentsValues (segments : List (TraceTupleSegment V)) : List (Value V) :=
  segments.flatMap TraceTupleLayout.segmentValues

@[simp] theorem segmentsValues_nil : segmentsValues ([] : List (TraceTupleSegment V)) = [] := rfl
@[simp] theorem segmentsValues_cons (segment : TraceTupleSegment V)
    (segments : List (TraceTupleSegment V)) :
    segmentsValues (segment :: segments) =
      TraceTupleLayout.segmentValues segment ++ segmentsValues segments := rfl
@[simp] theorem segmentsValues_append (segments segments' : List (TraceTupleSegment V)) :
    segmentsValues (segments ++ segments') = segmentsValues segments ++ segmentsValues segments' :=
  List.flatMap_append

variable {segment : TraceTupleSegment V} {segments segments' : List (TraceTupleSegment V)}
  {start middle stop : Nat}

theorem TraceTupleSegment.Filled.length (h : segment.Filled) :
    (TraceTupleLayout.segmentValues segment).length = segment.len := by
  unfold TraceTupleSegment.Filled at h
  unfold TraceTupleLayout.segmentValues
  cases hkind : segment.kind with
  | values row rowStart =>
    rw [hkind] at h
    dsimp only at h ⊢
    rw [List.length_take, List.length_drop]
    omega
  | nulls => exact List.length_replicate
  | missing =>
    rw [hkind] at h
    exact h.elim

theorem TraceTupleSegment.Filled.read (h : segment.Filled) {offset : Nat}
    (hoffset : offset < segment.len) :
    segment.read offset = (TraceTupleLayout.segmentValues segment)[offset]? := by
  unfold TraceTupleSegment.Filled at h
  unfold TraceTupleSegment.read TraceTupleLayout.segmentValues
  cases hkind : segment.kind with
  | values row rowStart =>
    dsimp only
    rw [List.getElem?_take_of_lt hoffset, List.getElem?_drop]
    rfl
  | nulls =>
    dsimp only
    rw [List.getElem?_replicate_of_lt hoffset]
  | missing =>
    rw [hkind] at h
    exact h.elim

theorem Tiles.length_values (h : Tiles start segments stop) :
    start + (segmentsValues segments).length = stop := by
  induction segments generalizing start with
  | nil => exact h
  | cons segment segments ih =>
    obtain ⟨-, -, hfilled, hrest⟩ := h
    rw [segmentsValues_cons, List.length_append, hfilled.length, ← Nat.add_assoc]
    exact ih hrest

theorem tiles_append :
    Tiles start (segments ++ segments') stop ↔
      ∃ middle, Tiles start segments middle ∧ Tiles middle segments' stop := by
  induction segments generalizing start with
  | nil => exact ⟨fun h => ⟨start, rfl, h⟩, fun ⟨_, heq, h⟩ => (show start = _ from heq) ▸ h⟩
  | cons segment segments ih =>
    rw [List.cons_append]
    constructor
    · rintro ⟨hstart, hlen, hfilled, hrest⟩
      obtain ⟨middle, hleft, hright⟩ := ih.mp hrest
      exact ⟨middle, ⟨hstart, hlen, hfilled, hleft⟩, hright⟩
    · rintro ⟨middle, ⟨hstart, hlen, hfilled, hleft⟩, hright⟩
      exact ⟨hstart, hlen, hfilled, ih.mpr ⟨middle, hleft, hright⟩⟩

/-- Later segments start where earlier ones have ended. -/
theorem Tiles.pairwise (h : Tiles start segments stop) :
    (∀ segment ∈ segments, start ≤ segment.outputStart) ∧
      segments.Pairwise fun a b => a.outputStart + a.len ≤ b.outputStart := by
  induction segments generalizing start with
  | nil => exact ⟨nofun, .nil⟩
  | cons segment segments ih =>
    obtain ⟨rfl, hlen, -, hrest⟩ := h
    obtain ⟨hle, hpair⟩ := ih hrest
    refine ⟨fun other hother => ?_, List.pairwise_cons.mpr ⟨hle, hpair⟩⟩
    obtain rfl | hother := List.mem_cons.mp hother
    · exact Nat.le_refl _
    · exact Nat.le_trans (Nat.le_add_right _ _) (hle other hother)

/-- The segment that an index falls into, and the value there. -/
theorem Tiles.exists_segment (h : Tiles start segments stop) {index : Nat} (hstart : start ≤ index)
    (hstop : index < stop) :
    ∃ k : Nat, ∃ segment : TraceTupleSegment V, segments[k]? = some segment ∧ segment.outputStart ≤ index ∧
      index < segment.outputStart + segment.len ∧
      segment.read (index - segment.outputStart) = (segmentsValues segments)[index - start]? := by
  induction segments generalizing start with
  | nil => exact absurd (show start = stop from h) (by omega)
  | cons segment segments ih =>
    obtain ⟨rfl, hlen, hfilled, hrest⟩ := h
    rw [segmentsValues_cons]
    by_cases hin : index < segment.outputStart + segment.len
    · refine ⟨0, segment, rfl, hstart, hin, ?_⟩
      have hoffset : index - segment.outputStart < segment.len := by omega
      rw [hfilled.read hoffset, List.getElem?_append_left (by rwa [hfilled.length])]
    · obtain ⟨k, found, hk, hfound, hlt, hread⟩ := ih hrest (by omega)
      refine ⟨k + 1, found, hk, hfound, hlt, ?_⟩
      rw [hread, List.getElem?_append_right (by rw [hfilled.length]; omega), hfilled.length,
        Nat.sub_add_eq]

end Tiles

section Search

variable {segments : List (TraceTupleSegment V)} {index : Nat}

/-- The search finds the segment between its bounds that the index falls into. -/
theorem searchSegments_eq
    (hpair : segments.Pairwise fun a b => a.outputStart + a.len ≤ b.outputStart)
    {k : Nat} {segment : TraceTupleSegment V} (hk : segments[k]? = some segment)
    (hstart : segment.outputStart ≤ index) (hstop : index < segment.outputStart + segment.len) :
    ∀ n low high, high - low ≤ n → low ≤ k → k < high → high ≤ segments.length →
      searchSegments segments index low high = some segment := by
  have horder : ∀ {i j : Nat} {a b : TraceTupleSegment V}, segments[i]? = some a →
      segments[j]? = some b → i < j → a.outputStart + a.len ≤ b.outputStart := by
    intro i j a b ha hb hij
    obtain ⟨hi, rfl⟩ := List.getElem?_eq_some_iff.mp ha
    obtain ⟨hj, rfl⟩ := List.getElem?_eq_some_iff.mp hb
    exact List.pairwise_iff_getElem.mp hpair i j hi hj hij
  have hbefore : ∀ {j : Nat} {a : TraceTupleSegment V}, segments[j]? = some a →
      index < a.outputStart → k < j := by
    intro j a ha hlt
    by_contra hge
    obtain hjk | rfl := Nat.lt_or_eq_of_le (Nat.le_of_not_lt hge)
    · have hle := horder ha hk hjk
      omega
    · obtain rfl := Option.some.inj (ha.symm.trans hk)
      omega
  have hafter : ∀ {j : Nat} {a : TraceTupleSegment V}, segments[j]? = some a →
      index ≥ a.outputStart + a.len → j < k := by
    intro j a ha hpast
    by_contra hge
    obtain hkj | rfl := Nat.lt_or_eq_of_le (Nat.le_of_not_lt hge)
    · have hle := horder hk ha hkj
      omega
    · obtain rfl := Option.some.inj (ha.symm.trans hk)
      omega
  intro n
  induction n with
  | zero => intro low high hn hlow hhigh _; omega
  | succ n ih =>
    intro low high hn hlow hhigh hlength
    rw [searchSegments, if_pos (by omega)]
    obtain ⟨found, hfound⟩ : ∃ found, segments[low + (high - low) / 2]? = some found :=
      ⟨_, List.getElem?_eq_getElem (by omega)⟩
    dsimp only
    rw [hfound]
    dsimp only
    split
    next hlt => exact ih low _ (by omega) hlow (hbefore hfound hlt) (by omega)
    next hge =>
      split
      next hpast => exact ih _ high (by omega) (hafter hfound hpast) hhigh hlength
      next hnot =>
        obtain hlt | heq | hgt := Nat.lt_trichotomy k (low + (high - low) / 2)
        · have hle := horder hk hfound hlt
          omega
        · rw [← heq] at hfound
          exact hfound.symm.trans hk
        · have hle := horder hfound hk hgt
          omega

end Search

section Push

variable [DecidableEq V] {segment : TraceTupleSegment V} {segments : List (TraceTupleSegment V)}
  {start stop : Nat}

/-- A segment pushed where the others end tiles with them, merged or not. -/
theorem Tiles.pushSegment (h : Tiles start segments stop) (hstart : segment.outputStart = stop)
    (hfilled : segment.Filled) :
    Tiles start (pushSegment segments segment) (stop + segment.len) ∧
      segmentsValues (pushSegment segments segment) =
        segmentsValues segments ++ TraceTupleLayout.segmentValues segment := by
  unfold Incremental.pushSegment
  split
  next hzero =>
    refine ⟨hzero ▸ h, ?_⟩
    have hnil : TraceTupleLayout.segmentValues segment = [] :=
      List.length_eq_zero_iff.mp (hfilled.length.trans hzero)
    rw [hnil, List.append_nil]
  next hne =>
    have happend : Tiles start (segments ++ [segment]) (stop + segment.len) ∧
        segmentsValues (segments ++ [segment]) =
          segmentsValues segments ++ TraceTupleLayout.segmentValues segment := by
      refine ⟨tiles_append.mpr ⟨stop, h, hstart, Nat.pos_of_ne_zero hne, hfilled, rfl⟩, ?_⟩
      rw [segmentsValues_append, segmentsValues_cons, segmentsValues_nil, List.append_nil]
    split
    next => exact happend
    next previous hlast =>
      have hsplit := List.dropLast_append_getLast? previous hlast
      rw [← hsplit, tiles_append] at h
      obtain ⟨middle, hinit, rfl, hlen, hprevious, heq⟩ := h
      have heq : previous.outputStart + previous.len = stop := heq
      -- Two segments that are one, by their values.
      have hmerge : ({ previous with len := previous.len + segment.len } :
            TraceTupleSegment V).Filled →
          TraceTupleLayout.segmentValues { previous with len := previous.len + segment.len } =
            TraceTupleLayout.segmentValues previous ++ TraceTupleLayout.segmentValues segment →
          Tiles start (segments.dropLast ++
              [{ previous with len := previous.len + segment.len }]) (stop + segment.len) ∧
            segmentsValues (segments.dropLast ++
              [{ previous with len := previous.len + segment.len }]) =
              segmentsValues segments ++ TraceTupleLayout.segmentValues segment := by
        intro hmerged hvalues
        refine ⟨tiles_append.mpr ⟨_, hinit, rfl, by dsimp only; omega, hmerged, ?_⟩, ?_⟩
        · change _ + (_ + _) = _
          omega
        · conv_rhs => rw [← hsplit]
          rw [segmentsValues_append, segmentsValues_append, segmentsValues_cons,
            segmentsValues_cons, segmentsValues_nil, List.append_nil, List.append_nil, hvalues,
            List.append_assoc]
      dsimp only
      split
      next hadjacent =>
        unfold TraceTupleSegment.Filled at hprevious hfilled
        split
        next hkind hkind' =>
          refine hmerge ?_ ?_
          · unfold TraceTupleSegment.Filled
            rw [hkind]
            trivial
          · unfold TraceTupleLayout.segmentValues
            rw [hkind, hkind']
            exact List.replicate_add _ _ _
        next hkind hkind' =>
          rw [hkind] at hprevious
          exact hprevious.elim
        next row rowStart row' rowStart' hkind hkind' =>
          split
          next hsame =>
            obtain ⟨rfl, hnext⟩ := hsame
            rw [hkind] at hprevious
            rw [hkind'] at hfilled
            refine hmerge ?_ ?_
            · unfold TraceTupleSegment.Filled
              rw [hkind]
              dsimp only at hprevious hfilled ⊢
              omega
            · unfold TraceTupleLayout.segmentValues
              rw [hkind, hkind']
              dsimp only
              rw [← hnext, List.take_add, List.drop_drop]
          next => exact happend
        next => exact happend
      next => exact happend

variable {layout : TraceTupleLayout V} {sourceStart sourceEnd outputStart : Nat}

/-- One segment of a source: of a range of it, what falls into that segment is appended. -/
theorem Tiles.appendOverlap (h : Tiles start segments
      (outputStart + (min segment.outputStart sourceEnd - sourceStart)))
    (hfilled : segment.Filled) (hsource : sourceStart < sourceEnd) :
    Tiles start (appendOverlap sourceStart sourceEnd outputStart segments segment)
        (outputStart + (min (segment.outputStart + segment.len) sourceEnd - sourceStart)) ∧
      segmentsValues (appendOverlap sourceStart sourceEnd outputStart segments segment) =
        segmentsValues segments ++ ((TraceTupleLayout.segmentValues segment).take
          (sourceEnd - segment.outputStart)).drop (sourceStart - segment.outputStart) := by
  unfold Incremental.appendOverlap
  dsimp only
  split
  next hempty =>
    refine ⟨?_, ?_⟩
    · convert h using 2
      omega
    · rw [List.drop_eq_nil_of_le, List.append_nil]
      rw [List.length_take, hfilled.length]
      omega
  next hsome =>
    unfold TraceTupleSegment.Filled at hfilled
    let piece : TraceTupleSegment V :=
      ⟨outputStart + (max segment.outputStart sourceStart - sourceStart),
        min (segment.outputStart + segment.len) sourceEnd - max segment.outputStart sourceStart,
        match segment.kind with
        | .values row rowStart =>
          .values row (rowStart + (max segment.outputStart sourceStart - segment.outputStart))
        | .nulls => .nulls
        | .missing => .missing⟩
    have hstart : piece.outputStart =
        outputStart + (min segment.outputStart sourceEnd - sourceStart) := by
      change outputStart + _ = _
      omega
    have hpiece : piece.Filled := by
      unfold TraceTupleSegment.Filled
      cases hkind : segment.kind with
      | values row rowStart =>
        rw [hkind] at hfilled
        simp only [piece, hkind]
        dsimp only at hfilled
        omega
      | nulls => simp only [piece, hkind]
      | missing =>
        rw [hkind] at hfilled
        exact hfilled.elim
    have hvalues : TraceTupleLayout.segmentValues piece =
        ((TraceTupleLayout.segmentValues segment).take (sourceEnd - segment.outputStart)).drop
          (sourceStart - segment.outputStart) := by
      unfold TraceTupleLayout.segmentValues
      cases hkind : segment.kind with
      | values row rowStart =>
        simp only [piece, hkind]
        rw [List.take_take, List.drop_take, List.drop_drop]
        congr 1
        · omega
        · congr 1
          omega
      | nulls =>
        simp only [piece, hkind]
        rw [List.take_replicate, List.drop_replicate]
        congr 1
        omega
      | missing =>
        rw [hkind] at hfilled
        exact hfilled.elim
    obtain ⟨htiles, heq⟩ := h.pushSegment hstart hpiece
    have hstop : outputStart + (min segment.outputStart sourceEnd - sourceStart) + piece.len =
        outputStart + (min (segment.outputStart + segment.len) sourceEnd - sourceStart) := by
      change _ + (min (segment.outputStart + segment.len) sourceEnd -
        max segment.outputStart sourceStart) = _
      omega
    exact ⟨hstop ▸ htiles, heq.trans (congrArg _ hvalues)⟩

/-- All segments of a source. -/
theorem Tiles.foldl_appendOverlap {sources : List (TraceTupleSegment V)}
    (hsource : sourceStart < sourceEnd) :
    ∀ {c d : Nat} {segments : List (TraceTupleSegment V)}, Tiles c sources d →
      Tiles start segments (outputStart + (min c sourceEnd - sourceStart)) →
      Tiles start (sources.foldl (Incremental.appendOverlap sourceStart sourceEnd outputStart)
          segments) (outputStart + (min d sourceEnd - sourceStart)) ∧
        segmentsValues (sources.foldl
            (Incremental.appendOverlap sourceStart sourceEnd outputStart) segments) =
          segmentsValues segments ++
            ((segmentsValues sources).take (sourceEnd - c)).drop (sourceStart - c) := by
  induction sources with
  | nil =>
    intro c d segments hsources h
    obtain rfl : c = d := hsources
    refine ⟨h, ?_⟩
    rw [List.foldl_nil, segmentsValues_nil, List.take_nil, List.drop_nil, List.append_nil]
  | cons segment sources ih =>
    intro c d segments hsources h
    obtain ⟨rfl, hpos, hfilled, hrest⟩ := hsources
    obtain ⟨htiles, hvalues⟩ := h.appendOverlap hfilled hsource
    obtain ⟨htiles', hvalues'⟩ := ih hrest htiles
    refine ⟨htiles', ?_⟩
    rw [List.foldl_cons, hvalues', hvalues, List.append_assoc, segmentsValues_cons,
      List.take_append, List.drop_append, hfilled.length, List.length_take, hfilled.length]
    congr 2
    by_cases hshort : sourceEnd ≤ segment.outputStart + segment.len
    · have hzero : sourceEnd - segment.outputStart - segment.len = 0 := by omega
      rw [hzero, Nat.sub_eq_zero_of_le hshort, List.take_zero, List.drop_nil, List.drop_nil]
    · congr 1
      · omega
      · congr 1
        omega

/-- A range of a tiled layout. -/
theorem Tiles.appendLayoutRange (h : Tiles start segments outputStart)
    (hlayout : Tiles 0 layout.segments layout.len) {len : Nat}
    (hrange : sourceStart + len ≤ layout.len) :
    Tiles start (appendLayoutRange segments layout sourceStart len outputStart)
        (outputStart + len) ∧
      segmentsValues (appendLayoutRange segments layout sourceStart len outputStart) =
        segmentsValues segments ++
          ((segmentsValues layout.segments).drop sourceStart).take len := by
  unfold Incremental.appendLayoutRange
  split
  next hzero =>
    rw [hzero, List.take_zero, List.append_nil]
    exact ⟨h, rfl⟩
  next hne =>
    dsimp only
    rw [Nat.min_eq_left hrange, if_neg (by omega), if_neg (by omega)]
    have hempty : Tiles start segments
        (outputStart + (min 0 (sourceStart + len) - sourceStart)) := by
      convert h using 1
      omega
    obtain ⟨htiles, hvalues⟩ := Tiles.foldl_appendOverlap (by omega) hlayout hempty
    refine ⟨?_, hvalues.trans (congrArg _ ?_)⟩
    · convert htiles using 1
      omega
    · rw [Nat.sub_zero, Nat.sub_zero, List.drop_take, Nat.add_sub_cancel_left]

/-- Single columns of a tiled layout, one after the other. -/
theorem Tiles.foldl_columns (h : Tiles start segments outputStart)
    (hlayout : Tiles 0 layout.segments layout.len) {columns : List Nat}
    (hcolumns : ∀ column ∈ columns, column < layout.len) :
    Tiles start ((columns.zipIdx outputStart).foldl (fun segments column =>
        Incremental.appendLayoutRange segments layout column.1 1 column.2) segments)
        (outputStart + columns.length) ∧
      segmentsValues ((columns.zipIdx outputStart).foldl (fun segments column =>
          Incremental.appendLayoutRange segments layout column.1 1 column.2) segments) =
        segmentsValues segments ++
          columns.filterMap fun column => (segmentsValues layout.segments)[column]? := by
  induction columns generalizing segments outputStart with
  | nil => exact ⟨h, (List.append_nil _).symm⟩
  | cons column columns ih =>
    have hcolumn : column < layout.len := hcolumns column List.mem_cons_self
    obtain ⟨htiles, hvalues⟩ := h.appendLayoutRange hlayout (show column + 1 ≤ layout.len from hcolumn)
    obtain ⟨hrest, hvaluesRest⟩ := ih htiles fun c hc => hcolumns c (List.mem_cons_of_mem _ hc)
    rw [List.zipIdx_cons, List.foldl_cons, List.length_cons]
    refine ⟨?_, ?_⟩
    · convert hrest using 1
      omega
    · have hlength := hlayout.length_values
      have hbound : column < (segmentsValues layout.segments).length := by omega
      rw [hvaluesRest, hvalues, List.filterMap_cons, List.getElem?_eq_getElem hbound,
        List.append_assoc, List.drop_eq_getElem_cons hbound]
      rfl

end Push

section Rows

/-- A tuple whose segments tile it, and whose row, where it has one already, is theirs. -/
structure TraceTupleHandle.Tiled (handle : TraceTupleHandle V) : Prop where
  tiles : Tiles 0 handle.layout.segments handle.layout.len
  values : handle.materializeRc.values = segmentsValues handle.layout.segments

variable {handle : TraceTupleHandle V}

/-- A value read from a tuple is the one in its row. -/
theorem TraceTupleHandle.Tiled.valueAt (h : handle.Tiled) (index : Nat) :
    handle.valueAt index = handle.materializeRc.get index := by
  have hlength := h.tiles.length_values
  rw [Nat.zero_add] at hlength
  unfold TraceTupleHandle.valueAt Row.get
  rw [h.values]
  split
  next hge => rw [List.getElem?_eq_none (by omega)]
  next hlt =>
    obtain ⟨k, segment, hk, hstart, hstop, hread⟩ :=
      h.tiles.exists_segment (Nat.zero_le index) (by omega)
    rw [Nat.sub_zero] at hread
    have hat : handle.layout.segmentAt index = some segment := by
      have hbound := (List.getElem?_eq_some_iff.mp hk).1
      have hsearch := searchSegments_eq h.tiles.pairwise.2 hk hstart hstop
        handle.layout.segments.length 0 handle.layout.segments.length (by omega) (by omega) hbound
        (Nat.le_refl _)
      unfold TraceTupleLayout.segmentAt
      split
      next hnil =>
        rw [hnil] at hbound
        exact absurd hbound (Nat.not_lt_zero _)
      next only hone =>
        rw [hone] at hk hbound
        obtain rfl : k = 0 := Nat.lt_one_iff.mp hbound
        obtain rfl : only = segment := Option.some.inj hk
        exact if_pos ⟨hstart, hstop⟩
      next => exact hsearch
    rw [hat, Option.bind_some, hread]

/-- Tuples of whole rows are tiled, -/
theorem TraceTupleHandle.tiled_owned (row : Row V) : (TraceTupleHandle.owned row).Tiled := by
  by_cases hempty : row.values.length = 0
  · have hsegments : (TraceTupleLayout.fromRow row).segments = [] := if_pos hempty
    refine ⟨?_, ?_⟩
    · change Tiles 0 (TraceTupleLayout.fromRow row).segments row.values.length
      rw [hsegments, hempty]
      rfl
    · change row.values = segmentsValues (TraceTupleLayout.fromRow row).segments
      rw [hsegments, List.length_eq_zero_iff.mp hempty]
      rfl
  · have hsegments : (TraceTupleLayout.fromRow row).segments =
        [⟨0, row.values.length, .values row 0⟩] := if_neg hempty
    refine ⟨?_, ?_⟩
    · change Tiles 0 (TraceTupleLayout.fromRow row).segments row.values.length
      rw [hsegments]
      refine ⟨rfl, Nat.pos_of_ne_zero hempty, ?_, ?_⟩
      · change 0 + row.values.length ≤ row.values.length
        omega
      · exact Nat.zero_add _
    · change row.values = segmentsValues (TraceTupleLayout.fromRow row).segments
      rw [hsegments, segmentsValues_cons, segmentsValues_nil, List.append_nil]
      change row.values = (row.values.drop 0).take row.values.length
      rw [List.drop_zero, List.take_length]

variable [DecidableEq V]

/-- and so are joined tuples, -/
theorem TraceTupleHandle.Tiled.concat {left right : TraceTupleHandle V} (hleft : left.Tiled)
    (hright : right.Tiled) {leftWidth : Nat} (hwidth : leftWidth ≤ left.layout.len) :
    (left.concat right leftWidth).Tiled := by
  have hbegin : Tiles 0 ([] : List (TraceTupleSegment V)) 0 := rfl
  have hfirst := (hbegin.appendLayoutRange hleft.tiles
    (show 0 + leftWidth ≤ left.layout.len by omega)).1
  rw [Nat.zero_add] at hfirst
  exact ⟨(hfirst.appendLayoutRange hright.tiles (by omega)).1, rfl⟩

/-- unmatched tuples -/
theorem TraceTupleHandle.Tiled.nullPadLeft {right : TraceTupleHandle V} (hright : right.Tiled)
    (leftWidth : Nat) : (right.nullPadLeft leftWidth).Tiled := by
  have hbegin : Tiles 0 ([] : List (TraceTupleSegment V)) 0 := rfl
  have hnulls : (⟨0, leftWidth, .nulls⟩ : TraceTupleSegment V).Filled := trivial
  have hfirst := (hbegin.pushSegment rfl hnulls).1
  rw [Nat.zero_add] at hfirst
  exact ⟨(hfirst.appendLayoutRange hright.tiles (by omega)).1, rfl⟩

theorem TraceTupleHandle.Tiled.nullPadRight {left : TraceTupleHandle V} (hleft : left.Tiled)
    (rightWidth : Nat) : (left.nullPadRight rightWidth).Tiled := by
  have hbegin : Tiles 0 ([] : List (TraceTupleSegment V)) 0 := rfl
  have hfirst := (hbegin.appendLayoutRange hleft.tiles
    (show 0 + left.layout.len ≤ left.layout.len by omega)).1
  rw [Nat.zero_add] at hfirst
  have hnulls : (⟨left.layout.len, rightWidth, .nulls⟩ : TraceTupleSegment V).Filled := trivial
  exact ⟨(hfirst.pushSegment rfl hnulls).1, rfl⟩

/-- and projections on columns that a tuple has. -/
theorem TraceTupleHandle.Tiled.project {input : TraceTupleHandle V} (h : input.Tiled)
    {columns : List Nat} (hcolumns : ∀ column ∈ columns, column < input.layout.len) :
    (input.project columns).Tiled := by
  have hbegin : Tiles 0 ([] : List (TraceTupleSegment V)) 0 := rfl
  have htiles := (hbegin.foldl_columns h.tiles hcolumns).1
  rw [Nat.zero_add] at htiles
  exact ⟨htiles, rfl⟩

end Rows

end Cynos.Incremental
