import Cynos.Query.RowBags

/-! Where the columns of two relations stand in a joined row: every table of the two sides
gets one segment, in the order of the output tables. -/
namespace Cynos.Query

open Core

section Segments

/-- The segments that are not taken yet: table, offset and width. -/
def freeSegments : Nat → List TableName → List Nat → List Bool → List (TableName × Nat × Nat)
  | _, [], _, _ => []
  | offset, table :: tables, counts, used =>
    if used.headD true then freeSegments (offset + counts.headD 0) tables counts.tail used.tail
    else (table, offset, counts.headD 0) ::
      freeSegments (offset + counts.headD 0) tables counts.tail used.tail

variable {target : TableName} {tables : List TableName}

theorem takeSegment_none {offset : Nat} {counts : List Nat} {used : List Bool}
    (h : takeSegment target offset tables counts used = none) :
    ∀ segment ∈ freeSegments offset tables counts used, segment.1 ≠ target := by
  induction tables generalizing offset counts used with
  | nil => exact fun _ hmem => absurd hmem List.not_mem_nil
  | cons table tables ih =>
    rw [takeSegment] at h
    rw [freeSegments]
    split at h
    next => contradiction
    next hne =>
      have hrest := ih (Option.map_eq_none_iff.mp h)
      split
      next => exact hrest
      next hfree =>
        rw [Bool.not_eq_true] at hfree
        intro segment hmem
        rw [List.mem_cons] at hmem
        obtain rfl | hmem := hmem
        · exact fun heq => hne ⟨heq, hfree⟩
        · exact hrest segment hmem

/-- The first free segment of the table is taken. -/
theorem takeSegment_some {offset start width : Nat} {counts : List Nat} {used used' : List Bool}
    (h : takeSegment target offset tables counts used = some (start, width, used')) :
    ∃ before after, freeSegments offset tables counts used =
        before ++ (target, start, width) :: after ∧
      (∀ segment ∈ before, segment.1 ≠ target) ∧
      freeSegments offset tables counts used' = before ++ after := by
  induction tables generalizing offset counts used used' with
  | nil => contradiction
  | cons table tables ih =>
    rw [takeSegment] at h
    split at h
    next heq =>
      obtain ⟨rfl, hfree⟩ := heq
      cases h
      refine ⟨[], freeSegments (start + counts.headD 0) tables counts.tail used.tail, ?_, ?_, ?_⟩
      · rw [freeSegments, hfree, if_neg Bool.false_ne_true]
        rfl
      · exact fun _ hmem => absurd hmem List.not_mem_nil
      · rw [freeSegments]
        exact if_pos rfl
    next hne =>
      obtain ⟨⟨start', width', rest⟩, htake, heq⟩ := Option.map_eq_some_iff.mp h
      cases heq
      obtain ⟨before, after, hfree, hbefore, hrest⟩ := ih htake
      cases hused : used.headD true with
      | true =>
        refine ⟨before, after, ?_, hbefore, ?_⟩
        · rw [freeSegments, hused, if_pos rfl, hfree]
        · rw [freeSegments]
          exact (if_pos rfl).trans hrest
      | false =>
        refine ⟨(table, offset, counts.headD 0) :: before, after, ?_, ?_, ?_⟩
        · rw [freeSegments, hused, if_neg Bool.false_ne_true, hfree]
          rfl
        · intro segment hmem
          rw [List.mem_cons] at hmem
          obtain rfl | hmem := hmem
          · exact fun heq => hne ⟨heq, hused⟩
          · exact hbefore segment hmem
        · rw [freeSegments]
          exact (if_neg Bool.false_ne_true).trans (congrArg _ hrest)

/-- The segments of one side of a join. -/
def onSide (side : JoinInputSide) (segments : List (TableName × Nat × Nat)) :
    List (TableName × JoinOutputSegment) :=
  segments.map fun (table, offset, width) => (table, ⟨side, offset, width⟩)

theorem map_fst_onSide (side : JoinInputSide) (segments : List (TableName × Nat × Nat)) :
    (onSide side segments).map Prod.fst = segments.map Prod.fst := by
  unfold onSide
  rw [List.map_map]
  rfl

/-- When the output tables are those of the free segments, every free segment is taken. -/
theorem layoutSegments_perm {left right : EvalContext} {outputTables : List TableName} :
    ∀ {leftUsed rightUsed : List Bool},
      outputTables.Perm
        ((freeSegments 0 left.tables left.tableColumnCounts leftUsed).map Prod.fst ++
          (freeSegments 0 right.tables right.tableColumnCounts rightUsed).map Prod.fst) →
      (layoutSegments left right outputTables leftUsed rightUsed).Perm
        (onSide .left (freeSegments 0 left.tables left.tableColumnCounts leftUsed) ++
          onSide .right (freeSegments 0 right.tables right.tableColumnCounts rightUsed)) := by
  induction outputTables with
  | nil =>
    intro leftUsed rightUsed h
    have hnil := List.append_eq_nil_iff.mp h.nil_eq.symm
    rw [List.map_eq_nil_iff, List.map_eq_nil_iff] at hnil
    rw [hnil.1, hnil.2]
    exact .refl _
  | cons table outputTables ih =>
    intro leftUsed rightUsed h
    rw [layoutSegments]
    split
    next offset width leftUsed' htake =>
      obtain ⟨before, after, hfree, -, hrest⟩ := takeSegment_some htake
      have hsplit : ((freeSegments 0 left.tables left.tableColumnCounts leftUsed).map Prod.fst).Perm
          (table :: (freeSegments 0 left.tables left.tableColumnCounts leftUsed').map Prod.fst) := by
        rw [hfree, hrest, List.map_append, List.map_append]
        exact List.perm_middle
      have hcons := List.Perm.cons_inv (h.trans (hsplit.append_right _))
      rw [hfree]
      refine ((ih hcons).cons _).trans ?_
      rw [hrest]
      unfold onSide
      rw [List.map_append, List.map_append, List.map_cons, ← List.cons_append]
      exact List.perm_middle.symm.append_right _
    next hleft =>
      split
      next offset width rightUsed' htake =>
        obtain ⟨before, after, hfree, -, hrest⟩ := takeSegment_some htake
        have hsplit :
            ((freeSegments 0 right.tables right.tableColumnCounts rightUsed).map Prod.fst).Perm
              (table :: (freeSegments 0 right.tables right.tableColumnCounts rightUsed').map
                Prod.fst) := by
          rw [hfree, hrest, List.map_append, List.map_append]
          exact List.perm_middle
        have hcons := List.Perm.cons_inv
          ((h.trans (hsplit.append_left _)).trans List.perm_middle)
        rw [hfree]
        refine ((ih hcons).cons _).trans ?_
        rw [hrest]
        unfold onSide
        rw [List.map_append, List.map_append, List.map_cons]
        exact (List.perm_middle.symm.trans (List.Perm.append_left _ List.perm_middle.symm))
      next hright =>
        -- The table is one of a free segment.
        have hmem := h.mem_iff.mp List.mem_cons_self
        rw [List.mem_append, List.mem_map, List.mem_map] at hmem
        obtain ⟨segment, hmem, heq⟩ | ⟨segment, hmem, heq⟩ := hmem
        · exact absurd heq (takeSegment_none hleft segment hmem)
        · exact absurd heq (takeSegment_none hright segment hmem)

variable {left right : EvalContext} {outputTables : List TableName}

/-- The segment of the first table of a name that both the list and its head have. -/
theorem find?_take {offset width : Nat} {before after segments : List (TableName × Nat × Nat)}
    {table : TableName} (hfree : segments = before ++ (table, offset, width) :: after)
    (hbefore : ∀ segment ∈ before, segment.1 ≠ table) {found : TableName × Nat × Nat} :
    segments.find? (fun segment => segment.1 == target) = some found →
    (table = target ∧ found = (table, offset, width)) ∨
      (table ≠ target ∧
        (before ++ after).find? (fun segment => segment.1 == target) = some found) := by
  intro hfind
  rw [hfree, List.find?_append] at hfind
  by_cases heq : table = target
  · subst heq
    have hnone : before.find? (fun segment => segment.1 == table) = none := by
      rw [List.find?_eq_none]
      exact fun segment hmem => by simpa using hbefore segment hmem
    rw [hnone, Option.none_or, List.find?_cons_of_pos (by simp)] at hfind
    exact .inl ⟨rfl, (Option.some.inj hfind).symm⟩
  · rw [List.find?_cons_of_neg (by simpa using heq), ← List.find?_append] at hfind
    exact .inr ⟨heq, hfind⟩

/-- The first output table of a name gets the first segment of the left side, -/
theorem layoutSegments_find_left {offset width : Nat} :
    ∀ {leftUsed rightUsed : List Bool},
      (freeSegments 0 left.tables left.tableColumnCounts leftUsed).find?
        (fun segment => segment.1 == target) = some (target, offset, width) →
      target ∈ outputTables →
      (layoutSegments left right outputTables leftUsed rightUsed).find?
        (fun segment => segment.1 == target) = some (target, ⟨.left, offset, width⟩) := by
  induction outputTables with
  | nil => exact fun _ hmem => absurd hmem List.not_mem_nil
  | cons table outputTables ih =>
    intro leftUsed rightUsed hfind hmem
    have hrest : table ≠ target → target ∈ outputTables := fun hne =>
      (List.mem_cons.mp hmem).resolve_left (Ne.symm hne)
    rw [layoutSegments]
    split
    next offset' width' leftUsed' htake =>
      obtain ⟨before, after, hfree, hbefore, hafter⟩ := takeSegment_some htake
      obtain ⟨rfl, heq⟩ | ⟨hne, hfind'⟩ := find?_take hfree hbefore hfind
      · cases heq
        exact List.find?_cons_of_pos (by simp)
      · rw [List.find?_cons_of_neg (by simpa using hne)]
        exact ih (hafter ▸ hfind') (hrest hne)
    next hleft =>
      have hne : table ≠ target := by
        rintro rfl
        exact takeSegment_none hleft _ (List.mem_of_find?_eq_some hfind) rfl
      split
      next offset' width' rightUsed' htake =>
        rw [List.find?_cons_of_neg (by simpa using hne)]
        exact ih hfind (hrest hne)
      next => exact ih hfind (hrest hne)

/-- or, when the left side has no table of the name, that of the right side. -/
theorem layoutSegments_find_right {offset width : Nat} :
    ∀ {leftUsed rightUsed : List Bool},
      (∀ segment ∈ freeSegments 0 left.tables left.tableColumnCounts leftUsed,
        segment.1 ≠ target) →
      (freeSegments 0 right.tables right.tableColumnCounts rightUsed).find?
        (fun segment => segment.1 == target) = some (target, offset, width) →
      target ∈ outputTables →
      (layoutSegments left right outputTables leftUsed rightUsed).find?
        (fun segment => segment.1 == target) = some (target, ⟨.right, offset, width⟩) := by
  induction outputTables with
  | nil => exact fun _ _ hmem => absurd hmem List.not_mem_nil
  | cons table outputTables ih =>
    intro leftUsed rightUsed hnone hfind hmem
    have hrest : table ≠ target → target ∈ outputTables := fun hne =>
      (List.mem_cons.mp hmem).resolve_left (Ne.symm hne)
    rw [layoutSegments]
    split
    next offset' width' leftUsed' htake =>
      obtain ⟨before, after, hfree, -, hafter⟩ := takeSegment_some htake
      have hne : table ≠ target := hnone (table, offset', width') (by rw [hfree]; simp)
      rw [List.find?_cons_of_neg (by simpa using hne)]
      refine ih (fun segment hsegment => hnone segment ?_) hfind (hrest hne)
      rw [hafter, List.mem_append] at hsegment
      rw [hfree, List.mem_append, List.mem_cons]
      exact hsegment.imp_right .inr
    next =>
      split
      next offset' width' rightUsed' htake =>
        obtain ⟨before, after, hfree, hbefore, hafter⟩ := takeSegment_some htake
        obtain ⟨rfl, heq⟩ | ⟨hne, hfind'⟩ := find?_take hfree hbefore hfind
        · cases heq
          exact List.find?_cons_of_pos (by simp)
        · rw [List.find?_cons_of_neg (by simpa using hne)]
          exact ih hnone (hafter ▸ hfind') (hrest hne)
      next hright =>
        have hne : table ≠ target := by
          rintro rfl
          exact takeSegment_none hright _ (List.mem_of_find?_eq_some hfind) rfl
        exact ih hnone hfind (hrest hne)

end Segments

section Columns

/-- The width of the first table of a name. -/
def widthFrom (target : TableName) : List TableName → List Nat → Nat
  | [], _ => 0
  | table :: tables, counts =>
    if table = target then counts.headD 0 else widthFrom target tables counts.tail

/-- A column of one of the tables. -/
structure EvalContext.HasColumn (ctx : EvalContext) (col : ColumnRef) : Prop where
  table : col.table ∈ ctx.tables
  index : col.index < widthFrom col.table ctx.tables ctx.tableColumnCounts

variable {target : TableName}

theorem freeSegments_all (target : TableName) (index : Nat) {tables : List TableName} :
    ∀ (offset : Nat) (counts : List Nat), target ∈ tables →
      ∃ start, (freeSegments offset tables counts (tables.map fun _ => false)).find?
          (fun segment => segment.1 == target) =
            some (target, start, widthFrom target tables counts) ∧
        EvalContext.resolveFrom target index offset tables counts = start + index := by
  induction tables with
  | nil => exact fun _ _ h => absurd h List.not_mem_nil
  | cons table tables ih =>
    intro offset counts h
    by_cases heq : table = target
    · subst heq
      refine ⟨offset, ?_, ?_⟩
      · rw [freeSegments, widthFrom, if_pos rfl]
        exact List.find?_cons_of_pos (by simp)
      · rw [EvalContext.resolveFrom, if_pos rfl]
    · obtain ⟨start, hfind, hresolve⟩ := ih (offset + counts.headD 0) counts.tail
        ((List.mem_cons.mp h).resolve_left (Ne.symm heq))
      refine ⟨start, ?_, ?_⟩
      · rw [freeSegments, widthFrom, if_neg heq]
        exact (List.find?_cons_of_neg (by simpa using heq)).trans hfind
      · rw [EvalContext.resolveFrom, if_neg heq, hresolve]

theorem map_fst_freeSegments (tables : List TableName) :
    ∀ (offset : Nat) (counts : List Nat),
      (freeSegments offset tables counts (tables.map fun _ => false)).map Prod.fst = tables := by
  induction tables with
  | nil => exact fun _ _ => rfl
  | cons table tables ih =>
    intro offset counts
    exact congrArg (table :: ·) (ih _ _)

/-- No segment of a table that is not there. -/
theorem freeSegments_ne {tables : List TableName} {offset : Nat} {counts : List Nat}
    (h : target ∉ tables) :
    ∀ segment ∈ freeSegments offset tables counts (tables.map fun _ => false),
      segment.1 ≠ target := by
  rintro segment hsegment rfl
  apply h
  rw [← map_fst_freeSegments tables offset counts]
  exact List.mem_map_of_mem hsegment

theorem sum_freeSegments (tables : List TableName) :
    ∀ (offset : Nat) (counts : List Nat),
      ((freeSegments offset tables counts (tables.map fun _ => false)).map
        fun segment => segment.2.2).sum = (counts.take tables.length).sum := by
  induction tables with
  | nil =>
    intro offset counts
    rw [List.length_nil, List.take_zero]
    rfl
  | cons table tables ih =>
    intro offset counts
    change ((counts.headD 0) :: _).sum = _
    rw [List.sum_cons]
    cases counts with
    | nil =>
      refine (Nat.zero_add _).trans ((ih _ []).trans ?_)
      rw [List.take_nil, List.take_nil]
    | cons count counts =>
      rw [List.length_cons, List.take_succ_cons, List.sum_cons]
      exact congrArg (count + ·) (ih _ counts)

theorem length_segmentValues (left right : Option Entry) (segment : JoinOutputSegment) :
    (segmentValues left right segment).length = segment.width := by
  unfold segmentValues
  split <;> simp

theorem length_flatMap_segmentValues (left right : Option Entry)
    (segments : List JoinOutputSegment) :
    (segments.flatMap (segmentValues left right)).length =
      (segments.map JoinOutputSegment.width).sum := by
  rw [List.length_flatMap]
  congr 1
  exact List.map_congr_left fun segment _ => length_segmentValues left right segment

/-- The columns of all tables together. -/
def EvalContext.width (ctx : EvalContext) : Nat :=
  (ctx.tableColumnCounts.take ctx.tables.length).sum

variable {left right : EvalContext} {outputTables : List TableName}

/-- A joined row is as wide as the two sides together. -/
theorem length_materializeRow (hout : outputTables.Perm (left.tables ++ right.tables))
    (l r : Option Entry) :
    ((JoinOutputLayout.fromSources left right outputTables).materializeRow l r).values.length =
      left.width + right.width := by
  have hperm : (layoutSegments left right outputTables (left.tables.map fun _ => false)
      (right.tables.map fun _ => false)).Perm _ :=
    layoutSegments_perm (by rwa [map_fst_freeSegments, map_fst_freeSegments])
  have hsum := (hperm.map fun segment => segment.2.width).sum_nat
  rw [List.map_append, List.sum_append] at hsum
  unfold onSide at hsum
  rw [List.map_map, List.map_map] at hsum
  rw [JoinOutputLayout.materializeRow, Row.newWithVersion_values, length_flatMap_segmentValues]
  unfold EvalContext.width
  rw [← sum_freeSegments left.tables 0, ← sum_freeSegments right.tables 0]
  unfold JoinOutputLayout.fromSources
  dsimp only
  rw [List.map_map]
  exact hsum

/-- What a joined row holds of an entry of one side. -/
def fieldOf (entry : Option Entry) (index : Nat) : Value Scalar :=
  match entry with
  | some entry => (Entry.getField entry index).getD none
  | none => none

theorem getElem_segmentValues {l r : Option Entry} {segment : JoinOutputSegment} {index : Nat}
    (hindex : index < segment.width) :
    (segmentValues l r segment)[index]? =
      some (fieldOf (match segment.side with | .left => l | .right => r)
        (segment.sourceOffset + index)) := by
  have hside : ∀ side : Option Entry,
      (match side with
        | some entry => (List.range segment.width).map fun index =>
            (entry.get (segment.sourceOffset + index)).getD Value.null
        | none => List.replicate segment.width Value.null)[index]? =
      some (fieldOf side (segment.sourceOffset + index)) := by
    intro side
    cases side with
    | none =>
      dsimp only
      rw [List.getElem?_replicate_of_lt hindex]
      rfl
    | some entry =>
      dsimp only
      rw [List.getElem?_map, List.getElem?_range hindex]
      rfl
  unfold segmentValues
  cases segment.side with
  | left => exact hside l
  | right => exact hside r

/-- The loop that resolves a column stops at the segment of its table. -/
theorem resolveFrom_append {before after : List (TableName × JoinOutputSegment)}
    {segment : JoinOutputSegment} (index : Nat) (hbefore : ∀ s ∈ before, s.1 ≠ target) :
    ∀ offset, EvalContext.resolveFrom target index offset
        ((before ++ (target, segment) :: after).map Prod.fst)
        ((before ++ (target, segment) :: after).map fun s => s.2.width) =
      offset + (before.map fun s => s.2.width).sum + index := by
  induction before with
  | nil =>
    intro offset
    exact if_pos rfl
  | cons head before ih =>
    intro offset
    rw [List.map_cons, List.sum_cons]
    refine (if_neg (hbefore head List.mem_cons_self)).trans ?_
    refine (ih (fun s hs => hbefore s (List.mem_cons_of_mem _ hs)) _).trans ?_
    change offset + head.2.width + _ + index = _
    omega

/-- A column of a joined row is read from the segment of its table. -/
theorem getField_materializeRow {layout : JoinOutputLayout}
    {segments : List (TableName × JoinOutputSegment)} {segment : JoinOutputSegment} {index : Nat}
    (hlayout : layout = ⟨segments.map Prod.fst, segments.map fun s => s.2.width,
      segments.map Prod.snd⟩)
    (hfind : segments.find? (fun s => s.1 == target) = some (target, segment))
    (hindex : index < segment.width) (l r : Option Entry) :
    Entry.getField (layout.materializeRow l r)
        (layout.context.resolveColumnIndex target index) =
      some (fieldOf (match segment.side with | .left => l | .right => r)
        (segment.sourceOffset + index)) := by
  obtain ⟨-, before, after, rfl, hbefore⟩ := List.find?_eq_some_iff_append.mp hfind
  have hne : ∀ s ∈ before, s.1 ≠ target := fun s hs => by simpa using hbefore s hs
  subst hlayout
  change (List.flatMap _ (List.map Prod.snd _))[EvalContext.resolveFrom target index 0
    (List.map Prod.fst _) (List.map (fun s : TableName × JoinOutputSegment => s.2.width) _)]? = _
  rw [resolveFrom_append index hne, Nat.zero_add, List.map_append, List.flatMap_append,
    List.getElem?_append_right]
  · rw [length_flatMap_segmentValues, List.map_map]
    have hlen : (before.map (JoinOutputSegment.width ∘ Prod.snd)).sum =
        (before.map fun s => s.2.width).sum := rfl
    rw [hlen, Nat.add_sub_cancel_left, List.map_cons, List.flatMap_cons, List.getElem?_append_left]
    · exact getElem_segmentValues hindex
    · rwa [length_segmentValues]
  · rw [length_flatMap_segmentValues, List.map_map]
    exact Nat.le_add_right _ _

theorem widthFrom_segments {segments : List (TableName × JoinOutputSegment)}
    {segment : JoinOutputSegment}
    (hfind : segments.find? (fun s => s.1 == target) = some (target, segment)) :
    widthFrom target (segments.map Prod.fst) (segments.map fun s => s.2.width) = segment.width := by
  induction segments with
  | nil => cases hfind
  | cons head segments ih =>
    rw [List.map_cons, List.map_cons, widthFrom]
    by_cases heq : head.1 = target
    · rw [List.find?_cons_of_pos (by simpa using heq)] at hfind
      obtain rfl := Option.some.inj hfind
      exact if_pos rfl
    · rw [List.find?_cons_of_neg (by simpa using heq)] at hfind
      exact (if_neg heq).trans (ih hfind)

/-- A column that a joined row has of a table of the left side is a column of that side. -/
theorem hasColumn_left {col : ColumnRef}
    (hcol : (JoinOutputLayout.fromSources left right outputTables).context.HasColumn col)
    (htable : col.table ∈ left.tables) (hout : col.table ∈ outputTables) : left.HasColumn col := by
  obtain ⟨start, hfind, -⟩ := freeSegments_all col.table col.index
    0 left.tableColumnCounts htable
  have hwidth : widthFrom col.table
      (JoinOutputLayout.fromSources left right outputTables).context.tables
      (JoinOutputLayout.fromSources left right outputTables).context.tableColumnCounts = _ :=
    widthFrom_segments (layoutSegments_find_left hfind hout)
  exact ⟨htable, Nat.lt_of_lt_of_eq hcol.index hwidth⟩

/-- So is one of a table that only the right side has. -/
theorem hasColumn_right {col : ColumnRef}
    (hcol : (JoinOutputLayout.fromSources left right outputTables).context.HasColumn col)
    (hleft : col.table ∉ left.tables) (htable : col.table ∈ right.tables)
    (hout : col.table ∈ outputTables) : right.HasColumn col := by
  obtain ⟨start, hfind, -⟩ := freeSegments_all col.table col.index
    0 right.tableColumnCounts htable
  have hwidth : widthFrom col.table
      (JoinOutputLayout.fromSources left right outputTables).context.tables
      (JoinOutputLayout.fromSources left right outputTables).context.tableColumnCounts = _ :=
    widthFrom_segments (layoutSegments_find_right (freeSegments_ne hleft) hfind hout)
  exact ⟨htable, Nat.lt_of_lt_of_eq hcol.index hwidth⟩

/-- A column of the left side in a joined row. -/
theorem getField_left {col : ColumnRef} (hcol : left.HasColumn col)
    (hout : col.table ∈ outputTables) (l r : Option Entry) :
    Entry.getField ((JoinOutputLayout.fromSources left right outputTables).materializeRow l r)
        ((JoinOutputLayout.fromSources left right outputTables).context.resolveColumnIndex
          col.table col.index) =
      some (fieldOf l (left.resolveColumnIndex col.table col.index)) := by
  obtain ⟨start, hfind, hresolve⟩ := freeSegments_all col.table col.index
    0 left.tableColumnCounts hcol.table
  rw [show left.resolveColumnIndex col.table col.index = start + col.index from hresolve]
  exact getField_materializeRow rfl (layoutSegments_find_left hfind hout) hcol.index l r

/-- A column of the right side, of a table that the left side does not have. -/
theorem getField_right {col : ColumnRef} (hcol : right.HasColumn col)
    (hleft : col.table ∉ left.tables) (hout : col.table ∈ outputTables) (l r : Option Entry) :
    Entry.getField ((JoinOutputLayout.fromSources left right outputTables).materializeRow l r)
        ((JoinOutputLayout.fromSources left right outputTables).context.resolveColumnIndex
          col.table col.index) =
      some (fieldOf r (right.resolveColumnIndex col.table col.index)) := by
  obtain ⟨start, hfind, hresolve⟩ := freeSegments_all col.table col.index
    0 right.tableColumnCounts hcol.table
  rw [show right.resolveColumnIndex col.table col.index = start + col.index from hresolve]
  exact getField_materializeRow rfl (layoutSegments_find_right (freeSegments_ne hleft) hfind hout)
    hcol.index l r

end Columns

end Cynos.Query
