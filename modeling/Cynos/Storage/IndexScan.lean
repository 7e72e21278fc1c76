import Cynos.Lib.Visitor
import Cynos.Storage.ConsistentRuns

/-! Scans of a secondary index in the order of its keys: over a range of keys or the keys with a
prefix, with a window of the rows, and over the rows that a set of row ids allows. -/
namespace Cynos.Index

def KeyRange.map {K L : Type} (f : K → L) : KeyRange K → KeyRange L
  | .all => .all
  | .only key => .only (f key)
  | .lowerBound value exclusive => .lowerBound (f value) exclusive
  | .upperBound value exclusive => .upperBound (f value) exclusive
  | .bound lower upper lowerExclusive upperExclusive =>
    .bound (f lower) (f upper) lowerExclusive upperExclusive

/-- What holds of the keys that bound a range. -/
def KeyRange.Bounded {K : Type} (P : K → Prop) : KeyRange K → Prop
  | .all => True
  | .only key | .lowerBound key _ | .upperBound key _ => P key
  | .bound lower upper _ _ => P lower ∧ P upper

/-- Keys that compare alike are in the same ranges. -/
theorem KeyRange.contains_map {K L : Type} [Ord K] [BEq K] [Ord L] [BEq L] (f : K → L) (key : K)
    {range : KeyRange K} (h : range.Bounded fun bound =>
      compare (f key) (f bound) = compare key bound ∧ (f key == f bound) = (key == bound)) :
    (range.map f).contains (f key) = range.contains key := by
  cases range with
  | all => rfl
  | only bound => exact h.2
  | lowerBound bound exclusive => simp only [map, contains, keyGt, keyGe, h.1]
  | upperBound bound exclusive => simp only [map, contains, keyLt, keyLe, h.1]
  | bound lower upper lowerExclusive upperExclusive =>
    simp only [map, contains, keyGt, keyGe, keyLt, keyLe, h.1.1, h.2.1]

theorem KeyRange.map_map {K L M : Type} (f : K → L) (g : L → M) (range : KeyRange K) :
    (range.map f).map g = range.map fun key => g (f key) := by
  cases range <;> rfl

theorem KeyRange.Bounded.imp {K : Type} {P Q : K → Prop} {range : KeyRange K}
    (h : range.Bounded P) (hPQ : ∀ key, P key → Q key) : range.Bounded Q := by
  cases range with
  | all => exact h
  | bound lower upper _ _ => exact ⟨hPQ _ h.1, hPQ _ h.2⟩
  | _ => exact hPQ _ h

end Cynos.Index

namespace Cynos.Storage

open Core (Row Scalar Value)
open Index (BTreeIndex HashIndex KeyRange RowId offer)
open Visitor (visit picking windowed window)

section Source

def IndexKey.fromScalarRange (range : Option (KeyRange (Value Scalar))) :
    Option (KeyRange (IndexKey Scalar)) :=
  range.map (·.map .scalar)

def IndexKey.fromCompositeRange (range : Option (KeyRange (List (Value Scalar)))) :
    Option (KeyRange (IndexKey Scalar)) :=
  range.map (·.map .fromValues)

def applyPointRowIdWindow (rowIds : List RowId) (limit : Option Nat) (skip : Nat) : List RowId :=
  limit.elim (rowIds.drop skip) (rowIds.drop skip).take

def compositeRangeHasExpectedArity (expected : Nat) : KeyRange (List (Value Scalar)) → Bool
  | .all => true
  | .only values | .lowerBound values _ | .upperBound values _ => values.length == expected
  | .bound lower upper _ _ => lower.length == expected && upper.length == expected

/-- Whether a value is in a range, in the order of values. -/
def valueInRange (key : Value Scalar) (range : KeyRange (Value Scalar)) : Bool :=
  @KeyRange.contains _ ⟨Value.cmp⟩ ⟨Value.eq⟩ key range

/-- The same for lists of values, which compare value by value. -/
def valuesInRange (key : List (Value Scalar)) (range : KeyRange (List (Value Scalar))) : Bool :=
  @KeyRange.contains _ ⟨List.compareLex Value.cmp⟩ ⟨fun a b => a.isEqv b Value.eq⟩ key range

variable {κ : Type} [LinearOrder κ]

def hashRangeIndexKeys (index : HashIndex κ) (range : Option (KeyRange κ)) (reverse : Bool)
    (limit : Option Nat) (skip : Nat) : List RowId :=
  match range with
  | some (.only key) => applyPointRowIdWindow (index.get key) limit skip
  | range => index.getRange range reverse limit skip

variable {σ : Type}

def SecondaryIndexStore.visitRangeIndexKeys (index : SecondaryIndexStore κ)
    (range : Option (KeyRange κ)) (reverse : Bool) (limit : Option Nat) (skip : Nat)
    (visitor : σ → RowId → σ × Bool) (state : σ) : Option σ :=
  match index with
  | .bTree index => index.visitRange range reverse limit skip visitor state
  | .hash index => some (visit visitor state (hashRangeIndexKeys index range reverse limit skip))

/-- Trees for the primary keys, trees and hash maps for the others. -/
abbrev KeyedStore (κ : Type) [LinearOrder κ] := GinStore (BTreeIndex κ) (SecondaryIndexStore κ)

variable (keyOf : IndexKey Scalar → κ)

namespace RowStore

/-- Row ids without a row are passed over. -/
def visitIndexRows (store : KeyedStore κ) (index : SecondaryIndexStore κ)
    (range : Option (KeyRange (IndexKey Scalar))) (limit : Option Nat) (offset : Nat)
    (reverse : Bool) (visitor : σ → Row Scalar → σ × Bool) (state : σ) : Option σ :=
  index.visitRangeIndexKeys (range.map (·.map keyOf)) reverse limit offset
    (picking store.slots.rowRefById visitor) state

def visitIndexScanWithOptions (store : KeyedStore κ) (indexName : String)
    (range : Option (KeyRange (Value Scalar))) (limit : Option Nat) (offset : Nat)
    (reverse : Bool) (visitor : σ → Row Scalar → σ × Bool) (state : σ) : Option σ :=
  match store.secondaryIndices[indexName]?, store.indexColumns[indexName]? with
  | some idx, some columns =>
    if columns.length = 1 then
      store.visitIndexRows keyOf idx (IndexKey.fromScalarRange range) limit offset reverse visitor
        state
    else if range.isNone then
      store.visitIndexRows keyOf idx none limit offset reverse visitor state
    else some state
  | _, _ => some state

def rowMatchesIndexRange (store : KeyedStore κ) (indexName : String)
    (range : Option (KeyRange (Value Scalar))) (row : Row Scalar) : Bool :=
  match store.indexColumns[indexName]? with
  | some [column] => range.elim true (valueInRange ((row.get column).getD .null))
  | _ => false

def visitIndexScanCompositeWithOptions (store : KeyedStore κ) (indexName : String)
    (range : Option (KeyRange (List (Value Scalar)))) (limit : Option Nat) (offset : Nat)
    (reverse : Bool) (visitor : σ → Row Scalar → σ × Bool) (state : σ) : Option σ :=
  match store.secondaryIndices[indexName]?, store.indexColumns[indexName]? with
  | some idx, some columns =>
    if columns.length ≤ 1 then some state
    else if range.any fun range => !compositeRangeHasExpectedArity columns.length range then
      some state
    else
      store.visitIndexRows keyOf idx (IndexKey.fromCompositeRange range) limit offset reverse
        visitor state
  | _, _ => some state

def rowMatchesIndexCompositeRange (store : KeyedStore κ) (indexName : String)
    (range : Option (KeyRange (List (Value Scalar)))) (row : Row Scalar) : Bool :=
  match store.indexColumns[indexName]? with
  | some columns =>
    if columns.length ≤ 1 then false
    else range.elim true (valuesInRange (columns.map fun i => (row.get i).getD .null))
  | none => false

def visitIndexScanCompositePrefixWithOptions (store : KeyedStore κ) (indexName : String)
    (leading : List (Value Scalar)) (limit : Option Nat) (offset : Nat) (reverse : Bool)
    (visitor : σ → Row Scalar → σ × Bool) (state : σ) : Option σ :=
  if leading.isEmpty then
    store.visitIndexScanCompositeWithOptions keyOf indexName none limit offset reverse visitor state
  else
    match store.secondaryIndices[indexName]?, store.indexColumns[indexName]? with
    | some idx, some columns =>
      if columns.length ≤ 1 ∨ columns.length ≤ leading.length then some state
      else
        store.visitIndexRows keyOf idx
          (some (.bound (.compositePrefixLower leading) (.compositePrefixUpper leading) false false))
          limit offset reverse visitor state
    | _, _ => some state

/-- The two ways of a restricted scan: over the allowed row ids, or over all rows of the index. The
allowed row ids are sorted, so that `binary_search` finds those that are among them. -/
def visitRestricted (store : KeyedStore κ) (rowMatches : Row Scalar → Bool)
    (scan : (Visitor.Window σ → Row Scalar → Visitor.Window σ × Bool) → Visitor.Window σ →
      Option (Visitor.Window σ))
    (limit : Option Nat) (offset : Nat) (reverse : Bool) (allowedRowIds : List RowId)
    (subsetDriven : Bool) (visitor : σ → Row Scalar → σ × Bool) (state : σ) : Option σ :=
  let visitMatched := windowed limit offset visitor
  if subsetDriven then
    let pick := fun rowId => (store.slots.rowRefById rowId).filter rowMatches
    let rowIds := if reverse then allowedRowIds.reverse else allowedRowIds
    some (visit (picking pick visitMatched) ⟨0, 0, state⟩ rowIds).state
  else
    let pick := fun row : Row Scalar => if row.id ∈ allowedRowIds then some row else none
    (scan (picking pick visitMatched) ⟨0, 0, state⟩).map Visitor.Window.state

def visitIndexScanWithOptionsRestricted (store : KeyedStore κ) (indexName : String)
    (range : Option (KeyRange (Value Scalar))) (limit : Option Nat) (offset : Nat)
    (reverse : Bool) (allowedRowIds : List RowId) (subsetDriven : Bool)
    (visitor : σ → Row Scalar → σ × Bool) (state : σ) : Option σ :=
  store.visitRestricted (store.rowMatchesIndexRange indexName range)
    (store.visitIndexScanWithOptions keyOf indexName range none 0 reverse) limit offset reverse
    allowedRowIds subsetDriven visitor state

def visitIndexScanCompositeWithOptionsRestricted (store : KeyedStore κ) (indexName : String)
    (range : Option (KeyRange (List (Value Scalar)))) (limit : Option Nat) (offset : Nat)
    (reverse : Bool) (allowedRowIds : List RowId) (subsetDriven : Bool)
    (visitor : σ → Row Scalar → σ × Bool) (state : σ) : Option σ :=
  store.visitRestricted (store.rowMatchesIndexCompositeRange indexName range)
    (store.visitIndexScanCompositeWithOptions keyOf indexName range none 0 reverse) limit offset
    reverse allowedRowIds subsetDriven visitor state

end RowStore

end Source

section Rows

variable {slots : RowSlots Scalar}

theorem RowSlots.Valid.mem_rowRefs (h : slots.Valid) {row : Row Scalar} :
    row ∈ slots.rowRefs ↔ ∃ id, slots.rowRefById id = some row := by
  simp only [RowSlots.rowRefs, List.mem_filterMap, h.mem_scan, h.rowRefById_iff]
  constructor
  · rintro ⟨slotIdx, hlt, hslot⟩
    obtain ⟨slot, hfound, rfl⟩ := Option.map_eq_some_iff.mp hslot
    exact ⟨slot.rowId, List.mem_of_getElem? hfound⟩
  · rintro ⟨id, hmem⟩
    obtain ⟨slotIdx, hlt, hslot⟩ := List.getElem_of_mem hmem
    refine ⟨slotIdx, hlt, ?_⟩
    rw [List.getElem?_eq_getElem hlt, hslot]
    rfl

/-- A scan of all rows goes up in their ids. -/
theorem RowSlots.Valid.rowRefs_sorted (h : slots.Valid)
    (hnamed : ∀ id row, slots.rowRefById id = some row → row.id = id) :
    slots.rowRefs.Pairwise fun a b => a.id < b.id := by
  have hid : ∀ {slotIdx row}, slots.rowSlots[slotIdx]?.map RowSlot.row = some row →
      row.id = slots.idAt slotIdx := by
    intro slotIdx row hrow
    obtain ⟨slot, hslot, rfl⟩ := Option.map_eq_some_iff.mp hrow
    have hname := hnamed slot.rowId slot.row (h.rowRefById_iff.mpr (List.mem_of_getElem? hslot))
    rw [hname, RowSlots.idAt, hslot]
    rfl
  refine List.Pairwise.filterMap _ (fun i j hij row hrow row' hrow' => ?_) h.scan_sorted
  rw [hid hrow, hid hrow']
  exact hij

end Rows

section Groups

variable {κ : Type} [LinearOrder κ] {keyOf : IndexKey Scalar → κ}

/-- Whether a reverse scan leaves out a stored key that bounds its range. -/
def SecondaryIndexStore.dropsUpperKey (index : SecondaryIndexStore κ)
    (range : Option (KeyRange κ)) (reverse : Bool) : Bool :=
  match index with
  | .bTree index => index.dropsUpperKey range reverse
  | .hash _ => false

theorem offer_eq_visit {σ : Type} (visitor : σ → RowId → σ × Bool) (state : σ)
    (ids : List RowId) : offer visitor state ids = visit visitor state ids := by
  induction ids generalizing state with
  | nil => rfl
  | cons id ids ih => exact if_congr .rfl (ih _) rfl

/-- The entries of a hash index in the order of their keys. -/
theorem exists_hashEntries {index : HashIndex κ} (h : index.Sound) :
    ∃ entries, index.Lists entries ∧ (∀ e ∈ entries, e.2 ≠ []) ∧
      ∀ key, index.get key = Multimap.values entries key := by
  have hkeys := index.map.keys_nodup
  rw [← HashMap.map_fst_iter] at hkeys
  have hperm := List.perm_insertionSort (fun e f : κ × List RowId => e.1 ≤ f.1) index.map.iter
  have htotal : Std.Total fun e f : κ × List RowId => e.1 ≤ f.1 := ⟨fun e f => le_total e.1 f.1⟩
  have htrans : IsTrans _ fun e f : κ × List RowId => e.1 ≤ f.1 := ⟨fun _ _ _ => le_trans⟩
  have hsorted : Multimap.Sorted
      (index.map.iter.insertionSort fun e f : κ × List RowId => e.1 ≤ f.1) := by
    have hne := List.pairwise_map.mp ((hperm.map Prod.fst).nodup_iff.mpr hkeys)
    exact (List.pairwise_insertionSort _ _).imp₂ (fun _ _ => lt_of_le_of_ne) hne
  refine ⟨_, ⟨hsorted, hperm.symm⟩, fun e he => h.stored e (hperm.mem_iff.mp he), fun key => ?_⟩
  rw [HashIndex.get]
  cases hget : index.map.get key with
  | some ids =>
    have hmem := hperm.mem_iff.mpr (HashMap.mem_iter.mpr hget)
    exact (Multimap.values_of_mem hsorted hmem).symm
  | none =>
    refine (Multimap.values_eq_nil fun e he heq => ?_).symm
    have hmem := HashMap.mem_iter.mp (hperm.mem_iff.mp he)
    rw [heq, hget] at hmem
    cases hmem

/-- At most one entry has the key. -/
theorem filter_key {entries : List (κ × List RowId)} (h : Multimap.Sorted entries) (key : κ) :
    (entries.filter fun e => (KeyRange.only key).contains e.1) = [] ∧
        Multimap.values entries key = [] ∨
      ∃ ids, (entries.filter fun e => (KeyRange.only key).contains e.1) = [(key, ids)] ∧
        Multimap.values entries key = ids := by
  have hcontains : ∀ e : κ × List RowId, (KeyRange.only key).contains e.1 = true ↔ e.1 = key :=
    fun e => beq_iff_eq
  induction entries with
  | nil => exact .inl ⟨rfl, rfl⟩
  | cons e entries ih =>
    obtain ⟨k, ids⟩ := e
    obtain ⟨hfirst, hrest⟩ := List.pairwise_cons.mp h
    rw [Multimap.values_cons]
    by_cases hk : key = k
    · subst hk
      have hnone : (entries.filter fun e => (KeyRange.only key).contains e.1) = [] := by
        refine List.filter_eq_nil_iff.mpr fun e he => ?_
        rw [hcontains]
        exact (hfirst e he).ne'
      rw [if_pos rfl, List.filter_cons, if_pos ((hcontains (key, ids)).mpr rfl), hnone]
      exact .inr ⟨ids, rfl, rfl⟩
    · rw [if_neg hk, List.filter_cons, if_neg (mt (hcontains (k, ids)).mp (Ne.symm hk))]
      exact ih hrest

/-- A scan of an index yields the row ids of its entries in the range, in the order of the keys. -/
theorem SecondaryIndexStore.exists_entries {index : SecondaryIndexStore κ}
    (h : (SecondaryIndexStore.laws keyOf).Inv index) :
    ∃ entries, Multimap.Sorted entries ∧
      (∀ key, ((SecondaryIndexStore.laws keyOf).view index).ids key =
        Multimap.values entries key) ∧
      ∀ range reverse, index.dropsUpperKey range reverse = false →
        ∀ (limit : Option Nat) (skip : Nat) {σ : Type} (visitor : σ → RowId → σ × Bool) (state : σ),
          index.visitRangeIndexKeys range reverse limit skip visitor state =
            some (visit visitor state
              ((range.getD .all).scan entries reverse limit skip)) := by
  cases index with
  | bTree t =>
    obtain ⟨leaves, ups, htree⟩ := h
    refine ⟨_, htree.ordered.sorted_entries, fun key => ?_,
      fun range reverse hdrop limit skip => ?_⟩
    · exact congrArg (fun m => m.ids key) (treeView_eq htree)
    · intro σ visitor state
      rw [← offer_eq_visit]
      cases reverse with
      | false => exact htree.visitRange_forward range limit skip visitor state
      | true => exact htree.visitRange_all range hdrop limit skip visitor state
  | hash index =>
    obtain ⟨entries, hlists, hne, hget⟩ := exists_hashEntries h
    refine ⟨entries, hlists.sorted, hget, fun range reverse _ limit skip => ?_⟩
    intro σ visitor state
    refine congrArg (fun ids => some (visit visitor state ids)) ?_
    cases range with
    | none => exact hlists.getRange_eq none reverse limit skip
    | some range =>
      cases range with
      | only key =>
        change Index.passOn skip limit (index.get key) = _
        rw [Option.getD_some, Index.KeyRange.scan_eq, hget]
        refine congrArg (Index.passOn skip limit) ?_
        rcases filter_key hlists.sorted key with ⟨hfilter, hvalues⟩ | ⟨ids, hfilter, hvalues⟩
        · cases reverse <;> simp [List.filter_reverse, hfilter, hvalues]
        · cases reverse <;> simp [List.filter_reverse, hfilter, hvalues]
      | _ => exact hlists.getRange_eq (some _) reverse limit skip

/-- Whether a scan takes in a key. -/
def inRange (range : Option (KeyRange κ)) (key : κ) : Bool := (range.getD .all).contains key

/-- The stored rows by their keys, which go up. -/
structure RowGroups (keyOf : IndexKey Scalar → κ) (slots : RowSlots Scalar) (cols : List Nat)
    (groups : List (κ × List (Row Scalar))) : Prop where
  sorted : Multimap.Sorted groups
  keyed : ∀ group ∈ groups, ∀ row ∈ group.2, keyOf (extractKey row cols) = group.1
  rows : (groups.flatMap Prod.snd).Perm slots.rowRefs

/-- The rows whose keys pass a test, up or down in their keys. -/
def scanned (groups : List (κ × List (Row Scalar))) (test : κ → Bool) (reverse : Bool) :
    List (Row Scalar) :=
  ((if reverse then groups.reverse else groups).filter fun group => test group.1).flatMap Prod.snd

variable {slots : RowSlots Scalar} {cols : List Nat} {groups : List (κ × List (Row Scalar))}

omit [LinearOrder κ] in
theorem filter_flatMap_keyed (test : κ → Bool)
    (h : ∀ group ∈ groups, ∀ row ∈ group.2, keyOf (extractKey row cols) = group.1) :
    (groups.filter fun group => test group.1).flatMap Prod.snd =
      (groups.flatMap Prod.snd).filter fun row => test (keyOf (extractKey row cols)) := by
  induction groups with
  | nil => rfl
  | cons group groups ih =>
    obtain ⟨hfirst, hrest⟩ := List.forall_mem_cons.mp h
    have hgroup : (group.2.filter fun row => test (keyOf (extractKey row cols))) =
        if test group.1 then group.2 else [] := by
      rw [List.filter_congr fun row hrow => by rw [hfirst row hrow]]
      cases test group.1 <;> simp
    rw [List.flatMap_cons, List.filter_append, ← ih hrest, List.filter_cons, hgroup]
    split
    · rw [List.flatMap_cons]
    · rw [List.nil_append]

namespace RowGroups

theorem scanned_perm (h : RowGroups keyOf slots cols groups) (test : κ → Bool) (reverse : Bool) :
    (scanned groups test reverse).Perm
      (slots.rowRefs.filter fun row => test (keyOf (extractKey row cols))) := by
  rw [scanned]
  have hdirected : (if reverse then groups.reverse else groups).Perm groups := by
    cases reverse with
    | false => exact .refl _
    | true => exact groups.reverse_perm
  refine ((hdirected.filter _).flatMap_right Prod.snd).trans ?_
  rw [filter_flatMap_keyed test h.keyed]
  exact h.rows.filter _

/-- Up, or down, in the keys. -/
theorem scanned_sorted (h : RowGroups keyOf slots cols groups) (test : κ → Bool)
    (reverse : Bool) : (scanned groups test reverse).Pairwise fun a b =>
      if reverse then keyOf (extractKey b cols) ≤ keyOf (extractKey a cols)
      else keyOf (extractKey a cols) ≤ keyOf (extractKey b cols) := by
  have hdirected : (if reverse then groups.reverse else groups).Pairwise fun a b =>
      if reverse then b.1 ≤ a.1 else a.1 ≤ b.1 := by
    have hsorted : groups.Pairwise fun a b => a.1 ≤ b.1 := List.Pairwise.imp le_of_lt h.sorted
    cases reverse with
    | false => exact hsorted
    | true => exact List.pairwise_reverse.mpr hsorted
  have hkeyed : ∀ group ∈ if reverse then groups.reverse else groups, ∀ row ∈ group.2,
      keyOf (extractKey row cols) = group.1 := by
    cases reverse with
    | false => exact h.keyed
    | true => exact fun group hgroup => h.keyed group (List.mem_reverse.mp hgroup)
  rw [scanned, List.pairwise_flatMap]
  refine ⟨fun group hgroup => List.pairwise_of_forall_mem_list fun a ha b hb => ?_,
    (hdirected.filter _).imp_of_mem fun {a b} ha hb hle row hrow row' hrow' => ?_⟩
  · have hmem := List.mem_of_mem_filter hgroup
    rw [hkeyed group hmem a ha, hkeyed group hmem b hb]
    simp
  · rw [hkeyed a (List.mem_of_mem_filter ha) row hrow,
      hkeyed b (List.mem_of_mem_filter hb) row' hrow']
    exact hle

end RowGroups

/-- An index that lists the keys of the stored rows is scanned row by row, in groups of rows with
the same key. -/
theorem exists_groups (hvalid : slots.Valid)
    (hnamed : ∀ id row, slots.rowRefById id = some row → row.id = id) {unique : Bool}
    {index : SecondaryIndexStore κ}
    (h : Listing (SecondaryIndexStore.laws keyOf) unique (RowKeys keyOf slots cols) index) :
    ∃ groups, RowGroups keyOf slots cols groups ∧
      ∀ (range : Option (KeyRange κ)) (reverse : Bool), index.dropsUpperKey range reverse = false →
        ∀ (limit : Option Nat) (offset : Nat) {σ : Type} (visitor : σ → Row Scalar → σ × Bool)
          (state : σ), index.visitRangeIndexKeys range reverse limit offset
              (picking slots.rowRefById visitor) state =
            some (visit visitor state (window limit offset
              (scanned groups (inRange range) reverse))) := by
  obtain ⟨entries, hsorted, hids, hscan⟩ := SecondaryIndexStore.exists_entries h.inv
  have hstored : ∀ e ∈ entries, ∀ id ∈ e.2, RowKeys keyOf slots cols e.1 id := by
    intro e he id hid
    rw [← h.lists, hids, Multimap.values_of_mem hsorted he]
    exact hid
  have hpicked : ∀ e ∈ entries, ∀ id ∈ e.2, (slots.rowRefById id).isSome := by
    intro e he id hid
    obtain ⟨row, hrow, -⟩ := hstored e he id hid
    rw [hrow]
    rfl
  let groups := entries.map fun e => (e.1, e.2.filterMap slots.rowRefById)
  have hkeyed : ∀ group ∈ groups, ∀ row ∈ group.2, keyOf (extractKey row cols) = group.1 := by
    intro group hgroup row hrow
    obtain ⟨e, he, rfl⟩ := List.mem_map.mp hgroup
    obtain ⟨id, hid, hfound⟩ := List.mem_filterMap.mp hrow
    obtain ⟨row', hrow', hkey⟩ := hstored e he id hid
    obtain rfl := Option.some.inj (hfound.symm.trans hrow')
    exact hkey
  have hgroupsSorted : Multimap.Sorted groups := List.pairwise_map.mpr hsorted
  refine ⟨groups, ⟨hgroupsSorted, hkeyed, ?_⟩, fun range reverse hdrop limit offset => ?_⟩
  · have hflat : groups.flatMap Prod.snd =
        (entries.flatMap Prod.snd).filterMap slots.rowRefById := by
      rw [List.flatMap_map, List.filterMap_flatMap]
    have hdistinct : (entries.flatMap Prod.snd).Nodup := by
      rw [List.nodup_flatMap]
      refine ⟨fun e he => ?_, List.Pairwise.imp_of_mem (fun {e f} he hf hlt => ?_) hsorted⟩
      · rw [← Multimap.values_of_mem hsorted (show (e.1, e.2) ∈ entries from he), ← hids]
        exact h.distinct.nodup e.1
      · intro id hid hid'
        obtain ⟨row, hrow, hkey⟩ := hstored e he id hid
        obtain ⟨row', hrow', hkey'⟩ := hstored f hf id hid'
        obtain rfl := Option.some.inj (hrow.symm.trans hrow')
        exact hlt.ne (hkey.symm.trans hkey')
    rw [hflat]
    refine (List.perm_ext_iff_of_nodup (hdistinct.filterMap fun id id' row hrow hrow' => ?_)
      (hvalid.rowRefs_sorted hnamed).nodup).mpr fun row => ?_
    · rw [← hnamed id row hrow, ← hnamed id' row hrow']
    · rw [hvalid.mem_rowRefs, List.mem_filterMap]
      constructor
      · rintro ⟨id, -, hrow⟩
        exact ⟨id, hrow⟩
      · rintro ⟨id, hrow⟩
        have hlisted := (h.lists (keyOf (extractKey row cols)) id).mpr ⟨row, hrow, rfl⟩
        rw [hids] at hlisted
        have hmem := Multimap.mem_of_values (List.ne_nil_of_mem hlisted)
        exact ⟨id, List.mem_flatMap.mpr ⟨_, hmem, hlisted⟩, hrow⟩
  · intro σ visitor state
    rw [hscan range reverse hdrop, Visitor.visit_picking, Index.KeyRange.scan_eq]
    refine congrArg (fun rows => some (visit visitor state rows)) ?_
    refine (Visitor.window_filterMap (fun id hid => ?_) limit offset).trans ?_
    · obtain ⟨e, he, hmem⟩ := List.mem_flatMap.mp hid
      have he := List.mem_of_mem_filter he
      cases reverse with
      | false => exact hpicked e he id hmem
      | true => exact hpicked e (List.mem_reverse.mp he) id hmem
    · refine congrArg (window limit offset) ?_
      rw [scanned, List.filterMap_flatMap]
      cases reverse <;>
        simp [groups, inRange, List.filter_map, List.flatMap_map, ← List.map_reverse,
          Function.comp_def]

end Groups

section Keys

variable {V : Type} [LinearOrder V]

theorem cons_le_cons_iff {α : Type} [LinearOrder α] {a b : α} {as bs : List α} :
    a :: as ≤ b :: bs ↔ a < b ∨ a = b ∧ as ≤ bs := by
  rw [← not_lt, List.cons_lt_cons_iff, not_or, not_lt, le_iff_lt_or_eq]
  constructor
  · rintro ⟨hlt | rfl, htail⟩
    · exact .inl hlt
    · exact .inr ⟨rfl, not_lt.mp fun hlt => htail ⟨rfl, hlt⟩⟩
  · rintro (hlt | ⟨rfl, hle⟩)
    · exact ⟨.inl hlt, fun heq => hlt.ne' heq.1⟩
    · exact ⟨.inr rfl, fun heq => not_lt.mpr hle heq.2⟩

theorem IndexKeyComponent.code_value_lt {v w : Value V} :
    code (.value v) < code (.value w) ↔ v < w := by
  simp [code, Prod.Lex.toLex_lt_toLex]

/-- A list of values stands between the two ends of a leading part where it starts with it. -/
theorem IndexKeyComponent.closed_between (leading values : List (Value V)) :
    closed leading .low ≤ closed values .stop ∧ closed values .stop ≤ closed leading .high ↔
      leading <+: values := by
  have hfirst : ∀ values : List (Value V), ∃ first rest, closed values .stop = first :: rest ∧
      code .low < first ∧ first < code .high := by
    intro values
    cases values with
    | nil => exact ⟨_, _, rfl, by simp [code, Prod.Lex.toLex_lt_toLex]⟩
    | cons w ws => exact ⟨_, _, rfl, by simp [code, Prod.Lex.toLex_lt_toLex]⟩
  induction leading generalizing values with
  | nil =>
    obtain ⟨first, rest, hclosed, hlow, hhigh⟩ := hfirst values
    rw [hclosed]
    exact iff_of_true ⟨cons_le_cons_iff.mpr (.inl hlow), cons_le_cons_iff.mpr (.inl hhigh)⟩
      (List.nil_prefix)
  | cons v leading ih =>
    cases values with
    | nil =>
      refine iff_of_false (fun h => ?_) (by simp)
      rcases cons_le_cons_iff.mp h.1 with hlt | ⟨heq, -⟩
      · simp [code, Prod.Lex.toLex_lt_toLex] at hlt
      · simp [code] at heq
    | cons w ws =>
      have hcons : ∀ (u : Value V) us last, closed (u :: us) last =
          code (.value u) :: closed us last := fun _ _ _ => rfl
      have hinj : ∀ {u u' : Value V}, code (.value u) = code (.value u') ↔ u = u' := by
        intro u u'
        rw [code_injective.eq_iff, IndexKeyComponent.value.injEq]
      rw [hcons, hcons, hcons, cons_le_cons_iff, cons_le_cons_iff, code_value_lt, code_value_lt,
        hinj, hinj, List.cons_prefix_cons]
      refine Iff.trans ?_ (and_congr_right fun _ => ih ws)
      constructor
      · rintro ⟨hlt | ⟨rfl, hlow⟩, hlt' | ⟨heq, hhigh⟩⟩
        · exact absurd hlt' hlt.not_gt
        · exact absurd heq hlt.ne'
        · exact absurd hlt' (lt_irrefl v)
        · exact ⟨rfl, hlow, hhigh⟩
      · rintro ⟨rfl, hlow, hhigh⟩
        exact ⟨.inr ⟨rfl, hlow⟩, .inr ⟨rfl, hhigh⟩⟩

/-- So does a key of several columns. -/
theorem IndexKey.between_iff (leading values : List (Value V)) :
    IndexKey.compositePrefixLower leading ≤ IndexKey.composite values ∧
        IndexKey.composite values ≤ IndexKey.compositePrefixUpper leading ↔
      leading <+: values := by
  have hcode : ∀ {a b : IndexKey V} {l l' : List (Lex (Nat × Value V))},
      IndexKey.code a = toLex (.inr l) → IndexKey.code b = toLex (.inr l') → (a ≤ b ↔ l ≤ l') := by
    intro a b l l' ha hb
    change IndexKey.code a ≤ IndexKey.code b ↔ _
    rw [ha, hb]
    exact Sum.Lex.inr_le_inr_iff
  rw [hcode rfl rfl, hcode rfl rfl, IndexKeyComponent.closed_between]

end Keys

end Cynos.Storage
