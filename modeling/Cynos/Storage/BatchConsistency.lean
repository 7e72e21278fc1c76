import Cynos.Storage.Consistency
import Cynos.Storage.DistinctKeys

/-! Batches keep the indexes in step with the rows, whichever of the three ways they are worked
in, and take the rows in that single insertions would take in. -/
namespace Cynos.Storage

open Core (Row Scalar Value)
open Index (GinBulkBuilder GinIndex RowId)

/-- The rows of a batch inserted one after the other, up to the first that is refused. -/
def RowStore.insertEach {P S G : Type} (ops : IndexOps P S G) (store : RowStore P S G)
    (inserted : Nat) : List (Row Scalar) → RowStore P S G × Except Error Nat
  | [] => (store, .ok inserted)
  | row :: rows =>
    match store.insert ops row with
    | (store, .ok _) => store.insertEach ops (inserted + 1) rows
    | (store, .error error) => (store, .error error)

section Slots

namespace RowSlots

variable {slots : RowSlots Scalar} {rows : List (Row Scalar)}

theorem rowRefById_insertAll (h : slots.Valid)
    (hfresh : ∀ row ∈ rows, slots.rowRefById row.id = none) (hids : (rows.map Row.id).Nodup)
    (id : RowId) (row : Row Scalar) : (slots.insertAll rows).rowRefById id = some row ↔
      row ∈ rows ∧ row.id = id ∨ slots.rowRefById id = some row := by
  induction rows generalizing slots with
  | nil => simp [insertAll]
  | cons first rows ih =>
    obtain ⟨hnone, hrest⟩ := h.fresh_tail hfresh hids
    have hinserted := rowRefById_insertRowSlot h hnone first id
    rw [insertAll, List.foldl_cons, ← insertAll,
      ih (h.insertRowSlot hnone first) hrest (List.nodup_cons.mp hids).2, hinserted, List.mem_cons]
    by_cases hid : id = first.id
    · subst hid
      have hgone := h.rowRefById_eq_none.mpr hnone
      rw [if_pos rfl, hgone, Option.some.injEq]
      have hnodup := (List.nodup_cons.mp hids).1
      constructor
      · rintro (hrow | rfl)
        · exact .inl ⟨.inr hrow.1, hrow.2⟩
        · exact .inl ⟨.inl rfl, rfl⟩
      · rintro (⟨rfl | hmem, heq⟩ | hnot)
        · exact .inr rfl
        · exact absurd (heq ▸ List.mem_map_of_mem hmem) hnodup
        · cases hnot
    · rw [if_neg hid]
      refine or_congr_left ⟨fun hrow => ⟨.inr hrow.1, hrow.2⟩, ?_⟩
      rintro ⟨rfl | hmem, heq⟩
      · exact absurd heq.symm hid
      · exact ⟨hmem, heq⟩

end RowSlots

end Slots

section Batches

variable {P S κ : Type} [LinearOrder κ] {keys : KeyOps P S} {keyOf : IndexKey Scalar → κ}
  {Ok : IndexKey Scalar → Prop} {laws : KeyLaws keys keyOf Ok} {unique : String → Bool}
  {store : GinStore P S} (formats : JsonbFormats) {R : List Nat → κ → RowId → Prop}
  {rows : List (Row Scalar)}

/-- The pairs with those of the rows of a batch. -/
def WithRows (keyOf : IndexKey Scalar → κ) (R : List Nat → κ → RowId → Prop)
    (rows : List (Row Scalar)) (cols : List Nat) (k : κ) (r : RowId) : Prop :=
  R cols k r ∨ (k, r) ∈ coded keyOf (entriesOf rows cols)

/-- No row of the batch has its id or a unique key in common with a stored row or another one. -/
structure FreeRows (keyOf : IndexKey Scalar → κ) (unique : String → Bool) (store : GinStore P S)
    (rows : List (Row Scalar)) : Prop where
  ids : (rows.map Row.id).Nodup
  fresh : ∀ row ∈ rows, store.slots.rowRefById row.id = none
  primary : store.primaryIndex.isSome →
    (rows.map fun row => keyOf (extractKey row store.pkColumns)).Nodup ∧
      ∀ row ∈ rows, ¬∃ id, RowKeys keyOf store.slots store.pkColumns
        (keyOf (extractKey row store.pkColumns)) id
  secondary : ∀ (name : String) (cols : List Nat), store.indexColumns[name]? = some cols →
    unique name = true → (rows.map fun row => keyOf (extractKey row cols)).Nodup ∧
      ∀ row ∈ rows, ¬∃ id, RowKeys keyOf store.slots cols (keyOf (extractKey row cols)) id

/-- One index takes the entries of such a batch in. -/
theorem Listing.addRows {I : Type} {indexStore : IndexStore I} {batch : BatchStore I}
    {indexLaws : IndexLaws indexStore batch keyOf} {single : Bool} {cols : List Nat} {index : I}
    (h : Listing indexLaws single (R cols) index) (hids : (rows.map Row.id).Nodup)
    (hfresh : ∀ row ∈ rows, ∀ k, ¬R cols k row.id)
    (hfree : single = true → (rows.map fun row => keyOf (extractKey row cols)).Nodup ∧
      ∀ row ∈ rows, ¬∃ id, R cols (keyOf (extractKey row cols)) id)
    (hmeets : indexLaws.Meets index (coded keyOf (entriesOf rows cols))) :
    (batch.addBatchIndexKeys index (entriesOf rows cols)).2 = true ∧
      Listing indexLaws single (WithRows keyOf R rows cols)
        (batch.addBatchIndexKeys index (entriesOf rows cols)).1 := by
  have hcoded : coded keyOf (entriesOf rows cols) =
      rows.map fun row => (keyOf (extractKey row cols), row.id) := by
    rw [coded, entriesOf, List.map_map]
    rfl
  have hnodup : (coded keyOf (entriesOf rows cols)).Nodup := by
    rw [hcoded]
    exact List.Nodup.of_map Prod.snd (by rwa [List.map_map])
  obtain ⟨hadded, hlisting⟩ := h.addBatch hmeets hnodup fun entry hentry => by
    rw [hcoded] at hentry
    obtain ⟨row, hrow, rfl⟩ := List.mem_map.mp hentry
    exact hfresh row hrow _
  have htaken : (batch.addBatchIndexKeys index (entriesOf rows cols)).2 = true := by
    rw [hadded]
    rintro ⟨hsingle, ⟨entry, hentry, hother⟩ | hrepeats⟩
    · rw [hcoded] at hentry
      obtain ⟨row, hrow, rfl⟩ := List.mem_map.mp hentry
      exact (hfree hsingle).2 row hrow hother
    · refine hrepeats ?_
      rw [hcoded, List.map_map]
      exact (hfree hsingle).1
  refine ⟨htaken, hlisting.congr fun k r => ?_⟩
  rw [htaken]
  simp [WithRows]

section Loops

variable (keys)

/-- What a batch does to one secondary index. -/
def visitBatch (rows : List (Row Scalar)) (_ : String) (cols : List Nat) (index : S) :
    S × Except Unit Unit :=
  ((keys.secondaryBatch.addBatchIndexKeys index (entriesOf rows cols)).1,
    if (keys.secondaryBatch.addBatchIndexKeys index (entriesOf rows cols)).2 then .ok ()
    else .error ())

def visitRow (row : Row Scalar) (_ : String) (cols : List Nat) (index : S) :
    S × Except Unit Unit :=
  ((keys.secondary.addIndexKey index (extractKey row cols) row.id).1,
    if (keys.secondary.addIndexKey index (extractKey row cols) row.id).2 then .ok ()
    else .error ())

def columnsOf (defs : List BatchSecondaryDef) : List (String × List Nat) :=
  defs.map fun definition => (definition.name, definition.cols)

variable {keys}

/-- A loop that does not stop at its first index. -/
theorem tryForEachIndexMut_cons {C I E : Type} {visitor : String → C → I → I × Except E Unit}
    {name : String} {config : C} {defs : List (String × C)} {indices : Std.ExtTreeMap String I}
    (h : (RowStore.tryForEachIndexMut visitor ((name, config) :: defs) indices).2 = .ok ()) :
    indices[name]? = none ∧ RowStore.tryForEachIndexMut visitor ((name, config) :: defs) indices =
        RowStore.tryForEachIndexMut visitor defs indices ∨
      ∃ index, indices[name]? = some index ∧ (visitor name config index).2 = .ok () ∧
        RowStore.tryForEachIndexMut visitor ((name, config) :: defs) indices =
          RowStore.tryForEachIndexMut visitor defs
            (indices.insert name (visitor name config index).1) := by
  rw [RowStore.tryForEachIndexMut] at h ⊢
  cases hindex : indices[name]? with
  | none => exact .inl ⟨rfl, rfl⟩
  | some index =>
    rw [hindex] at h
    dsimp only at h
    rcases hvisit : visitor name config index with ⟨visited, error | _⟩
    · rw [hvisit] at h
      cases h
    · refine .inr ⟨index, rfl, by rw [hvisit], ?_⟩
      dsimp only
      rw [hvisit]

theorem visitBatch_ok {name : String} {cols : List Nat} {index : S}
    (h : (visitBatch keys rows name cols index).2 = .ok ()) :
    keys.secondaryBatch.addBatchIndexKeys index (entriesOf rows cols) =
      ((visitBatch keys rows name cols index).1, true) := by
  refine Prod.ext rfl ?_
  by_contra hnot
  rw [visitBatch, if_neg hnot] at h
  cases h

theorem visitRow_ok {row : Row Scalar} {name : String} {cols : List Nat} {index : S}
    (h : (visitRow keys row name cols index).2 = .ok ()) :
    keys.secondary.addIndexKey index (extractKey row cols) row.id =
      ((visitRow keys row name cols index).1, true) := by
  refine Prod.ext rfl ?_
  by_contra hnot
  rw [visitRow, if_neg hnot] at h
  cases h

theorem bulkSecondary_of_ok (defs : List BatchSecondaryDef) (indices : Std.ExtTreeMap String S)
    (h : (RowStore.tryForEachIndexMut (visitBatch keys rows) (columnsOf defs) indices).2 = .ok ()) :
    RowStore.bulkSecondary (keys.withGin formats) rows defs indices =
      ((RowStore.tryForEachIndexMut (visitBatch keys rows) (columnsOf defs) indices).1, none) := by
  induction defs generalizing indices with
  | nil => rfl
  | cons definition defs ih =>
    rw [RowStore.bulkSecondary]
    rcases tryForEachIndexMut_cons h with ⟨hindex, heq⟩ | ⟨index, hindex, hvisit, heq⟩
    · rw [hindex]
      exact (ih indices (heq ▸ h)).trans (congrArg (fun left => (left.1, none)) heq.symm)
    · rw [hindex]
      dsimp only
      rw [show (keys.withGin formats).secondaryBatch = keys.secondaryBatch from rfl,
        visitBatch_ok hvisit]
      exact (ih _ (heq ▸ h)).trans (congrArg (fun left => (left.1, none)) heq.symm)

theorem preparedSecondary_of_ok (defs : List BatchSecondaryDef)
    (done : List (BatchSecondaryDef × BatchEntries)) (indices : Std.ExtTreeMap String S)
    (h : (RowStore.tryForEachIndexMut (visitBatch keys rows) (columnsOf defs) indices).2 = .ok ()) :
    RowStore.preparedSecondary (keys.withGin formats) done
        (defs.zip (defs.map fun definition => entriesOf rows definition.cols)) indices =
      ((RowStore.tryForEachIndexMut (visitBatch keys rows) (columnsOf defs) indices).1, none) := by
  induction defs generalizing done indices with
  | nil => rfl
  | cons definition defs ih =>
    rw [List.map_cons, List.zip_cons_cons, RowStore.preparedSecondary]
    rcases tryForEachIndexMut_cons h with ⟨hindex, heq⟩ | ⟨index, hindex, hvisit, heq⟩
    · rw [hindex]
      exact (ih _ indices (heq ▸ h)).trans (congrArg (fun left => (left.1, none)) heq.symm)
    · rw [hindex]
      dsimp only
      rw [show (keys.withGin formats).secondaryBatch = keys.secondaryBatch from rfl,
        visitBatch_ok hvisit]
      exact (ih _ _ (heq ▸ h)).trans (congrArg (fun left => (left.1, none)) heq.symm)

theorem addSecondaryKeys_of_ok (row : Row Scalar) (defs done : List BatchSecondaryDef)
    (indices : Std.ExtTreeMap String S)
    (h : (RowStore.tryForEachIndexMut (visitRow keys row) (columnsOf defs) indices).2 = .ok ()) :
    RowStore.addSecondaryKeys (keys.withGin formats) row done defs indices =
      ((RowStore.tryForEachIndexMut (visitRow keys row) (columnsOf defs) indices).1, none) := by
  induction defs generalizing done indices with
  | nil => rfl
  | cons definition defs ih =>
    rw [RowStore.addSecondaryKeys]
    rcases tryForEachIndexMut_cons h with ⟨hindex, heq⟩ | ⟨index, hindex, hvisit, heq⟩
    · rw [hindex]
      exact (ih _ indices (heq ▸ h)).trans (congrArg (fun left => (left.1, none)) heq.symm)
    · rw [hindex]
      dsimp only
      rw [show (keys.withGin formats).secondary = keys.secondary from rfl, visitRow_ok hvisit]
      exact (ih _ _ (heq ▸ h)).trans (congrArg (fun left => (left.1, none)) heq.symm)

end Loops

section Stores

/-- Definitions of the secondary indexes of a store. -/
structure Defines (unique : String → Bool) (store : GinStore P S) (defs : List BatchSecondaryDef) :
    Prop where
  columns : columnsOf defs = store.indexColumns.toList
  unique : ∀ definition ∈ defs, definition.unique = unique definition.name

theorem Defines.get {defs : List BatchSecondaryDef} (h : Defines unique store defs)
    {definition : BatchSecondaryDef} (hmem : definition ∈ defs) :
    store.indexColumns[definition.name]? = some definition.cols := by
  have hcolumns : (definition.name, definition.cols) ∈ columnsOf defs :=
    List.mem_map.mpr ⟨definition, hmem, rfl⟩
  rw [h.columns] at hcolumns
  exact mem_defs.mp hcolumns

theorem Defines.exists_of_get {defs : List BatchSecondaryDef} (h : Defines unique store defs)
    {name : String} {cols : List Nat} (hcols : store.indexColumns[name]? = some cols) :
    (⟨name, cols, unique name⟩ : BatchSecondaryDef) ∈ defs := by
  have hmem := mem_defs.mpr hcols
  rw [← h.columns] at hmem
  obtain ⟨definition, hdefinition, heq⟩ := List.mem_map.mp hmem
  obtain ⟨rfl, rfl⟩ := Prod.mk.inj heq
  rwa [← h.unique definition hdefinition]

theorem IndexesList.defines (h : IndexesList laws unique store R) :
    Defines unique store (store.secondaryDefs (keys.withGin formats)) := by
  refine ⟨?_, fun definition hmem => ?_⟩
  · rw [columnsOf, RowStore.secondaryDefs, List.map_map]
    exact List.map_id _
  · obtain ⟨entry, hentry, rfl⟩ := List.mem_map.mp hmem
    obtain ⟨index, hindex, hlisting⟩ := h.secondary.get (mem_defs.mp hentry)
    change store.secondaryIndices[entry.1]?.any keys.secondary.isUnique = unique entry.1
    rw [hindex]
    exact hlisting.storeUnique

/-- The indexes take the batch in at once. -/
structure Meets (laws : KeyLaws keys keyOf Ok) (store : GinStore P S) (rows : List (Row Scalar)) :
    Prop where
  primary : ∀ index, store.primaryIndex = some index →
    laws.primary.Meets index (coded keyOf (entriesOf rows store.pkColumns))
  secondary : ∀ (name : String) (cols : List Nat) (index : S),
    store.indexColumns[name]? = some cols → store.secondaryIndices[name]? = some index →
      laws.secondary.Meets index (coded keyOf (entriesOf rows cols))

theorem IndexesList.meets_empty (h : IndexesList laws unique store R)
    (hempty : ∀ cols k r, ¬R cols k r) (rows : List (Row Scalar)) : Meets laws store rows where
  primary index hindex := (h.primary index hindex).meets_empty (hempty _) _
  secondary name cols index hcols hindex := by
    obtain ⟨index', hindex', hlisting⟩ := h.secondary.get hcols
    obtain rfl : index' = index := Option.some.inj (hindex'.symm.trans hindex)
    exact hlisting.meets_empty (hempty _) _

omit [LinearOrder κ] in
theorem FreeRows.absent (h : FreeRows keyOf unique store rows) {cols : List Nat}
    (row : Row Scalar) (hrow : row ∈ rows) (k : κ) : ¬RowKeys keyOf store.slots cols k row.id :=
  rowKeys_gone (h.fresh row hrow) k

omit [LinearOrder κ] in
/-- What is left of a free batch behind its first row is free once that is in. -/
theorem FreeRows.tail {row : Row Scalar} (h : FreeRows keyOf unique store (row :: rows))
    (hvalid : store.slots.Valid) {store' : GinStore P S} (hkeys : SameKeys store store')
    (hslots : store'.slots = store.slots.insertRowSlot row.id row) :
    FreeRows keyOf unique store' rows := by
  obtain ⟨hnone, hfresh⟩ := hvalid.fresh_tail h.fresh h.ids
  have hlookup := RowSlots.rowRefById_insertRowSlot hvalid hnone row
  rw [← hslots] at hlookup hfresh
  have hkeep : ∀ {cols : List Nat},
      ((row :: rows).map fun row => keyOf (extractKey row cols)).Nodup →
      (∀ other ∈ row :: rows,
        ¬∃ id, RowKeys keyOf store.slots cols (keyOf (extractKey other cols)) id) →
      (rows.map fun row => keyOf (extractKey row cols)).Nodup ∧ ∀ other ∈ rows,
        ¬∃ id, RowKeys keyOf store'.slots cols (keyOf (extractKey other cols)) id := by
    intro cols hnodup hfree
    rw [List.map_cons, List.nodup_cons] at hnodup
    refine ⟨hnodup.2, fun other hother => ?_⟩
    rintro ⟨id, hid⟩
    rw [rowKeys_put hlookup] at hid
    rcases hid with ⟨-, hold⟩ | ⟨heq, -⟩
    · exact hfree other (List.mem_cons_of_mem _ hother) ⟨id, hold⟩
    · exact hnodup.1 (List.mem_map.mpr ⟨other, hother, heq⟩)
  refine ⟨(List.nodup_cons.mp h.ids).2, hfresh, fun hsome => ?_, fun name cols hcols hunique => ?_⟩
  · rw [hkeys.primary] at hsome
    rw [hkeys.pkColumns]
    exact hkeep (h.primary hsome).1 (h.primary hsome).2
  · rw [hkeys.indexColumns] at hcols
    exact hkeep (h.secondary name cols hcols hunique).1 (h.secondary name cols hcols hunique).2

theorem IndexesList.batchPrimary (h : IndexesList laws unique store (RowKeys keyOf store.slots))
    (hfree : FreeRows keyOf unique store rows) (hmeets : Meets laws store rows) {index : P}
    (hindex : store.primaryIndex = some index) :
    (keys.primaryBatch.addBatchIndexKeys index (entriesOf rows store.pkColumns)).2 = true ∧
      Listing laws.primary true (WithRows keyOf (RowKeys keyOf store.slots) rows store.pkColumns)
        (keys.primaryBatch.addBatchIndexKeys index (entriesOf rows store.pkColumns)).1 := by
  have hsome : store.primaryIndex.isSome := by
    rw [hindex]
    rfl
  exact (h.primary index hindex).addRows hfree.ids hfree.absent (fun _ => hfree.primary hsome)
    (hmeets.primary index hindex)

theorem IndexesList.batchSecondary (h : IndexesList laws unique store (RowKeys keyOf store.slots))
    (hfree : FreeRows keyOf unique store rows) (hmeets : Meets laws store rows) :
    (RowStore.tryForEachIndexMut (visitBatch keys rows) store.indexColumns.toList
      store.secondaryIndices).2 = .ok () ∧
    Beside store.indexColumns (RowStore.tryForEachIndexMut (visitBatch keys rows)
      store.indexColumns.toList store.secondaryIndices).1 fun name cols =>
        Listing laws.secondary (unique name) (WithRows keyOf (RowKeys keyOf store.slots) rows cols) := by
  have hadd : ∀ {name : String} {cols : List Nat} {index : S},
      store.indexColumns[name]? = some cols → store.secondaryIndices[name]? = some index →
      (keys.secondaryBatch.addBatchIndexKeys index (entriesOf rows cols)).2 = true ∧
        Listing laws.secondary (unique name) (WithRows keyOf (RowKeys keyOf store.slots) rows cols)
          (keys.secondaryBatch.addBatchIndexKeys index (entriesOf rows cols)).1 := by
    intro name cols index hcols hindex
    obtain ⟨index', hindex', hlisting⟩ := h.secondary.get hcols
    obtain rfl : index' = index := Option.some.inj (hindex'.symm.trans hindex)
    exact hlisting.addRows hfree.ids hfree.absent (hfree.secondary name cols hcols)
      (hmeets.secondary name cols index' hcols hindex)
  have hok : (RowStore.tryForEachIndexMut (visitBatch keys rows) store.indexColumns.toList
      store.secondaryIndices).2 = .ok () := by
    rw [RowStore.tryForEachIndexMut_eq_ok (names_nodup _)]
    intro definition hmem index hindex
    exact if_pos (hadd (mem_defs.mp hmem) hindex).1
  obtain ⟨hany, hall⟩ := @getElem?_tryForEachIndexMut _ _ _ (visitBatch keys rows) _
    (names_nodup store.indexColumns) store.secondaryIndices
  refine ⟨hok, h.secondary.of_lookups (fun name hcols => ?_)
    fun name cols index hcols hindex hlisting => ?_⟩
  · rcases hany name with hsame | ⟨config, hmem, -⟩
    · exact hsame
    · rw [mem_defs.mp hmem] at hcols
      cases hcols
  · refine ⟨_, (hall hok name cols (mem_defs.mpr hcols)).trans (by rw [hindex]; rfl), ?_⟩
    exact (hadd hcols hindex).2

theorem IndexesList.rowSecondary {row : Row Scalar} (h : IndexesList laws unique store R)
    (hfresh : ∀ cols k, ¬R cols k row.id) (hfree : ¬SecondaryHas keyOf unique store R row) :
    (RowStore.tryForEachIndexMut (visitRow keys row) store.indexColumns.toList
      store.secondaryIndices).2 = .ok () ∧
    Beside store.indexColumns (RowStore.tryForEachIndexMut (visitRow keys row)
      store.indexColumns.toList store.secondaryIndices).1 fun name cols =>
        Listing laws.secondary (unique name) (WithRow keyOf R row cols) := by
  have hok : (RowStore.tryForEachIndexMut (visitRow keys row) store.indexColumns.toList
      store.secondaryIndices).2 = .ok () := by
    rw [RowStore.tryForEachIndexMut_eq_ok (names_nodup _)]
    intro definition hmem index hindex
    have hcols := mem_defs.mp hmem
    obtain ⟨index', hindex', hlisting⟩ := h.secondary.get hcols
    obtain rfl : index' = index := Option.some.inj (hindex'.symm.trans hindex)
    refine if_pos ((hlisting.added_iff _ _).mpr fun hother => hfree ?_)
    exact ⟨_, _, hcols, hother.1, hother.2⟩
  refine ⟨hok, h.secondary.tryForEach_ok hok fun name cols index hlisting hvisit => ?_⟩
  refine (hlisting.add (hfresh _ _)).congr fun k r => ?_
  rw [visitRow_ok hvisit]
  simp [WithRow]

end Stores

namespace Consistent

theorem congr_gin (h : Consistent laws unique store)
    (ginIndices : Std.ExtTreeMap String GinIndex) :
    Consistent laws unique { store with ginIndices := ginIndices } :=
  ⟨h.valid, h.named, ⟨h.lists.keyed, h.lists.primary, h.lists.secondary⟩⟩

/-- Rows that come into the slots and the indexes at once. -/
theorem putAll (h : Consistent laws unique store) (hok : ∀ row ∈ rows, RowOk Ok row)
    (hids : (rows.map Row.id).Nodup) (hfresh : ∀ row ∈ rows, store.slots.rowRefById row.id = none)
    {store' : GinStore P S} (hslots : store'.slots = store.slots.insertAll rows)
    (hlists : IndexesList laws unique store' (WithRows keyOf (RowKeys keyOf store.slots) rows)) :
    Consistent laws unique store' := by
  have hlookup := RowSlots.rowRefById_insertAll h.valid hfresh hids
  refine ⟨hslots ▸ h.valid.insertAll hfresh hids, fun rowId row hrow => ?_,
    hlists.congr fun cols k r => ?_⟩
  · rw [hslots, hlookup] at hrow
    rcases hrow with ⟨hmem, hid⟩ | hrow
    · exact ⟨hid, hok row hmem⟩
    · exact h.named rowId row hrow
  · rw [hslots, WithRows, mem_entriesOf]
    simp only [RowKeys, hlookup, or_and_right, exists_or]
    rw [or_comm]
    refine or_congr_left (exists_congr fun row => ?_)
    rw [and_assoc, and_comm (a := row.id = r)]

/-- The rows of a free batch are taken in by single insertions as well. -/
theorem insertEach_free (h : Consistent laws unique store) (hok : ∀ row ∈ rows, RowOk Ok row)
    (hfree : FreeRows keyOf unique store rows) (inserted : Nat) :
    ∃ store', store.insertEach (keys.withGin formats).toIndexOps inserted rows =
        (store', .ok (inserted + rows.length)) ∧ Consistent laws unique store' ∧
      SameKeys store store' ∧ store'.slots = store.slots.insertAll rows := by
  induction rows generalizing store inserted with
  | nil => exact ⟨store, rfl, h, .refl store, rfl⟩
  | cons row rows ih =>
    rw [List.forall_mem_cons] at hok
    obtain ⟨next, result, hinsert, hnext, hkeys, hcases⟩ := h.insert formats hok.1
    have hnot : ¬Taken keyOf unique store row := by
      rintro (⟨other, hother⟩ | ⟨hsome, hother⟩ | ⟨name, cols, hcols, hunique, hother⟩)
      · rw [hfree.fresh row List.mem_cons_self] at hother
        cases hother
      · exact (hfree.primary hsome).2 row List.mem_cons_self hother
      · exact (hfree.secondary name cols hcols hunique).2 row List.mem_cons_self hother
    obtain ⟨-, rfl, hslots⟩ := hcases.resolve_left fun htaken => hnot htaken.1
    obtain ⟨store', heach, hconsistent, hkeys', hslots'⟩ :=
      ih hnext hok.2 (hfree.tail h.valid hkeys hslots) (inserted + 1)
    refine ⟨store', ?_, hconsistent, hkeys.trans hkeys', ?_⟩
    · rw [RowStore.insertEach, hinsert]
      dsimp only
      rw [heach, List.length_cons, Nat.add_assoc, Nat.add_comm 1]
    · rw [hslots', hslots]
      rfl

theorem freeRows (h : Consistent laws unique store) {defs : List BatchSecondaryDef}
    (hdefs : Defines unique store defs)
    (hdistinct : DistinctRows keyOf store.pkColumns defs rows)
    (hnone : ∀ row ∈ rows, ¬Taken keyOf unique store row) : FreeRows keyOf unique store rows := by
  refine ⟨hdistinct.ids, fun row hrow => ?_, fun hsome => ⟨?_, fun row hrow hother => ?_⟩,
    fun name cols hcols hunique => ⟨?_, fun row hrow hother => ?_⟩⟩
  · by_contra hstored
    exact hnone row hrow (.inl (Option.ne_none_iff_exists'.mp hstored))
  · obtain ⟨index, hindex⟩ := Option.isSome_iff_exists.mp hsome
    exact hdistinct.primary (h.lists.keyed index hindex)
  · exact hnone row hrow (.inr (.inl ⟨hsome, hother⟩))
  · exact hdistinct.secondary _ (hdefs.exists_of_get hcols) hunique
  · exact hnone row hrow (.inr (.inr ⟨name, cols, hcols, hunique, hother⟩))

theorem not_taken_of_empty (h : Consistent laws unique store)
    (hempty : store.slots.rows.isEmpty = true) :
    (∀ cols k r, ¬RowKeys keyOf store.slots cols k r) ∧
      ∀ row, ¬Taken keyOf unique store row := by
  have hgone : ∀ r, store.slots.rowRefById r = none := fun r => by
    rw [h.valid.rowRefById_eq_none, Std.ExtTreeMap.isEmpty_iff.mp hempty]
    simp
  have hnone : ∀ cols (k : κ) r, ¬RowKeys keyOf store.slots cols k r :=
    fun cols k r => rowKeys_gone (hgone r) k
  refine ⟨hnone, fun row => ?_⟩
  rintro (⟨other, hother⟩ | ⟨-, id, hid⟩ | ⟨name, cols, -, -, id, hid⟩)
  · rw [hgone] at hother
    cases hother
  · exact hnone _ _ _ hid
  · exact hnone _ _ _ hid

theorem length_insertAll (slots : RowSlots Scalar) (rows : List (Row Scalar)) :
    (slots.insertAll rows).rowSlots.length = slots.rowSlots.length + rows.length := by
  induction rows generalizing slots with
  | nil => rfl
  | cons row rows ih =>
    have hone : (slots.insertRowSlot row.id row).rowSlots.length = slots.rowSlots.length + 1 := by
      unfold RowSlots.insertRowSlot
      dsimp only
      split <;> exact List.length_append
    rw [RowSlots.insertAll, List.foldl_cons, ← RowSlots.insertAll, ih, hone, List.length_cons,
      Nat.add_assoc, Nat.add_comm 1]

theorem bulkLoad (h : Consistent laws unique store) {defs : List BatchSecondaryDef}
    (hdefs : Defines unique store defs) (hempty : store.slots.rows.isEmpty = true)
    (hok : ∀ row ∈ rows, RowOk Ok row) (hrise : (rows.map Row.id).Pairwise (· < ·))
    (hdistinct : DistinctRows keyOf store.pkColumns defs rows) :
    ∃ store', store.bulkLoad (keys.withGin formats) defs rows = (store', .ok rows.length) ∧
      Consistent laws unique store' ∧ SameKeys store store' ∧
      store'.slots = store.slots.insertAll rows := by
  obtain ⟨hnone, hfreeOne⟩ := h.not_taken_of_empty hempty
  have hfree := h.freeRows hdefs hdistinct fun row _ => hfreeOne row
  have hmeets := h.lists.meets_empty hnone rows
  obtain ⟨hallOk, hsecondary⟩ := h.lists.batchSecondary hfree hmeets
  rw [← hdefs.columns] at hallOk hsecondary
  have hprimary : ∃ primaryIndex, store.bulkPrimary (keys.withGin formats) rows =
      (primaryIndex, none) ∧ primaryIndex.isSome = store.primaryIndex.isSome ∧
      ∀ index, primaryIndex = some index → Listing laws.primary true
        (WithRows keyOf (RowKeys keyOf store.slots) rows store.pkColumns) index := by
    unfold RowStore.bulkPrimary
    cases hindex : store.primaryIndex with
    | none => exact ⟨none, rfl, rfl, nofun⟩
    | some index =>
      obtain ⟨hadded, hlisting⟩ := h.lists.batchPrimary hfree hmeets hindex
      refine ⟨some (keys.primaryBatch.addBatchIndexKeys index
        (entriesOf rows store.pkColumns)).1, ?_, rfl, fun index' heq => ?_⟩
      · exact Prod.ext rfl (if_pos hadded)
      · obtain rfl := Option.some.inj heq
        exact hlisting
  obtain ⟨primaryIndex, hbulkPrimary, hsome, hlisting⟩ := hprimary
  have hkeyed : ∀ index, primaryIndex = some index → store.pkColumns.isEmpty = false := by
    intro index hindex
    rw [hindex, Option.isSome_some] at hsome
    obtain ⟨old, hold⟩ := Option.isSome_iff_exists.mp hsome.symm
    exact h.lists.keyed old hold
  have hslots := h.valid.bulkSlots hempty hrise
  have hlength : (RowStore.bulkSlots store.slots rows).rowSlots.length = rows.length := by
    rw [hslots, length_insertAll, h.valid.rowSlots_eq_nil hempty, List.length_nil, Nat.zero_add]
  unfold RowStore.bulkLoad
  rw [hbulkPrimary]
  dsimp only
  rw [bulkSecondary_of_ok formats defs store.secondaryIndices hallOk]
  refine ⟨_, Prod.ext rfl (congrArg Except.ok hlength),
    h.putAll hok hdistinct.ids hfree.fresh hslots ⟨hkeyed, hlisting, hsecondary⟩,
    ⟨hsome, rfl, rfl⟩, hslots⟩

/-- The check of one definition. -/
theorem secondaryTaken_iff (h : Consistent laws unique store) {defs : List BatchSecondaryDef}
    (hdefs : Defines unique store defs) (row : Row Scalar) :
    (∃ definition ∈ defs, (definition.unique && store.secondaryIndices[definition.name]?.any
      fun index => keys.secondary.containsIndexKey index (extractKey row definition.cols)) = true) ↔
      SecondaryHas keyOf unique store (RowKeys keyOf store.slots) row := by
  constructor
  · rintro ⟨definition, hmem, hany⟩
    rw [Bool.and_eq_true, hdefs.unique definition hmem] at hany
    obtain ⟨index, hindex, hlisting⟩ := h.lists.secondary.get (hdefs.get hmem)
    rw [hindex, Option.any_some, hlisting.contains_iff] at hany
    exact ⟨_, _, hdefs.get hmem, hany.1, hany.2⟩
  · rintro ⟨name, cols, hcols, hunique, hother⟩
    obtain ⟨index, hindex, hlisting⟩ := h.lists.secondary.get hcols
    refine ⟨_, hdefs.exists_of_get hcols, ?_⟩
    rw [Bool.and_eq_true, hindex, Option.any_some, hlisting.contains_iff]
    exact ⟨hunique, hother⟩

theorem keyTaken_iff (h : Consistent laws unique store) {defs : List BatchSecondaryDef}
    (hdefs : Defines unique store defs) (row : Row Scalar) :
    store.keyTaken (keys.withGin formats) defs row = true ↔ Taken keyOf unique store row := by
  unfold RowStore.keyTaken Taken
  rw [Bool.or_eq_true, Bool.or_eq_true, decide_eq_true_eq, h.stored_iff,
    ← h.secondaryTaken_iff hdefs, List.any_eq_true, or_assoc, h.lists.primaryTaken_iff formats]
  rfl

/-- Merging a prepared batch in. -/
theorem applyPrepared (h : Consistent laws unique store) {defs : List BatchSecondaryDef}
    (hdefs : Defines unique store defs) (hok : ∀ row ∈ rows, RowOk Ok row)
    (hmeets : Meets laws store rows) {prepared : RowStore.PreparedBatchInsert}
    (hprepared : store.prepareBatchInsertMerge (keys.withGin formats) defs rows = some prepared) :
    ∃ store', store.applyPreparedBatchInsert (keys.withGin formats) defs rows prepared =
        (store', .ok rows.length) ∧ FreeRows keyOf unique store rows ∧
      Consistent laws unique store' ∧ SameKeys store store' ∧
      store'.slots = store.slots.insertAll rows := by
  unfold RowStore.prepareBatchInsertMerge at hprepared
  split at hprepared
  · cases hprepared
  next hclear =>
    simp only [Bool.or_eq_true, not_or, Bool.not_eq_true, Bool.not_eq_false',
      List.any_eq_false] at hclear
    obtain ⟨⟨-, hnone⟩, hdistinct⟩ := hclear
    obtain rfl := Option.some.inj hprepared
    have hdistinct' := distinct_of_hasDistinctKeys laws.cmp_iff hdistinct hok
    have hfree := h.freeRows hdefs hdistinct' fun row hrow htaken => by
      have hfalse := hnone row hrow
      rw [(h.keyTaken_iff formats hdefs row).mpr htaken] at hfalse
      cases hfalse
    obtain ⟨hallOk, hsecondary⟩ := h.lists.batchSecondary hfree hmeets
    rw [← hdefs.columns] at hallOk hsecondary
    have hprimary : ∃ primaryIndex, store.preparedPrimary (keys.withGin formats)
        { primaryEntries :=
            if store.pkColumns.isEmpty then none else some (entriesOf rows store.pkColumns)
          secondaryEntries := defs.map fun definition => entriesOf rows definition.cols } =
        (primaryIndex, none) ∧ primaryIndex.isSome = store.primaryIndex.isSome ∧
        ∀ index, primaryIndex = some index → Listing laws.primary true
          (WithRows keyOf (RowKeys keyOf store.slots) rows store.pkColumns) index := by
      unfold RowStore.preparedPrimary
      cases hindex : store.primaryIndex with
      | none => exact ⟨none, rfl, rfl, nofun⟩
      | some index =>
        obtain ⟨hadded, hlisting⟩ := h.lists.batchPrimary hfree hmeets hindex
        rw [h.lists.keyed index hindex]
        refine ⟨some (keys.primaryBatch.addBatchIndexKeys index
          (entriesOf rows store.pkColumns)).1, ?_, rfl, fun index' heq => ?_⟩
        · exact Prod.ext rfl (if_pos hadded)
        · obtain rfl := Option.some.inj heq
          exact hlisting
    obtain ⟨primaryIndex, hpreparedPrimary, hsome, hlisting⟩ := hprimary
    have hkeyed : ∀ index, primaryIndex = some index → store.pkColumns.isEmpty = false := by
      intro index hindex
      rw [hindex, Option.isSome_some] at hsome
      obtain ⟨old, hold⟩ := Option.isSome_iff_exists.mp hsome.symm
      exact h.lists.keyed old hold
    unfold RowStore.applyPreparedBatchInsert
    rw [hpreparedPrimary]
    dsimp only
    rw [preparedSecondary_of_ok formats defs [] store.secondaryIndices hallOk]
    exact ⟨_, rfl, hfree, h.putAll hok hdistinct'.ids hfree.fresh rfl
      ⟨hkeyed, hlisting, hsecondary⟩, ⟨hsome, rfl, rfl⟩, rfl⟩

/-- One row of a batch that is worked in row by row. -/
theorem addKeys (h : Consistent laws unique store) {defs : List BatchSecondaryDef}
    (hdefs : Defines unique store defs) (row : Row Scalar) :
    ∃ store' result, store.addKeys (keys.withGin formats) defs row = (store', result) ∧
      store'.slots = store.slots ∧ SameKeys store store' ∧
      (Taken keyOf unique store row ∧ (∃ error, result = some error) ∧
          Consistent laws unique store' ∨
        ¬Taken keyOf unique store row ∧ result = none ∧
          IndexesList laws unique store' (WithRow keyOf (RowKeys keyOf store.slots) row)) := by
  unfold RowStore.addKeys
  by_cases hid : row.id ∈ store.slots.rows
  · rw [if_pos hid]
    exact ⟨_, _, rfl, rfl, .refl store, .inl ⟨.inl ((h.stored_iff row).mp hid), ⟨_, rfl⟩, h⟩⟩
  have hgone := mt (h.stored_iff row).mpr hid
  rw [if_neg hid]
  by_cases htaken : store.primaryTaken (keys.withGin formats).toIndexOps row = true
  · rw [if_pos htaken]
    exact ⟨_, _, rfl, rfl, .refl store,
      .inl ⟨.inr (.inl ((h.lists.primaryTaken_iff formats).mp htaken)), ⟨_, rfl⟩, h⟩⟩
  rw [if_neg htaken]
  have hfree := mt (h.lists.primaryTaken_iff formats).mpr htaken
  have hconflict : (store.secondaryConflict (keys.withGin formats) defs row).isSome = true ↔
      SecondaryHas keyOf unique store (RowKeys keyOf store.slots) row := by
    rw [← h.secondaryTaken_iff hdefs, RowStore.secondaryConflict, List.isSome_findSome?,
      List.any_eq_true]
    refine exists_congr fun definition => and_congr_right fun _ => ?_
    dsimp only
    split
    next hany => exact iff_of_true rfl hany
    next hany => exact iff_of_false nofun hany
  cases hsecondary : store.secondaryConflict (keys.withGin formats) defs row with
  | some error =>
    rw [hsecondary, Option.isSome_some] at hconflict
    exact ⟨_, _, rfl, rfl, .refl store, .inl ⟨.inr (.inr (hconflict.mp rfl)), ⟨_, rfl⟩, h⟩⟩
  | none =>
    rw [hsecondary, Option.isSome_none] at hconflict
    have hnone : ¬SecondaryHas keyOf unique store (RowKeys keyOf store.slots) row :=
      fun hhas => Bool.false_ne_true (hconflict.mpr hhas)
    obtain ⟨primaryIndex, hprimary, hsome, hadded, -⟩ :=
      h.lists.addPrimary formats (h.fresh hid) hfree
    have hkeyed : ∀ index, primaryIndex = some index → store.pkColumns.isEmpty = false := by
      intro index hindex
      rw [hindex, Option.isSome_some] at hsome
      obtain ⟨old, hold⟩ := Option.isSome_iff_exists.mp hsome.symm
      exact h.lists.keyed old hold
    obtain ⟨hallOk, hlisting⟩ := h.lists.rowSecondary (h.fresh hid) hnone
    rw [← hdefs.columns] at hallOk hlisting
    dsimp only
    rw [show store.addPrimary (keys.withGin formats).toIndexOps row = (primaryIndex, true) from
      hprimary]
    dsimp only
    rw [addSecondaryKeys_of_ok formats row defs [] store.secondaryIndices hallOk]
    exact ⟨_, _, rfl, rfl, ⟨hsome, rfl, rfl⟩,
      .inr ⟨not_or.mpr ⟨hgone, not_or.mpr ⟨hfree, hnone⟩⟩, rfl, ⟨hkeyed, hadded, hlisting⟩⟩⟩

omit [LinearOrder κ] in
theorem Taken.congr {store' : GinStore P S} (hkeys : SameKeys store store')
    (hslots : store'.slots = store.slots) (row : Row Scalar) :
    Taken keyOf unique store' row ↔ Taken keyOf unique store row := by
  unfold Taken PrimaryHas SecondaryHas
  rw [hkeys.primary, hkeys.pkColumns, hkeys.indexColumns, hslots]

/-- Two calls that leave the same rows behind and end alike. -/
structure SameCalls (laws : KeyLaws keys keyOf Ok) (unique : String → Bool) (store : GinStore P S)
    (first second : GinStore P S × Except Error Nat) : Prop where
  firstKept : Consistent laws unique first.1
  secondKept : Consistent laws unique second.1
  firstKeys : SameKeys store first.1
  secondKeys : SameKeys store second.1
  slots : first.1.slots = second.1.slots
  results : ∀ count, first.2 = .ok count ↔ second.2 = .ok count

/-- Which rows are taken in later does not depend on which of the calls was made. -/
theorem SameCalls.accepts {first second : GinStore P S × Except Error Nat}
    (h : SameCalls laws unique store first second) {row : Row Scalar} (hok : RowOk Ok row) :
    (first.1.insert (keys.withGin formats).toIndexOps row).2 = .ok row.id ↔
      (second.1.insert (keys.withGin formats).toIndexOps row).2 = .ok row.id := by
  obtain ⟨next, result, hinsert, -, -, hcases⟩ := h.firstKept.insert formats hok
  obtain ⟨next', result', hinsert', -, -, hcases'⟩ := h.secondKept.insert formats hok
  rw [Taken.congr (h.firstKeys.symm.trans h.secondKeys) h.slots.symm] at hcases'
  rw [hinsert, hinsert']
  rcases hcases with ⟨htaken, ⟨error, rfl⟩, -⟩ | ⟨hfree, rfl, -⟩
  · obtain ⟨-, ⟨error', rfl⟩, -⟩ := hcases'.resolve_right fun hnot => hnot.1 htaken
    exact iff_of_false nofun nofun
  · obtain ⟨-, rfl, -⟩ := hcases'.resolve_left fun htaken => hfree htaken.1
    exact .rfl

/-- Row by row, a batch is what single insertions are. -/
theorem insertRows {store' : GinStore P S} (h : Consistent laws unique store)
    (h' : Consistent laws unique store') (hkeys : SameKeys store store')
    (hslots : store'.slots = store.slots) {defs : List BatchSecondaryDef}
    (hdefs : Defines unique store defs) (hok : ∀ row ∈ rows, RowOk Ok row)
    (builders : List GinBulkBuilder) (inserted : Nat) :
    SameCalls laws unique store
      (RowStore.insertRows (keys.withGin formats) defs store builders inserted rows)
      (store'.insertEach (keys.withGin formats).toIndexOps inserted rows) := by
  induction rows generalizing store store' builders inserted with
  | nil => exact ⟨h.congr_gin _, h', ⟨rfl, rfl, rfl⟩, hkeys, hslots.symm, fun _ => .rfl⟩
  | cons row rows ih =>
    rw [List.forall_mem_cons] at hok
    obtain ⟨next, result, hadd, hsame, hnextKeys, hcases⟩ := h.addKeys formats hdefs row
    obtain ⟨next', result', hinsert, hnext', hnextKeys', hcases'⟩ := h'.insert formats hok.1
    rw [RowStore.insertRows, RowStore.insertEach, hadd, hinsert]
    rw [Taken.congr hkeys hslots] at hcases'
    rcases hcases with ⟨htaken, ⟨error, rfl⟩, hnext⟩ | ⟨hfree, rfl, hlists⟩
    · obtain ⟨-, ⟨error', rfl⟩, hslots'⟩ := hcases'.resolve_right fun hnot => hnot.1 htaken
      refine ⟨hnext.congr_gin _, hnext',
        ⟨hnextKeys.primary, hnextKeys.pkColumns, hnextKeys.indexColumns⟩,
        hkeys.trans hnextKeys', ?_, fun count => by simp⟩
      change next.slots = next'.slots
      rw [hsame, hslots', hslots]
    · obtain ⟨-, rfl, hslots'⟩ := hcases'.resolve_left fun htaken => hfree htaken.1
      have hid : row.id ∉ store.slots.rows := fun hmem => hfree (.inl ((h.stored_iff row).mp hmem))
      have hput : Consistent laws unique
          { next with slots := next.slots.insertRowSlot row.id row } := by
        refine h.put hok.1 hid (by rw [hsame]) ?_
        exact ⟨hlists.keyed, hlists.primary, hlists.secondary⟩
      have hdefs' : Defines unique
          { next with slots := next.slots.insertRowSlot row.id row } defs :=
        ⟨hdefs.columns.trans (congrArg _ hnextKeys.indexColumns.symm), hdefs.unique⟩
      have hputKeys : SameKeys store { next with slots := next.slots.insertRowSlot row.id row } :=
        ⟨hnextKeys.primary, hnextKeys.pkColumns, hnextKeys.indexColumns⟩
      have hkeys' := hputKeys.symm.trans (hkeys.trans hnextKeys')
      obtain ⟨hfirst, hsecond, hfirstKeys, hsecondKeys, heq, hresults⟩ :=
        ih hput hnext' hkeys' (by rw [hslots', hslots, hsame]) hdefs' hok.2
          (RowStore.collectRow (keys.withGin formats) next.ginDefs builders row) (inserted + 1)
      exact ⟨hfirst, hsecond, hputKeys.trans hfirstKeys, hputKeys.trans hsecondKeys, heq, hresults⟩

/-- A batch that the indexes can take in at once is what single insertions are. -/
theorem insertBatch (h : Consistent laws unique store) (hok : ∀ row ∈ rows, RowOk Ok row)
    (hmeets : store.slots.rows.isEmpty = true ∨ Meets laws store rows) :
    SameCalls laws unique store (store.insertBatch (keys.withGin formats) rows)
      (store.insertEach (keys.withGin formats).toIndexOps 0 rows) := by
  have hdefs := h.lists.defines formats
  have hallMeets : Meets laws store rows := hmeets.elim
    (fun hempty => h.lists.meets_empty (h.not_taken_of_empty hempty).1 rows) id
  unfold RowStore.insertBatch
  split
  next hempty =>
    obtain rfl := List.isEmpty_iff.mp hempty
    exact ⟨h, h, .refl _, .refl _, rfl, fun _ => .rfl⟩
  dsimp only
  split
  next hbulk =>
    rw [Bool.and_eq_true, RowStore.canUseBulkInsertFastPath, Bool.and_eq_true] at hbulk
    have hdistinct := distinct_of_hasDistinctKeys laws.cmp_iff hbulk.2.2 hok
    obtain ⟨left, hload, hleft, hkeys, hslots⟩ := h.bulkLoad formats hdefs hbulk.1 hok
      (ascending_of_canUseBulkInsertFastPath hbulk.2.1 hbulk.2.2) hdistinct
    have hfree := h.freeRows hdefs hdistinct
      fun row _ => (h.not_taken_of_empty hbulk.1).2 row
    obtain ⟨left', heach, hleft', hkeys', hslots'⟩ := h.insertEach_free formats hok hfree 0
    rw [hload, heach]
    exact ⟨hleft, hleft', hkeys, hkeys', hslots.trans hslots'.symm, fun _ => by rw [Nat.zero_add]⟩
  next =>
    split
    next prepared hprepared =>
      obtain ⟨left, happly, hfree, hleft, hkeys, hslots⟩ :=
        h.applyPrepared formats hdefs hok hallMeets hprepared
      obtain ⟨left', heach, hleft', hkeys', hslots'⟩ := h.insertEach_free formats hok hfree 0
      rw [happly, heach]
      exact ⟨hleft, hleft', hkeys, hkeys', hslots.trans hslots'.symm, fun _ => by rw [Nat.zero_add]⟩
    next => exact h.insertRows formats h (.refl _) rfl hdefs hok _ 0

theorem loadEmpty (h : Consistent laws unique store) (hok : ∀ row ∈ rows, RowOk Ok row) :
    Consistent laws unique (store.loadEmpty (keys.withGin formats) rows).1 ∧
      SameKeys store (store.loadEmpty (keys.withGin formats) rows).1 := by
  unfold RowStore.loadEmpty
  split
  · exact ⟨h, .refl store⟩
  split
  · exact ⟨h, .refl store⟩
  next hempty =>
    dsimp only
    split
    · exact ⟨h, .refl store⟩
    next hvalidated =>
      obtain ⟨hrise, hdistinct⟩ := distinct_of_validate laws.cmp_iff hvalidated hok
      obtain ⟨left, hload, hleft, hkeys, -⟩ :=
        h.bulkLoad formats (h.lists.defines formats) (by simpa using hempty) hok hrise hdistinct
      rw [hload]
      exact ⟨hleft, hkeys⟩

end Consistent

end Batches

end Cynos.Storage
