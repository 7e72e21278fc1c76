import Cynos.Core.Schema
import Cynos.Lib.Run
import Cynos.Storage.Batch
import Cynos.Storage.GinCalls

/-! A row store with its GIN indexes from its schema on, through calls that change it. What the
primary and secondary indexes do with their keys stays a parameter. -/
namespace Cynos.Storage

open Core (Row Scalar Value)
open Index (GinBulkBuilder GinIndex RowId)

section Schema

inductive IndexType where
  | hash
  | bTree
  | gin

structure IndexDef where
  name : String
  columns : List String
  unique : Bool
  indexType : IndexType
  ginPaths : Option (List String)

structure TableSchema extends Core.Table where
  name : String
  primaryKey : Option (List String)
  indices : List IndexDef

def TableSchema.columnIndices (schema : TableSchema) (names : List String) : List Nat :=
  names.filterMap fun name => schema.columns.findIdx? fun column => column.name == name

/-- Primary and secondary indexes, with the empty ones a store begins with. -/
structure KeyOps (P S : Type) where
  primary : IndexStore P
  secondary : IndexStore S
  primaryBatch : BatchStore P
  secondaryBatch : BatchStore S
  newPrimary : P
  newSecondary : IndexType → Bool → S
  debugValues : List (Value Scalar) → String

variable {P S : Type}

def KeyOps.withGin (keys : KeyOps P S) (formats : JsonbFormats) :
    BatchOps P S GinIndex GinBulkBuilder where
  primary := keys.primary
  secondary := keys.secondary
  indexJsonbValue := indexJsonbValue formats
  removeJsonbFromGin := removeJsonbFromGin formats
  debugValues := keys.debugValues
  primaryBatch := keys.primaryBatch
  secondaryBatch := keys.secondaryBatch
  newBuilder := .new
  collectJsonbValue := collectJsonbValueIntoBuilder formats
  applyBulkBuilder := GinIndex.applyBulkBuilder
  clearGin := GinIndex.clear

abbrev GinStore (P S : Type) := RowStore P S GinIndex

namespace RowStore

variable (keys : KeyOps P S) (schema : TableSchema)

def addIndex (store : GinStore P S) (idx : IndexDef) : GinStore P S :=
  let cols := schema.columnIndices idx.columns
  match idx.indexType with
  | .gin =>
    match cols.head? with
    | some colIdx =>
      { store with
        ginIndices := store.ginIndices.insert idx.name .new
        ginIndexConfigs := store.ginIndexConfigs.insert idx.name (.new colIdx idx.ginPaths) }
    | none => store
  | indexType =>
    { store with
      secondaryIndices :=
        store.secondaryIndices.insert idx.name (keys.newSecondary indexType idx.unique)
      indexColumns := store.indexColumns.insert idx.name cols }

/-- Creates a new row store for the given table schema. -/
def new : GinStore P S :=
  schema.indices.foldl (addIndex keys schema)
    { name := schema.name
      slots := .empty
      primaryIndex := schema.primaryKey.map fun _ => keys.newPrimary
      pkColumns := (schema.primaryKey.map schema.columnIndices).getD []
      secondaryIndices := ∅
      indexColumns := ∅
      ginIndices := ∅
      ginIndexConfigs := ∅ }

end RowStore

end Schema

section Calls

inductive RowStoreCall where
  | insert (row : Row Scalar)
  | insertBatch (rows : List (Row Scalar))
  | update (rowId : RowId) (newRow : Row Scalar)
  | delete (rowId : RowId)
  | deleteBatch (rowIds : List RowId)

variable {P S : Type} (formats : JsonbFormats) (keys : KeyOps P S)

/-- The store after a call, whether the call was refused or not. -/
def RowStore.call (store : GinStore P S) : RowStoreCall → Option (GinStore P S)
  | .insert row => some (store.insert (keys.withGin formats).toIndexOps row).1
  | .insertBatch rows => some (store.insertBatch (keys.withGin formats) rows).1
  | .update rowId newRow => some (store.update (keys.withGin formats).toIndexOps rowId newRow).1
  | .delete rowId => (store.delete (keys.withGin formats).toIndexOps rowId).map Prod.fst
  | .deleteBatch rowIds => (store.deleteBatch (keys.withGin formats) rowIds).map Prod.fst

/-- Rows that are deleted in a batch carry the ids they are stored under. -/
def RowStore.KeepsIds (store : GinStore P S) : RowStoreCall → Prop
  | .deleteBatch rowIds =>
    ∀ rowId ∈ rowIds, ∀ row, store.slots.rowRefById rowId = some row → row.id = rowId
  | _ => True

end Calls

section Distinct

variable {pkColumns : List Nat} {defs : List BatchSecondaryDef} {rows : List (Row Scalar)}

theorem rowIds_of_seeRow {seen seen' : SeenKeys} {row : Row Scalar}
    (h : seeRow pkColumns defs seen row = some seen') :
    row.id ∉ seen.rowIds ∧ seen'.rowIds = row.id :: seen.rowIds := by
  unfold seeRow at h
  by_cases hmem : row.id ∈ seen.rowIds
  · simp [hmem] at h
  · rw [if_neg hmem] at h
    refine ⟨hmem, ?_⟩
    simp only [Option.bind_eq_bind, Option.bind_some] at h
    split at h
    · obtain ⟨secondaryKeys, -, h⟩ := Option.bind_eq_some_iff.mp h
      rw [← Option.some.inj h]
    · obtain ⟨primaryKeys, -, h⟩ := Option.bind_eq_some_iff.mp h
      obtain ⟨secondaryKeys, -, h⟩ := Option.bind_eq_some_iff.mp h
      rw [← Option.some.inj h]

theorem nodup_of_seeRows {seen seen' : SeenKeys}
    (h : rows.foldlM (seeRow pkColumns defs) seen = some seen') :
    (rows.map Row.id).Nodup ∧ ∀ row ∈ rows, row.id ∉ seen.rowIds := by
  induction rows generalizing seen with
  | nil => simp
  | cons row rows ih =>
    rw [List.foldlM_cons, Option.bind_eq_bind, Option.bind_eq_some_iff] at h
    obtain ⟨next, hrow, hrows⟩ := h
    obtain ⟨hfresh, hnext⟩ := rowIds_of_seeRow hrow
    obtain ⟨hnodup, hothers⟩ := ih hrows
    simp only [hnext, List.mem_cons, not_or] at hothers
    refine ⟨List.nodup_cons.mpr ⟨fun hmem => ?_, hnodup⟩, ?_⟩
    · obtain ⟨other, hother, heq⟩ := List.mem_map.mp hmem
      exact (hothers other hother).1 heq
    · exact List.forall_mem_cons.mpr ⟨hfresh, fun other hother => (hothers other hother).2⟩

theorem nodup_of_hasDistinctKeys (h : hasDistinctKeys pkColumns defs rows = true) :
    (rows.map Row.id).Nodup := by
  unfold hasDistinctKeys at h
  obtain ⟨seen, hseen⟩ := Option.isSome_iff_exists.mp h
  exact (nodup_of_seeRows hseen).1

theorem pairwise_of_idsAscend (h : idsAscend rows = true) :
    (rows.map Row.id).Pairwise (· ≤ ·) := by
  induction rows with
  | nil => exact .nil
  | cons first rows ih =>
    cases rows with
    | nil => simp
    | cons second rows =>
      rw [idsAscend, Bool.and_eq_true, decide_eq_true_eq] at h
      have hrest := ih h.2
      rw [List.map_cons, List.pairwise_cons] at hrest ⊢
      refine ⟨fun id hid => ?_, List.pairwise_cons.mpr hrest⟩
      rcases List.mem_cons.mp hid with rfl | hid
      · exact h.1
      · exact h.1.trans (hrest.1 id hid)

theorem ascending_of_canUseBulkInsertFastPath (hascend : idsAscend rows = true)
    (hdistinct : hasDistinctKeys pkColumns defs rows = true) :
    (rows.map Row.id).Pairwise (· < ·) :=
  ((pairwise_of_idsAscend hascend).and (nodup_of_hasDistinctKeys hdistinct)).imp
    fun h => lt_of_le_of_ne h.1 h.2

end Distinct

section Slots

namespace RowSlots

variable {slots : RowSlots Scalar} {rows : List (Row Scalar)}

def insertAll (slots : RowSlots Scalar) (rows : List (Row Scalar)) : RowSlots Scalar :=
  rows.foldl (fun slots row => slots.insertRowSlot row.id row) slots

/-- The rows behind the first one are still not there when it is inserted. -/
theorem Valid.fresh_tail {row : Row Scalar} (h : slots.Valid)
    (hfresh : ∀ other ∈ row :: rows, slots.rowRefById other.id = none)
    (hnodup : ((row :: rows).map Row.id).Nodup) :
    slots.rows[row.id]? = none ∧
      ∀ other ∈ rows, (slots.insertRowSlot row.id row).rowRefById other.id = none := by
  rw [List.map_cons, List.nodup_cons] at hnodup
  have hnone := h.rowRefById_eq_none.mp (hfresh row List.mem_cons_self)
  refine ⟨hnone, fun other hother => ?_⟩
  have hne : other.id ≠ row.id := fun heq => hnodup.1 (heq ▸ List.mem_map_of_mem hother)
  rw [rowRefById_insertRowSlot h hnone, if_neg hne, hfresh other (List.mem_cons_of_mem _ hother)]

theorem Valid.insertAll (h : slots.Valid) (hfresh : ∀ row ∈ rows, slots.rowRefById row.id = none)
    (hnodup : (rows.map Row.id).Nodup) : (slots.insertAll rows).Valid := by
  induction rows generalizing slots with
  | nil => exact h
  | cons row rows ih =>
    obtain ⟨hnone, hrest⟩ := h.fresh_tail hfresh hnodup
    exact ih (h.insertRowSlot hnone row) hrest (List.nodup_cons.mp hnodup).2

theorem insertRowSlot_append (h : slots.Valid) {rowId : RowId}
    (hlast : ∀ i < slots.rowSlots.length, slots.idAt i < rowId) (row : Row Scalar) :
    slots.insertRowSlot rowId row =
      { slots.pushed rowId row with scanOrder := slots.scanOrder ++ [slots.rowSlots.length] } := by
  have happend : (slots.pushed rowId row).appendOnly rowId = true := by
    unfold appendOnly
    cases hscan : (slots.pushed rowId row).scanOrder.getLast? with
    | none => rfl
    | some last =>
      have hlt : last < slots.rowSlots.length := (h.mem_scan last).mp (List.mem_of_getLast? hscan)
      simpa [idAt_pushed hlt] using hlast last hlt
  unfold insertRowSlot
  rw [if_pos happend]
  rfl

/-- Numbering rows of rising ids behind the others is inserting them in turn. -/
theorem bulkSlots_eq (h : slots.Valid) (hrows : (rows.map Row.id).Pairwise (· < ·))
    (hlast : ∀ row ∈ rows, ∀ i < slots.rowSlots.length, slots.idAt i < row.id) :
    (rows.zipIdx slots.rowSlots.length).foldl (fun slots entry =>
      { rows := slots.rows.insert entry.1.id entry.2
        rowSlots := slots.rowSlots ++ [⟨entry.1.id, entry.1⟩]
        scanOrder := slots.scanOrder ++ [entry.2] }) slots = slots.insertAll rows := by
  induction rows generalizing slots with
  | nil => rfl
  | cons row rows ih =>
    rw [List.map_cons, List.pairwise_cons] at hrows
    have hrow := hlast row List.mem_cons_self
    have hfresh : slots.rows[row.id]? = none := by
      cases hfound : slots.rows[row.id]? with
      | none => rfl
      | some i => exact absurd (h.idAt_of_rows hfound) (hrow i (h.lt_of_rows hfound)).ne
    have hpushed := insertRowSlot_append h hrow row
    have hlength :
        (slots.insertRowSlot row.id row).rowSlots.length = slots.rowSlots.length + 1 := by
      rw [hpushed]
      exact List.length_append
    rw [List.zipIdx_cons, List.foldl_cons, insertAll, List.foldl_cons, ← insertAll, ← hlength,
      ← ih (h.insertRowSlot hfresh row) hrows.2, hpushed]
    · rfl
    · intro other hother i hi
      have hless := hrows.1 other.id (List.mem_map_of_mem hother)
      rw [hlength, Nat.lt_succ_iff_lt_or_eq] at hi
      rw [hpushed]
      rcases hi with hi | rfl
      · exact (idAt_pushed hi row).trans_lt (hlast other (List.mem_cons_of_mem _ hother) i hi)
      · exact (idAt_pushed_last slots row.id row).trans_lt hless

theorem Valid.rowSlots_eq_nil (h : slots.Valid) (hempty : slots.rows.isEmpty = true) :
    slots.rowSlots = [] := by
  by_contra hne
  have hrow := h.rows_idAt (List.length_pos_iff.mpr hne)
  rw [Std.ExtTreeMap.isEmpty_iff.mp hempty] at hrow
  simp at hrow

theorem Valid.bulkSlots (h : slots.Valid) (hempty : slots.rows.isEmpty = true)
    (hrows : (rows.map Row.id).Pairwise (· < ·)) :
    RowStore.bulkSlots slots rows = slots.insertAll rows := by
  have hnil := h.rowSlots_eq_nil hempty
  have hbulk := bulkSlots_eq h hrows fun row _ i hi => by simp [hnil] at hi
  rwa [hnil] at hbulk

/-- Removing rows in turn finds those that are there. -/
theorem Valid.removeRowSlots (h : slots.Valid) (rowIds : List RowId) :
    ∃ left removed, RowStore.removeRowSlots slots rowIds = some (left, removed) ∧ left.Valid ∧
      (∀ id, left.rowRefById id = if id ∈ rowIds then none else slots.rowRefById id) ∧
      ∀ row, row ∈ removed ↔ ∃ id ∈ rowIds, slots.rowRefById id = some row := by
  induction rowIds generalizing slots with
  | nil => exact ⟨slots, [], rfl, h, by simp, by simp⟩
  | cons rowId rowIds ih =>
    rw [RowStore.removeRowSlots]
    cases hrow : slots.rows[rowId]? with
    | none =>
      have hgone := h.rowRefById_eq_none.mpr hrow
      have hremove : slots.removeRowSlot rowId = some (slots, none) := by
        unfold RowSlots.removeRowSlot
        rw [hrow]
      obtain ⟨left, removed, hrest, hleft, hlookup, hmem⟩ := ih h
      rw [hremove]
      refine ⟨left, removed, ?_, hleft, fun id => ?_, fun row => ?_⟩
      · simp [hrest]
      · by_cases hid : id = rowId
        · simp [hlookup, hid, hgone]
        · simp [hlookup, hid]
      · simp [hmem, hgone]
    | some slotIdx =>
      obtain ⟨first, row, hremove, hfirst, hfound, hothers⟩ := h.removeRowSlot hrow
      obtain ⟨left, removed, hrest, hleft, hlookup, hmem⟩ := ih hfirst
      rw [hremove]
      refine ⟨left, row :: removed, ?_, hleft, fun id => ?_, fun other => ?_⟩
      · simp [hrest]
      · by_cases hid : id = rowId
        · simp [hlookup, hothers, hid]
        · simp [hlookup, hothers, hid]
      · rw [List.mem_cons, hmem, List.exists_mem_cons_iff, hfound, Option.some.injEq, eq_comm]
        apply or_congr_right'
        intro hne
        refine exists_congr fun id => and_congr_right fun _ => ?_
        rw [hothers]
        split
        next hid => simp [hid, hfound, hne]
        next => rfl

end RowSlots

end Slots

end Cynos.Storage
