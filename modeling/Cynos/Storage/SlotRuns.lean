import Cynos.Incremental.Trace
import Cynos.Storage.GinContent

/-! The slots of a row store along everything that can be done with it: loading, single rows and
batches, replacements, and changes of a row in its place. -/
namespace Cynos.Storage

open Core (Row Scalar Value)
open Incremental (Delta)
open Index (GinIndex RowId)

namespace RowStore

variable {P S G B : Type} (ops : BatchOps P S G B)

section BulkLoad

/-- The primary keys met so far, and those of each unique index. -/
abbrev SeenBatchKeys := List (IndexKey Scalar) × List (Option (List (IndexKey Scalar)))

def uniqueError (column : String) (key : IndexKey Scalar) : Error :=
  .uniqueConstraint column (key.toErrorValue ops.debugValues)

def seeKey (column : String) (seen : List (IndexKey Scalar)) (key : IndexKey Scalar) :
    Except Error (List (IndexKey Scalar)) :=
  match insertSeen seen key with
  | some seen => .ok seen
  | none => .error (uniqueError ops column key)

def validateBulkRow (pkColumns : List Nat) (defs : List BatchSecondaryDef) (seen : SeenBatchKeys)
    (row : Row Scalar) : Except Error SeenBatchKeys := do
  let primary ←
    if pkColumns.isEmpty then .ok seen.1
    else seeKey ops "primary_key" seen.1 (extractKey row pkColumns)
  let secondary ← (defs.zip seen.2).mapM fun (definition, keys) =>
    match keys with
    | none => .ok none
    | some keys => (seeKey ops definition.name keys (extractKey row definition.cols)).map some
  .ok (primary, secondary)

/-- Whether the ids of the rows always rise, as `windows` sees them. -/
def idsRise : List (Row Scalar) → Bool
  | first :: second :: rows => decide (first.id < second.id) && idsRise (second :: rows)
  | _ => true

def validateEmptyBulkLoadRows (store : RowStore P S G) (defs : List BatchSecondaryDef)
    (rows : List (Row Scalar)) : Except Error Unit :=
  if !idsRise rows then
    .error (.invalidOperation "Bulk load rows must be sorted by strictly increasing row ID")
  else
    (rows.foldlM (validateBulkRow ops store.pkColumns defs)
      ([], defs.map fun definition => if definition.unique then some [] else none)).map fun _ => ()

/-- `bulk_load`; `bulkLoad` is what it does with rows it has accepted. -/
def loadEmpty (store : RowStore P S G) (rows : List (Row Scalar)) :
    RowStore P S G × Except Error Nat :=
  if rows.isEmpty then (store, .ok 0)
  else if !store.slots.rows.isEmpty then
    (store, .error (.invalidOperation "Bulk load requires an empty table store"))
  else
    let defs := store.secondaryDefs ops
    match store.validateEmptyBulkLoadRows ops defs rows with
    | .error error => (store, .error error)
    | .ok () => store.bulkLoad ops defs rows

end BulkLoad

section Replace

/-- The first row id a primary index has for a key. -/
abbrev FirstRowId (P : Type) := P → IndexKey Scalar → Option RowId

variable (firstRowId : FirstRowId P)

def findRowIdByPk (store : RowStore P S G) (row : Row Scalar) : Option RowId :=
  store.primaryIndex.bind fun index => firstRowId index (extractKey row store.pkColumns)

/-- The row id, and whether a row was replaced. -/
def insertOrReplace (store : RowStore P S G) (row : Row Scalar) :
    RowStore P S G × Except Error (RowId × Bool) :=
  match store.findRowIdByPk firstRowId row with
  | some existingRowId =>
    let (store, result) := store.update ops.toIndexOps existingRowId (.new existingRowId row.values)
    (store, result.map fun () => (existingRowId, true))
  | none =>
    let (store, result) := store.insert ops.toIndexOps row
    (store, result.map fun rowId => (rowId, false))

/-- What a caller of `get_mut` makes of the row it is given. -/
def getMut (store : RowStore P S G) (rowId : RowId) (change : Row Scalar → Row Scalar) :
    RowStore P S G × Option (Row Scalar) :=
  match store.slots.rowRefById rowId with
  | none => (store, none)
  | some row => ({ store with slots := store.slots.replaceRowSlot rowId (change row) }, some row)

end Replace

section Deltas

def insertWithDelta (store : RowStore P S G) (row : Row Scalar) :
    RowStore P S G × Except Error (Delta (Row Scalar)) :=
  let (store, result) := store.insert ops.toIndexOps row
  (store, result.map fun _ => ⟨row, 1⟩)

def deleteWithDelta (store : RowStore P S G) (rowId : RowId) :
    Option (RowStore P S G × Except Error (Delta (Row Scalar))) := do
  let (store, result) ← store.delete ops.toIndexOps rowId
  some (store, result.map fun row => ⟨row, -1⟩)

def updateWithDelta (store : RowStore P S G) (rowId : RowId) (newRow : Row Scalar) :
    RowStore P S G × Except Error (Delta (Row Scalar) × Delta (Row Scalar)) :=
  match store.slots.rowRefById rowId with
  | none => (store, .error (.notFound store.name (rowIdValue rowId)))
  | some oldRow =>
    let (store, result) := store.update ops.toIndexOps rowId newRow
    (store, result.map fun () => (⟨oldRow, -1⟩, ⟨newRow, 1⟩))

end Deltas

end RowStore

/-- Everything a row store offers that may change it. -/
inductive RowStoreOperation where
  | insert (row : Row Scalar)
  | insertBatch (rows : List (Row Scalar))
  | bulkLoad (rows : List (Row Scalar))
  | update (rowId : RowId) (newRow : Row Scalar)
  | delete (rowId : RowId)
  | deleteBatch (rowIds : List RowId)
  | clear
  | insertOrReplace (row : Row Scalar)
  | getMut (rowId : RowId) (change : Row Scalar → Row Scalar)
  | insertWithDelta (row : Row Scalar)
  | deleteWithDelta (rowId : RowId)
  | updateWithDelta (rowId : RowId) (newRow : Row Scalar)

/-- The store after an operation, whether it was refused or not; `none` where it panics. -/
def RowStore.operate {P S G B : Type} (ops : BatchOps P S G B)
    (firstRowId : RowStore.FirstRowId P) (store : RowStore P S G) :
    RowStoreOperation → Option (RowStore P S G)
  | .insert row => some (store.insert ops.toIndexOps row).1
  | .insertBatch rows => some (store.insertBatch ops rows).1
  | .bulkLoad rows => some (store.loadEmpty ops rows).1
  | .update rowId newRow => some (store.update ops.toIndexOps rowId newRow).1
  | .delete rowId => (store.delete ops.toIndexOps rowId).map Prod.fst
  | .deleteBatch rowIds => (store.deleteBatch ops rowIds).map Prod.fst
  | .clear => some (store.clear ops)
  | .insertOrReplace row => some (store.insertOrReplace ops firstRowId row).1
  | .getMut rowId change => some (store.getMut rowId change).1
  | .insertWithDelta row => some (store.insertWithDelta ops row).1
  | .deleteWithDelta rowId => (store.deleteWithDelta ops rowId).map Prod.fst
  | .updateWithDelta rowId newRow => some (store.updateWithDelta ops rowId newRow).1

namespace RowStore

variable {P S G B : Type} {ops : BatchOps P S G B} {store : RowStore P S G}

section Ascending

variable {rows : List (Row Scalar)}

theorem pairwise_of_idsRise (h : idsRise rows = true) : (rows.map Row.id).Pairwise (· < ·) := by
  induction rows with
  | nil => exact .nil
  | cons first rows ih =>
    cases rows with
    | nil => exact List.pairwise_singleton _ _
    | cons second rows =>
      rw [idsRise, Bool.and_eq_true, decide_eq_true_eq] at h
      have hrest := ih h.2
      rw [List.map_cons, List.pairwise_cons] at hrest ⊢
      refine ⟨fun id hid => ?_, List.pairwise_cons.mpr hrest⟩
      rcases List.mem_cons.mp hid with rfl | hid
      · exact h.1
      · exact h.1.trans (hrest.1 id hid)

end Ascending

section Steps

variable (h : store.slots.Valid)

include h

theorem insert_slots (row : Row Scalar) : (store.insert ops.toIndexOps row).1.slots.Valid := by
  rcases insert_cases ops.toIndexOps store row with ⟨-, hslots⟩ | ⟨-, hfresh, hslots⟩
  · rwa [hslots]
  · rw [hslots]
    exact h.insertRowSlot hfresh row

theorem update_slots (rowId : RowId) (newRow : Row Scalar) :
    (store.update ops.toIndexOps rowId newRow).1.slots.Valid := by
  rcases update_cases ops.toIndexOps store rowId newRow with ⟨-, hslots⟩ | ⟨-, -, hslots⟩
  · rwa [hslots]
  · rw [hslots]
    exact h.replaceRowSlot newRow

theorem delete_slots (rowId : RowId) :
    ∃ left, (store.delete ops.toIndexOps rowId).map Prod.fst = some left ∧ left.slots.Valid := by
  obtain ⟨left, deleted, hdelete, hleft, -⟩ := delete_cases ops.toIndexOps h rowId
  exact ⟨left, by rw [hdelete]; rfl, hleft⟩

theorem deleteBatch_slots (rowIds : List RowId) :
    ∃ left, (store.deleteBatch ops rowIds).map Prod.fst = some left ∧ left.slots.Valid := by
  obtain ⟨slots, removed, hremove, hleft, -⟩ := h.removeRowSlots rowIds
  rw [deleteBatch, hremove]
  cases removed with
  | nil => exact ⟨_, rfl, hleft⟩
  | cons row rows => exact ⟨_, rfl, hleft⟩

theorem bulkLoad_slots (hempty : store.slots.rows.isEmpty = true) (defs : List BatchSecondaryDef)
    {rows : List (Row Scalar)} (hrows : (rows.map Row.id).Pairwise (· < ·)) :
    (store.bulkLoad ops defs rows).1.slots.Valid := by
  unfold bulkLoad
  split
  · exact RowSlots.valid_empty
  dsimp only
  split
  · exact RowSlots.valid_empty
  · change (bulkSlots store.slots rows).Valid
    rw [h.bulkSlots hempty hrows]
    refine h.insertAll (fun row _ => ?_) (hrows.imp fun hlt => hlt.ne)
    rw [h.rowRefById_eq_none, Std.ExtTreeMap.isEmpty_iff.mp hempty]
    simp

theorem loadEmpty_slots (rows : List (Row Scalar)) : (store.loadEmpty ops rows).1.slots.Valid := by
  unfold loadEmpty
  split
  · exact h
  split
  · exact h
  next hempty =>
    dsimp only
    split
    · exact h
    next hvalidated =>
      have hrise : idsRise rows = true := by
        by_contra hnot
        rw [validateEmptyBulkLoadRows, if_pos (by simpa using hnot)] at hvalidated
        cases hvalidated
      exact bulkLoad_slots h (by simpa using hempty) _ (pairwise_of_idsRise hrise)

theorem applyPreparedBatchInsert_slots (defs : List BatchSecondaryDef) {rows : List (Row Scalar)}
    (hfresh : ∀ row ∈ rows, store.slots.rowRefById row.id = none)
    (hnodup : (rows.map Row.id).Nodup) (prepared : PreparedBatchInsert) :
    (store.applyPreparedBatchInsert ops defs rows prepared).1.slots.Valid := by
  unfold applyPreparedBatchInsert
  split
  · exact h
  dsimp only
  split
  · exact h
  · exact h.insertAll hfresh hnodup

/-- The rows of a batch, up to the first that is refused. -/
theorem insertRows_slots (defs : List BatchSecondaryDef) (builders : List B) (inserted : Nat)
    (rows : List (Row Scalar)) :
    (insertRows ops defs store builders inserted rows).1.slots.Valid := by
  induction rows generalizing store builders inserted with
  | nil => exact h
  | cons row rows ih =>
    obtain ⟨hslots, -, -, hfresh⟩ := addKeys_spec ops store defs row
    rw [insertRows]
    rcases hkeys : store.addKeys ops defs row with ⟨next, _ | error⟩
    · rw [hkeys] at hslots hfresh
      dsimp only at hslots hfresh ⊢
      rw [← hslots] at h hfresh
      exact ih (h.insertRowSlot (hfresh rfl) row) _ _
    · rw [hkeys] at hslots
      dsimp only at hslots ⊢
      change next.slots.Valid
      rwa [hslots]

theorem insertBatch_slots (rows : List (Row Scalar)) :
    (store.insertBatch ops rows).1.slots.Valid := by
  unfold insertBatch
  split
  · exact h
  dsimp only
  split
  next hbulk =>
    rw [Bool.and_eq_true, canUseBulkInsertFastPath, Bool.and_eq_true] at hbulk
    exact bulkLoad_slots h hbulk.1 _
      (ascending_of_canUseBulkInsertFastPath hbulk.2.1 hbulk.2.2)
  next =>
    split
    next prepared hprepared =>
      obtain ⟨hfresh, hnodup⟩ := fresh_of_prepareBatchInsertMerge h hprepared
      exact applyPreparedBatchInsert_slots h _ hfresh hnodup prepared
    next => exact insertRows_slots h _ _ 0 rows

theorem insertOrReplace_slots (firstRowId : FirstRowId P) (row : Row Scalar) :
    (store.insertOrReplace ops firstRowId row).1.slots.Valid := by
  unfold insertOrReplace
  split
  next existingRowId _ => exact update_slots h existingRowId _
  next => exact insert_slots h row

theorem getMut_slots (rowId : RowId) (change : Row Scalar → Row Scalar) :
    (store.getMut rowId change).1.slots.Valid := by
  unfold getMut
  split
  · exact h
  next row _ => exact h.replaceRowSlot (change row)

theorem updateWithDelta_slots (rowId : RowId) (newRow : Row Scalar) :
    (store.updateWithDelta ops rowId newRow).1.slots.Valid := by
  unfold updateWithDelta
  split
  · exact h
  · exact update_slots h rowId newRow

theorem operate_slots (firstRowId : FirstRowId P) (operation : RowStoreOperation) :
    ∃ next, store.operate ops firstRowId operation = some next ∧ next.slots.Valid := by
  cases operation with
  | insert row | insertWithDelta row => exact ⟨_, rfl, insert_slots h row⟩
  | insertBatch rows => exact ⟨_, rfl, insertBatch_slots h rows⟩
  | bulkLoad rows => exact ⟨_, rfl, loadEmpty_slots h rows⟩
  | update rowId newRow => exact ⟨_, rfl, update_slots h rowId newRow⟩
  | delete rowId => exact delete_slots h rowId
  | deleteBatch rowIds => exact deleteBatch_slots h rowIds
  | clear => exact ⟨_, rfl, RowSlots.valid_empty⟩
  | insertOrReplace row => exact ⟨_, rfl, insertOrReplace_slots h firstRowId row⟩
  | getMut rowId change => exact ⟨_, rfl, getMut_slots h rowId change⟩
  | deleteWithDelta rowId =>
    obtain ⟨left, hleft, hvalid⟩ :
        ∃ left, (store.delete ops.toIndexOps rowId).map Prod.fst = some left ∧ left.slots.Valid :=
      delete_slots h rowId
    obtain ⟨deleted, hdelete, heq⟩ := Option.map_eq_some_iff.mp hleft
    refine ⟨left, ?_, hvalid⟩
    rw [operate, deleteWithDelta, hdelete]
    exact congrArg some heq
  | updateWithDelta rowId newRow => exact ⟨_, rfl, updateWithDelta_slots h rowId newRow⟩

end Steps

section Runs

/-- From a new store on no operation panics, and the slots stay in order. -/
theorem run_slots_valid {P S : Type} (formats : JsonbFormats) (keys : KeyOps P S)
    (schema : TableSchema) (firstRowId : FirstRowId P) (operations : List RowStoreOperation) :
    ∃ store, Run.run (operate (keys.withGin formats) firstRowId) (.new keys schema) operations =
        some store ∧ store.slots.Valid := by
  have hnew : (RowStore.new keys schema).slots.Valid := (ginSound_new formats keys schema).valid
  have hall : Run.Along (operate (keys.withGin formats) firstRowId) (fun _ _ => True)
      (.new keys schema) operations := Run.along_of_forall fun _ _ _ => trivial
  exact Run.preserves (fun _ operation h _ => operate_slots h firstRowId operation) hnew hall

end Runs

end RowStore

end Cynos.Storage
