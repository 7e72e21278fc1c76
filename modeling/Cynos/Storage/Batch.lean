import Cynos.Storage.RowStore

/-! Rows inserted and deleted in batches. A batch that cannot fail is entered into each index at
once; another one is worked in row by row, up to the first row that is refused. -/
namespace Cynos.Storage

open Core
open Index (RowId)

abbrev BatchEntries := List (IndexKey Scalar × RowId)

/-- What an index does with many keys. -/
structure BatchStore (I : Type) where
  addBatchIndexKeys : I → BatchEntries → I × Bool
  removeBatchIndexKeys : I → BatchEntries → I
  clear : I → I

/-- `B` are the builders that collect the entries of many rows for a GIN index. -/
structure BatchOps (P S G B : Type) extends IndexOps P S G where
  primaryBatch : BatchStore P
  secondaryBatch : BatchStore S
  newBuilder : B
  collectJsonbValue : GinIndexConfig → B → Value Scalar → RowId → B
  applyBulkBuilder : G → B → G
  clearGin : G → G

structure BatchSecondaryDef where
  name : String
  cols : List Nat
  unique : Bool

section Keys

/-- The order of the keys in a `BTreeSet`. -/
def keyCmp (a b : IndexKey Scalar) : Ordering := @IndexKey.cmp Scalar ⟨Value.cmp⟩ a b

def entriesOf (rows : List (Row Scalar)) (cols : List Nat) : BatchEntries :=
  rows.map fun row => (extractKey row cols, row.id)

def firstEqualNeighbour : List (IndexKey Scalar) → Option (IndexKey Scalar)
  | left :: right :: keys =>
    if left.eq right then some left else firstEqualNeighbour (right :: keys)
  | _ => none

def firstDuplicateBatchKey (entries : BatchEntries) : Option (IndexKey Scalar) :=
  firstEqualNeighbour ((entries.map Prod.fst).mergeSort fun a b => keyCmp a b != .gt)

/-- The keys met so far in a batch. -/
structure SeenKeys where
  rowIds : List RowId
  primaryKeys : List (IndexKey Scalar)
  secondaryKeys : List (Option (List (IndexKey Scalar)))

def SeenKeys.new (defs : List BatchSecondaryDef) : SeenKeys :=
  ⟨[], [], defs.map fun definition => if definition.unique then some [] else none⟩

/-- `BTreeSet::insert`, which takes a key in once. -/
def insertSeen (seen : List (IndexKey Scalar)) (key : IndexKey Scalar) :
    Option (List (IndexKey Scalar)) :=
  if seen.any fun other => keyCmp other key == .eq then none else some (key :: seen)

/-- `none` where the row repeats an id or a unique key of the batch. -/
def seeRow (pkColumns : List Nat) (defs : List BatchSecondaryDef) (seen : SeenKeys)
    (row : Row Scalar) : Option SeenKeys := do
  let rowIds ← if row.id ∈ seen.rowIds then none else some (row.id :: seen.rowIds)
  let primaryKeys ←
    if pkColumns.isEmpty then some seen.primaryKeys
    else insertSeen seen.primaryKeys (extractKey row pkColumns)
  let secondaryKeys ← (defs.zip seen.secondaryKeys).mapM fun (definition, keys) =>
    match keys with
    | none => some none
    | some keys => (insertSeen keys (extractKey row definition.cols)).map some
  some ⟨rowIds, primaryKeys, secondaryKeys⟩

/-- Whether the ids of the rows never fall, as `windows` sees them. -/
def idsAscend : List (Row Scalar) → Bool
  | first :: second :: rows => decide (first.id ≤ second.id) && idsAscend (second :: rows)
  | _ => true

def hasDistinctKeys (pkColumns : List Nat) (defs : List BatchSecondaryDef)
    (rows : List (Row Scalar)) : Bool :=
  (rows.foldlM (seeRow pkColumns defs) (.new defs)).isSome

end Keys

namespace RowStore

variable {P S G B : Type} (ops : BatchOps P S G B)

def secondaryDefs (store : RowStore P S G) : List BatchSecondaryDef :=
  store.indexColumns.toList.map fun (name, cols) =>
    ⟨name, cols, store.secondaryIndices[name]?.any ops.secondary.isUnique⟩

def ginDefs (store : RowStore P S G) : List (String × GinIndexConfig) :=
  store.ginIndexConfigs.toList

/-- Clears all rows and indices. -/
def clear (store : RowStore P S G) : RowStore P S G :=
  { store with
    slots := .empty
    primaryIndex := store.primaryIndex.map ops.primaryBatch.clear
    secondaryIndices := store.secondaryIndices.map fun _ => ops.secondaryBatch.clear
    ginIndices := store.ginIndices.map fun _ => ops.clearGin }

section Builders

def collectRow (defs : List (String × GinIndexConfig)) (builders : List B) (row : Row Scalar) :
    List B :=
  List.zipWith (fun definition builder =>
    match row.get definition.2.columnIdx with
    | some value => ops.collectJsonbValue definition.2 builder value row.id
    | none => builder) defs builders

def flushGinBulkBuilders (store : RowStore P S G) (builders : List B) : RowStore P S G :=
  { store with
    ginIndices := forEachIndexMut (fun _ builder gin => ops.applyBulkBuilder gin builder)
      ((store.ginDefs.zip builders).map fun (definition, builder) => (definition.1, builder))
      store.ginIndices }

/-- The entries of all rows, collected and merged in. -/
def indexGinBatch (store : RowStore P S G) (rows : List (Row Scalar)) : RowStore P S G :=
  store.flushGinBulkBuilders ops
    (rows.foldl (collectRow ops store.ginDefs) (store.ginDefs.map fun _ => ops.newBuilder))

end Builders

section BulkLoad

/-- The index with the entries, and the error when they were not taken in. A primary index
that refuses entries without a repeated key gives none. -/
def bulkPrimary (store : RowStore P S G) (rows : List (Row Scalar)) : Option P × Option Error :=
  match store.primaryIndex with
  | none => (none, none)
  | some index =>
    let entries := entriesOf rows store.pkColumns
    let (index, added) := ops.primaryBatch.addBatchIndexKeys index entries
    (some index,
      if added then none
      else (firstDuplicateBatchKey entries).map fun pk =>
        .uniqueConstraint "primary_key" (pk.toErrorValue ops.debugValues))

def batchError (definition : BatchSecondaryDef) (entries : BatchEntries) : Error :=
  .uniqueConstraint definition.name
    (((firstDuplicateBatchKey entries).map (·.toErrorValue ops.debugValues)).getD none)

def bulkSecondary (rows : List (Row Scalar)) :
    List BatchSecondaryDef → Std.ExtTreeMap String S → Std.ExtTreeMap String S × Option Error
  | [], indices => (indices, none)
  | definition :: defs, indices =>
    match indices[definition.name]? with
    | none => bulkSecondary rows defs indices
    | some index =>
      let entries := entriesOf rows definition.cols
      match ops.secondaryBatch.addBatchIndexKeys index entries with
      | (index, true) => bulkSecondary rows defs (indices.insert definition.name index)
      | (index, false) =>
        (indices.insert definition.name index, some (batchError ops definition entries))

/-- The rows go into the slots one after the other, numbered from nought. -/
def bulkSlots (slots : RowSlots Scalar) (rows : List (Row Scalar)) : RowSlots Scalar :=
  rows.zipIdx.foldl (fun slots (row, slotIdx) =>
    { rows := slots.rows.insert row.id slotIdx
      rowSlots := slots.rowSlots ++ [⟨row.id, row⟩]
      scanOrder := slots.scanOrder ++ [slotIdx] }) slots

def bulkLoad (store : RowStore P S G) (defs : List BatchSecondaryDef) (rows : List (Row Scalar)) :
    RowStore P S G × Except Error Nat :=
  match store.bulkPrimary ops rows with
  | (primaryIndex, some error) =>
    (({ store with primaryIndex := primaryIndex }).clear ops, .error error)
  | (primaryIndex, none) =>
    let store := { store with primaryIndex := primaryIndex }
    match bulkSecondary ops rows defs store.secondaryIndices with
    | (secondaryIndices, some error) =>
      (({ store with secondaryIndices := secondaryIndices }).clear ops, .error error)
    | (secondaryIndices, none) =>
      let store := { store with secondaryIndices := secondaryIndices }
      let store := store.indexGinBatch ops rows
      let store := { store with slots := bulkSlots store.slots rows }
      (store, .ok store.slots.rowSlots.length)

def canUseBulkInsertFastPath (store : RowStore P S G) (defs : List BatchSecondaryDef)
    (rows : List (Row Scalar)) : Bool :=
  idsAscend rows && hasDistinctKeys store.pkColumns defs rows

end BulkLoad

section Prepared

structure PreparedBatchInsert where
  primaryEntries : Option BatchEntries
  secondaryEntries : List BatchEntries

/-- The row's id or one of its unique keys is in the store. -/
def keyTaken (store : RowStore P S G) (defs : List BatchSecondaryDef) (row : Row Scalar) : Bool :=
  row.id ∈ store.slots.rows || store.primaryTaken ops.toIndexOps row ||
    defs.any fun definition => definition.unique &&
      store.secondaryIndices[definition.name]?.any fun index =>
        ops.secondary.containsIndexKey index (extractKey row definition.cols)

def prepareBatchInsertMerge (store : RowStore P S G) (defs : List BatchSecondaryDef)
    (rows : List (Row Scalar)) : Option PreparedBatchInsert :=
  if rows.isEmpty || !idsAscend rows || rows.any (store.keyTaken ops defs) ||
      !hasDistinctKeys store.pkColumns defs rows then none
  else some
    { primaryEntries :=
        if store.pkColumns.isEmpty then none else some (entriesOf rows store.pkColumns)
      secondaryEntries := defs.map fun definition => entriesOf rows definition.cols }

def preparedPrimary (store : RowStore P S G) (prepared : PreparedBatchInsert) :
    Option P × Option Error :=
  match store.primaryIndex, prepared.primaryEntries with
  | some index, some entries =>
    let (index, added) := ops.primaryBatch.addBatchIndexKeys index entries
    (some index,
      if added then none
      else some (.uniqueConstraint "primary_key"
        (((firstDuplicateBatchKey entries).map (·.toErrorValue ops.debugValues)).getD none)))
  | primaryIndex, _ => (primaryIndex, none)

def rollbackBatch (done : List (BatchSecondaryDef × BatchEntries))
    (indices : Std.ExtTreeMap String S) : Std.ExtTreeMap String S :=
  forEachIndexMut (fun _ entries index => ops.secondaryBatch.removeBatchIndexKeys index entries)
    (done.map fun (definition, entries) => (definition.name, entries)) indices

/-- `done` are the definitions before, whose entries are taken out again on an error. -/
def preparedSecondary (done : List (BatchSecondaryDef × BatchEntries)) :
    List (BatchSecondaryDef × BatchEntries) → Std.ExtTreeMap String S →
      Std.ExtTreeMap String S × Option Error
  | [], indices => (indices, none)
  | (definition, entries) :: defs, indices =>
    match indices[definition.name]? with
    | none => preparedSecondary (done ++ [(definition, entries)]) defs indices
    | some index =>
      match ops.secondaryBatch.addBatchIndexKeys index entries with
      | (index, true) => preparedSecondary (done ++ [(definition, entries)]) defs
          (indices.insert definition.name index)
      | (index, false) => (rollbackBatch ops done (indices.insert definition.name index),
          some (batchError ops definition entries))

def applyPreparedBatchInsert (store : RowStore P S G) (defs : List BatchSecondaryDef)
    (rows : List (Row Scalar)) (prepared : PreparedBatchInsert) :
    RowStore P S G × Except Error Nat :=
  match store.preparedPrimary ops prepared with
  | (primaryIndex, some error) => ({ store with primaryIndex := primaryIndex }, .error error)
  | (primaryIndex, none) =>
    let store := { store with primaryIndex := primaryIndex }
    match preparedSecondary ops [] (defs.zip prepared.secondaryEntries) store.secondaryIndices with
    | (secondaryIndices, some error) =>
      ({ store with
          secondaryIndices := secondaryIndices
          primaryIndex :=
            match store.primaryIndex, prepared.primaryEntries with
            | some index, some entries =>
              some (ops.primaryBatch.removeBatchIndexKeys index entries)
            | primaryIndex, _ => primaryIndex }, .error error)
    | (secondaryIndices, none) =>
      let store := { store with secondaryIndices := secondaryIndices }
      let store := store.indexGinBatch ops rows
      ({ store with
          slots := rows.foldl (fun slots row => slots.insertRowSlot row.id row) store.slots },
        .ok rows.length)

end Prepared

section RowByRow

/-- The keys of the definitions before are taken out again when one is refused. -/
def addSecondaryKeys (row : Row Scalar) (done : List BatchSecondaryDef) :
    List BatchSecondaryDef → Std.ExtTreeMap String S → Std.ExtTreeMap String S × Option Error
  | [], indices => (indices, none)
  | definition :: defs, indices =>
    match indices[definition.name]? with
    | none => addSecondaryKeys row (done ++ [definition]) defs indices
    | some index =>
      let key := extractKey row definition.cols
      match ops.secondary.addIndexKey index key row.id with
      | (index, true) =>
        addSecondaryKeys row (done ++ [definition]) defs (indices.insert definition.name index)
      | (index, false) =>
        (forEachIndexMut (fun _ cols index =>
            ops.secondary.removeIndexKey index (extractKey row cols) row.id)
          (done.map fun definition => (definition.name, definition.cols))
          (indices.insert definition.name index),
        some (.uniqueConstraint definition.name (key.toErrorValue ops.debugValues)))

/-- The first unique index that has the row's key. -/
def secondaryConflict (store : RowStore P S G) (defs : List BatchSecondaryDef)
    (row : Row Scalar) : Option Error :=
  defs.findSome? fun definition =>
    let key := extractKey row definition.cols
    if definition.unique && store.secondaryIndices[definition.name]?.any fun index =>
        ops.secondary.containsIndexKey index key then
      some (.uniqueConstraint definition.name (key.toErrorValue ops.debugValues))
    else none

/-- The keys of a row of the batch, or why it is refused. -/
def addKeys (store : RowStore P S G) (defs : List BatchSecondaryDef) (row : Row Scalar) :
    RowStore P S G × Option Error :=
  if row.id ∈ store.slots.rows then (store, some (.invalidOperation "Row ID already exists"))
  else if store.primaryTaken ops.toIndexOps row then
    (store, some (store.primaryError ops.toIndexOps row))
  else
    match store.secondaryConflict ops defs row with
    | some error => (store, some error)
    | none =>
      match store.addPrimary ops.toIndexOps row with
      | (primaryIndex, false) =>
        ({ store with primaryIndex := primaryIndex },
          some (store.primaryError ops.toIndexOps row))
      | (primaryIndex, true) =>
        let store := { store with primaryIndex := primaryIndex }
        match addSecondaryKeys ops row [] defs store.secondaryIndices with
        | (secondaryIndices, none) =>
          ({ store with secondaryIndices := secondaryIndices }, none)
        | (secondaryIndices, some error) =>
          ({ store with
              secondaryIndices := secondaryIndices
              primaryIndex :=
                if store.pkColumns.isEmpty then store.primaryIndex
                else store.primaryIndex.map fun index =>
                  ops.primary.removeIndexKey index (extractKey row store.pkColumns) row.id },
            some error)

/-- The rows accepted before a later validation failure remain committed. -/
def insertRows (defs : List BatchSecondaryDef) (store : RowStore P S G) (builders : List B)
    (inserted : Nat) : List (Row Scalar) → RowStore P S G × Except Error Nat
  | [] => (store.flushGinBulkBuilders ops builders, .ok inserted)
  | row :: rows =>
    match store.addKeys ops defs row with
    | (store, some error) => (store.flushGinBulkBuilders ops builders, .error error)
    | (store, none) =>
      insertRows defs { store with slots := store.slots.insertRowSlot row.id row }
        (collectRow ops store.ginDefs builders row) (inserted + 1) rows

end RowByRow

/-- Inserts multiple rows while batching GIN index maintenance per insert call. -/
def insertBatch (store : RowStore P S G) (rows : List (Row Scalar)) :
    RowStore P S G × Except Error Nat :=
  if rows.isEmpty then (store, .ok 0)
  else
    let defs := store.secondaryDefs ops
    if store.slots.rows.isEmpty && store.canUseBulkInsertFastPath defs rows then
      store.bulkLoad ops defs rows
    else
      match store.prepareBatchInsertMerge ops defs rows with
      | some prepared => store.applyPreparedBatchInsert ops defs rows prepared
      | none => insertRows ops defs store (store.ginDefs.map fun _ => ops.newBuilder) 0 rows

section Delete

/-- `none` where an index of the slots is out of range. -/
def removeRowSlots (slots : RowSlots Scalar) :
    List RowId → Option (RowSlots Scalar × List (Row Scalar))
  | [] => some (slots, [])
  | rowId :: rowIds => do
    let (slots, removed) ← slots.removeRowSlot rowId
    let (slots, rows) ← removeRowSlots slots rowIds
    return (slots, removed.toList ++ rows)

def removeGinBatch (store : RowStore P S G) (deletedRows : List (Row Scalar)) :
    Std.ExtTreeMap String G :=
  forEachIndexMut (fun _ config gin =>
    deletedRows.foldl (fun gin row =>
      match row.get config.columnIdx with
      | some value => ops.removeJsonbFromGin config gin value row.id
      | none => gin) gin) store.ginIndexConfigs.toList store.ginIndices

/-- Deletes multiple rows from the store in batch. -/
def deleteBatch (store : RowStore P S G) (rowIds : List RowId) :
    Option (RowStore P S G × List (Row Scalar)) := do
  let (slots, deletedRows) ← removeRowSlots store.slots rowIds
  let store := { store with slots := slots }
  if deletedRows.isEmpty then return (store, [])
  let store := { store with
    primaryIndex :=
      if store.pkColumns.isEmpty then store.primaryIndex
      else store.primaryIndex.map fun index =>
        ops.primaryBatch.removeBatchIndexKeys index (entriesOf deletedRows store.pkColumns) }
  let store := { store with
    secondaryIndices := forEachIndexMut (fun _ cols index =>
      ops.secondaryBatch.removeBatchIndexKeys index (entriesOf deletedRows cols))
      store.indexColumns.toList store.secondaryIndices }
  return ({ store with ginIndices := store.removeGinBatch ops deletedRows }, deletedRows)

end Delete

end RowStore

end Cynos.Storage
