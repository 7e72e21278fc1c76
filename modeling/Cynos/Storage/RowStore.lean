import Cynos.Core.Scalar
import Cynos.Storage.IndexKey
import Cynos.Storage.RowSlots

/-! The rows of one table with their indexes. A change is checked against the unique
indexes, then made in every index, last in the slots. What an index does with a key is a
parameter: `P` are the primary indexes, `S` the secondary and `G` the GIN ones. -/
namespace Cynos.Storage

open Core
open Index (RowId)

inductive Error where
  | uniqueConstraint (column : String) (value : Value Scalar)
  | notFound (table : String) (key : Value Scalar)
  | invalidOperation (message : String)

structure GinIndexConfig where
  columnIdx : Nat
  indexedPaths : Option (List String)

/-- `addIndexKey` tells with the new index whether the key was taken in. -/
structure IndexStore (I : Type) where
  containsIndexKey : I → IndexKey Scalar → Bool
  addIndexKey : I → IndexKey Scalar → RowId → I × Bool
  removeIndexKey : I → IndexKey Scalar → RowId → I
  isUnique : I → Bool

structure IndexOps (P S G : Type) where
  primary : IndexStore P
  secondary : IndexStore S
  indexJsonbValue : GinIndexConfig → G → Value Scalar → RowId → G
  removeJsonbFromGin : GinIndexConfig → G → Value Scalar → RowId → G
  /-- `format!("{:?}", values)`. -/
  debugValues : List (Value Scalar) → String

namespace IndexKey

def eq : IndexKey Scalar → IndexKey Scalar → Bool
  | .scalar a, .scalar b => Value.eq a b
  | .composite a, .composite b => a.isEqv b Value.eq
  | .compositePrefixLower a, .compositePrefixLower b => a.isEqv b Value.eq
  | .compositePrefixUpper a, .compositePrefixUpper b => a.isEqv b Value.eq
  | _, _ => false

def toErrorValue (debugValues : List (Value Scalar) → String) : IndexKey Scalar → Value Scalar
  | .scalar value => value
  | .composite values | .compositePrefixLower values | .compositePrefixUpper values =>
    some (.string (debugValues values))

end IndexKey

def extractKey (row : Row Scalar) (colIndices : List Nat) : IndexKey Scalar :=
  IndexKey.fromRow row colIndices

structure RowStore (P S G : Type) where
  name : String
  slots : RowSlots Scalar
  primaryIndex : Option P
  pkColumns : List Nat
  secondaryIndices : Std.ExtTreeMap String S
  indexColumns : Std.ExtTreeMap String (List Nat)
  ginIndices : Std.ExtTreeMap String G
  ginIndexConfigs : Std.ExtTreeMap String GinIndexConfig

namespace RowStore

variable {P S G : Type} (ops : IndexOps P S G)

section Loops

/-- Visits the indexes that have a definition, in the order of their names. -/
def forEachIndexMut {C I : Type} (visitor : String → C → I → I) (defs : List (String × C))
    (indices : Std.ExtTreeMap String I) : Std.ExtTreeMap String I :=
  defs.foldl (fun indices (name, config) =>
    match indices[name]? with
    | some index => indices.insert name (visitor name config index)
    | none => indices) indices

/-- The same up to the first error. -/
def tryForEachIndexMut {C I E : Type} (visitor : String → C → I → I × Except E Unit) :
    List (String × C) → Std.ExtTreeMap String I → Std.ExtTreeMap String I × Except E Unit
  | [], indices => (indices, .ok ())
  | (name, config) :: defs, indices =>
    match indices[name]? with
    | none => tryForEachIndexMut visitor defs indices
    | some index =>
      match visitor name config index with
      | (index, .ok ()) => tryForEachIndexMut visitor defs (indices.insert name index)
      | (index, .error error) => (indices.insert name index, .error error)

end Loops

def indexGin (store : RowStore P S G) (rowId : RowId) (row : Row Scalar) :
    Std.ExtTreeMap String G :=
  forEachIndexMut (fun _ config gin =>
    match row.get config.columnIdx with
    | some value => ops.indexJsonbValue config gin value rowId
    | none => gin) store.ginIndexConfigs.toList store.ginIndices

def removeGin (store : RowStore P S G) (rowId : RowId) (row : Row Scalar) :
    Std.ExtTreeMap String G :=
  forEachIndexMut (fun _ config gin =>
    match row.get config.columnIdx with
    | some value => ops.removeJsonbFromGin config gin value rowId
    | none => gin) store.ginIndexConfigs.toList store.ginIndices

def removeSecondary (store : RowStore P S G) (rowId : RowId) (row : Row Scalar) :
    Std.ExtTreeMap String S :=
  forEachIndexMut (fun _ cols index => ops.secondary.removeIndexKey index (extractKey row cols) rowId)
    store.indexColumns.toList store.secondaryIndices

def addSecondary (store : RowStore P S G) (rowId : RowId) (row : Row Scalar) :
    Std.ExtTreeMap String S × Except Error Unit :=
  tryForEachIndexMut (fun name cols index =>
    let key := extractKey row cols
    let (index, added) := ops.secondary.addIndexKey index key rowId
    (index, if added then .ok () else .error (.uniqueConstraint name (key.toErrorValue ops.debugValues))))
    store.indexColumns.toList store.secondaryIndices

def rollbackInsert (store : RowStore P S G) (rowId : RowId) (row : Row Scalar) : RowStore P S G :=
  let store := { store with
    primaryIndex := store.primaryIndex.map fun index =>
      ops.primary.removeIndexKey index (extractKey row store.pkColumns) rowId }
  let store := { store with secondaryIndices := store.removeSecondary ops rowId row }
  { store with ginIndices := store.removeGin ops rowId row }

/-- Whether another row has the primary key. -/
def primaryTaken (store : RowStore P S G) (row : Row Scalar) : Bool :=
  !store.pkColumns.isEmpty && store.primaryIndex.any fun index =>
    ops.primary.containsIndexKey index (extractKey row store.pkColumns)

/-- The primary index with the row's key, and whether it was taken in. -/
def addPrimary (store : RowStore P S G) (row : Row Scalar) : Option P × Bool :=
  match store.primaryIndex with
  | some index =>
    if store.pkColumns.isEmpty then (some index, true)
    else
      let (index, added) := ops.primary.addIndexKey index (extractKey row store.pkColumns) row.id
      (some index, added)
  | none => (none, true)

def primaryError (store : RowStore P S G) (row : Row Scalar) : Error :=
  .uniqueConstraint "primary_key" ((extractKey row store.pkColumns).toErrorValue ops.debugValues)

def insert (store : RowStore P S G) (row : Row Scalar) : RowStore P S G × Except Error RowId :=
  if row.id ∈ store.slots.rows then (store, .error (.invalidOperation "Row ID already exists"))
  else if store.primaryTaken ops row then (store, .error (store.primaryError ops row))
  else
    match store.addPrimary ops row with
    | (primaryIndex, false) =>
      ({ store with primaryIndex := primaryIndex }, .error (store.primaryError ops row))
    | (primaryIndex, true) =>
      let store := { store with primaryIndex := primaryIndex }
      match store.addSecondary ops row.id row with
      | (secondaryIndices, .error error) =>
        (({ store with secondaryIndices := secondaryIndices }).rollbackInsert ops row.id row,
          .error error)
      | (secondaryIndices, .ok ()) =>
        let store := { store with secondaryIndices := secondaryIndices }
        let store := { store with ginIndices := store.indexGin ops row.id row }
        ({ store with slots := store.slots.insertRowSlot row.id row }, .ok row.id)

/-- `Value::Int64(row_id as i64)`. -/
def rowIdValue (rowId : RowId) : Value Scalar := some (.int64 (UInt64.ofNat rowId).toInt64)

/-- The first unique index in which the changed key of the row is taken. -/
def updateConflict (store : RowStore P S G) (oldRow newRow : Row Scalar) : Option Error :=
  let oldPk := extractKey oldRow store.pkColumns
  let newPk := extractKey newRow store.pkColumns
  if !store.pkColumns.isEmpty && store.primaryIndex.any fun index =>
      !oldPk.eq newPk && ops.primary.containsIndexKey index newPk then
    some (store.primaryError ops newRow)
  else
    store.indexColumns.toList.findSome? fun (name, cols) =>
      let oldKey := extractKey oldRow cols
      let newKey := extractKey newRow cols
      match store.secondaryIndices[name]? with
      | some index =>
        if ops.secondary.isUnique index && !oldKey.eq newKey &&
            ops.secondary.containsIndexKey index newKey then
          some (.uniqueConstraint name (newKey.toErrorValue ops.debugValues))
        else none
      | none => none

def updatePrimary (store : RowStore P S G) (rowId : RowId) (oldRow newRow : Row Scalar) : Option P :=
  if store.pkColumns.isEmpty then store.primaryIndex
  else
    store.primaryIndex.map fun index =>
      let oldPk := extractKey oldRow store.pkColumns
      let newPk := extractKey newRow store.pkColumns
      if oldPk.eq newPk then index
      else (ops.primary.addIndexKey (ops.primary.removeIndexKey index oldPk rowId) newPk rowId).1

def updateSecondary (store : RowStore P S G) (rowId : RowId) (oldRow newRow : Row Scalar) :
    Std.ExtTreeMap String S :=
  forEachIndexMut (fun _ cols index =>
    let oldKey := extractKey oldRow cols
    let newKey := extractKey newRow cols
    if oldKey.eq newKey then index
    else (ops.secondary.addIndexKey (ops.secondary.removeIndexKey index oldKey rowId) newKey rowId).1)
    store.indexColumns.toList store.secondaryIndices

/-- `Option::eq` on the cells. -/
def cellsEqual : Option (Value Scalar) → Option (Value Scalar) → Bool
  | none, none => true
  | some a, some b => Value.eq a b
  | _, _ => false

def updateGin (store : RowStore P S G) (rowId : RowId) (oldRow newRow : Row Scalar) :
    Std.ExtTreeMap String G :=
  forEachIndexMut (fun _ config gin =>
    let oldValue := oldRow.get config.columnIdx
    let newValue := newRow.get config.columnIdx
    if cellsEqual oldValue newValue then gin
    else
      let gin := match oldValue with
        | some value => ops.removeJsonbFromGin config gin value rowId
        | none => gin
      match newValue with
      | some value => ops.indexJsonbValue config gin value rowId
      | none => gin) store.ginIndexConfigs.toList store.ginIndices

def update (store : RowStore P S G) (rowId : RowId) (newRow : Row Scalar) :
    RowStore P S G × Except Error Unit :=
  match store.slots.rowRefById rowId with
  | none => (store, .error (.notFound store.name (rowIdValue rowId)))
  | some oldRow =>
    match store.updateConflict ops oldRow newRow with
    | some error => (store, .error error)
    | none =>
      let store := { store with primaryIndex := store.updatePrimary ops rowId oldRow newRow }
      let store := { store with secondaryIndices := store.updateSecondary ops rowId oldRow newRow }
      let store := { store with ginIndices := store.updateGin ops rowId oldRow newRow }
      ({ store with slots := store.slots.replaceRowSlot rowId newRow }, .ok ())

/-- `none` where an index of the slots is out of range. -/
def delete (store : RowStore P S G) (rowId : RowId) :
    Option (RowStore P S G × Except Error (Row Scalar)) := do
  match ← store.slots.removeRowSlot rowId with
  | (slots, none) =>
    return ({ store with slots := slots }, .error (.notFound store.name (rowIdValue rowId)))
  | (slots, some row) =>
    let store := { store with slots := slots }
    let store := { store with
      primaryIndex :=
        if store.pkColumns.isEmpty then store.primaryIndex
        else store.primaryIndex.map fun index =>
          ops.primary.removeIndexKey index (extractKey row store.pkColumns) rowId }
    let store := { store with secondaryIndices := store.removeSecondary ops rowId row }
    return ({ store with ginIndices := store.removeGin ops rowId row }, .ok row)

section Loops

variable {C I E : Type} {visitor : String → C → I → I × Except E Unit}

/-- The indexes are asked independently of each other, so the loop ends well when all agree. -/
theorem tryForEachIndexMut_eq_ok {defs : List (String × C)} (hnames : (defs.map Prod.fst).Nodup)
    (indices : Std.ExtTreeMap String I) :
    (tryForEachIndexMut visitor defs indices).2 = .ok () ↔
      ∀ definition ∈ defs, ∀ index, indices[definition.1]? = some index →
        (visitor definition.1 definition.2 index).2 = .ok () := by
  induction defs generalizing indices with
  | nil => simp [tryForEachIndexMut]
  | cons definition defs ih =>
    obtain ⟨name, config⟩ := definition
    obtain ⟨hname, hnames⟩ := List.nodup_cons.mp hnames
    rw [tryForEachIndexMut]
    cases hindex : indices[name]? with
    | none => simp [ih hnames, hindex]
    | some index =>
      have hothers : ∀ visited : I, ∀ definition ∈ defs,
          (indices.insert name visited)[definition.1]? = indices[definition.1]? := by
        intro visited definition hmem
        have hne : name ≠ definition.1 := by
          intro heq
          apply hname
          rw [show (name, config).1 = definition.1 from heq]
          exact List.mem_map_of_mem hmem
        rw [Std.ExtTreeMap.getElem?_insert, if_neg (by simpa using hne)]
      dsimp only
      rcases hvisit : visitor name config index with ⟨visited, error | _⟩
      · refine iff_of_false nofun fun hall => ?_
        have hfirst := hall _ List.mem_cons_self index hindex
        rw [hvisit] at hfirst
        cases hfirst
      · change (tryForEachIndexMut visitor defs (indices.insert name visited)).2 = .ok () ↔ _
        rw [ih hnames]
        constructor
        · intro hall definition hmem other hother
          rcases List.mem_cons.mp hmem with rfl | hmem
          · rw [hindex] at hother
            obtain rfl := Option.some.inj hother
            rw [hvisit]
          · exact hall definition hmem other (by rwa [hothers visited definition hmem])
        · intro hall definition hmem other hother
          rw [hothers visited definition hmem] at hother
          exact hall definition (List.mem_cons_of_mem _ hmem) other hother

end Loops

section Rejections

variable {ops} {store : RowStore P S G}

variable (ops) in
/-- The row's id has a row, its primary key is taken, or a unique index does not take one of
its keys in. -/
def rejectsInsert (store : RowStore P S G) (row : Row Scalar) : Bool :=
  row.id ∈ store.slots.rows || store.primaryTaken ops row || !(store.addPrimary ops row).2 ||
    store.indexColumns.toList.any fun definition =>
      store.secondaryIndices[definition.1]?.any fun index =>
        !(ops.secondary.addIndexKey index (extractKey row definition.2) row.id).2

variable (ops) in
/-- The row is not there, or one of its changed unique keys is taken. -/
def rejectsUpdate (store : RowStore P S G) (rowId : RowId) (newRow : Row Scalar) : Bool :=
  match store.slots.rowRefById rowId with
  | none => true
  | some oldRow => (store.updateConflict ops oldRow newRow).isSome

theorem addSecondary_eq_ok (ops : IndexOps P S G) (store : RowStore P S G) (row : Row Scalar) :
    (store.addSecondary ops row.id row).2 = .ok () ↔
      (store.indexColumns.toList.any fun definition =>
        store.secondaryIndices[definition.1]?.any fun index =>
          !(ops.secondary.addIndexKey index (extractKey row definition.2) row.id).2) = false := by
  have hnames : (store.indexColumns.toList.map Prod.fst).Nodup := by
    rw [Std.ExtTreeMap.map_fst_toList_eq_keys]
    exact Std.ExtTreeMap.nodup_keys
  unfold addSecondary
  rw [tryForEachIndexMut_eq_ok hnames, List.any_eq_false]
  apply forall_congr'
  intro definition
  apply imp_congr_right
  intro _
  cases store.secondaryIndices[definition.1]? with
  | none => simp
  | some index =>
    cases hadded : (ops.secondary.addIndexKey index (extractKey row definition.2) row.id).2 with
    | true => simp [hadded]
    | false => simp [hadded]

/-- A rejected insert leaves the slots alone, another one adds the row to them. -/
theorem insert_cases (ops : IndexOps P S G) (store : RowStore P S G) (row : Row Scalar) :
    (store.rejectsInsert ops row = true ∧ (store.insert ops row).1.slots = store.slots) ∨
      (store.rejectsInsert ops row = false ∧ store.slots.rows[row.id]? = none ∧
        (store.insert ops row).1.slots = store.slots.insertRowSlot row.id row) := by
  unfold rejectsInsert insert
  by_cases hexists : row.id ∈ store.slots.rows
  · simp [hexists]
  have hfresh : store.slots.rows[row.id]? = none := by simpa using hexists
  by_cases htaken : store.primaryTaken ops row = true
  · simp [hexists, htaken]
  have hsecondary := addSecondary_eq_ok ops store row
  rcases hprimary : store.addPrimary ops row with ⟨primaryIndex, _ | _⟩
  · simp [hexists, htaken]
  · have hsame : ({ store with primaryIndex := primaryIndex } : RowStore P S G).addSecondary ops
        row.id row = store.addSecondary ops row.id row := rfl
    rcases hadded : store.addSecondary ops row.id row with ⟨secondaryIndices, error | _⟩
    · rw [hadded] at hsecondary
      simp only [reduceCtorEq, false_iff, Bool.not_eq_false] at hsecondary
      simp [hexists, htaken, hsame, hadded, hsecondary, rollbackInsert]
    · rw [hadded] at hsecondary
      simp [hexists, htaken, hsame, hadded, hsecondary.mp rfl]

/-- A rejected update leaves the slots alone, another one puts the new row into its slot. -/
theorem update_cases (ops : IndexOps P S G) (store : RowStore P S G) (rowId : RowId)
    (newRow : Row Scalar) :
    (store.rejectsUpdate ops rowId newRow = true ∧
        (store.update ops rowId newRow).1.slots = store.slots) ∨
      (store.rejectsUpdate ops rowId newRow = false ∧
        (∃ oldRow, store.slots.rowRefById rowId = some oldRow) ∧
        (store.update ops rowId newRow).1.slots = store.slots.replaceRowSlot rowId newRow) := by
  unfold rejectsUpdate update
  cases hrow : store.slots.rowRefById rowId with
  | none => exact Or.inl ⟨rfl, rfl⟩
  | some oldRow =>
    cases hconflict : store.updateConflict ops oldRow newRow with
    | none => exact Or.inr ⟨by simp [hconflict], ⟨oldRow, rfl⟩, by simp [hconflict]⟩
    | some error => exact Or.inl ⟨by simp [hconflict], by simp [hconflict]⟩

/-- Deleting does not run out of the slots; a missing row leaves them alone. -/
theorem delete_cases (ops : IndexOps P S G) {store : RowStore P S G} (hvalid : store.slots.Valid)
    (rowId : RowId) :
    ∃ left deleted, store.delete ops rowId = some (left, deleted) ∧ left.slots.Valid ∧
      ((store.slots.rows[rowId]? = none ∧ left.slots = store.slots) ∨
        (store.slots.rows[rowId]? ≠ none ∧ left.slots.rowRefById rowId = none)) := by
  cases hrow : store.slots.rows[rowId]? with
  | none =>
    have hremove : store.slots.removeRowSlot rowId = some (store.slots, none) := by
      unfold RowSlots.removeRowSlot
      rw [hrow]
    unfold delete
    rw [hremove]
    exact ⟨_, _, rfl, hvalid, Or.inl ⟨rfl, rfl⟩⟩
  | some slotIdx =>
    obtain ⟨slots, row, hremove, hleft, -, hlookup⟩ := hvalid.removeRowSlot hrow
    unfold delete
    rw [hremove]
    exact ⟨_, _, rfl, hleft, Or.inr ⟨nofun, (hlookup rowId).trans (if_pos rfl)⟩⟩

end Rejections

end RowStore

end Cynos.Storage
