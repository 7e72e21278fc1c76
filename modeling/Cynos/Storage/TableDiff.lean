import Cynos.Core.Row
import Cynos.Storage.RowMap

/-! What a transaction did to one table, row by row: a row is added, modified or
deleted, whatever happened to it in between. -/
namespace Cynos.Storage

open Core
open Index (RowId)

variable {V : Type}

structure TableDiff (V : Type) where
  tableName : String
  added : RowMap (Row V)
  modified : RowMap (Row V × Row V)
  deleted : RowMap (Row V)

namespace TableDiff

def new (tableName : String) : TableDiff V := ⟨tableName, ∅, ∅, ∅⟩

/-- A row that was deleted before is modified. -/
def add (diff : TableDiff V) (row : Row V) : TableDiff V :=
  match diff.deleted[row.id]? with
  | some oldRow =>
    { diff with
      deleted := diff.deleted.erase row.id
      modified := diff.modified.insert row.id (oldRow, row) }
  | none => { diff with added := diff.added.insert row.id row }

def modify (diff : TableDiff V) (old new : Row V) : TableDiff V :=
  if old.id ∈ diff.added then { diff with added := diff.added.insert old.id new }
  else
    match diff.modified[old.id]? with
    | some (original, _) =>
      { diff with modified := diff.modified.insert old.id (original, new) }
    | none => { diff with modified := diff.modified.insert old.id (old, new) }

def delete (diff : TableDiff V) (row : Row V) : TableDiff V :=
  if row.id ∈ diff.added then { diff with added := diff.added.erase row.id }
  else
    match diff.modified[row.id]? with
    | some (oldRow, _) =>
      { diff with
        modified := diff.modified.erase row.id
        deleted := diff.deleted.insert row.id oldRow }
    | none => { diff with deleted := diff.deleted.insert row.id row }

def getReverse (diff : TableDiff V) : TableDiff V where
  tableName := diff.tableName
  added := diff.deleted
  modified := diff.modified.map fun _ (old, new) => (new, old)
  deleted := diff.added

/-- The image of a row before and after. -/
abbrev Modification (V : Type) := Option (Row V) × Option (Row V)

def getAsModifications (diff : TableDiff V) : List (Modification V) :=
  (diff.added.toList.map fun (_, row) => (none, some row)) ++
    (diff.modified.toList.map fun (_, old, new) => (some old, some new)) ++
    diff.deleted.toList.map fun (_, row) => (some row, none)

/-- The rows of a table after a diff. -/
def apply (diff : TableDiff V) (rows : RowMap (Row V)) : RowMap (Row V) :=
  (rows.filter fun id _ => !(diff.deleted.contains id)) ∪ diff.modified.map (fun _ => Prod.snd) ∪
    diff.added

theorem getElem?_apply (diff : TableDiff V) (rows : RowMap (Row V)) (id : RowId) :
    (diff.apply rows)[id]? = diff.added[id]?.or ((diff.modified[id]?.map Prod.snd).or
      (if diff.deleted[id]?.isSome then none else rows[id]?)) := by
  rw [apply, Std.ExtTreeMap.getElem?_union, Std.ExtTreeMap.getElem?_union,
    Std.ExtTreeMap.getElem?_map, Std.ExtTreeMap.getElem?_filter']
  congr 2
  rw [Std.ExtTreeMap.contains_eq_isSome_getElem?]
  cases diff.deleted[id]? with
  | none => cases rows[id]? <;> rfl
  | some old => cases rows[id]? <;> rfl

end TableDiff

/-- A change of a table as the journal records it. -/
inductive Change (V : Type) where
  | insert (row : Row V)
  | update (old new : Row V)
  | delete (row : Row V)

def TableDiff.record (diff : TableDiff V) : Change V → TableDiff V
  | .insert row => diff.add row
  | .update old new => diff.modify old new
  | .delete row => diff.delete row

/-- The rows of a table, each under its id. -/
structure TableContents (V : Type) where
  rows : RowMap (Row V)
  keyed : ∀ {id : RowId} {row : Row V}, rows[id]? = some row → row.id = id

namespace TableContents

def insert (contents : TableContents V) (row : Row V) : TableContents V where
  rows := contents.rows.insert row.id row
  keyed {id row'} h := by
    rw [getElem?_insert] at h
    split at h
    next hid =>
      obtain rfl := Option.some.inj h
      exact hid.symm
    next => exact contents.keyed h

def erase (contents : TableContents V) (id : RowId) : TableContents V where
  rows := contents.rows.erase id
  keyed {key row} h := by
    rw [getElem?_erase] at h
    split at h
    next => cases h
    next => exact contents.keyed h

@[simp] theorem insert_rows (contents : TableContents V) (row : Row V) :
    (contents.insert row).rows = contents.rows.insert row.id row := rfl

@[simp] theorem erase_rows (contents : TableContents V) (id : RowId) :
    (contents.erase id).rows = contents.rows.erase id := rfl

end TableContents

namespace Change

/-- The change is one of the rows that are there; an update keeps the id. -/
def Valid (contents : TableContents V) : Change V → Prop
  | .insert row => contents.rows[row.id]? = none
  | .update old new => contents.rows[old.id]? = some old ∧ new.id = old.id
  | .delete row => contents.rows[row.id]? = some row

def apply (contents : TableContents V) : Change V → TableContents V
  | .insert row => contents.insert row
  | .update _ new => contents.insert new
  | .delete row => contents.erase row.id

/-- Every change is valid on what the ones before it made of the table. -/
def ValidHistory : TableContents V → List (Change V) → Prop
  | _, [] => True
  | contents, change :: changes =>
    change.Valid contents ∧ ValidHistory (change.apply contents) changes

instance [DecidableEq V] (contents : TableContents V) :
    ∀ change : Change V, Decidable (change.Valid contents)
  | .insert row => inferInstanceAs (Decidable (contents.rows[row.id]? = none))
  | .update old new =>
    inferInstanceAs (Decidable (contents.rows[old.id]? = some old ∧ new.id = old.id))
  | .delete row => inferInstanceAs (Decidable (contents.rows[row.id]? = some row))

instance ValidHistory.decidable [DecidableEq V] :
    ∀ (contents : TableContents V) (changes : List (Change V)),
      Decidable (ValidHistory contents changes)
  | _, [] => .isTrue trivial
  | contents, change :: changes =>
    have := ValidHistory.decidable (change.apply contents) changes
    inferInstanceAs (Decidable (change.Valid contents ∧
      ValidHistory (change.apply contents) changes))

end Change

section NetEffect

/-- What a diff holds of one row. -/
structure Cell (V : Type) where
  added : Option (Row V)
  modified : Option (Row V × Row V)
  deleted : Option (Row V)

namespace Cell

def add (cell : Cell V) (row : Row V) : Cell V :=
  match cell.deleted with
  | some oldRow => { cell with deleted := none, modified := some (oldRow, row) }
  | none => { cell with added := some row }

def modify (cell : Cell V) (old new : Row V) : Cell V :=
  match cell.added, cell.modified with
  | some _, _ => { cell with added := some new }
  | none, some (original, _) => { cell with modified := some (original, new) }
  | none, none => { cell with modified := some (old, new) }

def delete (cell : Cell V) (row : Row V) : Cell V :=
  match cell.added, cell.modified with
  | some _, _ => { cell with added := none }
  | none, some (oldRow, _) => { cell with modified := none, deleted := some oldRow }
  | none, none => { cell with deleted := some row }

end Cell

def TableDiff.cell (diff : TableDiff V) (id : RowId) : Cell V :=
  ⟨diff.added[id]?, diff.modified[id]?, diff.deleted[id]?⟩

theorem cell_add (diff : TableDiff V) (row : Row V) (id : RowId) :
    (diff.add row).cell id = if id = row.id then (diff.cell id).add row else diff.cell id := by
  unfold TableDiff.add
  by_cases hid : id = row.id
  · subst hid
    rw [if_pos rfl]
    cases hdeleted : diff.deleted[row.id]? with
    | none => simp [TableDiff.cell, Cell.add, hdeleted]
    | some old => simp [TableDiff.cell, Cell.add, hdeleted]
  · rw [if_neg hid]
    cases diff.deleted[row.id]? with
    | none => simp [TableDiff.cell, getElem?_insert, hid]
    | some old => simp [TableDiff.cell, getElem?_insert, getElem?_erase, hid]

theorem cell_modify (diff : TableDiff V) (old new : Row V) (id : RowId) :
    (diff.modify old new).cell id =
      if id = old.id then (diff.cell id).modify old new else diff.cell id := by
  unfold TableDiff.modify
  by_cases hid : id = old.id
  · subst hid
    rw [if_pos rfl]
    cases hadded : diff.added[old.id]? with
    | some row =>
      rw [if_pos ((mem_iff_getElem? _ _).mpr ⟨row, hadded⟩)]
      simp [TableDiff.cell, Cell.modify, hadded]
    | none =>
      rw [if_neg fun hmem => by simp [mem_iff_getElem?, hadded] at hmem]
      cases hmodified : diff.modified[old.id]? with
      | none => simp [TableDiff.cell, Cell.modify, hadded, hmodified]
      | some images => simp [TableDiff.cell, Cell.modify, hadded, hmodified]
  · rw [if_neg hid]
    split
    · simp [TableDiff.cell, getElem?_insert, hid]
    · cases diff.modified[old.id]? <;> simp [TableDiff.cell, getElem?_insert, hid]

theorem cell_delete (diff : TableDiff V) (row : Row V) (id : RowId) :
    (diff.delete row).cell id =
      if id = row.id then (diff.cell id).delete row else diff.cell id := by
  unfold TableDiff.delete
  by_cases hid : id = row.id
  · subst hid
    rw [if_pos rfl]
    cases hadded : diff.added[row.id]? with
    | some new =>
      rw [if_pos ((mem_iff_getElem? _ _).mpr ⟨new, hadded⟩)]
      simp [TableDiff.cell, Cell.delete, hadded]
    | none =>
      rw [if_neg fun hmem => by simp [mem_iff_getElem?, hadded] at hmem]
      cases hmodified : diff.modified[row.id]? with
      | none => simp [TableDiff.cell, Cell.delete, hadded, hmodified]
      | some images =>
        simp [TableDiff.cell, Cell.delete, hadded, hmodified]
  · rw [if_neg hid]
    split
    · simp [TableDiff.cell, getElem?_erase, hid]
    · cases diff.modified[row.id]? <;>
        simp [TableDiff.cell, getElem?_insert, getElem?_erase, hid]

/-- A cell tells how a row went from its first image to its last. -/
inductive RowEffect : Cell V → Option (Row V) → Option (Row V) → Prop
  | untouched (row : Option (Row V)) : RowEffect ⟨none, none, none⟩ row row
  | added (row : Row V) : RowEffect ⟨some row, none, none⟩ none (some row)
  | modified (old new : Row V) : RowEffect ⟨none, some (old, new), none⟩ (some old) (some new)
  | deleted (old : Row V) : RowEffect ⟨none, none, some old⟩ (some old) none

namespace RowEffect

variable {cell : Cell V} {initial : Option (Row V)} {old new row : Row V}

theorem add (h : RowEffect cell initial none) (row : Row V) :
    RowEffect (cell.add row) initial (some row) := by
  cases h with
  | untouched => exact .added row
  | deleted old => exact .modified old row

theorem modify (h : RowEffect cell initial (some old)) (new : Row V) :
    RowEffect (cell.modify old new) initial (some new) := by
  cases h with
  | untouched => exact .modified old new
  | added => exact .added new
  | modified original => exact .modified original new

theorem delete (h : RowEffect cell initial (some row)) :
    RowEffect (cell.delete row) initial none := by
  cases h with
  | untouched => exact .deleted row
  | added => exact .untouched none
  | modified original => exact .deleted original

end RowEffect

def NetEffect (diff : TableDiff V) (initial current : RowMap (Row V)) : Prop :=
  ∀ id : RowId, RowEffect (diff.cell id) initial[id]? current[id]?

theorem netEffect_new (tableName : String) (rows : RowMap (Row V)) :
    NetEffect (TableDiff.new tableName) rows rows := by
  intro id
  simp only [TableDiff.cell, TableDiff.new, Std.ExtTreeMap.getElem?_empty]
  exact .untouched _

/-- One change: the cell of its row moves on, the others stay. -/
theorem NetEffect.record {diff : TableDiff V} {initial : RowMap (Row V)}
    {current : TableContents V} (h : NetEffect diff initial current.rows) {change : Change V}
    (hvalid : change.Valid current) :
    NetEffect (diff.record change) initial (change.apply current).rows := by
  intro id
  have hid := h id
  cases change with
  | insert row =>
    simp only [TableDiff.record, Change.apply, cell_add, TableContents.insert_rows, getElem?_insert]
    by_cases heq : id = row.id
    · rw [if_pos heq, if_pos heq]
      rw [heq, (hvalid : current.rows[row.id]? = none)] at hid
      rw [heq]
      exact hid.add row
    · rwa [if_neg heq, if_neg heq]
  | update old new =>
    obtain ⟨hold, hkeeps⟩ := hvalid
    simp only [TableDiff.record, Change.apply, cell_modify, TableContents.insert_rows,
      getElem?_insert, hkeeps]
    by_cases heq : id = old.id
    · rw [if_pos heq, if_pos heq]
      rw [heq, hold] at hid
      rw [heq]
      exact hid.modify new
    · rwa [if_neg heq, if_neg heq]
  | delete row =>
    simp only [TableDiff.record, Change.apply, cell_delete, TableContents.erase_rows, getElem?_erase]
    by_cases heq : id = row.id
    · rw [if_pos heq, if_pos heq]
      rw [heq, (hvalid : current.rows[row.id]? = some row)] at hid
      rw [heq]
      exact hid.delete
    · rwa [if_neg heq, if_neg heq]

/-- A history: the diff tells the difference between its two ends. -/
theorem NetEffect.recordAll {diff : TableDiff V} {initial : RowMap (Row V)}
    {current : TableContents V} (h : NetEffect diff initial current.rows)
    {changes : List (Change V)} (hvalid : Change.ValidHistory current changes) :
    NetEffect (changes.foldl TableDiff.record diff) initial
      (changes.foldl Change.apply current).rows := by
  induction changes generalizing diff current with
  | nil => exact h
  | cons change changes ih => exact ih (h.record hvalid.1) hvalid.2

variable {diff : TableDiff V} {initial current : RowMap (Row V)}

/-- The four things that a diff can hold of a row. -/
theorem NetEffect.cases (h : NetEffect diff initial current) (id : RowId) :
    (diff.added[id]? = none ∧ diff.modified[id]? = none ∧ diff.deleted[id]? = none ∧
      initial[id]? = current[id]?) ∨
    (∃ row, diff.added[id]? = some row ∧ diff.modified[id]? = none ∧ diff.deleted[id]? = none ∧
      initial[id]? = none ∧ current[id]? = some row) ∨
    (∃ old new, diff.added[id]? = none ∧ diff.modified[id]? = some (old, new) ∧
      diff.deleted[id]? = none ∧ initial[id]? = some old ∧ current[id]? = some new) ∨
    ∃ old, diff.added[id]? = none ∧ diff.modified[id]? = none ∧ diff.deleted[id]? = some old ∧
      initial[id]? = some old ∧ current[id]? = none := by
  have hid := h id
  rw [TableDiff.cell] at hid
  generalize diff.added[id]? = added at hid
  generalize diff.modified[id]? = modified at hid
  generalize diff.deleted[id]? = deleted at hid
  generalize initial[id]? = before at hid
  generalize current[id]? = after at hid
  cases hid with
  | untouched => exact .inl ⟨rfl, rfl, rfl, rfl⟩
  | added row => exact .inr (.inl ⟨row, rfl, rfl, rfl, rfl, rfl⟩)
  | modified old new => exact .inr (.inr (.inl ⟨old, new, rfl, rfl, rfl, rfl, rfl⟩))
  | deleted old => exact .inr (.inr (.inr ⟨old, rfl, rfl, rfl, rfl, rfl⟩))

theorem NetEffect.of_added (h : NetEffect diff initial current) {id : RowId} {row : Row V}
    (hadded : diff.added[id]? = some row) :
    diff.modified[id]? = none ∧ diff.deleted[id]? = none ∧ initial[id]? = none ∧
      current[id]? = some row := by
  rcases h.cases id with ⟨ha, -⟩ | ⟨_, ha, hrest⟩ | ⟨_, _, ha, -⟩ | ⟨_, ha, -⟩ <;>
    rw [hadded] at ha <;> cases ha
  exact hrest

theorem NetEffect.of_modified (h : NetEffect diff initial current) {id : RowId} {old new : Row V}
    (hmodified : diff.modified[id]? = some (old, new)) :
    diff.deleted[id]? = none ∧ initial[id]? = some old ∧ current[id]? = some new := by
  rcases h.cases id with ⟨-, hm, -⟩ | ⟨_, -, hm, -⟩ | ⟨_, _, -, hm, hrest⟩ | ⟨_, -, hm, -⟩ <;>
    rw [hmodified] at hm <;> cases hm
  exact hrest

theorem NetEffect.of_deleted (h : NetEffect diff initial current) {id : RowId} {row : Row V}
    (hdeleted : diff.deleted[id]? = some row) :
    initial[id]? = some row ∧ current[id]? = none := by
  rcases h.cases id with ⟨-, -, hd, -⟩ | ⟨_, -, -, hd, -⟩ | ⟨_, _, -, -, hd, -⟩ |
      ⟨_, -, -, hd, hrest⟩ <;>
    rw [hdeleted] at hd <;> cases hd
  exact hrest

theorem NetEffect.disjoint (h : NetEffect diff initial current) (id : RowId) :
    ¬ (id ∈ diff.added ∧ id ∈ diff.modified) ∧ ¬ (id ∈ diff.added ∧ id ∈ diff.deleted) ∧
      ¬ (id ∈ diff.modified ∧ id ∈ diff.deleted) := by
  simp only [mem_iff_getElem?]
  rcases h.cases id with ⟨ha, hm, hd, -⟩ | ⟨row, ha, hm, hd, -⟩ | ⟨old, new, ha, hm, hd, -⟩ |
      ⟨old, ha, hm, hd, -⟩ <;>
    simp [ha, hm, hd]

theorem NetEffect.apply_eq (h : NetEffect diff initial current) : diff.apply initial = current := by
  apply Std.ExtTreeMap.ext_getElem?
  intro id
  rw [TableDiff.getElem?_apply]
  rcases h.cases id with ⟨ha, hm, hd, heq⟩ | ⟨row, ha, hm, hd, hi, hc⟩ |
      ⟨old, new, ha, hm, hd, hi, hc⟩ | ⟨old, ha, hm, hd, hi, hc⟩
  · simp [ha, hm, hd, heq]
  · simp [ha, hc]
  · simp [ha, hm, hc]
  · simp [ha, hm, hd, hc]

theorem NetEffect.getReverse (h : NetEffect diff initial current) :
    NetEffect diff.getReverse current initial := by
  intro id
  simp only [TableDiff.cell, TableDiff.getReverse, Std.ExtTreeMap.getElem?_map]
  rcases h.cases id with ⟨ha, hm, hd, heq⟩ | ⟨row, ha, hm, hd, hi, hc⟩ |
      ⟨old, new, ha, hm, hd, hi, hc⟩ | ⟨old, ha, hm, hd, hi, hc⟩
  · rw [ha, hm, hd, heq]
    exact .untouched _
  · rw [ha, hm, hd, hi, hc]
    exact .deleted row
  · rw [ha, hm, hd, hi, hc]
    exact .modified new old
  · rw [ha, hm, hd, hi, hc]
    exact .added old

end NetEffect

section Modifications

/-- The row that a modification is about. -/
def modificationId (modification : TableDiff.Modification V) : Option RowId :=
  (modification.1.or modification.2).map Row.id

theorem mem_getAsModifications {diff : TableDiff V} {modification : TableDiff.Modification V} :
    modification ∈ diff.getAsModifications ↔
      (∃ (id : RowId) (row : Row V), diff.added[id]? = some row ∧
        modification = (none, some row)) ∨
      (∃ (id : RowId) (old new : Row V), diff.modified[id]? = some (old, new) ∧
        modification = (some old, some new)) ∨
      ∃ (id : RowId) (row : Row V), diff.deleted[id]? = some row ∧
        modification = (some row, none) := by
  simp only [TableDiff.getAsModifications, List.mem_append, List.mem_map, Prod.exists,
    Std.ExtTreeMap.mem_toList_iff_getElem?_eq_some, eq_comm (b := modification), or_assoc]

variable {diff : TableDiff V} {initial current : TableContents V}

theorem NetEffect.of_mem_getAsModifications (h : NetEffect diff initial.rows current.rows)
    {modification : TableDiff.Modification V} (hmem : modification ∈ diff.getAsModifications) :
    ∃ id, modificationId modification = some id ∧
      modification = (initial.rows[id]?, current.rows[id]?) := by
  rcases mem_getAsModifications.mp hmem with ⟨id, row, hadded, rfl⟩ | ⟨id, old, new, hmodified, rfl⟩ |
    ⟨id, row, hdeleted, rfl⟩
  · obtain ⟨-, -, hi, hc⟩ := h.of_added hadded
    exact ⟨id, congrArg some (current.keyed hc), by rw [hi, hc]⟩
  · obtain ⟨-, hi, hc⟩ := h.of_modified hmodified
    exact ⟨id, congrArg some (initial.keyed hi), by rw [hi, hc]⟩
  · obtain ⟨hi, hc⟩ := h.of_deleted hdeleted
    exact ⟨id, congrArg some (initial.keyed hi), by rw [hi, hc]⟩

theorem NetEffect.mem_getAsModifications (h : NetEffect diff initial.rows current.rows)
    {id : RowId} (hchanged : initial.rows[id]? ≠ current.rows[id]?) :
    (initial.rows[id]?, current.rows[id]?) ∈ diff.getAsModifications := by
  rw [Storage.mem_getAsModifications]
  rcases h.cases id with ⟨-, -, -, heq⟩ | ⟨row, ha, -, -, hi, hc⟩ | ⟨old, new, -, hm, -, hi, hc⟩ |
    ⟨old, -, -, hd, hi, hc⟩
  · exact absurd heq hchanged
  · exact .inl ⟨id, row, ha, by rw [hi, hc]⟩
  · exact .inr (.inl ⟨id, old, new, hm, by rw [hi, hc]⟩)
  · exact .inr (.inr ⟨id, old, hd, by rw [hi, hc]⟩)

section Ids

variable {A : Type} {rows : RowMap A} {f : RowId × A → Option RowId}
  (hf : ∀ (id : RowId) (a : A), rows[id]? = some a → f (id, a) = some id)
include hf

theorem nodup_ids : (rows.toList.map f).Nodup := by
  have hids : rows.toList.map f = rows.toList.map fun entry => some entry.1 :=
    List.map_congr_left fun entry hmem =>
      hf entry.1 entry.2 (Std.ExtTreeMap.mem_toList_iff_getElem?_eq_some.mp hmem)
  rw [hids, List.Nodup, List.pairwise_map]
  refine Std.ExtTreeMap.distinct_keys_toList.imp ?_
  intro left right hdistinct heq
  exact hdistinct (Nat.compare_eq_eq.mpr (Option.some.inj heq))

theorem exists_of_mem_ids {key : Option RowId} (h : key ∈ rows.toList.map f) :
    ∃ (id : RowId) (a : A), key = some id ∧ rows[id]? = some a := by
  obtain ⟨⟨id, a⟩, hmem, rfl⟩ := List.mem_map.mp h
  have hrow := Std.ExtTreeMap.mem_toList_iff_getElem?_eq_some.mp hmem
  exact ⟨id, a, hf id a hrow, hrow⟩

end Ids

/-- No row is listed twice. -/
theorem NetEffect.nodup_modificationIds (h : NetEffect diff initial.rows current.rows) :
    (diff.getAsModifications.map modificationId).Nodup := by
  have hadded (id : RowId) (row : Row V) (hrow : diff.added[id]? = some row) :
      modificationId (none, some row) = some id :=
    congrArg some (current.keyed (h.of_added hrow).2.2.2)
  have hmodified (id : RowId) (images : Row V × Row V) (hrow : diff.modified[id]? = some images) :
      modificationId (some images.1, some images.2) = some id :=
    congrArg some (initial.keyed (h.of_modified hrow).2.1)
  have hdeleted (id : RowId) (row : Row V) (hrow : diff.deleted[id]? = some row) :
      modificationId (some row, none) = some id :=
    congrArg some (initial.keyed (h.of_deleted hrow).1)
  rw [TableDiff.getAsModifications, List.map_append, List.map_append, List.map_map, List.map_map,
    List.map_map]
  refine List.nodup_append.mpr ⟨List.nodup_append.mpr ⟨nodup_ids hadded, nodup_ids hmodified, ?_⟩,
    nodup_ids hdeleted, ?_⟩
  · intro key hkey key' hkey' heq
    obtain ⟨id, row, rfl, hrow⟩ := exists_of_mem_ids hadded hkey
    obtain ⟨id', images, rfl, himages⟩ := exists_of_mem_ids hmodified hkey'
    obtain rfl := Option.some.inj heq
    rw [(h.of_added hrow).1] at himages
    cases himages
  · intro key hkey key' hkey' heq
    obtain ⟨id', row', rfl, hrow'⟩ := exists_of_mem_ids hdeleted hkey'
    rcases List.mem_append.mp hkey with hkey | hkey
    · obtain ⟨id, row, rfl, hrow⟩ := exists_of_mem_ids hadded hkey
      obtain rfl := Option.some.inj heq
      rw [(h.of_added hrow).2.1] at hrow'
      cases hrow'
    · obtain ⟨id, images, rfl, himages⟩ := exists_of_mem_ids hmodified hkey
      obtain rfl := Option.some.inj heq
      rw [(h.of_modified himages).1] at hrow'
      cases hrow'

end Modifications

end Cynos.Storage
