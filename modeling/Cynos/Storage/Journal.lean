import Cynos.Storage.TableDiff

/-! The journal of a transaction: its entries in the order they were made, and the net
effect of them on each table. -/
namespace Cynos.Storage

open Core
open Index (RowId)

variable {V : Type}

inductive JournalEntry (V : Type) where
  | insert (table : String) (rowId : RowId) (row : Row V)
  | update (table : String) (rowId : RowId) (old new : Row V)
  | delete (table : String) (rowId : RowId) (row : Row V)

structure Journal (V : Type) where
  tableDiffs : Std.ExtTreeMap String (TableDiff V)
  entries : List (JournalEntry V)

namespace Journal

def new : Journal V := ⟨∅, []⟩

def getOrCreateDiff (journal : Journal V) (table : String) : TableDiff V :=
  journal.tableDiffs[table]?.getD (.new table)

def recordInsert (journal : Journal V) (table : String) (row : Row V) : Journal V where
  tableDiffs := journal.tableDiffs.insert table ((journal.getOrCreateDiff table).add row)
  entries := journal.entries ++ [.insert table row.id row]

def recordUpdate (journal : Journal V) (table : String) (old new : Row V) : Journal V where
  tableDiffs := journal.tableDiffs.insert table ((journal.getOrCreateDiff table).modify old new)
  entries := journal.entries ++ [.update table old.id old new]

def recordDelete (journal : Journal V) (table : String) (row : Row V) : Journal V where
  tableDiffs := journal.tableDiffs.insert table ((journal.getOrCreateDiff table).delete row)
  entries := journal.entries ++ [.delete table row.id row]

/-- One journaled change of a table. -/
def record (journal : Journal V) (entry : String × Change V) : Journal V :=
  match entry.2 with
  | .insert row => journal.recordInsert entry.1 row
  | .update old new => journal.recordUpdate entry.1 old new
  | .delete row => journal.recordDelete entry.1 row

theorem getOrCreateDiff_new (table : String) :
    (new : Journal V).getOrCreateDiff table = .new table := by
  simp only [getOrCreateDiff, new, Std.ExtTreeMap.getElem?_empty, Option.getD_none]

theorem getOrCreateDiff_record (journal : Journal V) (entry : String × Change V)
    (table : String) :
    (journal.record entry).getOrCreateDiff table =
      if entry.1 = table then (journal.getOrCreateDiff table).record entry.2
      else journal.getOrCreateDiff table := by
  have hdiffs : (journal.record entry).tableDiffs = journal.tableDiffs.insert entry.1
      ((journal.getOrCreateDiff entry.1).record entry.2) := by
    obtain ⟨table, change⟩ := entry
    cases change <;> rfl
  rw [getOrCreateDiff, hdiffs, Std.ExtTreeMap.getElem?_insert]
  by_cases htable : entry.1 = table
  · rw [if_pos (Std.LawfulEqCmp.compare_eq_iff_eq.mpr htable), if_pos htable, htable,
      Option.getD_some]
  · rw [if_neg (htable ∘ Std.LawfulEqCmp.compare_eq_iff_eq.mp), if_neg htable]
    rfl

end Journal

/-- The changes of one table among those of all. -/
def changesOf (table : String) (history : List (String × Change V)) : List (Change V) :=
  history.filterMap fun entry => if entry.1 = table then some entry.2 else none

theorem Journal.getOrCreateDiff_recordAll (journal : Journal V)
    (history : List (String × Change V)) (table : String) :
    (history.foldl Journal.record journal).getOrCreateDiff table =
      (changesOf table history).foldl TableDiff.record (journal.getOrCreateDiff table) := by
  induction history generalizing journal with
  | nil => rfl
  | cons entry history ih =>
    rw [List.foldl_cons, ih, getOrCreateDiff_record]
    by_cases htable : entry.1 = table
    · simp [changesOf, htable]
    · simp [changesOf, htable]

/-- The diff of a table is the net effect of what the journal recorded on it. -/
theorem getOrCreateDiff_netEffect (table : String) (initial : TableContents V)
    (history : List (String × Change V))
    (hvalid : Change.ValidHistory initial (changesOf table history)) :
    let diff := (history.foldl Journal.record .new).getOrCreateDiff table
    let final := (changesOf table history).foldl Change.apply initial
    (∀ id : RowId, ¬ (id ∈ diff.added ∧ id ∈ diff.modified) ∧
      ¬ (id ∈ diff.added ∧ id ∈ diff.deleted) ∧ ¬ (id ∈ diff.modified ∧ id ∈ diff.deleted)) ∧
    diff.apply initial.rows = final.rows ∧
    diff.getReverse.apply final.rows = initial.rows ∧
    (diff.getAsModifications.map modificationId).Nodup ∧
    (∀ modification ∈ diff.getAsModifications, ∃ id : RowId,
      modificationId modification = some id ∧
        modification = (initial.rows[id]?, final.rows[id]?)) ∧
    ∀ id : RowId, initial.rows[id]? ≠ final.rows[id]? →
      (initial.rows[id]?, final.rows[id]?) ∈ diff.getAsModifications := by
  intro diff final
  have heffect : NetEffect diff initial.rows final.rows := by
    have hdiff := Journal.getOrCreateDiff_recordAll (.new : Journal V) history table
    rw [Journal.getOrCreateDiff_new] at hdiff
    change NetEffect (Journal.getOrCreateDiff _ table) _ _
    rw [hdiff]
    exact (netEffect_new table initial.rows).recordAll hvalid
  exact ⟨heffect.disjoint, heffect.apply_eq, heffect.getReverse.apply_eq,
    heffect.nodup_modificationIds, fun _ hmem => heffect.of_mem_getAsModifications hmem,
    fun _ hchanged => heffect.mem_getAsModifications hchanged⟩

/-- Row 1 is deleted, comes back and is updated, row 2 comes and goes. -/
theorem getOrCreateDiff_netEffect_twoRows :
    let row : Row Nat := ⟨1, 1, [none]⟩
    let back : Row Nat := ⟨1, 1, [some 5]⟩
    let last : Row Nat := ⟨1, 2, [some 6]⟩
    let other : Row Nat := ⟨2, 1, [none]⟩
    let initial : TableContents Nat := (⟨∅, by simp⟩ : TableContents Nat).insert row
    let history : List (String × Change Nat) := [("t", .delete row), ("t", .insert back),
      ("u", .insert row), ("t", .insert other), ("t", .update back last), ("t", .delete other)]
    let diff := (history.foldl Journal.record .new).getOrCreateDiff "t"
    let final := (changesOf "t" history).foldl Change.apply initial
    diff.apply initial.rows = final.rows ∧ diff.getReverse.apply final.rows = initial.rows := by
  intro row back last other initial history diff final
  obtain ⟨-, happly, hreverse, -⟩ := getOrCreateDiff_netEffect "t" initial history (by decide)
  exact ⟨happly, hreverse⟩

end Cynos.Storage
