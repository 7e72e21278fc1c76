import Cynos.Storage.Journal
import Cynos.Storage.RowStore

/-! Undoing a journal, last entry first. The stores' refusals are ignored on the way; an
update whose version cannot be raised once more ends the rollback where it stands. -/
namespace Cynos.Storage

open Core
open Index (RowId)

abbrev TableCache (P S G : Type) := Std.ExtTreeMap String (RowStore P S G)

variable {P S G : Type} (ops : IndexOps P S G)

section Source

/-- The old values under a version above the one they are restored from. -/
def rollbackRow (old new : Row Scalar) : Row Scalar :=
  .newWithVersion old.id (new.version + 1) old.values

def versionOverflow : Error :=
  .invalidOperation "Cannot rollback update: row version would overflow"

/-- `none` where a store runs out of its slots. -/
def undoEntry (cache : TableCache P S G) :
    JournalEntry Scalar → Option (TableCache P S G × Except Error Unit)
  | .insert table rowId _ =>
    match cache[table]? with
    | some store => (store.delete ops rowId).map fun (store, _) => (cache.insert table store, .ok ())
    | none => some (cache, .ok ())
  | .update table rowId old new =>
    match cache[table]? with
    | some store =>
      if new.version + 1 ≤ Row.maxVersion then
        some (cache.insert table (store.update ops rowId (rollbackRow old new)).1, .ok ())
      else some (cache, .error versionOverflow)
    | none => some (cache, .ok ())
  | .delete table _ row =>
    match cache[table]? with
    | some store => some (cache.insert table (store.insert ops row).1, .ok ())
    | none => some (cache, .ok ())

def undoEntries (cache : TableCache P S G) :
    List (JournalEntry Scalar) → Option (TableCache P S G × Except Error Unit)
  | [] => some (cache, .ok ())
  | entry :: entries =>
    match undoEntry ops cache entry with
    | some (cache, .ok ()) => undoEntries cache entries
    | some (cache, .error error) => some (cache, .error error)
    | none => none

def Journal.rollback (journal : Journal Scalar) (cache : TableCache P S G) :
    Option (Journal Scalar × TableCache P S G × Except Error Unit) :=
  match undoEntries ops cache journal.entries.reverse with
  | some (cache, .ok ()) => some (.new, cache, .ok ())
  | some (cache, .error error) => some (journal, cache, .error error)
  | none => none

end Source

section Atomicity

/-- The slots of every table. -/
def storedRows (cache : TableCache P S G) (table : String) : Option (RowSlots Scalar) :=
  cache[table]?.map RowStore.slots

/-- The caches that undoing the entries goes through. -/
def undoStates (cache : TableCache P S G) : List (JournalEntry Scalar) → List (TableCache P S G)
  | [] => [cache]
  | entry :: entries =>
    match undoEntry ops cache entry with
    | some (next, .ok ()) => cache :: undoStates next entries
    | some (next, .error _) => [cache, next]
    | none => [cache]

/-- A rollback that fails has at no point changed the rows of a table. -/
def AtomicRollback (journal : Journal Scalar) (cache : TableCache P S G) : Prop :=
  ∀ journal' cache' error, journal.rollback ops cache = some (journal', cache', .error error) →
    ∀ state ∈ undoStates ops cache journal.entries.reverse, storedRows state = storedRows cache

/-- The entry restores a row of a table that is there under a version that cannot be raised. -/
def overflows (cache : TableCache P S G) : JournalEntry Scalar → Prop
  | .update table _ _ new => table ∈ cache ∧ Row.maxVersion < new.version + 1
  | _ => False

/-- The table is not there, refuses the change, or has the restored row already. -/
def refuses (cache : TableCache P S G) : JournalEntry Scalar → Prop
  | .insert table rowId _ => ∀ store : RowStore P S G, cache[table]? = some store → rowId ∉ store.slots.rows
  | .update table rowId old new => ∀ store : RowStore P S G, cache[table]? = some store →
      store.rejectsUpdate ops rowId (rollbackRow old new) = true ∨
        store.slots.rowRefById rowId = some (rollbackRow old new)
  | .delete table _ row => ∀ store : RowStore P S G, cache[table]? = some store →
      store.rejectsInsert ops row = true

/-- Every entry undone before one that overflows is refused at its turn. -/
def RefusedUntilOverflow (cache : TableCache P S G) : List (JournalEntry Scalar) → Prop
  | [] => True
  | entry :: entries =>
    overflows cache entry ∨
      refuses ops cache entry ∧
        ∀ next, undoEntry ops cache entry = some (next, .ok ()) → RefusedUntilOverflow next entries

/-- Every table's slots are in order. -/
def ValidCache (cache : TableCache P S G) : Prop :=
  ∀ (table : String) (store : RowStore P S G), cache[table]? = some store → store.slots.Valid

variable {ops} {cache : TableCache P S G} {table : String} {store store' : RowStore P S G}

theorem getElem?_insert_table (cache : TableCache P S G) (table other : String)
    (store : RowStore P S G) :
    (cache.insert table store)[other]? = if other = table then some store else cache[other]? := by
  rw [Std.ExtTreeMap.getElem?_insert]
  exact if_congr (Std.LawfulEqCmp.compare_eq_iff_eq.trans eq_comm) rfl rfl

theorem storedRows_insert (hstore : cache[table]? = some store) :
    storedRows (cache.insert table store') = storedRows cache ↔ store'.slots = store.slots := by
  constructor
  · intro h
    have hslots := congrFun h table
    unfold storedRows at hslots
    rw [getElem?_insert_table, if_pos rfl, hstore] at hslots
    exact Option.some.inj hslots
  · intro h
    funext other
    unfold storedRows
    rw [getElem?_insert_table]
    by_cases hother : other = table
    · rw [if_pos hother, hother, hstore, Option.map_some, Option.map_some, h]
    · rw [if_neg hother]

theorem mem_insert_table (hstore : cache[table]? = some store) (other : String) :
    other ∈ cache.insert table store' ↔ other ∈ cache := by
  rw [Std.ExtTreeMap.mem_iff_isSome_getElem?, Std.ExtTreeMap.mem_iff_isSome_getElem?,
    getElem?_insert_table]
  by_cases hother : other = table
  · simp [hother, hstore]
  · rw [if_neg hother]

theorem ValidCache.insert (h : ValidCache cache) (hslots : store'.slots.Valid) :
    ValidCache (cache.insert table store') := by
  intro other store hstore
  rw [getElem?_insert_table] at hstore
  split at hstore
  · obtain rfl := Option.some.inj hstore
    exact hslots
  · exact h other store hstore

/-- What undoing one entry can do: overflow, or go on, and then the table refuses exactly when
no row changes. -/
def UndoSpec (ops : IndexOps P S G) (cache : TableCache P S G) (entry : JournalEntry Scalar) : Prop :=
  (overflows cache entry ∧ undoEntry ops cache entry = some (cache, .error versionOverflow)) ∨
    (¬ overflows cache entry ∧ ∃ next, undoEntry ops cache entry = some (next, .ok ()) ∧
      ValidCache next ∧ (∀ table, table ∈ next ↔ table ∈ cache) ∧
      (refuses ops cache entry ↔ storedRows next = storedRows cache))

/-- An entry of a table that is there puts a changed store in its place. -/
theorem undoSpec_of_store {entry : JournalEntry Scalar} (hvalid : ValidCache cache)
    (hstore : cache[table]? = some store) (hoverflow : ¬ overflows cache entry)
    (hundo : undoEntry ops cache entry = some (cache.insert table store', .ok ()))
    (hslots : store'.slots.Valid)
    (hrefuses : refuses ops cache entry ↔ store'.slots = store.slots) : UndoSpec ops cache entry :=
  Or.inr ⟨hoverflow, _, hundo, hvalid.insert hslots, mem_insert_table hstore,
    hrefuses.trans (storedRows_insert hstore).symm⟩

theorem undoSpec_of_missing {entry : JournalEntry Scalar} (hvalid : ValidCache cache)
    (hoverflow : ¬ overflows cache entry) (hundo : undoEntry ops cache entry = some (cache, .ok ()))
    (hrefuses : refuses ops cache entry) : UndoSpec ops cache entry :=
  Or.inr ⟨hoverflow, cache, hundo, hvalid, fun _ => Iff.rfl, iff_of_true hrefuses rfl⟩

theorem forall_store (hstore : cache[table]? = some store) {p : RowStore P S G → Prop} :
    (∀ other : RowStore P S G, cache[table]? = some other → p other) ↔ p store := by
  constructor
  · exact fun h => h store hstore
  · intro h other hother
    rw [hstore] at hother
    exact Option.some.inj hother ▸ h

theorem undoSpec_insert (hvalid : ValidCache cache) (table : String) (rowId : RowId)
    (row : Row Scalar) : UndoSpec ops cache (.insert table rowId row) := by
  cases hstore : cache[table]? with
  | none =>
    refine undoSpec_of_missing hvalid not_false (by simp [undoEntry, hstore]) fun store h => ?_
    rw [hstore] at h
    cases h
  | some store =>
    have hslots := hvalid table store hstore
    obtain ⟨left, deleted, hdelete, hleft, hcases⟩ := RowStore.delete_cases ops hslots rowId
    refine undoSpec_of_store hvalid hstore not_false
      (by simp only [undoEntry, hstore, hdelete, Option.map_some]) hleft ?_
    rw [refuses, forall_store hstore]
    rcases hcases with ⟨hmissing, hsame⟩ | ⟨hpresent, hgone⟩
    · exact iff_of_true (by simpa using hmissing) hsame
    · refine iff_of_false (by simpa using hpresent) fun hsame => hpresent ?_
      rw [← hslots.rowRefById_eq_none, ← hsame]
      exact hgone

theorem undoSpec_update (hvalid : ValidCache cache) (table : String) (rowId : RowId)
    (old new : Row Scalar) : UndoSpec ops cache (.update table rowId old new) := by
  cases hstore : cache[table]? with
  | none =>
    have hmissing : table ∉ cache := by simpa using hstore
    refine undoSpec_of_missing hvalid (fun h => hmissing h.1) (by simp [undoEntry, hstore])
      fun store h => ?_
    rw [hstore] at h
    cases h
  | some store =>
    have hslots := hvalid table store hstore
    have htable : table ∈ cache := by simp [Std.ExtTreeMap.mem_iff_isSome_getElem?, hstore]
    by_cases hversion : new.version + 1 ≤ Row.maxVersion
    · have hundo : undoEntry ops cache (.update table rowId old new) =
          some (cache.insert table (store.update ops rowId (rollbackRow old new)).1, .ok ()) := by
        simp only [undoEntry, hstore, if_pos hversion]
      refine undoSpec_of_store hvalid hstore (fun h => Nat.not_le_of_lt h.2 hversion) hundo ?_ ?_
      · rcases RowStore.update_cases ops store rowId (rollbackRow old new) with ⟨-, hsame⟩ |
          ⟨-, -, hreplaced⟩
        · rwa [hsame]
        · rw [hreplaced]
          exact hslots.replaceRowSlot _
      · rw [refuses, forall_store hstore]
        rcases RowStore.update_cases ops store rowId (rollbackRow old new) with ⟨hrejects, hsame⟩ |
          ⟨haccepts, ⟨oldRow, hrow⟩, hreplaced⟩
        · exact iff_of_true (Or.inl hrejects) hsame
        · rw [haccepts, hreplaced]
          constructor
          · rintro (h | h)
            · cases h
            · exact RowSlots.replaceRowSlot_self h
          · intro hsame
            have hnow : (store.slots.replaceRowSlot rowId (rollbackRow old new)).rowRefById rowId =
                _ := RowSlots.rowRefById_replaceRowSlot hslots _ _
            rw [if_pos rfl, hrow, hsame, hrow] at hnow
            exact Or.inr (hrow.trans hnow)
    · exact Or.inl ⟨⟨htable, by omega⟩, by simp only [undoEntry, hstore, if_neg hversion]⟩

theorem undoSpec_delete (hvalid : ValidCache cache) (table : String) (rowId : RowId)
    (row : Row Scalar) : UndoSpec ops cache (.delete table rowId row) := by
  cases hstore : cache[table]? with
  | none =>
    refine undoSpec_of_missing hvalid not_false (by simp [undoEntry, hstore]) fun store h => ?_
    rw [hstore] at h
    cases h
  | some store =>
    have hslots := hvalid table store hstore
    have hundo : undoEntry ops cache (.delete table rowId row) =
        some (cache.insert table (store.insert ops row).1, .ok ()) := by
      simp only [undoEntry, hstore]
    rcases RowStore.insert_cases ops store row with ⟨hrejects, hsame⟩ | ⟨haccepts, hfresh, hinserted⟩
    · refine undoSpec_of_store hvalid hstore not_false hundo (by rwa [hsame]) ?_
      rw [refuses, forall_store hstore]
      exact iff_of_true hrejects hsame
    · refine undoSpec_of_store hvalid hstore not_false hundo ?_ ?_
      · rw [hinserted]
        exact hslots.insertRowSlot hfresh row
      · rw [refuses, forall_store hstore, haccepts, hinserted]
        refine iff_of_false Bool.false_ne_true fun hsame => ?_
        have hnow := RowSlots.rowRefById_insertRowSlot hslots hfresh row row.id
        rw [if_pos rfl, hsame, hslots.rowRefById_eq_none.mpr hfresh] at hnow
        cases hnow

theorem undoEntry_spec (ops : IndexOps P S G) (hvalid : ValidCache cache) (entry : JournalEntry Scalar) :
    UndoSpec ops cache entry := by
  cases entry with
  | insert table rowId row => exact undoSpec_insert hvalid table rowId row
  | update table rowId old new => exact undoSpec_update hvalid table rowId old new
  | delete table rowId row => exact undoSpec_delete hvalid table rowId row

theorem overflows_congr {next : TableCache P S G} (h : ∀ table, table ∈ next ↔ table ∈ cache)
    (entry : JournalEntry Scalar) : overflows next entry ↔ overflows cache entry := by
  cases entry with
  | update table rowId old new => exact and_congr_left' (h table)
  | _ => rfl

/-- The undoing fails at the first entry that overflows, if there is one. -/
theorem undoEntries_fails (ops : IndexOps P S G) (hvalid : ValidCache cache) (entries : List (JournalEntry Scalar)) :
    (∃ next error, undoEntries ops cache entries = some (next, .error error)) ↔
      ∃ entry ∈ entries, overflows cache entry := by
  induction entries generalizing cache with
  | nil => simp [undoEntries]
  | cons entry entries ih =>
    rcases undoEntry_spec ops hvalid entry with ⟨hoverflow, hundo⟩ |
      ⟨hoverflow, next, hundo, hnext, htables, -⟩
    · exact iff_of_true ⟨cache, versionOverflow, by rw [undoEntries, hundo]⟩
        ⟨entry, List.mem_cons_self, hoverflow⟩
    · rw [undoEntries, hundo, List.exists_mem_cons_iff]
      dsimp only
      rw [ih hnext, or_iff_right hoverflow]
      simp only [overflows_congr htables]

theorem mem_undoStates (ops : IndexOps P S G) (cache : TableCache P S G)
    (entries : List (JournalEntry Scalar)) : cache ∈ undoStates ops cache entries := by
  cases entries with
  | nil => simp [undoStates]
  | cons entry entries =>
    rw [undoStates]
    split <;> simp

/-- Once a change is made, a later overflow leaves it in place. -/
theorem undoStates_unchanged (ops : IndexOps P S G) (hvalid : ValidCache cache) (entries : List (JournalEntry Scalar)) :
    ((∃ entry ∈ entries, overflows cache entry) →
        ∀ state ∈ undoStates ops cache entries, storedRows state = storedRows cache) ↔
      (∀ entry ∈ entries, ¬ overflows cache entry) ∨ RefusedUntilOverflow ops cache entries := by
  induction entries generalizing cache with
  | nil => simp [undoStates]
  | cons entry entries ih =>
    rcases undoEntry_spec ops hvalid entry with ⟨hoverflow, hundo⟩ |
      ⟨hoverflow, next, hundo, hnext, htables, hrefuses⟩
    · refine iff_of_true (fun _ => ?_) (Or.inr (Or.inl hoverflow))
      rw [undoStates, hundo]
      simp
    · have hoverflow' : ¬ overflows next entry := fun h =>
        hoverflow ((overflows_congr htables entry).mp h)
      have hrest : RefusedUntilOverflow ops cache (entry :: entries) ↔
          refuses ops cache entry ∧ RefusedUntilOverflow ops next entries := by
        rw [RefusedUntilOverflow, or_iff_right hoverflow, hundo]
        simp
      rw [undoStates, hundo, List.exists_mem_cons_iff, or_iff_right hoverflow,
        List.forall_mem_cons, List.forall_mem_cons, hrest]
      simp only [← overflows_congr htables]
      by_cases hrefused : refuses ops cache entry
      · rw [← hrefuses.mp hrefused]
        simpa [hoverflow', hrefused] using ih hnext
      · have hchanged : storedRows next ≠ storedRows cache := fun h => hrefused (hrefuses.mpr h)
        simp only [hrefused, hoverflow', false_and, or_false, true_and, not_false_iff]
        constructor
        · intro h other hmem hother
          exact hchanged (h ⟨other, hmem, hother⟩ next (mem_undoStates ops next entries))
        · rintro h ⟨other, hmem, hother⟩
          exact absurd hother (h other hmem)

/-- A rollback is atomic exactly when none of its updates overflows, or everything undone
before the one that does is refused. -/
theorem atomicRollback_iff (journal : Journal Scalar) (hvalid : ValidCache cache) :
    AtomicRollback ops journal cache ↔
      (∀ entry ∈ journal.entries, ¬ overflows cache entry) ∨
        RefusedUntilOverflow ops cache journal.entries.reverse := by
  have hfails := undoEntries_fails ops hvalid journal.entries.reverse
  have hrollback : (∃ journal' cache' error,
      journal.rollback ops cache = some (journal', cache', .error error)) ↔
        ∃ next error, undoEntries ops cache journal.entries.reverse = some (next, .error error) := by
    unfold Journal.rollback
    rcases undoEntries ops cache journal.entries.reverse with _ | ⟨next, error | _⟩ <;> simp
  have hunchanged := undoStates_unchanged ops hvalid journal.entries.reverse
  simp only [List.mem_reverse] at hunchanged hfails
  rw [← hunchanged, ← hfails, ← hrollback]
  unfold AtomicRollback
  constructor
  · rintro h ⟨journal', cache', error, hrun⟩
    exact h journal' cache' error hrun
  · exact fun h journal' cache' error hrun => h ⟨journal', cache', error, hrun⟩

end Atomicity

section Sample

/-- Indexes that hold nothing. -/
def noIndexes : IndexOps Unit Unit Unit where
  primary := ⟨fun _ _ => false, fun _ _ _ => ((), true), fun _ _ _ => (), fun _ => false⟩
  secondary := ⟨fun _ _ => false, fun _ _ _ => ((), true), fun _ _ _ => (), fun _ => false⟩
  indexJsonbValue _ _ _ _ := ()
  removeJsonbFromGin _ _ _ _ := ()
  debugValues _ := ""

/-- A table without keys that holds one row of the largest version and a new one. -/
def sampleStore : RowStore Unit Unit Unit where
  name := "t"
  slots := (RowSlots.empty.insertRowSlot 1 (.newWithVersion 1 Row.maxVersion [none])).insertRowSlot 2
    (.new 2 [none])
  primaryIndex := none
  pkColumns := []
  secondaryIndices := ∅
  indexColumns := ∅
  ginIndices := ∅
  ginIndexConfigs := ∅

def sampleCache : TableCache Unit Unit Unit := (∅ : TableCache Unit Unit Unit).insert "t" sampleStore

/-- The first row was updated, then the second one inserted. -/
def sampleJournal : Journal Scalar :=
  (Journal.new.recordUpdate "t" (.newWithVersion 1 (Row.maxVersion - 1) [some (.boolean true)])
    (.newWithVersion 1 Row.maxVersion [none])).recordInsert "t" (.new 2 [none])

theorem sampleCache_valid : ValidCache sampleCache := by
  intro table store hstore
  rw [sampleCache, getElem?_insert_table] at hstore
  split at hstore
  · obtain rfl := Option.some.inj hstore
    have hone : (RowSlots.empty.insertRowSlot 1
        (.newWithVersion 1 Row.maxVersion [none]) : RowSlots Scalar).rows[2]? = none := by decide
    exact (RowSlots.valid_empty.insertRowSlot (by simp [RowSlots.empty]) _).insertRowSlot hone _
  · simp at hstore

/-- Whether row 2 of the table is stored. -/
def rowTwoStored (cache : TableCache Unit Unit Unit) : Option Bool :=
  (storedRows cache "t").map fun slots => slots.rows.contains 2

/-- The rollback fails, and the inserted row is gone. -/
theorem rollback_not_atomic : ¬ AtomicRollback noIndexes sampleJournal sampleCache := by
  intro h
  have hfails : ∃ cache', sampleJournal.rollback noIndexes sampleCache =
      some (sampleJournal, cache', .error versionOverflow) := ⟨_, rfl⟩
  obtain ⟨cache', hrun⟩ := hfails
  have hstates : (undoStates noIndexes sampleCache sampleJournal.entries.reverse).map rowTwoStored =
      [some true, some false, some false] := by decide
  have hall : ∀ stored ∈ (undoStates noIndexes sampleCache sampleJournal.entries.reverse).map
      rowTwoStored, stored = rowTwoStored sampleCache := by
    intro stored hmem
    obtain ⟨state, hstate, rfl⟩ := List.mem_map.mp hmem
    rw [rowTwoStored, h _ _ _ hrun state hstate]
    rfl
  rw [hstates] at hall
  exact absurd (hall (some false) (by simp)) (by decide)

/-- A journal that overflows at its last entry is atomic all the same. -/
theorem atomicRollback_iff_last :
    AtomicRollback noIndexes (Journal.new.recordUpdate "t" (.newWithVersion 1 5 [none])
      (.newWithVersion 1 Row.maxVersion [none])) sampleCache :=
  (atomicRollback_iff _ sampleCache_valid).mpr
    (Or.inr (Or.inl ⟨by decide, Nat.lt_succ_self _⟩))

end Sample

end Cynos.Storage
