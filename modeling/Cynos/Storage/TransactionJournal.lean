import Cynos.Storage.Journal
import Cynos.Storage.Transaction

/-! What a transaction leaves in its journal: the entries lead from the rows of every table before
it to the rows it has left there, and the diff of a table misses no row that differs. -/
namespace Cynos.Storage

open Core (Row Scalar Value)
open Index (BTreeIndex GinIndex RowId)

section History

variable {V : Type}

/-- The change of its table that an entry tells. -/
def JournalEntry.change : JournalEntry V → String × Change V
  | .insert table _ row => (table, .insert row)
  | .update table _ old new => (table, .update old new)
  | .delete table _ row => (table, .delete row)

theorem changes_recordAll (journal : Journal V) (history : List (String × Change V)) :
    (history.foldl Journal.record journal).entries.map JournalEntry.change =
      journal.entries.map JournalEntry.change ++ history := by
  induction history generalizing journal with
  | nil => exact (List.append_nil _).symm
  | cons entry history ih =>
    have hentry : (journal.record entry).entries.map JournalEntry.change =
        journal.entries.map JournalEntry.change ++ [entry] := by
      obtain ⟨table, change⟩ := entry
      cases change <;>
        simp [Journal.record, Journal.recordInsert, Journal.recordUpdate, Journal.recordDelete,
          JournalEntry.change]
    rw [List.foldl_cons, ih, hentry, List.append_assoc, List.singleton_append]

theorem Change.validHistory_append {contents : TableContents V}
    {changes changes' : List (Change V)} :
    ValidHistory contents (changes ++ changes') ↔ ValidHistory contents changes ∧
      ValidHistory (changes.foldl Change.apply contents) changes' := by
  induction changes generalizing contents with
  | nil => exact (and_iff_right trivial).symm
  | cons change changes ih =>
    rw [List.cons_append, List.foldl_cons]
    exact (and_congr_right fun _ => ih).trans and_assoc.symm

/-- The contents are the rows of the slots. -/
def TableContents.Of (contents : TableContents V) (slots : RowSlots V) : Prop :=
  ∀ id : RowId, contents.rows[id]? = slots.rowRefById id

end History

section Leads

variable {P S G : Type}

/-- The history is one of the rows that the tables had, and makes of them those that they have. -/
def Leads (history : List (String × Change Scalar)) (first second : TableCache P S G) : Prop :=
  ∀ table : String, Option.Rel (fun before after : RowStore P S G =>
    ∀ contents : TableContents Scalar, contents.Of before.slots →
      Change.ValidHistory contents (changesOf table history) ∧
        ((changesOf table history).foldl Change.apply contents).Of after.slots)
    first[table]? second[table]?

variable {history history' : List (String × Change Scalar)} {first second third : TableCache P S G}
  {table : String} {store next : RowStore P S G}

theorem leads_nil (cache : TableCache P S G) : Leads [] cache cache := by
  intro table
  cases cache[table]? with
  | none => exact .none
  | some store => exact .some fun contents hcontents => ⟨trivial, hcontents⟩

theorem Leads.append (h : Leads history first second) (h' : Leads history' second third) :
    Leads (history ++ history') first third := by
  intro table
  have hfirst := h table
  have hsecond := h' table
  cases hstore : second[table]? with
  | none =>
    rw [hstore] at hfirst hsecond
    generalize first[table]? = before at hfirst
    generalize third[table]? = after at hsecond
    cases hfirst
    cases hsecond
    exact .none
  | some middle =>
    rw [hstore] at hfirst hsecond
    generalize first[table]? = before at hfirst
    generalize third[table]? = after at hsecond
    cases hfirst with
    | some hbefore =>
      cases hsecond with
      | some hafter =>
        refine .some fun contents hcontents => ?_
        obtain ⟨hvalid, hmiddle⟩ := hbefore contents hcontents
        obtain ⟨hvalid', hdone⟩ := hafter _ hmiddle
        rw [changesOf, List.filterMap_append, List.foldl_append]
        exact ⟨Change.validHistory_append.mpr ⟨hvalid, hvalid'⟩, hdone⟩

/-- One table is put in the place of one that a change tells apart from it. -/
theorem leads_change (hstore : first[table]? = some store) {change : Change Scalar}
    (hchange : ∀ contents : TableContents Scalar, contents.Of store.slots →
      change.Valid contents ∧ (change.apply contents).Of next.slots) :
    Leads [(table, change)] first (first.insert table next) := by
  intro other
  rw [getElem?_insert_table]
  split
  next heq =>
    rw [heq, hstore]
    refine .some fun contents hcontents => ?_
    obtain ⟨hvalid, hdone⟩ := hchange contents hcontents
    rw [changesOf, List.filterMap_cons, if_pos rfl]
    exact ⟨⟨hvalid, trivial⟩, hdone⟩
  next hne =>
    rw [changesOf, List.filterMap_cons, if_neg (Ne.symm hne)]
    exact leads_nil first other

end Leads

section Calls

variable {P S κ : Type} [LinearOrder κ] {keys : KeyOps P S} {keyOf : IndexKey Scalar → κ}
  {Ok : IndexKey Scalar → Prop} {laws : KeyLaws keys keyOf Ok} {unique : String → String → Bool}
  {cache before : TableCache P S GinIndex} {table : String} {store next : GinStore P S}
  {tx : Transaction} {call : TransactionCall} {change : Change Scalar} (formats : JsonbFormats)

/-- The change that a call makes is one of the rows of its table. -/
theorem Makes.follows {unique : String → Bool} (h : Consistent laws unique store)
    (hmakes : Makes (keys.withGin formats).toIndexOps store next call change)
    (hcall : CallOk Ok call) {contents : TableContents Scalar}
    (hcontents : contents.Of store.slots) :
    change.Valid contents ∧ (change.apply contents).Of next.slots := by
  cases hmakes with
  | @insert _ row hinsert =>
    obtain ⟨next', result, hinsert', -, -, hcases⟩ := h.insert formats hcall
    rw [hinsert, Prod.mk.injEq] at hinsert'
    obtain ⟨rfl, rfl⟩ := hinsert'
    rcases hcases with ⟨-, ⟨error, herror⟩, -⟩ | ⟨hfree, -, hslots⟩
    · cases herror
    have hnone : store.slots.rowRefById row.id = none := by
      by_contra hsome
      exact hfree (.inl (Option.ne_none_iff_exists'.mp hsome))
    refine ⟨(hcontents row.id).trans hnone, fun id => ?_⟩
    rw [Change.apply, TableContents.insert_rows, getElem?_insert, hslots, hcontents id,
      RowSlots.rowRefById_insertRowSlot h.valid (h.valid.rowRefById_eq_none.mp hnone)]
  | @update _ rowId oldRow newRow hrow hupdate =>
    obtain ⟨hok, hid⟩ := hcall
    obtain ⟨next', result, hupdate', -, -, hcases⟩ := h.update formats hok hid
    rw [hupdate, Prod.mk.injEq] at hupdate'
    obtain ⟨rfl, rfl⟩ := hupdate'
    rcases hcases with ⟨⟨error, herror⟩, -⟩ | ⟨-, -, hslots⟩
    · cases herror
    have holdId : oldRow.id = rowId := (h.named rowId oldRow hrow).1
    refine ⟨⟨?_, hid.trans holdId.symm⟩, fun id => ?_⟩
    · rw [holdId, hcontents, hrow]
    · rw [Change.apply, TableContents.insert_rows, getElem?_insert, hslots, hcontents id, hid,
        RowSlots.rowRefById_replaceRowSlot h.valid, hrow, Option.map_some]
  | @delete _ rowId row hdelete =>
    obtain ⟨next', result, hdelete', -, -, hgone⟩ := h.delete formats rowId
    rw [hdelete, Option.some_inj, Prod.mk.injEq] at hdelete'
    obtain ⟨rfl, rfl⟩ := hdelete'
    have hrow : store.slots.rowRefById rowId = some row := h.delete_result formats hdelete
    have hid : row.id = rowId := (h.named rowId row hrow).1
    refine ⟨(hcontents row.id).trans (hid ▸ hrow), fun id => ?_⟩
    rw [Change.apply, TableContents.erase_rows, getElem?_erase, hgone, hcontents id, hid]

theorem SameRows.leads {after : TableCache P S GinIndex} (h : SameRows laws unique before after) :
    Leads [] before after := fun table => rel_imp (fun _ _ hsame _ hcontents =>
  ⟨trivial, fun id => (hcontents id).trans (hsame.2 id).symm⟩) (h table)

/-- An active transaction whose journal is the history that leads from the tables before it to those
it has left. -/
structure Journaled (laws : KeyLaws keys keyOf Ok) (unique : String → String → Bool)
    (before : TableCache P S GinIndex) (history : List (String × Change Scalar))
    (state : Transaction × TableCache P S GinIndex) : Prop where
  active : state.1.state = .active
  consistent : ConsistentCache laws unique state.2
  journal : state.1.journal = history.foldl Journal.record .new
  leads : Leads history before state.2

variable {history : List (String × Change Scalar)}

theorem Journaled.begin (hcache : ConsistentCache laws unique cache) (nextTxId : TransactionId) :
    Journaled laws unique cache [] ((Transaction.begin nextTxId).1, cache) :=
  ⟨rfl, hcache, rfl, leads_nil cache⟩

/-- A call is refused and leaves the rows, or its change is the next of the history. -/
theorem Journaled.after (h : Journaled laws unique before history (tx, cache))
    (hcall : CallOk Ok call) :
    ∃ state, Transaction.call (keys.withGin formats).toIndexOps (tx, cache) call = some state ∧
      (Transaction.accepts (keys.withGin formats).toIndexOps (tx, cache) call = false ∧
          Journaled laws unique before history state ∨
        Transaction.accepts (keys.withGin formats).toIndexOps (tx, cache) call = true ∧
          ∃ store next change, cache[call.table]? = some store ∧
          Makes (keys.withGin formats).toIndexOps store next call change ∧
          state.2 = cache.insert call.table next ∧
          Journaled laws unique before (history ++ [(call.table, change)]) state) := by
  obtain ⟨hactive, hcache, hjournal, hleads⟩ := h
  rcases callEffect formats hactive hcache hcall with
    ⟨cache', hrefused, haccepts, hsame⟩ | ⟨store, next, change, hstore, hmakes, hnext, haccepts, hmade⟩
  · refine ⟨_, hrefused, .inl ⟨haccepts, hactive, hsame.alike.consistent, hjournal, ?_⟩⟩
    rw [← List.append_nil history]
    exact hleads.append hsame.leads
  · refine ⟨_, hmade, .inr ⟨haccepts, store, next, change, hstore, hmakes, rfl, hactive,
      hcache.insert hnext, ?_, ?_⟩⟩
    · dsimp only at hjournal ⊢
      rw [hjournal, List.foldl_append]
      rfl
    · exact hleads.append (leads_change hstore fun contents hcontents =>
        hmakes.follows formats (hcache _ store hstore) hcall hcontents)

/-- The calls of a transaction never panic; its journal leads to the tables they leave. -/
theorem run_journaled (nextTxId : TransactionId) (hcache : ConsistentCache laws unique cache)
    {calls : List TransactionCall} (hcalls : ∀ call ∈ calls, CallOk Ok call) :
    ∃ state, Run.run (Transaction.call (keys.withGin formats).toIndexOps)
        ((Transaction.begin nextTxId).1, cache) calls = some state ∧
      ∃ history, Journaled laws unique cache history state := by
  refine Run.preserves (fun state call hstate hcall => ?_) ⟨[], .begin hcache nextTxId⟩
    (Run.along_of_forall fun _ => hcalls)
  obtain ⟨history, hjournaled⟩ := hstate
  obtain ⟨next, hnext, ⟨-, hsame⟩ | ⟨-, _, _, _, -, -, -, hmade⟩⟩ :=
    hjournaled.after formats hcall
  · exact ⟨next, hnext, history, hsame⟩
  · exact ⟨next, hnext, _, hmade⟩

end Calls

section NetChanges

variable {V : Type} {before after : RowSlots V} {initial final : TableContents V}
  {diff : TableDiff V}

/-- The rows of the slots, each under its id. -/
def RowSlots.contents (slots : RowSlots V)
    (hnamed : ∀ (id : RowId) (row : Row V), slots.rowRefById id = some row → row.id = id) :
    {contents : TableContents V // contents.Of slots} :=
  let rows := slots.rows.filterMap fun _ slotIdx => slots.rowSlots[slotIdx]?.map RowSlot.row
  have hrows : ∀ id : RowId, rows[id]? = slots.rowRefById id := fun _ =>
    Std.ExtTreeMap.getElem?_filterMap'
  ⟨⟨rows, fun {id row} hrow => hnamed id row ((hrows id).symm.trans hrow)⟩, hrows⟩

/-- The rows of a table before and after, as the changes of the table take them over. -/
theorem Leads.contents {P S κ : Type} [LinearOrder κ] {keys : KeyOps P S}
    {keyOf : IndexKey Scalar → κ} {Ok : IndexKey Scalar → Prop} {laws : KeyLaws keys keyOf Ok}
    {unique : String → String → Bool} {first second : TableCache P S GinIndex}
    {history : List (String × Change Scalar)} (h : Leads history first second)
    (hfirst : ConsistentCache laws unique first) (table : String) :
    Option.Rel (fun before after : GinStore P S => ∃ contents : TableContents Scalar,
        contents.Of before.slots ∧ Change.ValidHistory contents (changesOf table history) ∧
          ((changesOf table history).foldl Change.apply contents).Of after.slots)
      first[table]? second[table]? := by
  have htable := h table
  cases hstore : first[table]? with
  | none =>
    rw [hstore] at htable
    generalize second[table]? = after at htable
    cases htable
    exact .none
  | some store =>
    rw [hstore] at htable
    obtain ⟨after, hafter, hsteps⟩ := rel_get htable
    obtain ⟨contents, hcontents⟩ := store.slots.contents fun id row hrow =>
      ((hfirst table store hstore).named id row hrow).1
    rw [hafter]
    exact .some ⟨contents, hcontents, hsteps contents hcontents⟩

/-- The modifications of a diff are rows as they were and as they are, no row twice, and all that
differ are among them. -/
structure NetChanges (diff : TableDiff V) (before after : RowSlots V) : Prop where
  once : (diff.getAsModifications.map modificationId).Nodup
  made : ∀ modification ∈ diff.getAsModifications, ∃ id, modificationId modification = some id ∧
    modification = (before.rowRefById id, after.rowRefById id)
  complete : ∀ id, before.rowRefById id ≠ after.rowRefById id →
    (before.rowRefById id, after.rowRefById id) ∈ diff.getAsModifications

theorem NetEffect.netChanges (h : NetEffect diff initial.rows final.rows)
    (hinitial : initial.Of before) (hfinal : final.Of after) : NetChanges diff before after where
  once := h.nodup_modificationIds
  made modification hmem := by
    obtain ⟨id, hid, heq⟩ := h.of_mem_getAsModifications hmem
    rw [hinitial id, hfinal id] at heq
    exact ⟨id, hid, heq⟩
  complete id hdiffer := by
    rw [← hinitial id, ← hfinal id] at hdiffer ⊢
    exact h.mem_getAsModifications hdiffer

end NetChanges

section Coded

variable {V : Type} [LinearOrder V] (code : ValueCode V)
  (debugValues : List (Value Scalar) → String) (formats : JsonbFormats)

end Coded

section Sample

end Sample

end Cynos.Storage
