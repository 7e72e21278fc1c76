import Cynos.Incremental.VisibleStore
import Cynos.Reactive.LiveRegistry
import Cynos.Storage.IndexScan
import Cynos.Storage.TransactionJournal

/-! Transactions of the database. Beside the journal they keep, for each table, the ids of the rows
that calls have changed and the deltas, which a commit hands to the live queries. -/
namespace Cynos.Database

open Core (Row Scalar Value)
open Incremental (Delta RowContents TableId foldDelta putRow)
open Index (BTreeIndex GinIndex RowId)
open Reactive (TableMap)
open Storage

section Source

/-- The slots are in order, each row under its id. -/
def InOrder (slots : RowSlots Scalar) : Prop :=
  slots.Valid ∧ ∀ id row, slots.rowRefById id = some row → row.id = id

/-- What a predicate picks from a table: stored rows, each once. -/
structure Selection (P S : Type) where
  rows : GinStore P S → List (Row Scalar)
  stored : ∀ store, InOrder store.slots → ∀ row ∈ rows store,
    store.slots.rowRefById row.id = some row
  distinct : ∀ store, InOrder store.slots → ((rows store).map Row.id).Nodup

/-- A scan; where an index has the rows of the predicate, they are picked from its lookup. -/
def collectCandidateRows {P S : Type} (predicate : Row Scalar → Bool) : Selection P S where
  rows store := store.slots.rowRefs.filter predicate
  stored store horder row hmem := by
    obtain ⟨id, hrow⟩ := horder.1.mem_rowRefs.mp (List.mem_of_mem_filter hmem)
    rwa [horder.2 id row hrow]
  distinct store horder :=
    ((List.pairwise_map.mpr ((horder.1.rowRefs_sorted horder.2).imp fun h => h.ne)).sublist
      (List.filter_sublist.map Row.id))

structure JsTransaction (P S : Type) where
  cache : TableCache P S GinIndex
  tableIdMap : Std.ExtTreeMap String TableId
  inner : Option Transaction
  pendingChanges : TableMap (Finset RowId)
  pendingDeltas : TableMap (List (Delta (Row Scalar)))

/-- The row that a change is about. -/
def rowIdOf : Change Scalar → RowId
  | .insert row | .delete row => row.id
  | .update old _ => old.id

def deltasOf : Change Scalar → List (Delta (Row Scalar))
  | .insert row => [.insert row]
  | .update old new => [.delete old, .insert new]
  | .delete row => [.delete row]

/-- A call on the storage transaction, and the change that is reported if it is taken. -/
abbrev Step := TransactionCall × Change Scalar

inductive JsCall (P S : Type) where
  | insert (table : String) (rows : List (Row Scalar))
  | update (table : String) (selection : Selection P S)
    (assign : List (Value Scalar) → List (Value Scalar))
  | delete (table : String) (selection : Selection P S)

/-- `assign` sets the columns that are given. -/
def updatedRow (assign : List (Value Scalar) → List (Value Scalar)) (old : Row Scalar) :
    Row Scalar :=
  .newWithVersion old.id ((old.version + 1) % 2 ^ 64) (assign old.values)

namespace JsCall

variable {P S : Type}

def table : JsCall P S → String
  | .insert table _ | .update table _ _ | .delete table _ => table

/-- `rows` are what the JavaScript values of an insertion were read as. -/
def steps (store : GinStore P S) : JsCall P S → List Step
  | .insert table rows => rows.map fun row => (.insert table row, .insert row)
  | .update table selection assign => (selection.rows store).map fun old =>
    (.update table old.id (updatedRow assign old), .update old (updatedRow assign old))
  | .delete table selection => (selection.rows store).map fun old =>
    (.delete table old.id, .delete old)

end JsCall

namespace JsTransaction

variable {P S : Type} (ops : IndexOps P S GinIndex)

def new (cache : TableCache P S GinIndex) (tableIdMap : Std.ExtTreeMap String TableId)
    (nextTxId : TransactionId) : JsTransaction P S :=
  ⟨cache, tableIdMap, some (Transaction.begin nextTxId).1, ∅, ∅⟩

def recordPendingChange (js : JsTransaction P S) (tableId : TableId) (changedIds : Finset RowId)
    (deltas : List (Delta (Row Scalar))) : JsTransaction P S :=
  if changedIds = ∅ then js
  else
    let js := { js with
      pendingChanges := js.pendingChanges.insert tableId
        (js.pendingChanges[tableId]?.getD ∅ ∪ changedIds) }
    if deltas.isEmpty then js
    else { js with
      pendingDeltas := js.pendingDeltas.insert tableId
        (js.pendingDeltas[tableId]?.getD [] ++ deltas) }

def report (js : JsTransaction P S) (table : String) (changes : List (Change Scalar)) :
    JsTransaction P S :=
  match js.tableIdMap[table]? with
  | some tableId =>
    js.recordPendingChange tableId (changes.map rowIdOf).toFinset (changes.flatMap deltasOf)
  | none => js

/-- The calls up to the first that is refused; `false` where one was. -/
def attempt (state : Transaction × TableCache P S GinIndex) :
    List Step → Option ((Transaction × TableCache P S GinIndex) × Bool)
  | [] => some (state, true)
  | step :: steps =>
    (Transaction.call ops state step.1).bind fun next =>
      if Transaction.accepts ops state step.1 then attempt next steps else some (next, false)

/-- The changes of a call are reported after the last of them; an error on the way reports none. -/
def call (js : JsTransaction P S) (call : JsCall P S) : Option (JsTransaction P S) :=
  match js.inner, js.cache[call.table]? with
  | some tx, some store =>
    (attempt ops (tx, js.cache) (call.steps store)).map fun ((tx, cache), done) =>
      let js := { js with inner := some tx, cache }
      if done then js.report call.table ((call.steps store).map Prod.snd) else js
  | _, _ => some js

def insert (js : JsTransaction P S) (table : String) (rows : List (Row Scalar)) :
    Option (JsTransaction P S) := js.call ops (.insert table rows)

def update (js : JsTransaction P S) (table : String) (selection : Selection P S)
    (assign : List (Value Scalar) → List (Value Scalar)) : Option (JsTransaction P S) :=
  js.call ops (.update table selection assign)

def delete (js : JsTransaction P S) (table : String) (selection : Selection P S) :
    Option (JsTransaction P S) := js.call ops (.delete table selection)

/-- With what the live queries are notified of: for each table its changed rows and deltas. -/
def commit (js : JsTransaction P S) : JsTransaction P S ×
    Option (List (TableId × Finset RowId × List (Delta (Row Scalar)))) :=
  match js.inner with
  | none => (js, none)
  | some tx =>
    match tx.commit.2 with
    | .error _ => ({ js with inner := none }, none)
    | .ok _ =>
      ({ js with
        inner := none
        pendingChanges := ∅
        pendingDeltas := js.pendingDeltas.filter fun tableId _ => tableId ∉ js.pendingChanges },
        some (js.pendingChanges.toList.map fun (tableId, changedIds) =>
          (tableId, changedIds, js.pendingDeltas[tableId]?.getD [])))

end JsTransaction

end Source

section History

variable {contents : TableContents Scalar} {changes : List (Change Scalar)}

theorem changesOf_append_one (table other : String) (history : List (String × Change Scalar))
    (changes : List (Change Scalar)) :
    changesOf other (history ++ changes.map (table, ·)) =
      changesOf other history ++ if table = other then changes else [] := by
  rw [changesOf, List.filterMap_append, List.filterMap_map]
  split
  next heq => simp [heq, changesOf]
  next hne => simp [hne, changesOf]

/-- A row that no change is about is as it was. -/
theorem Change.unchanged (hvalid : Change.ValidHistory contents changes) {id : RowId}
    (hid : id ∉ changes.map rowIdOf) :
    (changes.foldl Change.apply contents).rows[id]? = contents.rows[id]? := by
  induction changes generalizing contents with
  | nil => rfl
  | cons change changes ih =>
    rw [List.map_cons, List.mem_cons, not_or] at hid
    rw [List.foldl_cons, ih hvalid.2 hid.2]
    cases change with
    | insert row => exact (getElem?_insert _ _ _ _).trans (if_neg hid.1)
    | update old new =>
      have hnew : new.id = old.id := hvalid.1.2
      exact (getElem?_insert _ _ _ _).trans (if_neg (hnew ▸ hid.1))
    | delete row => exact (getElem?_erase _ _ _).trans (if_neg hid.1)

/-- The deltas make of the rows what the changes make of them. -/
theorem foldl_deltasOf (hvalid : Change.ValidHistory contents changes)
    {current : RowContents Scalar} (hcurrent : ∀ id, current id = contents.rows[id]?) (id : RowId) :
    (changes.flatMap deltasOf).foldl foldDelta current id =
      (changes.foldl Change.apply contents).rows[id]? := by
  induction changes generalizing contents current with
  | nil => exact hcurrent id
  | cons change changes ih =>
    rw [List.flatMap_cons, List.foldl_append, List.foldl_cons]
    refine ih hvalid.2 fun other => ?_
    cases change with
    | insert row =>
      change putRow current row other = _
      rw [putRow, Function.update_apply, hcurrent]
      exact (getElem?_insert _ _ _ _).symm
    | update old new =>
      have hnew : new.id = old.id := hvalid.1.2
      change putRow (Function.update current old.id none) new other = _
      rw [putRow, Function.update_apply, Function.update_apply, hcurrent, ← hnew]
      refine Eq.trans ?_ (getElem?_insert _ _ _ _).symm
      split <;> rfl
    | delete row =>
      change Function.update current row.id none other = _
      rw [Function.update_apply, hcurrent]
      exact (getElem?_erase _ _ _).symm

theorem id_mem_of_deltasOf (hvalid : Change.ValidHistory contents changes)
    {delta : Delta (Row Scalar)} (hmem : delta ∈ changes.flatMap deltasOf) :
    delta.data.id ∈ changes.map rowIdOf := by
  induction changes generalizing contents with
  | nil => cases hmem
  | cons change changes ih =>
    rw [List.flatMap_cons, List.mem_append] at hmem
    rw [List.map_cons, List.mem_cons]
    refine hmem.imp (fun hfirst => ?_) (ih hvalid.2)
    cases change with
    | insert row | delete row => rw [List.mem_singleton.mp hfirst]; rfl
    | update old new =>
      have hnew : new.id = old.id := hvalid.1.2
      rcases List.mem_pair.mp hfirst with rfl | rfl
      · rfl
      · exact hnew

end History

section Calls

variable {P S κ : Type} [LinearOrder κ] {keys : KeyOps P S} {keyOf : IndexKey Scalar → κ}
  {Ok : IndexKey Scalar → Prop} {laws : KeyLaws keys keyOf Ok} {unique : String → String → Bool}
  {cache before : TableCache P S GinIndex} {table : String} {store next : GinStore P S}
  {tx : Transaction} {history : List (String × Change Scalar)} {change change' : Change Scalar}
  {step : Step} {call : TransactionCall} (formats : JsonbFormats)

/-- Of the rows of its table a call changes no other. -/
theorem others_unchanged {unique : String → Bool} (h : Consistent laws unique store)
    (hmakes : Makes (keys.withGin formats).toIndexOps store next call change)
    (hcall : CallOk Ok call) {id : RowId} (hid : id ≠ rowIdOf change) :
    next.slots.rowRefById id = store.slots.rowRefById id := by
  obtain ⟨contents, hcontents⟩ := store.slots.contents fun id row hrow => (h.named id row hrow).1
  obtain ⟨hvalid, hnext⟩ := hmakes.follows formats h hcall hcontents
  rw [← hcontents id, ← hnext id]
  have hhistory : Change.ValidHistory contents [change] := ⟨hvalid, trivial⟩
  exact Change.unchanged hhistory (List.mem_singleton.not.mpr hid)

/-- The reported change is the one that the call makes of these rows, if it is taken. -/
inductive Expected (slots : RowSlots Scalar) (table : String) : Step → Prop
  | insert (row : Row Scalar) : Expected slots table (.insert table row, .insert row)
  | update {old new : Row Scalar} (hold : slots.rowRefById old.id = some old) :
    Expected slots table (.update table old.id new, .update old new)
  | delete {old : Row Scalar} (hold : slots.rowRefById old.id = some old) :
    Expected slots table (.delete table old.id, .delete old)

theorem Expected.table_eq {slots : RowSlots Scalar} (h : Expected slots table step) :
    step.1.table = table := by cases h <;> rfl

theorem Expected.keep {slots slots' : RowSlots Scalar} (h : Expected slots table step)
    (hsame : slots'.rowRefById (rowIdOf step.2) = slots.rowRefById (rowIdOf step.2)) :
    Expected slots' table step := by
  cases h with
  | insert row => exact .insert row
  | update hold => exact .update (hsame.trans hold)
  | delete hold => exact .delete (hsame.trans hold)

theorem Expected.eq {unique : String → Bool} (hconsistent : Consistent laws unique store)
    (h : Expected store.slots table step)
    (hmakes : Makes (keys.withGin formats).toIndexOps store next step.1 change) :
    change = step.2 := by
  cases h with
  | insert row => cases hmakes; rfl
  | update hold =>
    cases hmakes with
    | update hrow => rw [Option.some.inj (hrow.symm.trans hold)]
  | delete hold =>
    cases hmakes with
    | @delete _ _ row hdelete =>
      have hrow : store.slots.rowRefById _ = some row := hconsistent.delete_result formats hdelete
      rw [Option.some.inj (hrow.symm.trans hold)]

/-- The journal has the changes up to the first call that is refused. -/
theorem attempt_spec {steps : List Step} (h : Journaled laws unique before history (tx, cache))
    (hstore : cache[table]? = some store) (hok : ∀ step ∈ steps, CallOk Ok step.1)
    (hexpected : ∀ step ∈ steps, Expected store.slots table step)
    (hdistinct : (steps.map fun step => rowIdOf step.2).Nodup) :
    ∃ state done made, JsTransaction.attempt (keys.withGin formats).toIndexOps (tx, cache) steps =
        some (state, done) ∧
      Journaled laws unique before (history ++ made.map (table, ·)) state ∧
      (done = true → made = steps.map Prod.snd) := by
  induction steps generalizing tx cache store history with
  | nil => exact ⟨(tx, cache), true, [], rfl, (List.append_nil history).symm ▸ h, fun _ => rfl⟩
  | cons step steps ih =>
    have hstep := hexpected step List.mem_cons_self
    have hcall := hok step List.mem_cons_self
    rw [List.map_cons, List.nodup_cons] at hdistinct
    obtain ⟨⟨tx', cache'⟩, hstate, ⟨hrefused, hsame⟩ |
      ⟨haccepts, store', next, change, hstore', hmakes, hcache, hmade⟩⟩ := h.after formats hcall
    · refine ⟨(tx', cache'), false, [], ?_, (List.append_nil history).symm ▸ hsame,
        fun hdone => absurd hdone (by decide)⟩
      rw [JsTransaction.attempt, hstate, Option.bind_some, if_neg (by rw [hrefused]; decide)]
    · rw [hstep.table_eq] at hstore' hcache hmade
      obtain rfl := Option.some.inj (hstore.symm.trans hstore')
      have hconsistent := h.consistent table store hstore
      obtain rfl := hstep.eq formats hconsistent hmakes
      have hnext : cache'[table]? = some next := by
        dsimp only at hcache
        rw [hcache, getElem?_insert_table, if_pos rfl]
      obtain ⟨final, done, made, hattempt, hfinal, hdone⟩ := ih hmade hnext
        (fun other hmem => hok other (List.mem_cons_of_mem _ hmem))
        (fun other hmem => (hexpected other (List.mem_cons_of_mem _ hmem)).keep
          (others_unchanged formats hconsistent hmakes hcall fun heq =>
            hdistinct.1 (heq ▸ List.mem_map_of_mem hmem))) hdistinct.2
      refine ⟨final, done, step.2 :: made, ?_, ?_, fun hall => ?_⟩
      · rw [JsTransaction.attempt, hstate, Option.bind_some, if_pos haccepts]
        exact hattempt
      · rw [List.map_cons, ← List.singleton_append, ← List.append_assoc]
        exact hfinal
      · rw [hdone hall, List.map_cons]

/-- The rows are ones that the indexes can tell apart; those of an insertion have ids of their own,
which are reserved one after another. -/
def JsCallOk (Ok : IndexKey Scalar → Prop) : JsCall P S → Prop
  | .insert _ rows => (∀ row ∈ rows, RowOk Ok row) ∧ (rows.map Row.id).Nodup
  | .update _ _ assign => ∀ old, RowOk Ok old → RowOk Ok (updatedRow assign old)
  | .delete _ _ => True

theorem Consistent.inOrder {unique : String → Bool} (h : Consistent laws unique store) :
    InOrder store.slots := ⟨h.valid, fun id row hrow => (h.named id row hrow).1⟩

theorem JsCallOk.steps {unique : String → Bool} (h : Consistent laws unique store)
    {call : JsCall P S} (hcall : JsCallOk Ok call) :
    (∀ step ∈ call.steps store, CallOk Ok step.1) ∧
      (∀ step ∈ call.steps store, Expected store.slots call.table step) ∧
      ((call.steps store).map fun step => rowIdOf step.2).Nodup := by
  have horder := Consistent.inOrder h
  cases call with
  | insert table rows =>
    refine ⟨List.forall_mem_map.mpr hcall.1, List.forall_mem_map.mpr fun row _ => .insert row, ?_⟩
    rw [JsCall.steps, List.map_map]
    exact hcall.2
  | update table selection assign =>
    have hstored := selection.stored store horder
    refine ⟨List.forall_mem_map.mpr fun old hmem => ⟨hcall old ?_, rfl⟩,
      List.forall_mem_map.mpr fun old hmem => .update (hstored old hmem), ?_⟩
    · exact (h.named old.id old (hstored old hmem)).2
    · rw [JsCall.steps, List.map_map]
      exact selection.distinct store horder
  | delete table selection =>
    have hstored := selection.stored store horder
    refine ⟨List.forall_mem_map.mpr fun old hmem => trivial,
      List.forall_mem_map.mpr fun old hmem => .delete (hstored old hmem), ?_⟩
    rw [JsCall.steps, List.map_map]
    exact selection.distinct store horder

end Calls

section Reports

variable {P S κ : Type} [LinearOrder κ] {keys : KeyOps P S} {keyOf : IndexKey Scalar → κ}
  {Ok : IndexKey Scalar → Prop} {laws : KeyLaws keys keyOf Ok} {unique : String → String → Bool}
  {before : TableCache P S GinIndex} {tableIdMap : Std.ExtTreeMap String TableId}
  {js : JsTransaction P S} {history : List (String × Change Scalar)} (formats : JsonbFormats)

/-- A call that is refused has not changed a row before. -/
def Whole (ops : IndexOps P S GinIndex) (js : JsTransaction P S) (call : JsCall P S) : Prop :=
  ∀ tx store state, js.inner = some tx → js.cache[call.table]? = some store →
    JsTransaction.attempt ops (tx, js.cache) (call.steps store) = some (state, false) →
      state.1.journal.entries = tx.journal.entries

/-- The pending ids and deltas of a table are those of the history. -/
structure Reports (laws : KeyLaws keys keyOf Ok) (unique : String → String → Bool)
    (before : TableCache P S GinIndex) (tableIdMap : Std.ExtTreeMap String TableId)
    (history : List (String × Change Scalar)) (js : JsTransaction P S) : Prop where
  journaled : ∃ tx, js.inner = some tx ∧ Journaled laws unique before history (tx, js.cache)
  tableIds : js.tableIdMap = tableIdMap
  changes : ∀ (table : String) (tableId : TableId), tableIdMap[table]? = some tableId →
    js.pendingChanges[tableId]?.getD ∅ = ((changesOf table history).map rowIdOf).toFinset
  deltas : ∀ (table : String) (tableId : TableId), tableIdMap[table]? = some tableId →
    js.pendingDeltas[tableId]?.getD [] = (changesOf table history).flatMap deltasOf

theorem getElem?_insert_id {A : Type} (rows : TableMap A) (tableId other : TableId) (a : A) :
    (rows.insert tableId a)[other]? = if other = tableId then some a else rows[other]? := by
  rw [Std.ExtTreeMap.getElem?_insert]
  exact if_congr (Nat.compare_eq_eq.trans eq_comm) rfl rfl

theorem recordPendingChange_spec (js : JsTransaction P S) (tableId other : TableId)
    (changes : List (Change Scalar)) :
    let recorded := js.recordPendingChange tableId (changes.map rowIdOf).toFinset
      (changes.flatMap deltasOf)
    recorded.pendingChanges[other]?.getD ∅ = js.pendingChanges[other]?.getD ∅ ∪
        ((if other = tableId then changes else []).map rowIdOf).toFinset ∧
      recorded.pendingDeltas[other]?.getD [] = js.pendingDeltas[other]?.getD [] ++
        (if other = tableId then changes else []).flatMap deltasOf := by
  intro recorded
  cases changes with
  | nil => simp [recorded, JsTransaction.recordPendingChange]
  | cons change changes =>
    have hids : ((change :: changes).map rowIdOf).toFinset ≠ ∅ := by simp
    have hdeltas : ((change :: changes).flatMap deltasOf).isEmpty = false := by
      cases change <;> rfl
    simp only [recorded, JsTransaction.recordPendingChange, if_neg hids, hdeltas,
      Bool.false_eq_true, if_false, getElem?_insert_id]
    by_cases heq : other = tableId
    · simp [heq]
    · simp [heq]

theorem report_frame (js : JsTransaction P S) (table : String) (changes : List (Change Scalar)) :
    (js.report table changes).inner = js.inner ∧ (js.report table changes).cache = js.cache ∧
      (js.report table changes).tableIdMap = js.tableIdMap := by
  unfold JsTransaction.report JsTransaction.recordPendingChange
  split
  · dsimp only
    split
    · exact ⟨rfl, rfl, rfl⟩
    · split <;> exact ⟨rfl, rfl, rfl⟩
  · exact ⟨rfl, rfl, rfl⟩

/-- The tables have ids of their own. -/
def OwnIds (tableIdMap : Std.ExtTreeMap String TableId) : Prop :=
  ∀ (table other : String) (tableId : TableId), tableIdMap[table]? = some tableId →
    tableIdMap[other]? = some tableId → table = other

/-- What is reported of a table comes after what was pending. -/
theorem report_spec (hids : OwnIds js.tableIdMap) (reported : String)
    (changes : List (Change Scalar)) {table : String} {tableId : TableId}
    (htable : js.tableIdMap[table]? = some tableId) :
    (js.report reported changes).pendingChanges[tableId]?.getD ∅ =
        js.pendingChanges[tableId]?.getD ∅ ∪
          ((if reported = table then changes else []).map rowIdOf).toFinset ∧
      (js.report reported changes).pendingDeltas[tableId]?.getD [] =
        js.pendingDeltas[tableId]?.getD [] ++
          (if reported = table then changes else []).flatMap deltasOf := by
  unfold JsTransaction.report
  cases hown : js.tableIdMap[reported]? with
  | none =>
    have hne : reported ≠ table := by
      rintro rfl
      rw [hown] at htable
      cases htable
    simp [hne]
  | some own =>
    have hiff : tableId = own ↔ reported = table :=
      ⟨fun heq => hids reported table own hown (heq ▸ htable), fun heq =>
        Option.some.inj (htable.symm.trans (heq ▸ hown))⟩
    have hrecorded := recordPendingChange_spec js own tableId changes
    simp only [hiff] at hrecorded
    exact hrecorded

theorem Reports.call (h : Reports laws unique before tableIdMap history js)
    (hids : OwnIds tableIdMap) {call : JsCall P S} (hok : JsCallOk Ok call)
    (hwhole : Whole (keys.withGin formats).toIndexOps js call) :
    ∃ js', js.call (keys.withGin formats).toIndexOps call = some js' ∧
      ∃ history', Reports laws unique before tableIdMap history' js' := by
  obtain ⟨tx, hinner, hjournaled⟩ := h.journaled
  cases hstore : js.cache[call.table]? with
  | none => exact ⟨js, by simp [JsTransaction.call, hstore], history, h⟩
  | some store =>
    obtain ⟨hsteps, hexpected, hdistinct⟩ := hok.steps (hjournaled.consistent _ store hstore)
    obtain ⟨state, done, made, hattempt, hmade, hdone⟩ :=
      attempt_spec formats hjournaled hstore hsteps hexpected hdistinct
    cases done with
    | false =>
      have hnone : made = [] := by
        have hentries := congrArg (List.map JournalEntry.change)
          (hwhole tx store state hinner hstore hattempt)
        rw [hmade.journal, hjournaled.journal, changes_recordAll, changes_recordAll,
          ← List.append_assoc, List.append_right_eq_self, List.map_eq_nil_iff] at hentries
        exact hentries
      rw [hnone, List.map_nil, List.append_nil] at hmade
      refine ⟨{ js with inner := some state.1, cache := state.2 }, ?_, history,
        ⟨state.1, rfl, hmade⟩, h.tableIds, h.changes, h.deltas⟩
      simp [JsTransaction.call, hinner, hstore, hattempt]
    | true =>
      obtain rfl := hdone rfl
      let changes := (call.steps store).map Prod.snd
      let left : JsTransaction P S := { js with inner := some state.1, cache := state.2 }
      have hmap : left.tableIdMap = tableIdMap := h.tableIds
      have hown : OwnIds left.tableIdMap := hmap.symm ▸ hids
      obtain ⟨hstill, hcache, htables⟩ := report_frame left call.table changes
      refine ⟨left.report call.table changes, ?_, history ++ changes.map (call.table, ·),
        ⟨state.1, hstill, hcache.symm ▸ hmade⟩, htables.trans hmap,
        fun table tableId htable => ?_, fun table tableId htable => ?_⟩
      · simp [JsTransaction.call, hinner, hstore, hattempt, left, changes]
      · rw [(report_spec hown _ _ (hmap ▸ htable)).1, changesOf_append_one, List.map_append,
          List.toFinset_append, ← h.changes table tableId htable]
      · rw [(report_spec hown _ _ (hmap ▸ htable)).2, changesOf_append_one, List.flatMap_append,
          ← h.deltas table tableId htable]

end Reports

section Coded

variable {V : Type} [LinearOrder V] (code : ValueCode V)
  (debugValues : List (Value Scalar) → String) (formats : JsonbFormats)

/-- The ids and deltas tell how the rows of a table have changed: a row without its id is as it was,
and the deltas turn the rows before into the rows after. -/
structure Tells (changedIds : Finset RowId) (deltas : List (Delta (Row Scalar)))
    (before after : RowSlots Scalar) : Prop where
  unchanged : ∀ id, id ∉ changedIds → after.rowRefById id = before.rowRefById id
  leads : deltas.foldl foldDelta before.rowRefById = after.rowRefById
  named : ∀ delta ∈ deltas, delta.data.id ∈ changedIds

end Coded

section Sample

theorem insert_refused {P S : Type} {ops : IndexOps P S GinIndex} {tx : Transaction}
    {cache : TableCache P S GinIndex} {table : String} {row : Row Scalar} :
    (tx.insert ops cache table row).2.2.isOk = false →
      (tx.insert ops cache table row).1 = tx := by
  unfold Transaction.insert
  rcases tx.checkActive with error | ⟨⟩
  · exact fun _ => rfl
  rcases cache[table]? with _ | store
  · exact fun _ => rfl
  dsimp only
  rcases store.insert ops row with ⟨next, error | rowId⟩
  · exact fun _ => rfl
  · exact fun h => (Bool.noConfusion h : False).elim

/-- The insertion of one row is taken or leaves the journal. -/
theorem whole_singleton {P S : Type} (ops : IndexOps P S GinIndex) (js : JsTransaction P S)
    (table : String) (row : Row Scalar) : Whole ops js (.insert table [row]) := by
  intro tx store state _ _ hattempt
  rw [JsCall.steps, List.map_cons, List.map_nil, JsTransaction.attempt, Transaction.call,
    Option.bind_some] at hattempt
  split at hattempt
  next => cases hattempt
  next hrefused =>
    cases hattempt
    rw [insert_refused (Bool.eq_false_iff.mpr hrefused)]

end Sample

end Cynos.Database
