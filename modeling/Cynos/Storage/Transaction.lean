import Cynos.Storage.Alike
import Cynos.Storage.ConsistentRuns
import Cynos.Storage.Rollback

/-! Transactions on the tables of a cache. A call changes the store of its table and writes the
change down in the journal; a rollback undoes the journal and leaves every table as it was. -/
namespace Cynos.Storage

open Core (Row Scalar Value)
open Index (BTreeIndex GinIndex RowId)

section Source

inductive CacheError where
  | tableNotFound (name : String)
  | invalidSchema (message : String)
  | store (error : Error)

namespace TableCache

variable {P S : Type} (keys : KeyOps P S) (formats : JsonbFormats)

def createTable (cache : TableCache P S GinIndex) (schema : TableSchema) :
    TableCache P S GinIndex × Except CacheError Unit :=
  if schema.name ∈ cache then
    (cache, .error (.invalidSchema ("Table already exists: " ++ schema.name)))
  else (cache.insert schema.name (.new keys schema), .ok ())

def dropTable (cache : TableCache P S GinIndex) (name : String) :
    TableCache P S GinIndex × Except CacheError Unit :=
  if name ∈ cache then (cache.erase name, .ok ()) else (cache, .error (.tableNotFound name))

def clear (cache : TableCache P S GinIndex) : TableCache P S GinIndex :=
  cache.map fun _ store => store.clear (keys.withGin formats)

end TableCache

abbrev TransactionId := UInt64

inductive TransactionState where
  | active
  | committed
  | rolledBack
  deriving DecidableEq

structure Transaction where
  id : TransactionId
  journal : Journal Scalar
  state : TransactionState

namespace Transaction

variable {P S G : Type} (ops : IndexOps P S G)

/-- With the id after its own. -/
def begin (nextTxId : TransactionId) : Transaction × TransactionId :=
  (⟨nextTxId, .new, .active⟩, nextTxId + 1)

def checkActive (tx : Transaction) : Except CacheError Unit :=
  if tx.state ≠ .active then
    .error (.store (.invalidOperation "Transaction is not active"))
  else .ok ()

theorem checkActive_ok {tx : Transaction} (hactive : tx.state = .active) :
    tx.checkActive = .ok () := if_neg fun h => h hactive

def insert (tx : Transaction) (cache : TableCache P S G) (table : String) (row : Row Scalar) :
    Transaction × TableCache P S G × Except CacheError RowId :=
  match tx.checkActive with
  | .error error => (tx, cache, .error error)
  | .ok () =>
    match cache[table]? with
    | none => (tx, cache, .error (.tableNotFound table))
    | some store =>
      match store.insert ops row with
      | (store, .error error) => (tx, cache.insert table store, .error (.store error))
      | (store, .ok rowId) =>
        ({ tx with journal := tx.journal.recordInsert table row }, cache.insert table store,
          .ok rowId)

def update (tx : Transaction) (cache : TableCache P S G) (table : String) (rowId : RowId)
    (newRow : Row Scalar) : Transaction × TableCache P S G × Except CacheError Unit :=
  match tx.checkActive with
  | .error error => (tx, cache, .error error)
  | .ok () =>
    match cache[table]? with
    | none => (tx, cache, .error (.tableNotFound table))
    | some store =>
      match store.slots.rowRefById rowId with
      | none => (tx, cache, .error (.store (.notFound table (RowStore.rowIdValue rowId))))
      | some oldRow =>
        match store.update ops rowId newRow with
        | (store, .error error) => (tx, cache.insert table store, .error (.store error))
        | (store, .ok ()) =>
          ({ tx with journal := tx.journal.recordUpdate table oldRow newRow },
            cache.insert table store, .ok ())

/-- `none` where the store runs out of its slots. -/
def delete (tx : Transaction) (cache : TableCache P S G) (table : String) (rowId : RowId) :
    Option (Transaction × TableCache P S G × Except CacheError (Row Scalar)) :=
  match tx.checkActive with
  | .error error => some (tx, cache, .error error)
  | .ok () =>
    match cache[table]? with
    | none => some (tx, cache, .error (.tableNotFound table))
    | some store =>
      match store.delete ops rowId with
      | none => none
      | some (store, .error error) => some (tx, cache.insert table store, .error (.store error))
      | some (store, .ok row) =>
        some ({ tx with journal := tx.journal.recordDelete table row }, cache.insert table store,
          .ok row)

def commit (tx : Transaction) : Transaction × Except CacheError (List (JournalEntry Scalar)) :=
  match tx.checkActive with
  | .error error => (tx, .error error)
  | .ok () => ({ tx with journal := .new, state := .committed }, .ok tx.journal.entries)

def rollback (tx : Transaction) (cache : TableCache P S G) :
    Option (Transaction × TableCache P S G × Except CacheError Unit) :=
  match tx.checkActive with
  | .error error => some (tx, cache, .error error)
  | .ok () =>
    (tx.journal.rollback ops cache).map fun (journal, cache, result) =>
      ({ tx with journal := journal, state := .rolledBack }, cache, result.mapError .store)

end Transaction

inductive TransactionCall where
  | insert (table : String) (row : Row Scalar)
  | update (table : String) (rowId : RowId) (newRow : Row Scalar)
  | delete (table : String) (rowId : RowId)

def TransactionCall.table : TransactionCall → String
  | .insert table _ | .update table _ _ | .delete table _ => table

/-- The transaction and the tables after a call, whether it was refused or not. -/
def Transaction.call {P S G : Type} (ops : IndexOps P S G)
    (state : Transaction × TableCache P S G) :
    TransactionCall → Option (Transaction × TableCache P S G)
  | .insert table row =>
    let (tx, cache, _) := state.1.insert ops state.2 table row
    some (tx, cache)
  | .update table rowId newRow =>
    let (tx, cache, _) := state.1.update ops state.2 table rowId newRow
    some (tx, cache)
  | .delete table rowId =>
    (state.1.delete ops state.2 table rowId).map fun (tx, cache, _) => (tx, cache)

/-- Whether the call is not refused. -/
def Transaction.accepts {P S G : Type} (ops : IndexOps P S G)
    (state : Transaction × TableCache P S G) : TransactionCall → Bool
  | .insert table row => (state.1.insert ops state.2 table row).2.2.isOk
  | .update table rowId newRow => (state.1.update ops state.2 table rowId newRow).2.2.isOk
  | .delete table rowId =>
    (state.1.delete ops state.2 table rowId).any fun (_, _, result) => result.isOk

end Source

section Caches

variable {P S κ : Type} [LinearOrder κ] {keys : KeyOps P S} {keyOf : IndexKey Scalar → κ}
  {Ok : IndexKey Scalar → Prop} (laws : KeyLaws keys keyOf Ok) (unique : String → String → Bool)

def ConsistentCache (cache : TableCache P S GinIndex) : Prop :=
  ∀ (table : String) (store : GinStore P S), cache[table]? = some store →
    Consistent laws (unique table) store

/-- The same tables, each with the same values. -/
def AlikeCaches (before after : TableCache P S GinIndex) : Prop :=
  ∀ table : String, Option.Rel (Alike laws (unique table)) before[table]? after[table]?

variable {laws unique} {first second third : TableCache P S GinIndex} {table : String}
  {store store' : GinStore P S}

theorem ConsistentCache.alike (h : ConsistentCache laws unique first) :
    AlikeCaches laws unique first first := by
  intro table
  cases hstore : first[table]? with
  | none => exact .none
  | some store => exact .some (h table store hstore).alike

theorem AlikeCaches.get (h : AlikeCaches laws unique first second)
    (hstore : first[table]? = some store) :
    ∃ store', second[table]? = some store' ∧ Alike laws (unique table) store store' :=
  rel_get (hstore ▸ h table)

theorem AlikeCaches.symm (h : AlikeCaches laws unique first second) :
    AlikeCaches laws unique second first := fun table =>
  rel_imp (fun _ _ halike => halike.symm) (rel_swap (h table))

theorem AlikeCaches.trans (h : AlikeCaches laws unique first second)
    (h' : AlikeCaches laws unique second third) : AlikeCaches laws unique first third := by
  intro table
  cases hstore : first[table]? with
  | none =>
    cases hother : third[table]? with
    | none => exact .none
    | some other =>
      obtain ⟨middle, hmiddle, -⟩ := h'.symm.get hother
      obtain ⟨store, hstore', -⟩ := h.symm.get hmiddle
      rw [hstore] at hstore'
      cases hstore'
  | some store =>
    obtain ⟨middle, hmiddle, halike⟩ := h.get hstore
    obtain ⟨other, hother, halike'⟩ := h'.get hmiddle
    rw [hother]
    exact .some (halike.trans halike')

theorem AlikeCaches.consistent (h : AlikeCaches laws unique first second) :
    ConsistentCache laws unique second := by
  intro table store hstore
  obtain ⟨store', -, halike⟩ := h.symm.get hstore
  exact halike.first

/-- One table is put in the place of one that is like it. -/
theorem AlikeCaches.insert (h : AlikeCaches laws unique first second)
    (hstore : first[table]? = some store) (halike : Alike laws (unique table) store store') :
    AlikeCaches laws unique first (second.insert table store') := by
  intro other
  rw [getElem?_insert_table]
  split
  next heq =>
    rw [heq, hstore]
    exact .some halike
  next => exact h other

theorem ConsistentCache.insert (h : ConsistentCache laws unique first)
    (hstore : Consistent laws (unique table) store) :
    ConsistentCache laws unique (first.insert table store) := by
  intro other stored hstored
  rw [getElem?_insert_table] at hstored
  split at hstored
  next heq =>
    obtain rfl := Option.some.inj hstored
    exact heq ▸ hstore
  next => exact h other stored hstored

end Caches

section Undo

variable {P S κ : Type} [LinearOrder κ] {keys : KeyOps P S} {keyOf : IndexKey Scalar → κ}
  {Ok : IndexKey Scalar → Prop} {laws : KeyLaws keys keyOf Ok} {unique : String → String → Bool}
  {cache : TableCache P S GinIndex} {table : String} {store : GinStore P S} (formats : JsonbFormats)

/-- Undoing one entry, unless the rollback ends there. -/
def undo {P S G : Type} (ops : IndexOps P S G) (cache : TableCache P S G)
    (entry : JournalEntry Scalar) : Option (TableCache P S G) :=
  match undoEntry ops cache entry with
  | some (next, .ok ()) => some next
  | _ => none

theorem undoEntries_of_run {P S G : Type} {ops : IndexOps P S G} {cache back : TableCache P S G}
    {entries : List (JournalEntry Scalar)} (h : Run.run (undo ops) cache entries = some back) :
    undoEntries ops cache entries = some (back, .ok ()) := by
  induction entries generalizing cache with
  | nil =>
    obtain rfl := Option.some.inj h
    rfl
  | cons entry entries ih =>
    rw [Run.run_cons] at h
    obtain ⟨next, hnext, hrest⟩ := Option.bind_eq_some_iff.mp h
    unfold undo at hnext
    rw [undoEntries]
    split at hnext
    next hentry =>
      obtain rfl := Option.some.inj hnext
      rw [hentry]
      exact ih hrest
    next => cases hnext

/-- Rows have keys that the indexes can tell apart, and a changed row keeps its id. -/
def CallOk (Ok : IndexKey Scalar → Prop) : TransactionCall → Prop
  | .insert _ row => RowOk Ok row
  | .update _ rowId newRow => RowOk Ok newRow ∧ newRow.id = rowId
  | .delete _ _ => True

/-- A changed row has a version that can be raised. -/
def Raisable : TransactionCall → Prop
  | .update _ _ newRow => newRow.version < Row.maxVersion
  | _ => True

/-- What a call does to an active transaction on consistent tables: the entries it writes down, if
any, undo it. -/
def CallSpec (laws : KeyLaws keys keyOf Ok) (unique : String → String → Bool)
    (ops : IndexOps P S GinIndex) (tx : Transaction) (cache : TableCache P S GinIndex)
    (call : TransactionCall) : Prop :=
  ∃ tx' cache' entries, Transaction.call ops (tx, cache) call = some (tx', cache') ∧
    tx'.state = .active ∧ tx'.journal.entries = tx.journal.entries ++ entries ∧
    ConsistentCache laws unique cache' ∧
    (Raisable call → Run.Reverts (AlikeCaches laws unique) (undo ops) cache cache' entries)

variable {tx : Transaction} {call : TransactionCall} {next : GinStore P S} {row : Row Scalar}
  {rowId : RowId}

theorem CallSpec.refused {ops : IndexOps P S GinIndex} (cache' : TableCache P S GinIndex)
    (hactive : tx.state = .active)
    (hcall : Transaction.call ops (tx, cache) call = some (tx, cache'))
    (halike : AlikeCaches laws unique cache cache') : CallSpec laws unique ops tx cache call :=
  ⟨tx, cache', [], hcall, hactive, (List.append_nil _).symm, halike.consistent,
    fun _ => .nil fun _ hstate => halike.trans hstate⟩

/-- A change of one table is undone by its entry on every table like the changed one. -/
theorem CallSpec.made {ops : IndexOps P S GinIndex} (tx' : Transaction) (next : GinStore P S)
    {entry : JournalEntry Scalar} (hcache : ConsistentCache laws unique cache)
    (hstore : cache[table]? = some store)
    (hcall : Transaction.call ops (tx, cache) call = some (tx', cache.insert table next))
    (hactive : tx'.state = .active) (hentry : tx'.journal.entries = tx.journal.entries ++ [entry])
    (hnext : Consistent laws (unique table) next)
    (hundo : Raisable call → ∀ (state : TableCache P S GinIndex) (other : GinStore P S),
      state[table]? = some other → Alike laws (unique table) next other →
        ∃ back, undo ops state entry = some (state.insert table back) ∧
          Alike laws (unique table) store back) : CallSpec laws unique ops tx cache call := by
  refine ⟨tx', _, [entry], hcall, hactive, hentry, hcache.insert hnext, fun hraisable => ?_⟩
  rw [Run.reverts_singleton]
  intro state hstate
  have hinserted : (cache.insert table next)[table]? = some next := by
    rw [getElem?_insert_table, if_pos rfl]
  obtain ⟨other, hother, halike⟩ := hstate.get hinserted
  obtain ⟨back, hback, hlike⟩ := hundo hraisable state other hother halike
  refine ⟨_, hback, fun name => ?_⟩
  rw [getElem?_insert_table]
  split
  next heq =>
    rw [heq, hstore]
    exact .some hlike
  next hne =>
    have hname := hstate name
    rwa [getElem?_insert_table, if_neg hne] at hname

/-- The same tables, each with the same rows. -/
def SameRows (laws : KeyLaws keys keyOf Ok) (unique : String → String → Bool)
    (before after : TableCache P S GinIndex) : Prop :=
  ∀ table : String, Option.Rel (fun store next : GinStore P S =>
    Alike laws (unique table) store next ∧
      ∀ id, next.slots.rowRefById id = store.slots.rowRefById id) before[table]? after[table]?

theorem ConsistentCache.sameRows (h : ConsistentCache laws unique cache) :
    SameRows laws unique cache cache := by
  intro table
  cases hstore : cache[table]? with
  | none => exact .none
  | some store => exact .some ⟨(h table store hstore).alike, fun _ => rfl⟩

/-- A table that a refused call has left with the same rows. -/
theorem ConsistentCache.sameRows_insert (h : ConsistentCache laws unique cache)
    (hstore : cache[table]? = some store) (hnext : Consistent laws (unique table) next)
    (hkeys : SameKeys store next)
    (hrows : ∀ id, next.slots.rowRefById id = store.slots.rowRefById id) :
    SameRows laws unique cache (cache.insert table next) := by
  intro other
  rw [getElem?_insert_table]
  split
  next heq =>
    rw [heq, hstore]
    exact .some ⟨⟨h table store hstore, hnext, hkeys, fun id => by rw [hrows]⟩, hrows⟩
  next => exact h.sameRows other

theorem SameRows.alike {after : TableCache P S GinIndex} (h : SameRows laws unique cache after) :
    AlikeCaches laws unique cache after := fun name => rel_imp (fun _ _ hsame => hsame.1) (h name)

/-- The change of its table that a call makes where the store takes it. -/
inductive Makes {P S G : Type} (ops : IndexOps P S G) (store next : RowStore P S G) :
    TransactionCall → Change Scalar → Prop
  | insert {table : String} {row : Row Scalar} (h : store.insert ops row = (next, .ok row.id)) :
    Makes ops store next (.insert table row) (.insert row)
  | update {table : String} {rowId : RowId} {oldRow newRow : Row Scalar}
    (hrow : store.slots.rowRefById rowId = some oldRow)
    (h : store.update ops rowId newRow = (next, .ok ())) :
    Makes ops store next (.update table rowId newRow) (.update oldRow newRow)
  | delete {table : String} {rowId : RowId} {row : Row Scalar}
    (h : store.delete ops rowId = some (next, .ok row)) :
    Makes ops store next (.delete table rowId) (.delete row)

/-- All that a call does to an active transaction and its tables: it is refused, or makes a change
of one table and writes it down. -/
def CallEffect (laws : KeyLaws keys keyOf Ok) (unique : String → String → Bool)
    (ops : IndexOps P S GinIndex) (tx : Transaction) (cache : TableCache P S GinIndex)
    (call : TransactionCall) : Prop :=
  (∃ cache', Transaction.call ops (tx, cache) call = some (tx, cache') ∧
    Transaction.accepts ops (tx, cache) call = false ∧ SameRows laws unique cache cache') ∨
  ∃ store next change, cache[call.table]? = some store ∧ Makes ops store next call change ∧
    Consistent laws (unique call.table) next ∧ Transaction.accepts ops (tx, cache) call = true ∧
    Transaction.call ops (tx, cache) call =
      some ({ tx with journal := tx.journal.record (call.table, change) },
        cache.insert call.table next)

theorem callEffect_insert (hactive : tx.state = .active)
    (hcache : ConsistentCache laws unique cache) (hok : RowOk Ok row) :
    CallEffect laws unique (keys.withGin formats).toIndexOps tx cache (.insert table row) := by
  have hcheck := Transaction.checkActive_ok hactive
  cases hstore : cache[table]? with
  | none =>
    refine .inl ⟨cache, ?_, ?_, hcache.sameRows⟩ <;>
      simp [Transaction.call, Transaction.accepts, Transaction.insert, hcheck, hstore, Except.isOk,
        Except.toBool]
  | some store =>
    obtain ⟨next, result, hinsert, hnext, hkeys, hcases⟩ :=
      (hcache table store hstore).insert formats hok
    rcases hcases with ⟨-, ⟨error, rfl⟩, hslots⟩ | ⟨-, rfl, -⟩
    · refine .inl ⟨_, ?_, ?_,
        hcache.sameRows_insert hstore hnext hkeys fun id => by rw [hslots]⟩ <;>
        simp [Transaction.call, Transaction.accepts, Transaction.insert, hcheck, hstore, hinsert,
          Except.isOk, Except.toBool]
    · refine .inr ⟨store, next, _, hstore, .insert hinsert, hnext, ?_, ?_⟩ <;>
        simp [Transaction.call, Transaction.accepts, Transaction.insert, hcheck, hstore, hinsert,
          Journal.record, TransactionCall.table, Except.isOk, Except.toBool]

theorem callEffect_update {newRow : Row Scalar} (hactive : tx.state = .active)
    (hcache : ConsistentCache laws unique cache) (hok : RowOk Ok newRow) (hid : newRow.id = rowId) :
    CallEffect laws unique (keys.withGin formats).toIndexOps tx cache
      (.update table rowId newRow) := by
  have hcheck := Transaction.checkActive_ok hactive
  cases hstore : cache[table]? with
  | none =>
    refine .inl ⟨cache, ?_, ?_, hcache.sameRows⟩ <;>
      simp [Transaction.call, Transaction.accepts, Transaction.update, hcheck, hstore, Except.isOk,
        Except.toBool]
  | some store =>
    cases hrow : store.slots.rowRefById rowId with
    | none =>
      refine .inl ⟨cache, ?_, ?_, hcache.sameRows⟩ <;>
        simp [Transaction.call, Transaction.accepts, Transaction.update, hcheck, hstore, hrow,
          Except.isOk, Except.toBool]
    | some oldRow =>
      obtain ⟨next, result, hupdate, hnext, hkeys, hcases⟩ :=
        (hcache table store hstore).update formats hok hid
      rcases hcases with ⟨⟨error, rfl⟩, hsame⟩ | ⟨rfl, -⟩
      · refine .inl ⟨_, ?_, ?_,
          hcache.sameRows_insert hstore hnext hkeys fun id => by rw [hsame]⟩ <;>
          simp [Transaction.call, Transaction.accepts, Transaction.update, hcheck, hstore, hrow,
            hupdate, Except.isOk, Except.toBool]
      · refine .inr ⟨store, next, _, hstore, .update hrow hupdate, hnext, ?_, ?_⟩ <;>
          simp [Transaction.call, Transaction.accepts, Transaction.update, hcheck, hstore, hrow,
            hupdate, Journal.record, TransactionCall.table, Except.isOk, Except.toBool]

theorem callEffect_delete (hactive : tx.state = .active)
    (hcache : ConsistentCache laws unique cache) :
    CallEffect laws unique (keys.withGin formats).toIndexOps tx cache (.delete table rowId) := by
  have hcheck := Transaction.checkActive_ok hactive
  cases hstore : cache[table]? with
  | none =>
    refine .inl ⟨cache, ?_, ?_, hcache.sameRows⟩ <;>
      simp [Transaction.call, Transaction.accepts, Transaction.delete, hcheck, hstore, Except.isOk,
        Except.toBool]
  | some store =>
    have hconsistent := hcache table store hstore
    obtain ⟨next, result, hdelete, hnext, hkeys, hgone⟩ := hconsistent.delete formats rowId
    cases result with
    | error error =>
      refine .inl ⟨_, ?_, ?_, hcache.sameRows_insert hstore hnext hkeys fun id => ?_⟩
      · simp [Transaction.call, Transaction.delete, hcheck, hstore, hdelete]
      · simp [Transaction.accepts, Transaction.delete, hcheck, hstore, hdelete, Except.isOk,
          Except.toBool]
      · have hnone := hconsistent.delete_result formats hdelete
        rw [hgone]
        split
        next heq => rw [heq, hnone]
        next => rfl
    | ok row =>
      refine .inr ⟨store, next, _, hstore, .delete hdelete, hnext, ?_, ?_⟩ <;>
        simp [Transaction.call, Transaction.accepts, Transaction.delete, hcheck, hstore, hdelete,
          Journal.record, TransactionCall.table, Except.isOk, Except.toBool]

theorem callEffect (hactive : tx.state = .active) (hcache : ConsistentCache laws unique cache)
    (hcall : CallOk Ok call) :
    CallEffect laws unique (keys.withGin formats).toIndexOps tx cache call := by
  cases call with
  | insert table row => exact callEffect_insert formats hactive hcache hcall
  | update table rowId newRow => exact callEffect_update formats hactive hcache hcall.1 hcall.2
  | delete table rowId => exact callEffect_delete formats hactive hcache

theorem callSpec (hactive : tx.state = .active) (hcache : ConsistentCache laws unique cache)
    (hcall : CallOk Ok call) :
    CallSpec laws unique (keys.withGin formats).toIndexOps tx cache call := by
  rcases callEffect formats hactive hcache hcall with
    ⟨cache', hrefused, -, hsame⟩ | ⟨store, next, change, hstore, hmakes, hnext, -, hmade⟩
  · exact .refused cache' hactive hrefused hsame.alike
  · have hconsistent := hcache _ store hstore
    cases hmakes with
    | insert hinsert =>
      refine .made _ next hcache hstore hmade hactive rfl hnext
        fun _ state other hother halike => ?_
      obtain ⟨back, result, hdelete, hback⟩ := hconsistent.undo_insert formats hcall hinsert halike
      refine ⟨back, ?_, hback⟩
      simp [undo, undoEntry, hother, hdelete]
    | @update _ rowId oldRow newRow hrow hupdate =>
      refine .made _ next hcache hstore hmade hactive rfl hnext
        fun hraisable state other hother halike => ?_
      have holdId := (hconsistent.named rowId oldRow hrow).1
      refine ⟨_, ?_, hconsistent.undo_update formats hcall.1 hcall.2 hrow hupdate halike
        (show (rollbackRow oldRow newRow).id = rowId from holdId) rfl⟩
      have hversion : newRow.version + 1 ≤ Row.maxVersion := hraisable
      simp [undo, undoEntry, hother, hversion, holdId]
    | delete hdelete =>
      refine .made _ next hcache hstore hmade hactive rfl hnext
        fun _ state other hother halike => ?_
      refine ⟨_, ?_, hconsistent.undo_delete formats hdelete halike⟩
      simp [undo, undoEntry, hother]

/-- The calls of a transaction never panic; its journal undoes all of them. -/
theorem run_calls (hactive : tx.state = .active) (hcache : ConsistentCache laws unique cache)
    {calls : List TransactionCall} (hcalls : ∀ call ∈ calls, CallOk Ok call) :
    ∃ tx' cache' entries,
      Run.run (Transaction.call (keys.withGin formats).toIndexOps) (tx, cache) calls =
        some (tx', cache') ∧ tx'.state = .active ∧
      tx'.journal.entries = tx.journal.entries ++ entries ∧ ConsistentCache laws unique cache' ∧
      ((∀ call ∈ calls, Raisable call) → Run.Reverts (AlikeCaches laws unique)
        (undo (keys.withGin formats).toIndexOps) cache cache' entries) := by
  induction calls generalizing tx cache with
  | nil => exact ⟨tx, cache, [], rfl, hactive, (List.append_nil _).symm, hcache,
      fun _ => .nil fun _ hstate => hstate⟩
  | cons call calls ih =>
    obtain ⟨tx₁, cache₁, entries, hcall, hactive₁, hentries, hcache₁, hreverts⟩ :=
      callSpec formats hactive hcache (hcalls call List.mem_cons_self)
    obtain ⟨tx₂, cache₂, entries', hrun, hactive₂, hentries', hcache₂, hreverts'⟩ :=
      ih hactive₁ hcache₁ fun call hmem => hcalls call (List.mem_cons_of_mem _ hmem)
    refine ⟨tx₂, cache₂, entries ++ entries', ?_, hactive₂, ?_, hcache₂, fun hraisable => ?_⟩
    · rw [Run.run_cons, hcall]
      exact hrun
    · rw [hentries', hentries, List.append_assoc]
    · exact (hreverts (hraisable call List.mem_cons_self)).append
        (hreverts' fun call hmem => hraisable call (List.mem_cons_of_mem _ hmem))

/-- A transaction that is rolled back ends well and leaves the tables as they were. -/
theorem rollback_calls (hcache : ConsistentCache laws unique cache) (nextTxId : TransactionId)
    {calls : List TransactionCall} (hcalls : ∀ call ∈ calls, CallOk Ok call ∧ Raisable call) :
    ∃ tx during after tx', Run.run (Transaction.call (keys.withGin formats).toIndexOps)
        ((Transaction.begin nextTxId).1, cache) calls = some (tx, during) ∧
      tx.rollback (keys.withGin formats).toIndexOps during = some (tx', after, .ok ()) ∧
      AlikeCaches laws unique cache after := by
  have hactive : (Transaction.begin nextTxId).1.state = .active := rfl
  obtain ⟨tx, during, entries, hrun, hstill, hentries, hduring, hreverts⟩ :=
    run_calls formats hactive hcache fun call hmem => (hcalls call hmem).1
  obtain ⟨after, hundo, halike⟩ :=
    hreverts (fun call hmem => (hcalls call hmem).2) during hduring.alike
  have hall : tx.journal.entries = entries := hentries
  refine ⟨tx, during, after, { tx with journal := .new, state := .rolledBack }, hrun, ?_, halike⟩
  have hcheck := Transaction.checkActive_ok hstill
  unfold Transaction.rollback Journal.rollback
  rw [hcheck, hall, undoEntries_of_run hundo]
  rfl

end Undo

section Runs

inductive CacheCall where
  | createTable (schema : TableSchema)
  | dropTable (name : String)
  | clear
  | operate (table : String) (operation : RowStoreOperation)
  | committed (calls : List TransactionCall)
  | rolledBack (calls : List TransactionCall)

variable {P S : Type} (keys : KeyOps P S) (formats : JsonbFormats)
  (firstRowId : RowStore.FirstRowId P)

/-- The tables and the next transaction id after a call. Transactions come one after another, and a
commit leaves the tables alone. -/
def cacheCall (state : TableCache P S GinIndex × TransactionId) :
    CacheCall → Option (TableCache P S GinIndex × TransactionId)
  | .createTable schema => some ((TableCache.createTable keys state.1 schema).1, state.2)
  | .dropTable name => some ((TableCache.dropTable state.1 name).1, state.2)
  | .clear => some (TableCache.clear keys formats state.1, state.2)
  | .operate table operation =>
    match state.1[table]? with
    | none => some state
    | some store => (store.operate (keys.withGin formats) firstRowId operation).map fun store =>
      (state.1.insert table store, state.2)
  | .committed calls =>
    let begun := Transaction.begin state.2
    (Run.run (Transaction.call (keys.withGin formats).toIndexOps) (begun.1, state.1) calls).map
      fun (_, cache) => (cache, begun.2)
  | .rolledBack calls =>
    let begun := Transaction.begin state.2
    (Run.run (Transaction.call (keys.withGin formats).toIndexOps) (begun.1, state.1) calls).bind
      fun (tx, cache) => (tx.rollback (keys.withGin formats).toIndexOps cache).map
        fun (_, cache, _) => (cache, begun.2)

variable {keys} {κ : Type} [LinearOrder κ] {keyOf : IndexKey Scalar → κ}
  {Ok : IndexKey Scalar → Prop} (laws : KeyLaws keys keyOf Ok)

/-- A primary key has a column; rows have keys that the indexes can tell apart, and a changed one
keeps its id. -/
def KeepsTables (state : TableCache P S GinIndex × TransactionId) : CacheCall → Prop
  | .createTable schema =>
    ∀ names, schema.primaryKey = some names → schema.columnIndices names ≠ []
  | .operate table operation =>
    ∀ store : GinStore P S, state.1[table]? = some store → KeepsIndexes laws store operation
  | .committed calls => ∀ call ∈ calls, CallOk Ok call
  | .rolledBack calls => ∀ call ∈ calls, CallOk Ok call ∧ Raisable call
  | .dropTable _ | .clear => True

variable {laws}

theorem cacheCall_keeps {state : TableCache P S GinIndex × TransactionId} {call : CacheCall}
    (h : ∃ unique, ConsistentCache laws unique state.1) (hkeeps : KeepsTables laws state call) :
    ∃ next, cacheCall keys formats firstRowId state call = some next ∧
      ∃ unique, ConsistentCache laws unique next.1 := by
  obtain ⟨unique, hcache⟩ := h
  cases call with
  | createTable schema =>
    refine ⟨_, rfl, ?_⟩
    unfold TableCache.createTable
    split
    next => exact ⟨unique, hcache⟩
    next =>
      refine ⟨fun table => if table = schema.name then schema.uniqueIndex else unique table,
        fun table store hstore => ?_⟩
      rw [getElem?_insert_table] at hstore
      split at hstore
      next heq =>
        obtain rfl := Option.some.inj hstore
        dsimp only
        rw [if_pos heq]
        exact consistent_new laws schema hkeeps
      next hne =>
        dsimp only
        rw [if_neg hne]
        exact hcache table store hstore
  | dropTable name =>
    refine ⟨_, rfl, unique, fun table store hstore => ?_⟩
    unfold TableCache.dropTable at hstore
    split at hstore
    next =>
      rw [Std.ExtTreeMap.getElem?_erase] at hstore
      split at hstore
      · cases hstore
      · exact hcache table store hstore
    next => exact hcache table store hstore
  | clear =>
    refine ⟨_, rfl, unique, fun table store hstore => ?_⟩
    unfold TableCache.clear at hstore
    rw [Std.ExtTreeMap.getElem?_map] at hstore
    obtain ⟨old, hold, rfl⟩ := Option.map_eq_some_iff.mp hstore
    exact ((hcache table old hold).clear formats).1
  | operate table operation =>
    cases hstore : state.1[table]? with
    | none => exact ⟨state, by simp [cacheCall, hstore], unique, hcache⟩
    | some store =>
      obtain ⟨next, hnext, hconsistent, -⟩ := (hcache table store hstore).operate formats firstRowId
        operation (hkeeps store hstore)
      exact ⟨(state.1.insert table next, state.2), by simp [cacheCall, hstore, hnext], unique,
        hcache.insert hconsistent⟩
  | committed calls =>
    have hactive : (Transaction.begin state.2).1.state = .active := rfl
    obtain ⟨tx, during, entries, hrun, -, -, hduring, -⟩ := run_calls formats hactive hcache hkeeps
    exact ⟨(during, state.2 + 1), by simp only [cacheCall, hrun]; rfl, unique, hduring⟩
  | rolledBack calls =>
    obtain ⟨tx, during, after, tx', hrun, hrollback, halike⟩ :=
      rollback_calls formats hcache state.2 hkeeps
    refine ⟨(after, state.2 + 1), ?_, unique, halike.consistent⟩
    simp only [cacheCall, hrun, Option.bind_some, hrollback, Option.map_some]
    rfl

theorem run_consistentCache (nextTxId : TransactionId) {calls : List CacheCall}
    (h : Run.Along (cacheCall keys formats firstRowId) (KeepsTables laws) (∅, nextTxId) calls) :
    ∃ state, Run.run (cacheCall keys formats firstRowId) (∅, nextTxId) calls = some state ∧
      ∃ unique, ConsistentCache laws unique state.1 := by
  have hempty : ∃ unique, ConsistentCache laws unique
      ((∅ : TableCache P S GinIndex), nextTxId).1 := by
    refine ⟨fun _ _ => false, fun table store hstore => ?_⟩
    simp at hstore
  exact Run.preserves
    (fun state call hstate hkeeps => cacheCall_keeps formats firstRowId hstate hkeeps) hempty h

end Runs

section Coded

variable {V : Type} [LinearOrder V] {code : ValueCode V}
  {debugValues : List (Value Scalar) → String}

/-- A table has the values of an earlier state under the same ids, its lookups find the same rows,
and it takes in the same ones. -/
structure Restored (code : ValueCode V)
    (ops : IndexOps (BTreeIndex (IndexKey V)) (SecondaryIndexStore (IndexKey V)) GinIndex)
    (before after : CodedStore V) : Prop where
  values : SameValues before.slots after.slots
  primary : ∀ index, before.primaryIndex = some index → ∃ index', after.primaryIndex = some index' ∧
    ∀ key, (getIndexKey index' key).Perm (getIndexKey index key)
  secondary : ∀ (name : String) index, before.secondaryIndices[name]? = some index →
    ∃ index', after.secondaryIndices[name]? = some index' ∧
      ∀ key, (index'.getIndexKey key).Perm (index.getIndexKey key)
  lists : ListsStoredRows code after
  accepts : ∀ row, RowOk code.OkKey row → ((after.insert ops row).2 = .ok row.id ↔
    (before.insert ops row).2 = .ok row.id)

theorem SameValues.finds {before after : CodedStore V} (h : SameValues before.slots after.slots)
    {cols : List Nat} {get get' : IndexKey V → List RowId} (hbefore : Finds code before cols get)
    (hafter : Finds code after cols get') (key : IndexKey V) : (get' key).Perm (get key) := by
  rw [List.perm_ext_iff_of_nodup (hafter key).1 (hbefore key).1]
  intro id
  rw [(hafter key).2, (hbefore key).2]
  exact h.rowKeys cols key id

theorem Consistent.insert_ok_iff {P S κ : Type} [LinearOrder κ] {keys : KeyOps P S}
    {keyOf : IndexKey Scalar → κ} {Ok : IndexKey Scalar → Prop} {laws : KeyLaws keys keyOf Ok}
    {unique : String → Bool} {store : GinStore P S} (h : Consistent laws unique store)
    (formats : JsonbFormats) {row : Row Scalar} (hok : RowOk Ok row) :
    (store.insert (keys.withGin formats).toIndexOps row).2 = .ok row.id ↔
      ¬Taken keyOf unique store row := by
  obtain ⟨next, result, hinsert, -, -, hcases⟩ := h.insert formats hok
  rw [hinsert]
  rcases hcases with ⟨htaken, ⟨error, rfl⟩, -⟩ | ⟨hfree, rfl, -⟩
  · exact iff_of_false (by simp) (not_not.mpr htaken)
  · exact iff_of_true rfl hfree

theorem Alike.restored {unique : String → Bool} {before after : CodedStore V}
    (h : Alike (code.laws debugValues) unique before after) (formats : JsonbFormats) :
    Restored code ((codedKeys code.keyOf debugValues).withGin formats).toIndexOps before after := by
  have hfirst := h.first.listsStoredRows
  have hsecond := h.second.listsStoredRows
  refine ⟨h.values, fun index hindex => ?_, fun name index hindex => ?_, hsecond, fun row hok => ?_⟩
  · have hsome := h.keys.primary
    rw [hindex, Option.isSome_some] at hsome
    obtain ⟨index', hindex'⟩ := Option.isSome_iff_exists.mp hsome
    refine ⟨index', hindex', h.values.finds (hfirst.primary index hindex) ?_⟩
    exact h.keys.pkColumns ▸ hsecond.primary index' hindex'
  · cases hcols : before.indexColumns[name]? with
    | none =>
      rw [h.first.lists.secondary.none hcols] at hindex
      cases hindex
    | some cols =>
      obtain ⟨stored, hstored, hfinds⟩ := hfirst.secondary name cols hcols
      obtain rfl : stored = index := Option.some.inj (hstored.symm.trans hindex)
      rw [← h.keys.indexColumns] at hcols
      obtain ⟨index', hindex', hfinds'⟩ := hsecond.secondary name cols hcols
      exact ⟨index', hindex', h.values.finds hfinds hfinds'⟩
  · rw [h.second.insert_ok_iff formats hok, h.first.insert_ok_iff formats hok, h.taken row]

variable (code debugValues) (formats : JsonbFormats)

end Coded

section Sample

/-- A member comes, one with a number that is taken does not, one changes its team, one goes. -/
def memberCalls : List TransactionCall :=
  [.insert "members" (member 3 (some (.int64 8)) 12),
    .insert "members" (member 4 (some (.int64 8)) 12),
    .update "members" 1 (member 1 (some (.int64 8)) 10), .delete "members" 2]

theorem memberCalls_ok : ∀ call ∈ memberCalls, CallOk int64Code.OkKey call ∧ Raisable call := by
  intro call hmem
  simp only [memberCalls, List.mem_cons, List.not_mem_nil, or_false] at hmem
  rcases hmem with rfl | rfl | rfl | rfl
  · exact ⟨member_ok 3 8 12, trivial⟩
  · exact ⟨member_ok 4 8 12, trivial⟩
  · exact ⟨⟨member_ok 1 8 10, rfl⟩, by unfold Raisable; decide⟩
  · exact ⟨trivial, trivial⟩

/-- A table is created and loaded, and a transaction on it is rolled back. -/
theorem memberTables_keep (state : TableCache (BTreeIndex (IndexKey Int))
      (SecondaryIndexStore (IndexKey Int)) GinIndex × TransactionId) :
    ∀ call ∈ [CacheCall.createTable members, .operate "members"
        (.bulkLoad [member 1 (some (.int64 7)) 10, member 2 (some (.int64 7)) 11]),
        .rolledBack memberCalls], KeepsTables (int64Code.laws fun _ => "") state call := by
  intro call hmem
  simp only [List.mem_cons, List.not_mem_nil, or_false] at hmem
  rcases hmem with rfl | rfl | rfl
  · intro names hnames
    obtain rfl := Option.some.inj hnames
    decide
  · intro store _ row hrow
    simp only [List.mem_cons, List.not_mem_nil, or_false] at hrow
    rcases hrow with rfl | rfl
    · exact member_ok 1 7 10
    · exact member_ok 2 7 11
  · exact memberCalls_ok

end Sample

end Cynos.Storage
