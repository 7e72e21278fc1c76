import Cynos.Incremental.Dataflow
import Cynos.Lib.Keyed
import Cynos.Lib.Run
import Mathlib.Data.Finset.Basic
import Mathlib.Data.List.Forall2

/-! The registry that batches table changes. Row ids and deltas of changed tables wait in two
maps until a flush hands the deltas to the delta queries and the rest to the snapshot
queries, and drops the queries nobody is subscribed to. -/
namespace Cynos.Reactive

open Incremental (TableId)
open Index (RowId)
open Run

/-- Which query object a registration points to. -/
abbrev LiveQueryRef := Nat

inductive SnapshotSubscription where
  | rows (query : LiveQueryRef)
  | graphql (query : LiveQueryRef)
  deriving DecidableEq

inductive DeltaSubscription where
  | rows (query : LiveQueryRef)
  | graphql (query : LiveQueryRef)
  deriving DecidableEq

abbrev TableMap (A : Type) := Std.ExtTreeMap TableId A

/-- Deltas that a delta query is handed, or the one call that a snapshot query gets. -/
inductive Delivery (D : Type) where
  | delta (query : DeltaSubscription) (tableId : TableId) (deltas : List D)
  | snapshot (query : SnapshotSubscription) (changes : TableMap (Finset RowId))
      (deltaChanges : TableMap (List D))

/-- The subscriptions that the query objects have. -/
structure SubscriptionCounts where
  snapshot : SnapshotSubscription → Nat
  delta : DeltaSubscription → Nat

structure LiveRegistry (D : Type) where
  snapshotQueries : TableId → List SnapshotSubscription
  deltaQueries : TableId → List DeltaSubscription
  pendingChanges : TableMap (Finset RowId)
  pendingDeltas : TableMap (List D)
  flushScheduled : Bool

namespace LiveRegistry

variable {D : Type}

def new : LiveRegistry D := ⟨fun _ => [], fun _ => [], ∅, ∅, false⟩

def pushQuery {Q : Type} (queries : TableId → List Q) (query : Q) (tables : List TableId) :
    TableId → List Q :=
  tables.foldl (fun queries tableId => Function.update queries tableId (queries tableId ++ [query]))
    queries

def registerSnapshot (registry : LiveRegistry D) (query : SnapshotSubscription)
    (tables : List TableId) : LiveRegistry D :=
  { registry with snapshotQueries := pushQuery registry.snapshotQueries query tables }

def registerDelta (registry : LiveRegistry D) (query : DeltaSubscription) (tables : List TableId) :
    LiveRegistry D :=
  { registry with deltaQueries := pushQuery registry.deltaQueries query tables }

variable (registry : LiveRegistry D) (counts : SubscriptionCounts)

def hasActiveSnapshotQueries (tableId : TableId) : Bool :=
  (registry.snapshotQueries tableId).any fun query => 0 < counts.snapshot query

section DeltaLane

/-- The deltas of one table: copied as long as a snapshot query needs them, moved otherwise. -/
def flushDeltaTable (tableId : TableId) (deltaChanges : TableMap (List D)) :
    List (Delivery D) × TableMap (List D) :=
  match (registry.deltaQueries tableId).filter fun query => 0 < counts.delta query with
  | [] => ([], deltaChanges)
  | firstQuery :: activeQueries =>
    if !registry.hasActiveSnapshotQueries counts tableId then
      let ownedDeltas := deltaChanges[tableId]?.getD []
      let lastQuery := activeQueries.getLastD firstQuery
      (activeQueries.map (.delta · tableId ownedDeltas) ++ [.delta lastQuery tableId ownedDeltas],
        deltaChanges.erase tableId)
    else
      match deltaChanges[tableId]? with
      | some deltas => ((firstQuery :: activeQueries).map (.delta · tableId deltas), deltaChanges)
      | none => ([], deltaChanges)

def flushDeltaTables : List TableId → TableMap (List D) → List (Delivery D) × TableMap (List D)
  | [], deltaChanges => ([], deltaChanges)
  | tableId :: tableIds, deltaChanges =>
    let (deliveries, deltaChanges) := registry.flushDeltaTable counts tableId deltaChanges
    let (rest, deltaChanges) := flushDeltaTables tableIds deltaChanges
    (deliveries ++ rest, deltaChanges)

def flushDeltaLane (deltaChanges : TableMap (List D)) : List (Delivery D) × TableMap (List D) :=
  registry.flushDeltaTables counts deltaChanges.keys deltaChanges

end DeltaLane

section SnapshotLane

/-- The changes that each query is to hear of, by query. -/
abbrev MergedChanges := Std.ExtTreeMap LiveQueryRef (TableMap (Finset RowId))

def mergeRows (merged : MergedChanges) (query : LiveQueryRef) (tableId : TableId)
    (changedIds : Finset RowId) : MergedChanges :=
  let changes := merged[query]?.getD ∅
  merged.insert query (changes.insert tableId (changes[tableId]?.getD ∅ ∪ changedIds))

def mergeGraphql (merged : MergedChanges) (query : LiveQueryRef) (tableId : TableId)
    (changedIds : Finset RowId) : MergedChanges :=
  merged.insert query ((merged[query]?.getD ∅).insert tableId changedIds)

def mergeQuery (merged : MergedChanges × MergedChanges)
    (change : SnapshotSubscription × TableId × Finset RowId) : MergedChanges × MergedChanges :=
  match change with
  | (.rows query, tableId, changedIds) => (mergeRows merged.1 query tableId changedIds, merged.2)
  | (.graphql query, tableId, changedIds) =>
    (merged.1, mergeGraphql merged.2 query tableId changedIds)

/-- The registered queries of every changed table. -/
def changedQueries (changes : TableMap (Finset RowId)) :
    List (SnapshotSubscription × TableId × Finset RowId) :=
  changes.toList.flatMap fun (tableId, changedIds) =>
    (registry.snapshotQueries tableId).map fun query => (query, tableId, changedIds)

def flushSnapshotLane (changes : TableMap (Finset RowId)) (deltaChanges : TableMap (List D)) :
    List (Delivery D) :=
  let merged := (registry.changedQueries changes).foldl mergeQuery (∅, ∅)
  merged.1.toList.map (fun (query, changes) => .snapshot (.rows query) changes deltaChanges) ++
    merged.2.toList.map fun (query, changes) => .snapshot (.graphql query) changes deltaChanges

end SnapshotLane

def gcDeadQueries : LiveRegistry D :=
  { registry with
    snapshotQueries := fun tableId =>
      (registry.snapshotQueries tableId).filter fun query => 0 < counts.snapshot query
    deltaQueries := fun tableId =>
      (registry.deltaQueries tableId).filter fun query => 0 < counts.delta query }

def flush : LiveRegistry D × List (Delivery D) :=
  let (deltaDeliveries, deltaChanges) := registry.flushDeltaLane counts registry.pendingDeltas
  let snapshotDeliveries := registry.flushSnapshotLane registry.pendingChanges deltaChanges
  (gcDeadQueries { registry with
      pendingChanges := ∅
      pendingDeltas := ∅
      flushScheduled := false } counts, deltaDeliveries ++ snapshotDeliveries)

def scheduleOnce (registry : LiveRegistry D) : LiveRegistry D × Bool :=
  ({ registry with flushScheduled := true }, !registry.flushScheduled)

/-- With the registry, whether a flush is scheduled by this call. -/
def onTableChange (tableId : TableId) (changedIds : Finset RowId) : LiveRegistry D × Bool :=
  scheduleOnce { registry with
    pendingChanges := registry.pendingChanges.insert tableId
      (registry.pendingChanges[tableId]?.getD ∅ ∪ changedIds) }

def onTableChangeDelta (tableId : TableId) (deltas : List D) (changedIds : Finset RowId) :
    LiveRegistry D × Bool :=
  scheduleOnce { registry with
    pendingDeltas := registry.pendingDeltas.insert tableId
      (registry.pendingDeltas[tableId]?.getD [] ++ deltas)
    pendingChanges := registry.pendingChanges.insert tableId
      (registry.pendingChanges[tableId]?.getD ∅ ∪ changedIds) }

end LiveRegistry

/-- Off the web a scheduled flush runs at once, there it waits for its turn. -/
inductive Platform where
  | native
  | wasm
  deriving DecidableEq

inductive LiveAction (D : Type) where
  | registerSnapshot (query : SnapshotSubscription) (tables : List TableId)
  | registerDelta (query : DeltaSubscription) (tables : List TableId)
  | subscribeSnapshot (query : SnapshotSubscription)
  | unsubscribeSnapshot (query : SnapshotSubscription)
  | subscribeDelta (query : DeltaSubscription)
  | unsubscribeDelta (query : DeltaSubscription)
  | tableChange (tableId : TableId) (changedIds : Finset RowId)
  | tableChangeDelta (tableId : TableId) (deltas : List D) (changedIds : Finset RowId)
  | flush

variable {D : Type}

namespace SubscriptionCounts

def none : SubscriptionCounts := ⟨fun _ => 0, fun _ => 0⟩

def step (counts : SubscriptionCounts) : LiveAction D → SubscriptionCounts
  | .subscribeSnapshot query =>
    { counts with snapshot := Function.update counts.snapshot query (counts.snapshot query + 1) }
  | .unsubscribeSnapshot query =>
    { counts with snapshot := Function.update counts.snapshot query (counts.snapshot query - 1) }
  | .subscribeDelta query =>
    { counts with delta := Function.update counts.delta query (counts.delta query + 1) }
  | .unsubscribeDelta query =>
    { counts with delta := Function.update counts.delta query (counts.delta query - 1) }
  | _ => counts

end SubscriptionCounts

/-- The registry, the subscriptions and what each flush delivered. -/
structure LiveWorld (D : Type) where
  registry : LiveRegistry D
  counts : SubscriptionCounts
  flushed : List (List (Delivery D))

namespace LiveWorld

def new : LiveWorld D := ⟨.new, .none, []⟩

def flush (world : LiveWorld D) : LiveWorld D :=
  let (registry, deliveries) := world.registry.flush world.counts
  { world with registry, flushed := world.flushed ++ [deliveries] }

def scheduleFlush (platform : Platform) (world : LiveWorld D) (scheduled : LiveRegistry D × Bool) :
    LiveWorld D :=
  let world := { world with registry := scheduled.1 }
  if scheduled.2 && platform = .native then world.flush else world

def step (platform : Platform) (world : LiveWorld D) (action : LiveAction D) : LiveWorld D :=
  let world := { world with counts := world.counts.step action }
  match action with
  | .registerSnapshot query tables =>
    { world with registry := world.registry.registerSnapshot query tables }
  | .registerDelta query tables =>
    { world with registry := world.registry.registerDelta query tables }
  | .tableChange tableId changedIds =>
    world.scheduleFlush platform (world.registry.onTableChange tableId changedIds)
  | .tableChangeDelta tableId deltas changedIds =>
    world.scheduleFlush platform (world.registry.onTableChangeDelta tableId deltas changedIds)
  | .flush => world.flush
  | _ => world

end LiveWorld

section Spec

/-- What has to be delivered at the next flush, and to whom. -/
structure Due (D : Type) where
  counts : SubscriptionCounts
  readsSnapshot : SnapshotSubscription → TableId → Bool
  readsDelta : DeltaSubscription → TableId → Bool
  changes : TableId → Option (Finset RowId)
  deltas : TableId → List D

/-- The deltas of a table that a delta query was handed. -/
def deltasFor (query : DeltaSubscription) (tableId : TableId) (deliveries : List (Delivery D)) :
    List D :=
  deliveries.flatMap fun
    | .delta query' tableId' deltas => if query' = query ∧ tableId' = tableId then deltas else []
    | .snapshot _ _ _ => []

/-- The changed ids of a table in each call to a snapshot query. -/
def changesFor (query : SnapshotSubscription) (tableId : TableId)
    (deliveries : List (Delivery D)) : List (Finset RowId) :=
  deliveries.filterMap fun
    | .snapshot query' changes _ => if query' = query then changes[tableId]? else none
    | .delta _ _ _ => none

/-- Every registered query with a subscriber got the changes of its tables once. -/
structure Due.Met (due : Due D) (deliveries : List (Delivery D)) : Prop where
  deltas : ∀ query tableId, due.readsDelta query tableId = true → 0 < due.counts.delta query →
    deltasFor query tableId deliveries = due.deltas tableId
  changes : ∀ query tableId, due.readsSnapshot query tableId = true →
    0 < due.counts.snapshot query →
      changesFor query tableId deliveries = (due.changes tableId).toList

/-- What is due, and the registrations of each query for each table since the last flush
without a subscriber. -/
structure Ledger (D : Type) where
  due : Due D
  snapshotRegistrations : SnapshotSubscription → TableId → Nat
  deltaRegistrations : DeltaSubscription → TableId → Nat
  flushes : List (Due D)

namespace Ledger

def new : Ledger D :=
  ⟨⟨.none, fun _ _ => false, fun _ _ => false, fun _ => none, fun _ => []⟩,
    fun _ _ => 0, fun _ _ => 0, []⟩

def report (ledger : Ledger D) (tableId : TableId) (deltas : List D) (changedIds : Finset RowId) :
    Ledger D :=
  { ledger with due := { ledger.due with
    changes := Function.update ledger.due.changes tableId
      (some ((ledger.due.changes tableId).getD ∅ ∪ changedIds))
    deltas := Function.update ledger.due.deltas tableId (ledger.due.deltas tableId ++ deltas) } }

def flush (ledger : Ledger D) : Ledger D where
  due := { ledger.due with changes := fun _ => none, deltas := fun _ => [] }
  snapshotRegistrations query tableId :=
    if 0 < ledger.due.counts.snapshot query then ledger.snapshotRegistrations query tableId else 0
  deltaRegistrations query tableId :=
    if 0 < ledger.due.counts.delta query then ledger.deltaRegistrations query tableId else 0
  flushes := ledger.flushes ++ [ledger.due]

def flushIfNative (platform : Platform) (ledger : Ledger D) : Ledger D :=
  if platform = .native then ledger.flush else ledger

def step (platform : Platform) (ledger : Ledger D) (action : LiveAction D) : Ledger D :=
  let ledger := { ledger with due := { ledger.due with counts := ledger.due.counts.step action } }
  match action with
  | .registerSnapshot query tables =>
    { ledger with
      due := { ledger.due with
        readsSnapshot := Function.update ledger.due.readsSnapshot query fun tableId =>
          ledger.due.readsSnapshot query tableId || tables.contains tableId }
      snapshotRegistrations := Function.update ledger.snapshotRegistrations query fun tableId =>
        ledger.snapshotRegistrations query tableId + tables.count tableId }
  | .registerDelta query tables =>
    { ledger with
      due := { ledger.due with
        readsDelta := Function.update ledger.due.readsDelta query fun tableId =>
          ledger.due.readsDelta query tableId || tables.contains tableId }
      deltaRegistrations := Function.update ledger.deltaRegistrations query fun tableId =>
        ledger.deltaRegistrations query tableId + tables.count tableId }
  | .tableChange tableId changedIds =>
    (ledger.report tableId [] changedIds).flushIfNative platform
  | .tableChangeDelta tableId deltas changedIds =>
    (ledger.report tableId deltas changedIds).flushIfNative platform
  | .flush => ledger.flush
  | _ => ledger

/-- What a flush relies on. A query with a subscriber had one at every flush since it was
registered for a table that changed; a delta query was registered for it once, and is the
only one with a subscriber unless some snapshot query of the table has one. -/
structure FlushReady (ledger : Ledger D) : Prop where
  snapshot : ∀ query tableId, ledger.due.readsSnapshot query tableId = true →
    0 < ledger.due.counts.snapshot query → ledger.due.changes tableId ≠ none →
      0 < ledger.snapshotRegistrations query tableId
  delta : ∀ query tableId, ledger.due.readsDelta query tableId = true →
    0 < ledger.due.counts.delta query → ledger.due.deltas tableId ≠ [] →
      ledger.deltaRegistrations query tableId = 1 ∧
        ((∃ other, 0 < ledger.due.counts.snapshot other ∧
            0 < ledger.snapshotRegistrations other tableId) ∨
          ∀ other, 0 < ledger.due.counts.delta other →
            0 < ledger.deltaRegistrations other tableId → other = query)

/-- The condition on a call: that the flush it brings about is ready. -/
def Ready (platform : Platform) (ledger : Ledger D) : LiveAction D → Prop
  | .flush => ledger.FlushReady
  | .tableChange tableId changedIds =>
    platform = .native → (ledger.report tableId [] changedIds).FlushReady
  | .tableChangeDelta tableId deltas changedIds =>
    platform = .native → (ledger.report tableId deltas changedIds).FlushReady
  | _ => True

end Ledger

end Spec

section DeltaDeliveries

variable {query : DeltaSubscription} {tableId : TableId}

theorem deltasFor_append (ds es : List (Delivery D)) :
    deltasFor query tableId (ds ++ es) = deltasFor query tableId ds ++ deltasFor query tableId es :=
  List.flatMap_append

/-- A query is handed the deltas as often as it is among the receivers. -/
theorem deltasFor_map (receivers : List DeltaSubscription) (deltas : List D) :
    deltasFor query tableId (receivers.map (.delta · tableId deltas)) =
      (List.replicate (receivers.count query) deltas).flatten := by
  induction receivers with
  | nil => rfl
  | cons receiver receivers ih =>
    rw [List.map_cons, ← List.singleton_append, deltasFor_append, ih]
    by_cases h : receiver = query
    · rw [h, List.count_cons_self, List.replicate_succ, List.flatten_cons]
      simp [deltasFor]
    · rw [List.count_cons_of_ne h]
      simp [deltasFor, h]

theorem deltasFor_eq_nil {ds : List (Delivery D)}
    (h : ∀ d ∈ ds, ∀ deltas, d ≠ .delta query tableId deltas) :
    deltasFor query tableId ds = [] := by
  apply List.flatMap_eq_nil_iff.mpr
  intro d hd
  cases d with
  | snapshot query' changes deltaChanges => rfl
  | delta query' tableId' deltas =>
    apply if_neg
    rintro ⟨rfl, rfl⟩
    exact h _ hd deltas rfl

namespace LiveRegistry

variable (registry : LiveRegistry D) (counts : SubscriptionCounts)

def activeDeltaQueries (tableId : TableId) : List DeltaSubscription :=
  (registry.deltaQueries tableId).filter fun query => 0 < counts.delta query

/-- Who is handed the deltas of a table, in the order of the calls. -/
def deltaReceivers (tableId : TableId) : List DeltaSubscription :=
  match registry.activeDeltaQueries counts tableId with
  | [] => []
  | firstQuery :: activeQueries =>
    if !registry.hasActiveSnapshotQueries counts tableId then
      activeQueries ++ [activeQueries.getLastD firstQuery]
    else firstQuery :: activeQueries

theorem flushDeltaTable_eq (tableId : TableId) {deltaChanges : TableMap (List D)} {deltas : List D}
    (h : deltaChanges[tableId]? = some deltas) :
    (registry.flushDeltaTable counts tableId deltaChanges).1 =
      (registry.deltaReceivers counts tableId).map (.delta · tableId deltas) := by
  unfold flushDeltaTable deltaReceivers activeDeltaQueries
  cases (registry.deltaQueries tableId).filter fun query => 0 < counts.delta query with
  | nil => rfl
  | cons firstQuery activeQueries =>
    dsimp only
    split
    · simp [h]
    · rw [h]

/-- Handing out the deltas of one table leaves those of the others. -/
theorem flushDeltaTable_others (tableId : TableId) (deltaChanges : TableMap (List D))
    {other : TableId} (hne : other ≠ tableId) :
    (registry.flushDeltaTable counts tableId deltaChanges).2[other]? = deltaChanges[other]? := by
  unfold flushDeltaTable
  split
  · rfl
  · split
    · rw [Std.ExtTreeMap.getElem?_erase, if_neg (by simpa using Ne.symm hne)]
    · split <;> rfl

theorem mem_flushDeltaTable (tableId : TableId) (deltaChanges : TableMap (List D))
    {d : Delivery D} (h : d ∈ (registry.flushDeltaTable counts tableId deltaChanges).1) :
    ∃ query deltas, d = .delta query tableId deltas := by
  unfold flushDeltaTable at h
  split at h
  · cases h
  · split at h
    · rcases List.mem_append.mp h with h | h
      · obtain ⟨query, -, rfl⟩ := List.mem_map.mp h
        exact ⟨_, _, rfl⟩
      · exact ⟨_, _, List.mem_singleton.mp h⟩
    · split at h
      · obtain ⟨query, -, rfl⟩ := List.mem_map.mp h
        exact ⟨_, _, rfl⟩
      · cases h

theorem mem_flushDeltaTables {tableIds : List TableId} {deltaChanges : TableMap (List D)}
    {d : Delivery D} (h : d ∈ (registry.flushDeltaTables counts tableIds deltaChanges).1) :
    ∃ query deltas, ∃ tableId ∈ tableIds, d = .delta query tableId deltas := by
  induction tableIds generalizing deltaChanges with
  | nil => cases h
  | cons tableId tableIds ih =>
    rcases List.mem_append.mp h with h | h
    · obtain ⟨query, deltas, rfl⟩ := registry.mem_flushDeltaTable counts tableId _ h
      exact ⟨_, _, tableId, List.mem_cons_self, rfl⟩
    · obtain ⟨query, deltas, other, hmem, rfl⟩ := ih h
      exact ⟨_, _, other, List.mem_cons_of_mem _ hmem, rfl⟩

theorem deltasFor_flushDeltaTables_of_notMem {tableIds : List TableId} (hmem : tableId ∉ tableIds)
    (deltaChanges : TableMap (List D)) :
    deltasFor query tableId (registry.flushDeltaTables counts tableIds deltaChanges).1 = [] := by
  apply deltasFor_eq_nil
  rintro d hd deltas rfl
  obtain ⟨_, _, other, hother, heq⟩ := registry.mem_flushDeltaTables counts hd
  cases heq
  exact hmem hother

theorem deltasFor_flushDeltaTables {tableIds : List TableId} (hnodup : tableIds.Nodup)
    (hmem : tableId ∈ tableIds) {deltaChanges : TableMap (List D)} {deltas : List D}
    (h : deltaChanges[tableId]? = some deltas) :
    deltasFor query tableId (registry.flushDeltaTables counts tableIds deltaChanges).1 =
      (List.replicate ((registry.deltaReceivers counts tableId).count query) deltas).flatten := by
  induction tableIds generalizing deltaChanges with
  | nil => cases hmem
  | cons other tableIds ih =>
    obtain ⟨hother, hnodup⟩ := List.nodup_cons.mp hnodup
    rw [flushDeltaTables]
    dsimp only
    rw [deltasFor_append]
    by_cases hne : tableId = other
    · subst hne
      rw [flushDeltaTable_eq registry counts tableId h, deltasFor_map,
        deltasFor_flushDeltaTables_of_notMem registry counts hother, List.append_nil]
    · have hfirst : deltasFor query tableId
          (registry.flushDeltaTable counts other deltaChanges).1 = [] := by
        apply deltasFor_eq_nil
        rintro d hd deltas rfl
        obtain ⟨_, _, heq⟩ := registry.mem_flushDeltaTable counts other _ hd
        cases heq
        exact hne rfl
      rw [hfirst, List.nil_append,
        ih hnodup (List.mem_of_ne_of_mem hne hmem)
          (by rwa [flushDeltaTable_others registry counts _ _ hne])]

/-- Over a whole flush, too, a delta query gets the deltas of a table as often as it is among
its receivers. -/
theorem deltasFor_flushDeltaLane (deltaChanges : TableMap (List D)) :
    deltasFor query tableId (registry.flushDeltaLane counts deltaChanges).1 =
      (List.replicate ((registry.deltaReceivers counts tableId).count query)
        (deltaChanges[tableId]?.getD [])).flatten := by
  cases h : deltaChanges[tableId]? with
  | none =>
    have hmem : tableId ∉ deltaChanges.keys := by
      rw [Std.ExtTreeMap.mem_keys, Std.ExtTreeMap.mem_iff_isSome_getElem?, h]
      exact Bool.false_ne_true
    rw [flushDeltaLane, deltasFor_flushDeltaTables_of_notMem registry counts hmem]
    simp
  | some deltas =>
    have hmem : tableId ∈ deltaChanges.keys := by
      rw [Std.ExtTreeMap.mem_keys, Std.ExtTreeMap.mem_iff_isSome_getElem?, h]
      rfl
    exact deltasFor_flushDeltaTables registry counts Std.ExtTreeMap.nodup_keys hmem h

theorem count_activeDeltaQueries (hactive : 0 < counts.delta query) :
    (registry.activeDeltaQueries counts tableId).count query =
      (registry.deltaQueries tableId).count query :=
  List.count_filter (by simpa using hactive)

/-- With a snapshot query that keeps the deltas in the map, each active delta query gets them
as often as it is registered. -/
theorem deltaReceivers_of_active (h : registry.hasActiveSnapshotQueries counts tableId = true) :
    registry.deltaReceivers counts tableId = registry.activeDeltaQueries counts tableId := by
  unfold deltaReceivers
  cases registry.activeDeltaQueries counts tableId with
  | nil => rfl
  | cons firstQuery activeQueries => simp [h]

/-- The only active delta query gets the deltas once, as the last of the loop. -/
theorem deltaReceivers_of_alone (h : registry.activeDeltaQueries counts tableId = [query]) :
    registry.deltaReceivers counts tableId = [query] := by
  unfold deltaReceivers
  rw [h]
  dsimp only
  split <;> rfl

/-- The last of several delta queries is handed the deltas twice. -/
theorem alone_of_count_deltaReceivers
    (hactive : registry.hasActiveSnapshotQueries counts tableId = false)
    (hall : ∀ query ∈ registry.activeDeltaQueries counts tableId,
      (registry.deltaReceivers counts tableId).count query = 1)
    (hquery : (registry.deltaReceivers counts tableId).count query = 1) :
    registry.activeDeltaQueries counts tableId = [query] := by
  unfold deltaReceivers at hall hquery
  cases hqueries : registry.activeDeltaQueries counts tableId with
  | nil =>
    rw [hqueries] at hquery
    cases hquery
  | cons firstQuery activeQueries =>
    rw [hqueries] at hall hquery
    simp only [hactive, Bool.not_false, if_true] at hall hquery
    cases activeQueries with
    | nil =>
      have hfirst : firstQuery = query := by simpa [List.count_singleton] using hquery
      rw [hfirst]
    | cons secondQuery activeQueries =>
      exfalso
      have hlast : (secondQuery :: activeQueries).getLastD firstQuery ∈
          secondQuery :: activeQueries := by
        rw [List.getLastD_cons]
        exact List.getLastD_mem_cons
      have htwice := hall _ (List.mem_cons_of_mem _ hlast)
      rw [List.count_append, List.count_singleton_self] at htwice
      have := List.count_pos_iff.mpr hlast
      omega

end LiveRegistry

end DeltaDeliveries

section SnapshotDeliveries

variable {query : SnapshotSubscription} {tableId : TableId}

/-- The changes of a table merged for a query. -/
def mergedFor (merged : LiveRegistry.MergedChanges × LiveRegistry.MergedChanges)
    (query : SnapshotSubscription) (tableId : TableId) : Option (Finset RowId) :=
  match query with
  | .rows query => merged.1[query]?.bind fun changes => changes[tableId]?
  | .graphql query => merged.2[query]?.bind fun changes => changes[tableId]?

namespace LiveRegistry

theorem getElem?_insert_getD (merged : MergedChanges) (query other : LiveQueryRef)
    (tableId otherId : TableId) (ids : Finset RowId) :
    ((merged.insert query ((merged[query]?.getD ∅).insert tableId ids))[other]?.bind
        fun changes => changes[otherId]?) =
      if query = other ∧ tableId = otherId then some ids
      else merged[other]?.bind fun changes => changes[otherId]? := by
  rw [Std.ExtTreeMap.getElem?_insert]
  by_cases hq : query = other
  · subst hq
    rw [if_pos Std.compare_self, Option.bind_some, Std.ExtTreeMap.getElem?_insert]
    by_cases ht : tableId = otherId
    · rw [if_pos (by simp [ht]), if_pos ⟨rfl, ht⟩]
    · rw [if_neg (by simpa using ht), if_neg (by simp [ht])]
      cases merged[query]? with
      | none => rfl
      | some changes => rfl
  · rw [if_neg (by simpa using hq), if_neg (by simp [hq])]

theorem mergedFor_mergeQuery (merged : MergedChanges × MergedChanges)
    (changed : SnapshotSubscription) (changedTable : TableId) {ids : Finset RowId}
    (hold : ∀ old, mergedFor merged changed changedTable = some old → old = ids) :
    mergedFor (mergeQuery merged (changed, changedTable, ids)) query tableId =
      if changed = query ∧ changedTable = tableId then some ids
      else mergedFor merged query tableId := by
  cases changed with
  | rows changed =>
    have hunion : ((merged.1[changed]?.getD ∅)[changedTable]?.getD ∅) ∪ ids = ids := by
      cases hchanges : merged.1[changed]? with
      | none => simp
      | some changes =>
        cases hids : changes[changedTable]? with
        | none => simp [hids]
        | some old =>
          have : old = ids := hold old (by simp [mergedFor, hchanges, hids])
          simp [hids, this]
    unfold mergeQuery mergeRows
    dsimp only
    rw [hunion]
    cases query with
    | rows query =>
      simpa [mergedFor] using getElem?_insert_getD merged.1 changed query changedTable tableId ids
    | graphql query => simp [mergedFor]
  | graphql changed =>
    unfold mergeQuery mergeGraphql
    dsimp only
    cases query with
    | rows query => simp [mergedFor]
    | graphql query =>
      simpa [mergedFor] using getElem?_insert_getD merged.2 changed query changedTable tableId ids

/-- Merging leaves each query with the changes of the tables it was listed for. The changes
of a table are the same wherever it is listed. -/
theorem mergedFor_foldl (changes : TableMap (Finset RowId))
    {changed : List (SnapshotSubscription × TableId × Finset RowId)}
    (hchanged : ∀ c ∈ changed, changes[c.2.1]? = some c.2.2)
    {merged : MergedChanges × MergedChanges}
    (hmerged : ∀ query tableId ids, mergedFor merged query tableId = some ids →
      changes[tableId]? = some ids) :
    mergedFor (changed.foldl mergeQuery merged) query tableId =
      if ∃ c ∈ changed, c.1 = query ∧ c.2.1 = tableId then changes[tableId]?
      else mergedFor merged query tableId := by
  induction changed generalizing merged with
  | nil => simp
  | cons c changed ih =>
    obtain ⟨changedQuery, changedTable, ids⟩ := c
    have hids : changes[changedTable]? = some ids := hchanged _ List.mem_cons_self
    have hold : ∀ old, mergedFor merged changedQuery changedTable = some old → old = ids :=
      fun old hold => Option.some.inj ((hmerged _ _ _ hold).symm.trans hids)
    have hstep : ∀ query tableId,
        mergedFor (mergeQuery merged (changedQuery, changedTable, ids)) query tableId = _ :=
      fun query tableId => mergedFor_mergeQuery merged changedQuery changedTable hold
    rw [List.foldl_cons, ih (fun c hc => hchanged c (List.mem_cons_of_mem _ hc))]
    · by_cases hrest : ∃ c ∈ changed, c.1 = query ∧ c.2.1 = tableId
      · obtain ⟨c, hc, heq⟩ := hrest
        rw [if_pos ⟨c, hc, heq⟩, if_pos ⟨c, List.mem_cons_of_mem _ hc, heq⟩]
      · rw [if_neg hrest, hstep]
        by_cases hc : changedQuery = query ∧ changedTable = tableId
        · rw [if_pos hc, if_pos ⟨_, List.mem_cons_self, hc⟩, ← hc.2, hids]
        · rw [if_neg hc, if_neg]
          rintro ⟨c, hmem, heq⟩
          rcases List.mem_cons.mp hmem with rfl | hmem
          · exact hc heq
          · exact hrest ⟨c, hmem, heq⟩
    · intro q t old hold
      rw [hstep] at hold
      split at hold
      · next h => rw [← h.2, hids, hold]
      · exact hmerged q t old hold

variable (registry : LiveRegistry D)

theorem mem_changedQueries (changes : TableMap (Finset RowId))
    {c : SnapshotSubscription × TableId × Finset RowId} :
    c ∈ registry.changedQueries changes ↔
      c.1 ∈ registry.snapshotQueries c.2.1 ∧ changes[c.2.1]? = some c.2.2 := by
  obtain ⟨query, tableId, ids⟩ := c
  unfold changedQueries
  simp only [List.mem_flatMap, List.mem_map, Prod.exists, Prod.mk.injEq,
    Std.ExtTreeMap.mem_toList_iff_getElem?_eq_some]
  constructor
  · rintro ⟨t, ids', hids, q, hq, rfl, rfl, rfl⟩
    exact ⟨hq, hids⟩
  · rintro ⟨hq, hids⟩
    exact ⟨tableId, ids, hids, query, hq, rfl, rfl, rfl⟩

theorem mergedFor_changedQueries (changes : TableMap (Finset RowId)) :
    mergedFor ((registry.changedQueries changes).foldl mergeQuery (∅, ∅)) query tableId =
      if query ∈ registry.snapshotQueries tableId then changes[tableId]? else none := by
  have hempty : ∀ query tableId, mergedFor (∅, ∅) query tableId = none := by
    intro query tableId
    cases query <;> simp [mergedFor]
  rw [mergedFor_foldl changes (fun c hc => ((registry.mem_changedQueries changes).mp hc).2)
    (by simp [hempty]), hempty]
  by_cases hmem : query ∈ registry.snapshotQueries tableId
  · rw [if_pos hmem]
    cases hids : changes[tableId]? with
    | none => simp
    | some ids =>
      apply if_pos
      exact ⟨(query, tableId, ids), (registry.mem_changedQueries changes).mpr ⟨hmem, hids⟩,
        rfl, rfl⟩
  · rw [if_neg hmem, if_neg]
    rintro ⟨c, hc, rfl, rfl⟩
    exact hmem ((registry.mem_changedQueries changes).mp hc).1

end LiveRegistry

theorem changesFor_append (ds es : List (Delivery D)) :
    changesFor query tableId (ds ++ es) =
      changesFor query tableId ds ++ changesFor query tableId es :=
  List.filterMap_append

/-- A map lists each key once. -/
theorem filterMap_toList {A B : Type} (m : Std.ExtTreeMap LiveQueryRef A) (k : LiveQueryRef)
    (f : A → Option B) :
    (m.toList.filterMap fun entry => if entry.1 = k then f entry.2 else none) =
      (m[k]?.bind f).toList := by
  have hsorted : Keyed.Sorted Prod.fst m.toList :=
    Std.ExtTreeMap.ordered_keys_toList.imp fun h => compare_lt_iff_lt.mp h
  have hlookup : Keyed.lookup Prod.fst m.toList k = m[k]?.map fun a => (k, a) := by
    cases hk : m[k]? with
    | some a => exact hsorted.lookup_of_mem (Std.ExtTreeMap.mem_toList_iff_getElem?_eq_some.mpr hk)
    | none =>
      apply Keyed.lookup_eq_none
      rintro ⟨k', a⟩ hmem rfl
      rw [Std.ExtTreeMap.mem_toList_iff_getElem?_eq_some.mp hmem] at hk
      cases hk
  rw [hsorted.filterMap_key (fun entry => f entry.2), hlookup, Option.bind_map]
  rfl

namespace LiveRegistry

variable (registry : LiveRegistry D) (counts : SubscriptionCounts)

/-- A flush calls a snapshot query once, with the changes of every table it is registered for. -/
theorem changesFor_flushSnapshotLane (changes : TableMap (Finset RowId))
    (deltaChanges : TableMap (List D)) :
    changesFor query tableId (registry.flushSnapshotLane changes deltaChanges) =
      (if query ∈ registry.snapshotQueries tableId then changes[tableId]? else none).toList := by
  rw [← registry.mergedFor_changedQueries changes]
  unfold flushSnapshotLane
  generalize (registry.changedQueries changes).foldl mergeQuery (∅, ∅) = merged
  dsimp only
  rw [changesFor_append]
  cases query with
  | rows query =>
    have hrows : changesFor (.rows query) tableId (merged.1.toList.map fun entry =>
        .snapshot (.rows entry.1) entry.2 deltaChanges) =
          (mergedFor merged (.rows query) tableId).toList := by
      unfold changesFor mergedFor
      rw [List.filterMap_map, ← filterMap_toList]
      simp
    have hgraphql : changesFor (.rows query) tableId (merged.2.toList.map fun entry =>
        .snapshot (.graphql entry.1) entry.2 deltaChanges) = [] := by
      simp [changesFor]
    rw [hrows, hgraphql, List.append_nil]
  | graphql query =>
    have hrows : changesFor (.graphql query) tableId (merged.1.toList.map fun entry =>
        .snapshot (.rows entry.1) entry.2 deltaChanges) = [] := by
      simp [changesFor]
    have hgraphql : changesFor (.graphql query) tableId (merged.2.toList.map fun entry =>
        .snapshot (.graphql entry.1) entry.2 deltaChanges) =
          (mergedFor merged (.graphql query) tableId).toList := by
      unfold changesFor mergedFor
      rw [List.filterMap_map, ← filterMap_toList]
      simp
    rw [hrows, hgraphql, List.nil_append]

theorem changesFor_flushDeltaLane (deltaChanges : TableMap (List D)) :
    changesFor query tableId (registry.flushDeltaLane counts deltaChanges).1 = [] := by
  apply List.filterMap_eq_nil_iff.mpr
  intro d hd
  obtain ⟨_, _, _, -, rfl⟩ := registry.mem_flushDeltaTables counts hd
  rfl

theorem deltasFor_flushSnapshotLane (query : DeltaSubscription) (changes : TableMap (Finset RowId))
    (deltaChanges : TableMap (List D)) :
    deltasFor query tableId (registry.flushSnapshotLane changes deltaChanges) = [] := by
  apply deltasFor_eq_nil
  rintro d hd deltas rfl
  unfold flushSnapshotLane at hd
  simp at hd

end LiveRegistry

end SnapshotDeliveries

section Runs

/-- The ledger of what is due keeps up with the registry. -/
structure Tracks (world : LiveWorld D) (ledger : Ledger D) : Prop where
  counts : ledger.due.counts = world.counts
  snapshot : ∀ query tableId,
    (world.registry.snapshotQueries tableId).count query =
      ledger.snapshotRegistrations query tableId
  delta : ∀ query tableId,
    (world.registry.deltaQueries tableId).count query = ledger.deltaRegistrations query tableId
  reads : ∀ query tableId,
    0 < ledger.deltaRegistrations query tableId → ledger.due.readsDelta query tableId = true
  changes : ∀ tableId, world.registry.pendingChanges[tableId]? = ledger.due.changes tableId
  deltas : ∀ tableId, world.registry.pendingDeltas[tableId]?.getD [] = ledger.due.deltas tableId

theorem LiveRegistry.count_pushQuery {Q : Type} [DecidableEq Q] (queries : TableId → List Q)
    (query other : Q) (tables : List TableId) (tableId : TableId) :
    (LiveRegistry.pushQuery queries query tables tableId).count other =
      (queries tableId).count other + if query = other then tables.count tableId else 0 := by
  unfold pushQuery
  induction tables generalizing queries with
  | nil => simp
  | cons table tables ih =>
    rw [List.foldl_cons, ih, List.count_cons]
    by_cases ht : tableId = table
    · subst ht
      rw [Function.update_self, List.count_append, List.count_singleton]
      by_cases hq : query = other
      · simp [hq]
        omega
      · simp [hq]
    · rw [Function.update_of_ne ht]
      simp [Ne.symm ht]

theorem LiveRegistry.count_retain {Q : Type} [DecidableEq Q] (queries : List Q) (keep : Q → Bool)
    (query : Q) :
    (queries.filter keep).count query = if keep query then queries.count query else 0 := by
  split
  · next h => exact List.count_filter h
  · next h =>
    apply List.count_eq_zero.mpr
    intro hmem
    exact h (List.mem_filter.mp hmem).2

namespace Tracks

variable {platform : Platform} {world : LiveWorld D} {ledger : Ledger D}

theorem new : Tracks (LiveWorld.new : LiveWorld D) Ledger.new where
  counts := rfl
  snapshot _ _ := rfl
  delta _ _ := rfl
  reads _ _ h := absurd h (Nat.lt_irrefl 0)
  changes _ := Std.ExtTreeMap.getElem?_empty
  deltas tableId := by simp [LiveWorld.new, LiveRegistry.new, Ledger.new]

theorem hasActiveSnapshotQueries_iff (h : Tracks world ledger) (tableId : TableId) :
    world.registry.hasActiveSnapshotQueries world.counts tableId = true ↔
      ∃ other, 0 < ledger.due.counts.snapshot other ∧
        0 < ledger.snapshotRegistrations other tableId := by
  unfold LiveRegistry.hasActiveSnapshotQueries
  rw [List.any_eq_true, h.counts]
  constructor
  · rintro ⟨other, hmem, hactive⟩
    refine ⟨other, by simpa using hactive, ?_⟩
    rw [← h.snapshot]
    exact List.count_pos_iff.mpr hmem
  · rintro ⟨other, hactive, hregistered⟩
    rw [← h.snapshot, List.count_pos_iff] at hregistered
    exact ⟨other, hregistered, by simpa using hactive⟩

theorem mem_activeDeltaQueries (h : Tracks world ledger) {query : DeltaSubscription}
    {tableId : TableId} :
    query ∈ world.registry.activeDeltaQueries world.counts tableId ↔
      0 < ledger.due.counts.delta query ∧ 0 < ledger.deltaRegistrations query tableId := by
  unfold LiveRegistry.activeDeltaQueries
  rw [List.mem_filter, h.counts, ← h.delta, List.count_pos_iff, decide_eq_true_iff]
  exact and_comm

/-- What a flush owes to one delta query for one table. -/
theorem deltasFor_flush_iff (h : Tracks world ledger) (query : DeltaSubscription)
    (tableId : TableId) :
    deltasFor query tableId (world.registry.flush world.counts).2 = ledger.due.deltas tableId ↔
      (ledger.due.deltas tableId ≠ [] →
        (world.registry.deltaReceivers world.counts tableId).count query = 1) := by
  unfold LiveRegistry.flush
  dsimp only
  rw [deltasFor_append, LiveRegistry.deltasFor_flushSnapshotLane, List.append_nil,
    LiveRegistry.deltasFor_flushDeltaLane, h.deltas]
  generalize (world.registry.deltaReceivers world.counts tableId).count query = n
  generalize ledger.due.deltas tableId = deltas
  constructor
  · intro heq hdue
    have hlength := congrArg List.length heq
    rw [List.length_flatten, List.map_replicate, List.sum_replicate_nat] at hlength
    have hpos : 0 < deltas.length := List.length_pos_iff.mpr hdue
    exact Nat.eq_of_mul_eq_mul_right hpos (hlength.trans (Nat.one_mul _).symm)
  · intro hn
    by_cases hdue : deltas = []
    · rw [hdue]
      simp
    · rw [hn hdue]
      simp

theorem changesFor_flush_iff (h : Tracks world ledger) (query : SnapshotSubscription)
    (tableId : TableId) :
    changesFor query tableId (world.registry.flush world.counts).2 =
        (ledger.due.changes tableId).toList ↔
      (ledger.due.changes tableId ≠ none →
        0 < ledger.snapshotRegistrations query tableId) := by
  unfold LiveRegistry.flush
  dsimp only
  rw [changesFor_append, LiveRegistry.changesFor_flushDeltaLane, List.nil_append,
    LiveRegistry.changesFor_flushSnapshotLane, h.changes, ← h.snapshot, List.count_pos_iff]
  cases ledger.due.changes tableId with
  | none => simp
  | some ids =>
    by_cases hmem : query ∈ world.registry.snapshotQueries tableId
    · simp [hmem]
    · simp [hmem]

/-- The only delta query with a subscriber, or one of several whose deltas a snapshot query
keeps in the map, is handed the deltas once. -/
theorem count_deltaReceivers (h : Tracks world ledger) {query : DeltaSubscription}
    {tableId : TableId} (hactive : 0 < ledger.due.counts.delta query)
    (honce : ledger.deltaRegistrations query tableId = 1)
    (hothers : (∃ other, 0 < ledger.due.counts.snapshot other ∧
        0 < ledger.snapshotRegistrations other tableId) ∨
      ∀ other, 0 < ledger.due.counts.delta other →
        0 < ledger.deltaRegistrations other tableId → other = query) :
    (world.registry.deltaReceivers world.counts tableId).count query = 1 := by
  have hcount : (world.registry.activeDeltaQueries world.counts tableId).count query = 1 := by
    rw [LiveRegistry.count_activeDeltaQueries _ _ (h.counts ▸ hactive), h.delta, honce]
  rcases hothers with hsnapshot | halone
  · rw [LiveRegistry.deltaReceivers_of_active _ _
      ((h.hasActiveSnapshotQueries_iff tableId).mpr hsnapshot)]
    exact hcount
  · have hreplicate := List.eq_replicate_of_mem fun other hmem =>
      halone other (h.mem_activeDeltaQueries.mp hmem).1 (h.mem_activeDeltaQueries.mp hmem).2
    rw [hreplicate, List.count_replicate_self] at hcount
    rw [hcount] at hreplicate
    rw [LiveRegistry.deltaReceivers_of_alone _ _ hreplicate, List.count_singleton_self]

/-- A flush brings what is due if and only if it is ready. -/
theorem due_met_iff (h : Tracks world ledger) :
    ledger.due.Met (world.registry.flush world.counts).2 ↔ ledger.FlushReady := by
  constructor
  · intro hmet
    constructor
    · intro query tableId hreads hactive
      exact (h.changesFor_flush_iff query tableId).mp (hmet.changes query tableId hreads hactive)
    · intro query tableId hreads hactive hdue
      have hall : ∀ query ∈ world.registry.activeDeltaQueries world.counts tableId,
          (world.registry.deltaReceivers world.counts tableId).count query = 1 := by
        intro query hmem
        obtain ⟨hactive, hregistered⟩ := h.mem_activeDeltaQueries.mp hmem
        exact (h.deltasFor_flush_iff query tableId).mp
          (hmet.deltas query tableId (h.reads query tableId hregistered) hactive) hdue
      have hquery := (h.deltasFor_flush_iff query tableId).mp
        (hmet.deltas query tableId hreads hactive) hdue
      have honce := @LiveRegistry.count_activeDeltaQueries D query tableId world.registry
        world.counts (h.counts ▸ hactive)
      rw [h.delta] at honce
      cases hsnapshot : world.registry.hasActiveSnapshotQueries world.counts tableId with
      | true =>
        rw [LiveRegistry.deltaReceivers_of_active _ _ hsnapshot] at hquery
        exact ⟨honce ▸ hquery, .inl ((h.hasActiveSnapshotQueries_iff tableId).mp hsnapshot)⟩
      | false =>
        have halone := LiveRegistry.alone_of_count_deltaReceivers _ _ hsnapshot hall hquery
        rw [halone, List.count_singleton_self] at honce
        refine ⟨honce.symm, .inr fun other hactive hregistered => ?_⟩
        have hmem := h.mem_activeDeltaQueries.mpr ⟨hactive, hregistered⟩
        rw [halone] at hmem
        exact List.mem_singleton.mp hmem
  · intro hready
    constructor
    · intro query tableId hreads hactive
      apply (h.deltasFor_flush_iff query tableId).mpr
      intro hdue
      obtain ⟨honce, hothers⟩ := hready.delta query tableId hreads hactive hdue
      exact h.count_deltaReceivers hactive honce hothers
    · intro query tableId hreads hactive
      exact (h.changesFor_flush_iff query tableId).mpr
        (hready.snapshot query tableId hreads hactive)

theorem flush (h : Tracks world ledger) : Tracks world.flush ledger.flush where
  counts := h.counts
  snapshot query tableId := by
    have hcount := h.snapshot query tableId
    simp only [LiveWorld.flush, LiveRegistry.flush, LiveRegistry.gcDeadQueries, Ledger.flush]
    rw [LiveRegistry.count_retain, h.counts, hcount]
    simp
  delta query tableId := by
    have hcount := h.delta query tableId
    simp only [LiveWorld.flush, LiveRegistry.flush, LiveRegistry.gcDeadQueries, Ledger.flush]
    rw [LiveRegistry.count_retain, h.counts, hcount]
    simp
  reads query tableId hregistered := by
    apply h.reads
    simp only [Ledger.flush] at hregistered
    split at hregistered
    · exact hregistered
    · cases hregistered
  changes _ := Std.ExtTreeMap.getElem?_empty
  deltas tableId := by
    simp [LiveWorld.flush, LiveRegistry.flush, LiveRegistry.gcDeadQueries, Ledger.flush]

theorem subscribe (h : Tracks world ledger) (action : LiveAction D) :
    Tracks { world with counts := world.counts.step action }
      { ledger with due := { ledger.due with counts := ledger.due.counts.step action } } :=
  ⟨by rw [h.counts], h.snapshot, h.delta, h.reads, h.changes, h.deltas⟩

theorem schedule (h : Tracks world ledger) (scheduled : Bool) :
    Tracks { world with registry.flushScheduled := scheduled } ledger :=
  ⟨h.counts, h.snapshot, h.delta, h.reads, h.changes, h.deltas⟩

theorem report (h : Tracks world ledger) (tableId : TableId) (deltas : List D)
    (changedIds : Finset RowId) {pendingDeltas : TableMap (List D)}
    (hdeltas : ∀ other, pendingDeltas[other]?.getD [] =
      Function.update ledger.due.deltas tableId (ledger.due.deltas tableId ++ deltas) other) :
    Tracks
      { world with registry := { world.registry with
        pendingDeltas
        pendingChanges := world.registry.pendingChanges.insert tableId
          (world.registry.pendingChanges[tableId]?.getD ∅ ∪ changedIds) } }
      (ledger.report tableId deltas changedIds) where
  counts := h.counts
  snapshot := h.snapshot
  delta := h.delta
  reads := h.reads
  changes other := by
    have hchanges := h.changes other
    simp only [Ledger.report]
    rw [Std.ExtTreeMap.getElem?_insert, h.changes]
    by_cases hother : other = tableId
    · subst hother
      rw [Function.update_self, if_pos Std.compare_self]
    · rw [Function.update_of_ne hother, if_neg (by simpa using Ne.symm hother), hchanges]
  deltas := hdeltas

end Tracks

/-- Between two calls, with no flush on its way where flushes run at once. -/
structure InStep (platform : Platform) (world : LiveWorld D) (ledger : Ledger D) : Prop
    extends Tracks world ledger where
  idle : platform = .native → world.registry.flushScheduled = false

/-- Every flush so far brought what was due. -/
def AllMet (world : LiveWorld D) (ledger : Ledger D) : Prop :=
  List.Forall₂ Due.Met ledger.flushes world.flushed

theorem forall₂_concat_iff {A B : Type*} {R : A → B → Prop} {as : List A} {bs : List B} {a : A}
    {b : B} : List.Forall₂ R (as ++ [a]) (bs ++ [b]) ↔ List.Forall₂ R as bs ∧ R a b := by
  rw [← List.forall₂_reverse_iff, List.reverse_append, List.reverse_append]
  simp [and_comm]

namespace InStep

variable {platform : Platform} {world : LiveWorld D} {ledger : Ledger D}

theorem allMet_flush_iff (h : Tracks world ledger) :
    AllMet world.flush ledger.flush ↔ AllMet world ledger ∧ ledger.FlushReady := by
  rw [← h.due_met_iff]
  exact forall₂_concat_iff

theorem flush (h : Tracks world ledger) : InStep platform world.flush ledger.flush :=
  ⟨h.flush, fun _ => rfl⟩

/-- A reported change is flushed at once on native, and is kept for a later flush on the web. -/
theorem scheduleFlush (hidle : platform = .native → world.registry.flushScheduled = false)
    {registry : LiveRegistry D} (hsame : registry.flushScheduled = world.registry.flushScheduled)
    (h : Tracks { world with registry } ledger) :
    InStep platform (world.scheduleFlush platform (LiveRegistry.scheduleOnce registry))
        (ledger.flushIfNative platform) ∧
      (AllMet (world.scheduleFlush platform (LiveRegistry.scheduleOnce registry))
          (ledger.flushIfNative platform) ↔
        AllMet world ledger ∧ (platform = .native → ledger.FlushReady)) := by
  have hnext := h.schedule true
  unfold LiveWorld.scheduleFlush LiveRegistry.scheduleOnce Ledger.flushIfNative
  cases platform with
  | wasm =>
    simp only [reduceCtorEq, decide_false, Bool.and_false, if_false, Bool.false_eq_true,
      false_imp_iff, and_true]
    exact ⟨⟨hnext, nofun⟩, Iff.rfl⟩
  | native =>
    rw [hsame, hidle rfl]
    refine ⟨flush hnext, (allMet_flush_iff hnext).trans ?_⟩
    rw [forall_prop_of_true rfl]
    rfl

/-- One call, by its kind: registrations and subscriptions change the counts on both sides, a
change waits for the flush, and a flush delivers what is due if it is ready. -/
theorem step (h : InStep platform world ledger) (action : LiveAction D) :
    InStep platform (world.step platform action) (ledger.step platform action) ∧
      (AllMet (world.step platform action) (ledger.step platform action) ↔
        AllMet world ledger ∧ ledger.Ready platform action) := by
  have hkept : AllMet world ledger ↔ AllMet world ledger ∧ True := (and_iff_left trivial).symm
  cases action with
  | registerSnapshot query tables =>
    refine ⟨⟨⟨h.counts, ?_, h.delta, h.reads, h.changes, h.deltas⟩, h.idle⟩, hkept⟩
    intro other tableId
    simp only [LiveWorld.step, LiveRegistry.registerSnapshot, Ledger.step]
    rw [LiveRegistry.count_pushQuery, h.snapshot]
    by_cases hother : other = query
    · subst hother
      simp
    · rw [Function.update_of_ne hother, if_neg (Ne.symm hother), Nat.add_zero]
  | registerDelta query tables =>
    refine ⟨⟨⟨h.counts, h.snapshot, ?_, ?_, h.changes, h.deltas⟩, h.idle⟩, hkept⟩
    · intro other tableId
      simp only [LiveWorld.step, LiveRegistry.registerDelta, Ledger.step]
      rw [LiveRegistry.count_pushQuery, h.delta]
      by_cases hother : other = query
      · subst hother
        simp
      · rw [Function.update_of_ne hother, if_neg (Ne.symm hother), Nat.add_zero]
    · intro other tableId hregistered
      simp only [Ledger.step] at hregistered ⊢
      by_cases hother : other = query
      · subst hother
        rw [Function.update_self] at hregistered ⊢
        rcases Nat.add_pos_iff_pos_or_pos.mp hregistered with hregistered | htables
        · rw [h.reads _ _ hregistered, Bool.true_or]
        · rw [List.contains_iff_mem.mpr (List.count_pos_iff.mp htables), Bool.or_true]
      · rw [Function.update_of_ne hother] at hregistered ⊢
        exact h.reads other tableId hregistered
  | subscribeSnapshot query => exact ⟨⟨h.subscribe _, h.idle⟩, hkept⟩
  | unsubscribeSnapshot query => exact ⟨⟨h.subscribe _, h.idle⟩, hkept⟩
  | subscribeDelta query => exact ⟨⟨h.subscribe _, h.idle⟩, hkept⟩
  | unsubscribeDelta query => exact ⟨⟨h.subscribe _, h.idle⟩, hkept⟩
  | tableChange tableId changedIds =>
    have hdeltas : ∀ other, world.registry.pendingDeltas[other]?.getD [] =
        Function.update ledger.due.deltas tableId (ledger.due.deltas tableId ++ []) other := by
      intro other
      rw [List.append_nil, Function.update_eq_self]
      exact h.deltas other
    exact scheduleFlush h.idle rfl (h.report tableId [] changedIds hdeltas)
  | tableChangeDelta tableId deltas changedIds =>
    have hdeltas : ∀ other, (world.registry.pendingDeltas.insert tableId
        (world.registry.pendingDeltas[tableId]?.getD [] ++ deltas))[other]?.getD [] =
          Function.update ledger.due.deltas tableId (ledger.due.deltas tableId ++ deltas) other := by
      intro other
      rw [Std.ExtTreeMap.getElem?_insert]
      by_cases hother : other = tableId
      · subst hother
        rw [Function.update_self, if_pos Std.compare_self, ← h.deltas]
        rfl
      · rw [Function.update_of_ne hother, if_neg (by simpa using Ne.symm hother)]
        exact h.deltas other
    exact scheduleFlush h.idle rfl (h.report tableId deltas changedIds hdeltas)
  | flush => exact ⟨flush h.toTracks, allMet_flush_iff h.toTracks⟩

theorem new : InStep platform (LiveWorld.new : LiveWorld D) Ledger.new :=
  ⟨Tracks.new, fun _ => rfl⟩

theorem run (h : InStep platform world ledger) (actions : List (LiveAction D)) :
    AllMet (actions.foldl (LiveWorld.step platform) world)
        (actions.foldl (Ledger.step platform) ledger) ↔
      AllMet world ledger ∧ Along (fun ledger action => some (ledger.step platform action))
        (Ledger.Ready platform) ledger actions := by
  induction actions generalizing world ledger with
  | nil => exact (and_iff_left trivial).symm
  | cons action actions ih =>
    obtain ⟨hnext, hmet⟩ := h.step action
    rw [List.foldl_cons, List.foldl_cons, ih hnext, hmet, and_assoc]
    rfl

end InStep

/-- However registrations, subscriptions, changes and flushes follow each other: every flush
brings every registered query with a subscriber the changes of its tables since the flush
before, once, if and only if every flush is ready. -/
theorem LiveWorld.flushes_met_iff (platform : Platform) (actions : List (LiveAction D)) :
    List.Forall₂ Due.Met (actions.foldl (Ledger.step platform) Ledger.new).flushes
        (actions.foldl (LiveWorld.step platform) LiveWorld.new).flushed ↔
      Along (fun ledger action => some (ledger.step platform action)) (Ledger.Ready platform)
        Ledger.new actions := by
  have hrun := InStep.run (.new : InStep platform (LiveWorld.new : LiveWorld D) Ledger.new) actions
  rw [and_iff_right (show AllMet LiveWorld.new Ledger.new from .nil)] at hrun
  exact hrun

/-- Two delta queries of one table with a listener each, and one change of it. -/
def twoDeltaQueries : List (LiveAction Int) :=
  [.registerDelta (.rows 0) [1], .registerDelta (.rows 1) [1], .subscribeDelta (.rows 0),
    .subscribeDelta (.rows 1), .tableChangeDelta 1 [5] {7}]

theorem twoDeltaQueries_lost :
    ¬ List.Forall₂ Due.Met (twoDeltaQueries.foldl (Ledger.step .native) Ledger.new).flushes
      (twoDeltaQueries.foldl (LiveWorld.step .native) LiveWorld.new).flushed := by
  intro h
  have hflushed : (twoDeltaQueries.foldl (LiveWorld.step .native) LiveWorld.new).flushed =
      [[.delta (.rows 1) 1 [5], .delta (.rows 1) 1 [5]]] := by rfl
  rw [hflushed] at h
  obtain ⟨hmet, -⟩ := List.forall₂_cons.mp h
  have hfirst := hmet.deltas (.rows 0) 1 rfl Nat.one_pos
  exact absurd hfirst (by decide)

end Runs

end Cynos.Reactive
