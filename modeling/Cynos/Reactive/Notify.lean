import Cynos.Reactive.Observable
import Cynos.Lib.Run
import Mathlib.Data.List.Forall2
import Mathlib.Data.List.Dedup

/-! The registry that routes table changes to live queries, and what the whole of queries,
subscriptions and registrations is for: a change reaches each subscriber of each registered
query once, and nobody else. -/
namespace Cynos.Reactive

open Core Incremental Run

abbrev QueryId := Nat

/-- Where a query lives. It is kept by its owner; the registry only points to it. -/
abbrev QueryRef := Nat

variable {V C : Type} {ops : Operators V}

/-- The queries whose owners did not drop them. -/
abbrev Heap (ops : Operators V) (C : Type) := QueryRef → Option (ObservableQuery ops C)

structure QueryRegistry where
  tableQueries : TableId → List QueryRef
  queries : List (QueryId × QueryRef)
  nextId : QueryId

namespace QueryRegistry

def new : QueryRegistry := ⟨fun _ => [], [], 1⟩

def register (registry : QueryRegistry) (query : QueryRef) (dependencies : List TableId) :
    QueryRegistry × QueryId :=
  ({ tableQueries := dependencies.foldl
       (fun tables tableId => Function.update tables tableId (tables tableId ++ [query]))
       registry.tableQueries
     queries := registry.queries ++ [(registry.nextId, query)]
     nextId := registry.nextId + 1 }, registry.nextId)

/-- Only what points to dropped queries is taken out. -/
def cleanup (registry : QueryRegistry) (heap : Heap ops C) : QueryRegistry :=
  { registry with
    tableQueries := fun tableId => (registry.tableQueries tableId).filter fun q => (heap q).isSome
    queries := registry.queries.filter fun entry => (heap entry.2).isSome }

def unregister (registry : QueryRegistry) (heap : Heap ops C) (queryId : QueryId) :
    QueryRegistry × Bool :=
  if registry.queries.any (·.1 = queryId) then
    (cleanup { registry with queries := registry.queries.filter (·.1 ≠ queryId) } heap, true)
  else (registry, false)

variable [DecidableEq V]

/-- The queries of a list hear of a change, one after the other. -/
def notifyQueries (change : TableChange V) :
    List QueryRef → Heap ops C → Option (Heap ops C × List (QueryRef × Notification C V))
  | [], heap => some (heap, [])
  | q :: queries, heap =>
    match heap q with
    | none => notifyQueries change queries heap
    | some query => do
      let (query, notifications) ← query.onTableChange change
      let (heap, rest) ← notifyQueries change queries (Function.update heap q (some query))
      some (heap, notifications.map (q, ·) ++ rest)

def onTableChange (registry : QueryRegistry) (heap : Heap ops C) (change : TableChange V) :
    Option (Heap ops C × List (QueryRef × Notification C V)) :=
  notifyQueries change (registry.tableQueries change.tableId) heap

end QueryRegistry

/-- A call by an owner of queries, of a registry, or of both. The kind of an unsubscription
says which call handed out the id; the code is not told. -/
inductive Action (ops : Operators V) (C : Type) where
  | create (dataflow : DataflowNode V) (initial : List (Row V)) (states : OperatorStates ops)
  | drop (query : QueryRef)
  | subscribe (query : QueryRef) (kind : SubscriptionKind) (callback : C)
  | unsubscribe (query : QueryRef) (kind : SubscriptionKind) (id : SubscriptionId)
  | queryChange (query : QueryRef) (change : TableChange V)
  | register (query : QueryRef)
  | unregister (queryId : QueryId)
  | tableChange (change : TableChange V)

section World

/-- Queries, registry and what was delivered by each action. -/
structure World (ops : Operators V) (C : Type) where
  heap : Heap ops C
  nextRef : QueryRef
  registry : QueryRegistry
  delivered : List (List (QueryRef × Notification C V))

namespace World

def new : World ops C := ⟨fun _ => none, 0, .new, []⟩

variable [DecidableEq V]

/-- A handle of a dropped query is gone, so that a call through it does nothing. -/
def step (world : World ops C) : Action ops C → Option (World ops C)
  | .create dataflow initial states =>
    some { world with
      heap := Function.update world.heap world.nextRef
        (some (.ofView (.withCompiledInitial dataflow initial states)))
      nextRef := world.nextRef + 1
      delivered := world.delivered ++ [[]] }
  | .drop q =>
    some { world with
      heap := Function.update world.heap q none
      delivered := world.delivered ++ [[]] }
  | .subscribe q kind callback =>
    some { world with
      heap := Function.update world.heap q
        ((world.heap q).map fun query => (query.subscribeTo kind callback).1)
      delivered := world.delivered ++ [[]] }
  | .unsubscribe q _ id =>
    some { world with
      heap := Function.update world.heap q
        ((world.heap q).map fun query => (query.unsubscribe id).1)
      delivered := world.delivered ++ [[]] }
  | .queryChange q change => do
    let (heap, notifications) ← QueryRegistry.notifyQueries change [q] world.heap
    some { world with heap, delivered := world.delivered ++ [notifications] }
  | .register q =>
    some { world with
      registry := match world.heap q with
        | some query => (world.registry.register q query.view.dependencies).1
        | none => world.registry
      delivered := world.delivered ++ [[]] }
  | .unregister queryId =>
    some { world with
      registry := (world.registry.unregister world.heap queryId).1
      delivered := world.delivered ++ [[]] }
  | .tableChange change => do
    let (heap, notifications) ← world.registry.onTableChange world.heap change
    some { world with heap, delivered := world.delivered ++ [notifications] }

end World

end World

section Spec

/-- The same calls, to live queries that hear of the changes they should hear of.
`registrations` counts the calls of `register` for a query. -/
structure Hub (ops : Operators V) (C : Type) where
  queries : QueryRef → Option (LiveQuery ops C)
  nextRef : QueryRef
  registered : List (QueryId × QueryRef)
  nextQueryId : QueryId
  registrations : QueryRef → Nat
  delivered : List (List (QueryRef × Notification C V))

namespace Hub

def new : Hub ops C := ⟨fun _ => none, 0, [], 1, fun _ => 0, []⟩

/-- The registered queries that read a table, each once. -/
def targets (hub : Hub ops C) (tableId : TableId) : List QueryRef :=
  (hub.registered.map Prod.snd).dedup.filter fun q =>
    (hub.queries q).any fun query => query.view.dependsOn tableId

variable [DecidableEq V]

def notify (queries : QueryRef → Option (LiveQuery ops C)) (change : TableChange V)
    (q : QueryRef) : List (QueryRef × Notification C V) :=
  match queries q with
  | some query => (query.notifications change).map (q, ·)
  | none => []

def change (hub : Hub ops C) (targets : List QueryRef) (change : TableChange V) : Hub ops C :=
  { hub with
    queries := fun q =>
      if q ∈ targets then (hub.queries q).map fun query => query.afterChange change
      else hub.queries q
    delivered := hub.delivered ++ [targets.flatMap (notify hub.queries change)] }

def step (hub : Hub ops C) : Action ops C → Hub ops C
  | .create dataflow initial states =>
    { hub with
      queries := Function.update hub.queries hub.nextRef
        (some (.ofView (.withCompiledInitial dataflow initial states)))
      nextRef := hub.nextRef + 1
      delivered := hub.delivered ++ [[]] }
  | .drop q =>
    { hub with
      queries := Function.update hub.queries q none
      delivered := hub.delivered ++ [[]] }
  | .subscribe q kind callback =>
    { hub with
      queries := Function.update hub.queries q
        ((hub.queries q).map fun query => query.subscribe kind callback)
      delivered := hub.delivered ++ [[]] }
  | .unsubscribe q kind id =>
    { hub with
      queries := Function.update hub.queries q
        ((hub.queries q).map fun query => query.unsubscribe kind id)
      delivered := hub.delivered ++ [[]] }
  | .queryChange q c => hub.change [q] c
  | .register q =>
    if (hub.queries q).isSome then
      { hub with
        registered := hub.registered ++ [(hub.nextQueryId, q)]
        nextQueryId := hub.nextQueryId + 1
        registrations := Function.update hub.registrations q (hub.registrations q + 1)
        delivered := hub.delivered ++ [[]] }
    else { hub with delivered := hub.delivered ++ [[]] }
  | .unregister queryId =>
    { hub with
      registered := hub.registered.filter (·.1 ≠ queryId)
      delivered := hub.delivered ++ [[]] }
  | .tableChange c => hub.change (hub.targets c.tableId) c

/-- What the code relies on. An id names the subscription that the unsubscription is for:
no manager that is asked before the right one knows it, and no other one if that does not.
When a table changes, a query that reads it, has subscribers and is not dropped was registered
at most once, and not unregistered since. -/
def Ready (hub : Hub ops C) : Action ops C → Prop
  | .unsubscribe q kind id => ∀ query, hub.queries q = some query → query.Unambiguous kind id
  | .tableChange c => ∀ q query, hub.queries q = some query → query.subscribers ≠ [] →
      query.view.dependsOn c.tableId →
        hub.registrations q = if q ∈ hub.registered.map Prod.snd then 1 else 0
  | _ => True

end Hub

end Spec

section Refinement

theorem flatMap_filter_of_nil {A B : Type} {p : A → Bool} {f : A → List B} {as : List A}
    (h : ∀ a ∈ as, p a = false → f a = []) : (as.filter p).flatMap f = as.flatMap f := by
  induction as with
  | nil => rfl
  | cons a as ih =>
    have ih := ih fun b hb => h b (List.mem_cons_of_mem _ hb)
    cases hp : p a with
    | true => rw [List.filter_cons_of_pos hp, List.flatMap_cons, List.flatMap_cons, ih]
    | false =>
      rw [List.filter_cons_of_neg (Bool.eq_false_iff.mp hp), List.flatMap_cons,
        h a List.mem_cons_self hp, List.nil_append, ih]

variable [DecidableEq V]

theorem LiveQuery.afterChange_of_nil {query : LiveQuery ops C} (h : query.subscribers = [])
    (change : TableChange V) : query.afterChange change = query := by
  rw [afterChange, h]
  rfl

theorem LiveQuery.afterChange_subscribers (query : LiveQuery ops C) (change : TableChange V) :
    (query.afterChange change).subscribers = query.subscribers := by
  unfold afterChange
  split <;> rfl

theorem LiveQuery.notifications_of_nil {query : LiveQuery ops C} (h : query.subscribers = [])
    (change : TableChange V) : query.notifications change = [] := by
  unfold notifications
  rw [h]
  dsimp only
  split <;> rfl

/-- A list of queries hears of a change as it should, if those that listen are in it once. -/
theorem notifyQueries_refines (change : TableChange V) {refs : List QueryRef} {heap : Heap ops C}
    {queries : QueryRef → Option (LiveQuery ops C)}
    (h : ∀ q, Option.Rel Agrees (heap q) (queries q))
    (hcount : ∀ q query, queries q = some query → query.subscribers ≠ [] → refs.count q ≤ 1) :
    ∃ heap' log, QueryRegistry.notifyQueries change refs heap = some (heap', log) ∧
      (∀ q, Option.Rel Agrees (heap' q) (if q ∈ refs then
        (queries q).map fun query => query.afterChange change else queries q)) ∧
      log.Perm (refs.flatMap (Hub.notify queries change)) := by
  induction refs generalizing heap queries with
  | nil =>
    refine ⟨heap, [], rfl, fun q => ?_, .refl _⟩
    rw [if_neg List.not_mem_nil]
    exact h q
  | cons q refs ih =>
    have hq := h q
    unfold QueryRegistry.notifyQueries
    generalize hheap : heap q = query at hq
    generalize hlive : queries q = live at hq
    cases hq with
    | none =>
      obtain ⟨heap', log, hrun, hrel, hlog⟩ := ih h fun r query hr hsubs =>
        (List.count_le_count_cons).trans (hcount r query hr hsubs)
      refine ⟨heap', log, hrun, fun r => ?_, ?_⟩
      · by_cases hr : r = q
        · have hnone := hrel q
          rw [hlive, Option.map_none, ite_self] at hnone
          rw [hr, hlive, Option.map_none, ite_self]
          exact hnone
        · have hmem : r ∈ q :: refs ↔ r ∈ refs := by simp [hr]
          simp only [hmem]
          exact hrel r
      · rw [List.flatMap_cons, Hub.notify, hlive]
        exact hlog
    | @some query live hagrees =>
      obtain ⟨next, notifications, hstep, hnext, hperm⟩ := hagrees.onTableChange change
      have honce : live.subscribers ≠ [] → q ∉ refs := by
        intro hsubs hmem
        have hle := hcount q live hlive hsubs
        rw [List.count_cons_self] at hle
        have hpos := List.count_pos_iff.mpr hmem
        omega
      have hrel' : ∀ r, Option.Rel Agrees (Function.update heap q (some next) r)
          (Function.update queries q (some (live.afterChange change)) r) := by
        intro r
        by_cases hr : r = q
        · subst hr
          rw [Function.update_self, Function.update_self]
          exact .some hnext
        · rw [Function.update_of_ne hr, Function.update_of_ne hr]
          exact h r
      obtain ⟨heap', log, hrun, hrel, hlog⟩ := ih hrel' fun r query hr hsubs => by
        by_cases hrq : r = q
        · subst hrq
          rw [Function.update_self] at hr
          obtain rfl := Option.some.inj hr
          rw [LiveQuery.afterChange_subscribers] at hsubs
          exact (List.count_eq_zero.mpr (honce hsubs)).le.trans (Nat.zero_le 1)
        · rw [Function.update_of_ne hrq] at hr
          exact (List.count_le_count_cons).trans (hcount r query hr hsubs)
      refine ⟨heap', notifications.map (q, ·) ++ log, ?_, fun r => ?_, ?_⟩
      · simp only [hstep, hrun, Option.bind_eq_bind, Option.bind_some]
      · have hr := hrel r
        by_cases hrq : r = q
        · subst hrq
          rw [Function.update_self] at hr
          rw [if_pos List.mem_cons_self, hlive]
          split at hr
          · next hmem =>
            have hnil : live.subscribers = [] := by_contra fun hsubs => honce hsubs hmem
            rw [Option.map_some, LiveQuery.afterChange_of_nil hnil,
              LiveQuery.afterChange_of_nil hnil] at hr
            rw [Option.map_some, LiveQuery.afterChange_of_nil hnil]
            exact hr
          · exact hr
        · rw [Function.update_of_ne hrq] at hr
          have hmem : r ∈ q :: refs ↔ r ∈ refs := by simp [hrq]
          simp only [hmem]
          exact hr
      · rw [List.flatMap_cons]
        have hhead : Hub.notify queries change q = (live.notifications change).map (q, ·) := by
          rw [Hub.notify, hlive]
        have htail : refs.flatMap (Hub.notify
            (Function.update queries q (some (live.afterChange change))) change) =
              refs.flatMap (Hub.notify queries change) := by
          refine List.flatMap_congr fun r hr => ?_
          by_cases hrq : r = q
          · subst hrq
            have hnil : live.subscribers = [] := by_contra fun hsubs => honce hsubs hr
            rw [hhead, LiveQuery.notifications_of_nil hnil, Hub.notify, Function.update_self,
              LiveQuery.afterChange_of_nil hnil]
            dsimp only
            rw [LiveQuery.notifications_of_nil hnil]
          · rw [Hub.notify, Hub.notify, Function.update_of_ne hrq]
        rw [hhead, ← htail]
        exact (hperm.map _).append hlog

omit [DecidableEq V] in
theorem register_tableQueries (registry : QueryRegistry) (q : QueryRef)
    {dependencies : List TableId} (hnodup : dependencies.Nodup) (tableId : TableId) :
    (registry.register q dependencies).1.tableQueries tableId =
      if tableId ∈ dependencies then registry.tableQueries tableId ++ [q]
      else registry.tableQueries tableId := by
  unfold QueryRegistry.register
  dsimp only
  generalize registry.tableQueries = tables
  induction dependencies generalizing tables with
  | nil => rfl
  | cons t dependencies ih =>
    obtain ⟨hnot, hnodup⟩ := List.nodup_cons.mp hnodup
    rw [List.foldl_cons, ih hnodup]
    by_cases ht : tableId = t
    · subst ht
      rw [if_neg hnot, if_pos List.mem_cons_self, Function.update_self]
    · have hmem : tableId ∈ t :: dependencies ↔ tableId ∈ dependencies := by simp [ht]
      simp only [hmem, Function.update_of_ne ht]

/-- Queries, registrations and deliveries are as they should be. -/
structure Refines (world : World ops C) (hub : Hub ops C) : Prop where
  queries : ∀ q, Option.Rel Agrees (world.heap q) (hub.queries q)
  nextRef : world.nextRef = hub.nextRef
  fresh : ∀ q, hub.nextRef ≤ q → hub.queries q = none ∧ hub.registrations q = 0 ∧
    ∀ tableId, q ∉ world.registry.tableQueries tableId
  lists : ∀ q query, hub.queries q = some query → ∀ tableId,
    (world.registry.tableQueries tableId).count q =
      if query.view.dependsOn tableId then hub.registrations q else 0
  delivered : List.Forall₂ List.Perm world.delivered hub.delivered

namespace Refines

variable {world : World ops C} {hub : Hub ops C}

omit [DecidableEq V] in
theorem initial : Refines (World.new : World ops C) Hub.new :=
  ⟨fun _ => .none, rfl, fun _ _ => ⟨rfl, rfl, fun _ => List.not_mem_nil⟩, nofun, .nil⟩

omit [DecidableEq V] in
theorem forall₂_silent {ls ls' : List (List (QueryRef × Notification C V))}
    (h : List.Forall₂ List.Perm ls ls') : List.Forall₂ List.Perm (ls ++ [[]]) (ls' ++ [[]]) :=
  List.rel_append h (.cons (.refl _) .nil)

omit [DecidableEq V] in
theorem lt_nextRef (h : Refines world hub) {q : QueryRef} {query : LiveQuery ops C}
    (hq : hub.queries q = some query) : q < hub.nextRef := by
  by_contra hle
  rw [(h.fresh q (not_lt.mp hle)).1] at hq
  cases hq

omit [DecidableEq V] in
/-- A call on one query that leaves its dataflow alone. -/
theorem update (h : Refines world hub) (q : QueryRef)
    {f : ObservableQuery ops C → ObservableQuery ops C} {g : LiveQuery ops C → LiveQuery ops C}
    (hagrees : ∀ query live, hub.queries q = some live → Agrees query live →
      Agrees (f query) (g live))
    (hview : ∀ live, (g live).view = live.view) :
    Refines { world with
        heap := Function.update world.heap q ((world.heap q).map f)
        delivered := world.delivered ++ [[]] }
      { hub with
        queries := Function.update hub.queries q ((hub.queries q).map g)
        delivered := hub.delivered ++ [[]] } := by
  refine ⟨fun r => ?_, h.nextRef, fun r hr => ?_, fun r query hr tableId => ?_,
    forall₂_silent h.delivered⟩
  · dsimp only
    by_cases hrq : r = q
    · subst hrq
      rw [Function.update_self, Function.update_self]
      have hr := h.queries r
      generalize hlive : hub.queries r = live at hr
      generalize world.heap r = query at hr
      cases hr with
      | none => exact .none
      | some hquery => exact .some (hagrees _ _ hlive hquery)
    · rw [Function.update_of_ne hrq, Function.update_of_ne hrq]
      exact h.queries r
  · obtain ⟨hnone, hrest⟩ := h.fresh r hr
    refine ⟨?_, hrest⟩
    dsimp only
    by_cases hrq : r = q
    · subst hrq
      rw [Function.update_self, hnone, Option.map_none]
    · rwa [Function.update_of_ne hrq]
  · dsimp only at hr ⊢
    by_cases hrq : r = q
    · subst hrq
      rw [Function.update_self] at hr
      obtain ⟨live, hlive, rfl⟩ := Option.map_eq_some_iff.mp hr
      rw [hview]
      exact h.lists r live hlive tableId
    · rw [Function.update_of_ne hrq] at hr
      exact h.lists r query hr tableId

omit [DecidableEq V] in
theorem create (h : Refines world hub) (dataflow : DataflowNode V) (initial : List (Row V))
    (states : OperatorStates ops) :
    Refines { world with
        heap := Function.update world.heap world.nextRef
          (some (.ofView (.withCompiledInitial dataflow initial states)))
        nextRef := world.nextRef + 1
        delivered := world.delivered ++ [[]] }
      { hub with
        queries := Function.update hub.queries hub.nextRef
          (some (.ofView (.withCompiledInitial dataflow initial states)))
        nextRef := hub.nextRef + 1
        delivered := hub.delivered ++ [[]] } := by
  obtain ⟨-, hnever, hnowhere⟩ := h.fresh hub.nextRef (le_refl _)
  refine ⟨fun r => ?_, congrArg (· + 1) h.nextRef, fun r hr => ?_, fun r query hr tableId => ?_,
    forall₂_silent h.delivered⟩
  · dsimp only
    rw [h.nextRef]
    by_cases hrq : r = hub.nextRef
    · subst hrq
      rw [Function.update_self, Function.update_self]
      exact .some (.ofView (MaterializedView.compiled_withCompiledInitial dataflow initial states))
    · rw [Function.update_of_ne hrq, Function.update_of_ne hrq]
      exact h.queries r
  · dsimp only at hr ⊢
    obtain ⟨hnone, hrest⟩ := h.fresh r ((Nat.le_succ _).trans hr)
    rw [Function.update_of_ne (Nat.lt_of_succ_le hr).ne']
    exact ⟨hnone, hrest⟩
  · dsimp only at hr ⊢
    by_cases hrq : r = hub.nextRef
    · subst hrq
      rw [List.count_eq_zero.mpr (hnowhere tableId), hnever, ite_self]
    · rw [Function.update_of_ne hrq] at hr
      exact h.lists r query hr tableId

omit [DecidableEq V] in
theorem drop (h : Refines world hub) (q : QueryRef) :
    Refines { world with
        heap := Function.update world.heap q none
        delivered := world.delivered ++ [[]] }
      { hub with
        queries := Function.update hub.queries q none
        delivered := hub.delivered ++ [[]] } := by
  have hnone : ∀ {A : Type} {f : QueryRef → Option A} {r : QueryRef} {a : A},
      Function.update f q none r = some a → f r = some a := by
    intro A f r a hr
    by_cases hrq : r = q
    · subst hrq
      rw [Function.update_self] at hr
      cases hr
    · rwa [Function.update_of_ne hrq] at hr
  refine ⟨fun r => ?_, h.nextRef, fun r hr => ?_,
    fun r query hr tableId => h.lists r query (hnone hr) tableId, forall₂_silent h.delivered⟩
  · dsimp only
    by_cases hrq : r = q
    · subst hrq
      rw [Function.update_self, Function.update_self]
      exact .none
    · rw [Function.update_of_ne hrq, Function.update_of_ne hrq]
      exact h.queries r
  · obtain ⟨hr', hrest⟩ := h.fresh r hr
    refine ⟨?_, hrest⟩
    dsimp only
    cases hupdate : Function.update hub.queries q none r with
    | none => rfl
    | some query => rw [hnone hupdate] at hr'; cases hr'

omit [DecidableEq V] in
theorem register (h : Refines world hub) {q : QueryRef} {query : ObservableQuery ops C}
    {live : LiveQuery ops C} (hlive : hub.queries q = some live) (hagrees : Agrees query live) :
    Refines { world with
        registry := (world.registry.register q query.view.dependencies).1
        delivered := world.delivered ++ [[]] }
      { hub with
        registered := hub.registered ++ [(hub.nextQueryId, q)]
        nextQueryId := hub.nextQueryId + 1
        registrations := Function.update hub.registrations q (hub.registrations q + 1)
        delivered := hub.delivered ++ [[]] } := by
  have hdependencies := hagrees.compiled.dependencies
  have htables := register_tableQueries world.registry q
    (hdependencies ▸ nodup_compileDataflowDependencies query.view.dataflow)
  refine ⟨h.queries, h.nextRef, fun r hr => ?_, fun r query' hr tableId => ?_,
    forall₂_silent h.delivered⟩
  · obtain ⟨hnone, hnever, hnowhere⟩ := h.fresh r hr
    have hrq : r ≠ q := by
      rintro rfl
      exact absurd (h.lt_nextRef hlive) (not_lt.mpr hr)
    refine ⟨hnone, (Function.update_of_ne hrq _ _).trans hnever, fun tableId => ?_⟩
    rw [htables]
    split
    · simpa [hrq] using hnowhere tableId
    · exact hnowhere tableId
  · dsimp only at hr ⊢
    have hcount := h.lists r query' hr tableId
    rw [htables]
    by_cases hrq : r = q
    · subst hrq
      obtain rfl := Option.some.inj (hlive.symm.trans hr)
      have hdepends : live.view.dependsOn tableId = true ↔
          tableId ∈ query.view.dependencies := by
        rw [hdependencies, MaterializedView.dependsOn, decide_eq_true_iff, hagrees.shows.dataflow]
      rw [Function.update_self]
      by_cases hmem : tableId ∈ query.view.dependencies
      · rw [if_pos (hdepends.mpr hmem)] at hcount ⊢
        rw [if_pos hmem, List.count_append, hcount, List.count_singleton_self]
      · rw [if_neg (mt hdepends.mp hmem)] at hcount ⊢
        rwa [if_neg hmem]
    · rw [Function.update_of_ne hrq]
      split
      · rw [List.count_append, List.count_singleton, if_neg (by simpa using Ne.symm hrq)]
        exact hcount
      · exact hcount

omit [DecidableEq V] in
theorem unregister (h : Refines world hub) (queryId : QueryId) :
    Refines { world with
        registry := (world.registry.unregister world.heap queryId).1
        delivered := world.delivered ++ [[]] }
      { hub with
        registered := hub.registered.filter (·.1 ≠ queryId)
        delivered := hub.delivered ++ [[]] } := by
  have hsome : ∀ q query, hub.queries q = some query → (world.heap q).isSome = true := by
    intro q query hq
    have hrel := h.queries q
    rw [hq] at hrel
    generalize world.heap q = kept at hrel
    cases hrel with
    | some _ => rfl
  have htables : (world.registry.unregister world.heap queryId).1.tableQueries =
        world.registry.tableQueries ∨
      (world.registry.unregister world.heap queryId).1.tableQueries = fun tableId =>
        (world.registry.tableQueries tableId).filter fun q => (world.heap q).isSome := by
    unfold QueryRegistry.unregister
    split
    · exact .inr rfl
    · exact .inl rfl
  refine ⟨h.queries, h.nextRef, fun r hr => ?_, fun r query hr tableId => ?_,
    forall₂_silent h.delivered⟩
  · obtain ⟨hnone, hnever, hnowhere⟩ := h.fresh r hr
    refine ⟨hnone, hnever, fun tableId => ?_⟩
    rcases htables with htables | htables
    · rw [htables]
      exact hnowhere tableId
    · rw [htables]
      exact fun hmem => hnowhere tableId (List.mem_of_mem_filter hmem)
  · rw [← h.lists r query hr tableId]
    rcases htables with htables | htables
    · rw [htables]
    · rw [htables]
      exact List.count_filter (hsome r query hr)

theorem afterChange_dependsOn (query : LiveQuery ops C) (change : TableChange V)
    (tableId : TableId) :
    (query.afterChange change).view.dependsOn tableId = query.view.dependsOn tableId := by
  unfold LiveQuery.afterChange MaterializedView.change
  split
  · rfl
  · dsimp only
    split <;> rfl

/-- A list of queries hears of a change; the ones that listen are in it once and are those
that should hear of it. -/
theorem change (h : Refines world hub) (c : TableChange V) (refs targets : List QueryRef)
    (hcount : ∀ q query, hub.queries q = some query → query.subscribers ≠ [] → refs.count q ≤ 1)
    (htargets : targets.Nodup)
    (hsame : ∀ q query, hub.queries q = some query → query.subscribers ≠ [] →
      (q ∈ refs ↔ q ∈ targets)) :
    ∃ heap log, QueryRegistry.notifyQueries c refs world.heap = some (heap, log) ∧
      Refines { world with heap, delivered := world.delivered ++ [log] } (hub.change targets c) := by
  obtain ⟨heap, log, hrun, hrel, hlog⟩ := notifyQueries_refines c h.queries hcount
  refine ⟨heap, log, hrun, fun q => ?_, h.nextRef, fun q hq => ?_, fun q query hq tableId => ?_,
    List.rel_append h.delivered (.cons (hlog.trans ?_) .nil)⟩
  · have hq := hrel q
    dsimp only [Hub.change]
    cases hlive : hub.queries q with
    | none =>
      rw [hlive, Option.map_none, ite_self] at hq
      rwa [Option.map_none, ite_self]
    | some query =>
      rw [hlive] at hq
      by_cases hsubs : query.subscribers = []
      · rw [Option.map_some, LiveQuery.afterChange_of_nil hsubs, ite_self] at hq
        rwa [Option.map_some, LiveQuery.afterChange_of_nil hsubs, ite_self]
      · simpa only [hsame q query hlive hsubs] using hq
  · obtain ⟨hnone, hrest⟩ := h.fresh q hq
    refine ⟨?_, hrest⟩
    dsimp only [Hub.change]
    rw [hnone, Option.map_none, ite_self]
  · dsimp only [Hub.change] at hq ⊢
    split at hq
    · obtain ⟨live, hlive, rfl⟩ := Option.map_eq_some_iff.mp hq
      rw [afterChange_dependsOn]
      exact h.lists q live hlive tableId
    · exact h.lists q query hq tableId
  · -- The queries that listen are the same in both lists; no other one is heard of.
    let listens (q : QueryRef) : Bool := (hub.queries q).any fun query => !query.subscribers.isEmpty
    have hlistens : ∀ q, listens q = true ↔
        ∃ query, hub.queries q = some query ∧ query.subscribers ≠ [] := by
      intro q
      simp [listens, Option.any_eq_true]
    have hsilent : ∀ q, listens q = false → Hub.notify hub.queries c q = [] := by
      intro q hq
      unfold Hub.notify
      cases hlive : hub.queries q with
      | none => rfl
      | some query =>
        have hsubs : query.subscribers = [] := by_contra fun hsubs =>
          Bool.false_ne_true (hq.symm.trans ((hlistens q).mpr ⟨query, hlive, hsubs⟩))
        dsimp only
        rw [LiveQuery.notifications_of_nil hsubs, List.map_nil]
    have hfilter : ∀ qs : List QueryRef,
        (qs.filter listens).flatMap (Hub.notify hub.queries c) =
          qs.flatMap (Hub.notify hub.queries c) := fun qs =>
      flatMap_filter_of_nil fun q _ => hsilent q
    rw [← hfilter refs, ← hfilter targets]
    refine List.Perm.flatMap_right _ ((List.perm_ext_iff_of_nodup ?_ (htargets.filter _)).mpr ?_)
    · rw [List.nodup_iff_count_le_one]
      intro q
      by_cases hq : listens q = true
      · obtain ⟨query, hlive, hsubs⟩ := (hlistens q).mp hq
        exact (List.count_filter hq).le.trans (hcount q query hlive hsubs)
      · rw [List.count_eq_zero.mpr fun hmem => hq (List.mem_filter.mp hmem).2]
        exact Nat.zero_le 1
    · intro q
      rw [List.mem_filter, List.mem_filter]
      refine and_congr_left fun hq => ?_
      obtain ⟨query, hlive, hsubs⟩ := (hlistens q).mp hq
      exact hsame q query hlive hsubs

/-- One call. -/
theorem step (h : Refines world hub) {action : Action ops C} (hready : hub.Ready action) :
    ∃ next, world.step action = some next ∧ Refines next (hub.step action) := by
  cases action with
  | create dataflow initial states => exact ⟨_, rfl, h.create dataflow initial states⟩
  | drop q => exact ⟨_, rfl, h.drop q⟩
  | subscribe q kind callback =>
    exact ⟨_, rfl, h.update q (fun _ _ _ hagrees => hagrees.subscribe kind callback) fun _ => rfl⟩
  | unsubscribe q kind id =>
    exact ⟨_, rfl, h.update q (fun _ live hlive hagrees => hagrees.unsubscribe (hready live hlive))
      fun _ => rfl⟩
  | queryChange q c =>
    obtain ⟨heap, log, hrun, hnext⟩ := h.change c [q] [q]
      (fun r _ _ _ => List.count_le_length) (List.nodup_singleton q) fun _ _ _ _ => .rfl
    exact ⟨_, by rw [World.step, hrun]; rfl, hnext⟩
  | register q =>
    refine ⟨_, rfl, ?_⟩
    have hq := h.queries q
    cases hlive : hub.queries q with
    | none =>
      rw [hlive] at hq
      generalize hheap : world.heap q = query at hq
      cases hq with
      | none =>
        simp only [Hub.step, hlive, Option.isSome_none, Bool.false_eq_true, if_false]
        exact ⟨h.queries, h.nextRef, h.fresh, h.lists, forall₂_silent h.delivered⟩
    | some live =>
      rw [hlive] at hq
      generalize hheap : world.heap q = query at hq
      cases hq with
      | some hagrees =>
        simp only [Hub.step, hlive, Option.isSome_some, if_true]
        exact h.register hlive hagrees
  | unregister queryId => exact ⟨_, rfl, h.unregister queryId⟩
  | tableChange c =>
    have hcount : ∀ q query, hub.queries q = some query → query.subscribers ≠ [] →
        (world.registry.tableQueries c.tableId).count q = if q ∈ hub.targets c.tableId then 1 else 0 := by
      intro q query hlive hsubs
      have hmem : q ∈ hub.targets c.tableId ↔
          q ∈ hub.registered.map Prod.snd ∧ query.view.dependsOn c.tableId = true := by
        rw [Hub.targets, List.mem_filter, List.mem_dedup, hlive, Option.any_some]
      rw [h.lists q query hlive]
      simp only [hmem]
      by_cases hdepends : query.view.dependsOn c.tableId = true
      · simp only [hdepends, if_true, and_true]
        exact hready q query hlive hsubs hdepends
      · simp [hdepends]
    obtain ⟨heap, log, hrun, hnext⟩ := h.change c
      (world.registry.tableQueries c.tableId) (hub.targets c.tableId)
      (fun q query hlive hsubs => by
        rw [hcount q query hlive hsubs]
        split
        · exact le_refl 1
        · exact Nat.zero_le 1)
      ((List.nodup_dedup _).filter _)
      (fun q query hlive hsubs => by
        rw [← List.count_pos_iff, hcount q query hlive hsubs]
        split
        · next hmem => exact iff_of_true Nat.one_pos hmem
        · next hmem => exact iff_of_false (lt_irrefl 0) hmem)
    exact ⟨_, by rw [World.step, QueryRegistry.onTableChange, hrun]; rfl, hnext⟩

/-- Every call of a run. -/
theorem run {actions : List (Action ops C)} (h : Refines world hub)
    (hready : Along (fun hub action => some (Hub.step hub action)) Hub.Ready hub actions) :
    ∃ next, Run.run World.step world actions = some next ∧
      Refines next (actions.foldl Hub.step hub) := by
  induction actions generalizing world hub with
  | nil => exact ⟨world, rfl, h⟩
  | cons action actions ih =>
    obtain ⟨next, hstep, hnext⟩ := h.step hready.1
    obtain ⟨last, hrun, hlast⟩ := ih hnext hready.2
    exact ⟨last, by rw [run_cons, hstep]; exact hrun, hlast⟩

end Refines

/-- However calls of subscribers, owners and tables follow each other: after every call each
query keeps the subscriptions that were made and not ended, and each call delivered one
notification to each subscriber of the queries it should reach, and no other. -/
theorem deliveries_of_run {actions : List (Action ops C)}
    (hready : Along (fun hub action => some (Hub.step hub action)) Hub.Ready Hub.new actions) :
    ∃ world, Run.run World.step World.new actions = some world ∧
      (∀ q kind, (world.heap q).map (fun query => query.manager kind) =
        ((actions.foldl Hub.step Hub.new).queries q).map fun query => query.manager kind) ∧
      List.Forall₂ List.Perm world.delivered (actions.foldl Hub.step Hub.new).delivered := by
  obtain ⟨world, hrun, hrefines⟩ := Refines.initial.run hready
  refine ⟨world, hrun, fun q kind => ?_, hrefines.delivered⟩
  have hq := hrefines.queries q
  generalize world.heap q = query at hq ⊢
  generalize (actions.foldl Hub.step Hub.new).queries q = live at hq ⊢
  cases hq with
  | none => rfl
  | some hagrees => exact congrArg some (hagrees.managers kind)

end Refinement

section Samples

/-- No joins and no aggregates. -/
def statelessOperators : Operators Int where
  JoinState := Unit
  GroupAggregateState := Unit
  withColCounts _ _ := ()
  processLeftJoinTraceDeltas _ _ _ _ := ((), [])
  processRightJoinTraceDeltas _ _ _ _ := ((), [])
  newGroupAggregateState _ _ := ()
  processTraceDeltasInto _ _ := ((), [])

def insertIntoFirst : TableChange Int := ⟨1, [.insert (.new 7 [some 25])], fun _ => false⟩

/-- Two listeners under one id, of two kinds; the one that is asked first leaves. -/
def listenedRun : List (Action statelessOperators Nat) :=
  [.create (.source 1) [] ⟨fun _ => none, fun _ => none⟩, .register 0, .subscribe 0 .changes 40,
    .subscribe 0 .traceBatches 41, .tableChange insertIntoFirst, .unsubscribe 0 .changes 1]

theorem listenedRun_ready :
    Along (fun hub action => some (Hub.step hub action)) Hub.Ready Hub.new listenedRun := by
  refine ⟨trivial, trivial, trivial, trivial, fun q query hq _ _ => ?_, fun query hq => ?_, trivial⟩
  · by_cases hq0 : q = 0
    · subst hq0
      decide
    · exact absurd hq (by simp [Hub.step, Hub.new, hq0])
  · obtain rfl := Option.some.inj hq
    decide

theorem deliveries_of_run_listened :
    ∃ world, Run.run World.step World.new listenedRun = some world ∧
      (∀ q kind, (world.heap q).map (fun query => query.manager kind) =
        ((listenedRun.foldl Hub.step Hub.new).queries q).map fun query => query.manager kind) ∧
      List.Forall₂ List.Perm world.delivered (listenedRun.foldl Hub.step Hub.new).delivered :=
  deliveries_of_run listenedRun_ready

/-- The query is unregistered, but its owner keeps it. -/
def unregisteredRun : List (Action statelessOperators Nat) :=
  [.create (.source 1) [] ⟨fun _ => none, fun _ => none⟩, .register 0, .subscribe 0 .changes 40,
    .unregister 1, .tableChange insertIntoFirst]

/-- The id is that of the raw deltas, but change sets are asked first. -/
def confusedRun : List (Action statelessOperators Nat) :=
  [.create (.source 1) [] ⟨fun _ => none, fun _ => none⟩, .subscribe 0 .changes 40,
    .subscribe 0 .rawDeltas 41, .unsubscribe 0 .rawDeltas 1, .queryChange 0 insertIntoFirst]

theorem map_length_of_perm {A : Type} {ls ls' : List (List A)} (h : List.Forall₂ List.Perm ls ls') :
    ls.map List.length = ls'.map List.length := by
  induction h with
  | nil => rfl
  | cons hperm _ ih => rw [List.map_cons, List.map_cons, hperm.length_eq, ih]

/-- The unregistered query is notified, and the change set listener loses the subscription
that the raw delta listener gave up. -/
theorem unregistered_notified :
    (∃ world, Run.run World.step World.new unregisteredRun = some world ∧
      ¬ List.Forall₂ List.Perm world.delivered
        (unregisteredRun.foldl Hub.step Hub.new).delivered) ∧
    ∃ world, Run.run World.step World.new confusedRun = some world ∧
      (world.heap 0).map (fun query => (query.manager .changes).subscriptions) = some [] ∧
      ((confusedRun.foldl Hub.step Hub.new).queries 0).map
        (fun query => (query.manager .changes).subscriptions) = some [⟨1, 40, true⟩] := by
  refine ⟨⟨_, rfl, fun h => ?_⟩, ⟨_, rfl, rfl, rfl⟩⟩
  have hlengths := map_length_of_perm h
  revert hlengths
  decide

end Samples

end Cynos.Reactive
