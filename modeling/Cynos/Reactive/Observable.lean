import Cynos.Incremental.View

/-! Live queries and the subscriptions to them: to change sets, to raw deltas and to trace
batches, each kind kept by a manager of its own. -/
namespace Cynos.Reactive

open Core Incremental

abbrev SubscriptionId := Nat

variable {V C : Type}

structure ChangeSet (V : Type) where
  added : List (Row V)
  removed : List (Row V)
  modified : List (Row V × Row V)
  currentResult : List (Row V)
  deriving DecidableEq

def ChangeSet.fromDeltasOnly (deltas : List (Delta (Row V))) : ChangeSet V where
  added := (deltas.filter Delta.isInsert).map Delta.data
  removed := (deltas.filter fun delta => !delta.isInsert && delta.isDelete).map Delta.data
  modified := []
  currentResult := []

inductive SubscriptionKind where
  | changes
  | rawDeltas
  | traceBatches
  deriving DecidableEq

structure Subscription (C : Type) where
  id : SubscriptionId
  callback : C
  active : Bool
  deriving DecidableEq

/-- What a callback is called with. -/
inductive Payload (V : Type) where
  | changes (changes : ChangeSet V)
  | rawDeltas (deltas : List (Delta (Row V)))
  | traceBatch (batch : List (Delta (TraceTupleHandle V)))
  deriving DecidableEq

/-- One call of the callback of a subscription. -/
structure Notification (C V : Type) where
  subscription : Subscription C
  payload : Payload V
  deriving DecidableEq

def payloadFor (kind : SubscriptionKind) (batch : List (Delta (TraceTupleHandle V))) : Payload V :=
  match kind with
  | .changes => .changes (.fromDeltasOnly (MaterializedView.materializeRows batch))
  | .rawDeltas => .rawDeltas (MaterializedView.materializeRows batch)
  | .traceBatches => .traceBatch batch

/-- The values of a hash map from ids to subscriptions, and the id to hand out next. -/
structure SubscriptionManager (C : Type) where
  subscriptions : List (Subscription C)
  nextId : SubscriptionId

abbrev RawDeltaSubscriptionManager (C : Type) := SubscriptionManager C
abbrev TraceBatchSubscriptionManager (C : Type) := SubscriptionManager C

namespace SubscriptionManager

def new : SubscriptionManager C := ⟨[], 1⟩

def subscribe (manager : SubscriptionManager C) (callback : C) :
    SubscriptionManager C × SubscriptionId :=
  (⟨manager.subscriptions.filter (·.id ≠ manager.nextId) ++ [⟨manager.nextId, callback, true⟩],
    manager.nextId + 1⟩, manager.nextId)

def unsubscribe (manager : SubscriptionManager C) (id : SubscriptionId) :
    SubscriptionManager C × Bool :=
  ({ manager with subscriptions := manager.subscriptions.filter (·.id ≠ id) },
    manager.subscriptions.any (·.id = id))

def notifyAll (manager : SubscriptionManager C) (payload : Payload V) : List (Notification C V) :=
  (manager.subscriptions.filter Subscription.active).map fun subscription =>
    ⟨subscription, payload⟩

def isEmpty (manager : SubscriptionManager C) : Bool := manager.subscriptions.isEmpty

end SubscriptionManager

structure ObservableQuery (ops : Operators V) (C : Type) where
  view : MaterializedView ops
  subscriptions : SubscriptionManager C
  rawDeltaSubscriptions : RawDeltaSubscriptionManager C
  traceBatchSubscriptions : TraceBatchSubscriptionManager C

/-- Deltas of one table, and the rows that are cached when they arrive. -/
structure TableChange (V : Type) where
  tableId : TableId
  deltas : List (Delta (Row V))
  cached : TraceTupleHandle V → Bool

namespace ObservableQuery

variable {ops : Operators V}

def ofView (view : MaterializedView ops) : ObservableQuery ops C := ⟨view, .new, .new, .new⟩

def subscribe (query : ObservableQuery ops C) (callback : C) :
    ObservableQuery ops C × SubscriptionId :=
  let (subscriptions, id) := query.subscriptions.subscribe callback
  ({ query with subscriptions }, id)

def subscribeRawDeltas (query : ObservableQuery ops C) (callback : C) :
    ObservableQuery ops C × SubscriptionId :=
  let (rawDeltaSubscriptions, id) := query.rawDeltaSubscriptions.subscribe callback
  ({ query with rawDeltaSubscriptions }, id)

def subscribeTraceBatches (query : ObservableQuery ops C) (callback : C) :
    ObservableQuery ops C × SubscriptionId :=
  let (traceBatchSubscriptions, id) := query.traceBatchSubscriptions.subscribe callback
  ({ query with traceBatchSubscriptions }, id)

def subscribeTo (query : ObservableQuery ops C) :
    SubscriptionKind → C → ObservableQuery ops C × SubscriptionId
  | .changes => query.subscribe
  | .rawDeltas => query.subscribeRawDeltas
  | .traceBatches => query.subscribeTraceBatches

/-- The managers are asked in turn, until one knows the id. -/
def unsubscribe (query : ObservableQuery ops C) (id : SubscriptionId) :
    ObservableQuery ops C × Bool :=
  let (subscriptions, found) := query.subscriptions.unsubscribe id
  let query := { query with subscriptions }
  if found then (query, true)
  else
    let (rawDeltaSubscriptions, found) := query.rawDeltaSubscriptions.unsubscribe id
    let query := { query with rawDeltaSubscriptions }
    if found then (query, true)
    else
      let (traceBatchSubscriptions, found) := query.traceBatchSubscriptions.unsubscribe id
      ({ query with traceBatchSubscriptions }, found)

variable [DecidableEq V]

/-- Nothing is propagated while nobody listens. -/
def onTableChange (query : ObservableQuery ops C) (change : TableChange V) :
    Option (ObservableQuery ops C × List (Notification C V)) :=
  if query.subscriptions.isEmpty && query.rawDeltaSubscriptions.isEmpty &&
      query.traceBatchSubscriptions.isEmpty then
    some (query, [])
  else do
    let (view, batch) ← query.view.onTableChangeBatch change.cached change.tableId change.deltas
    let query := { query with view }
    let deltas := MaterializedView.materializeRows batch
    let rowNotifications :=
      query.rawDeltaSubscriptions.notifyAll (.rawDeltas deltas) ++
        query.subscriptions.notifyAll (.changes (.fromDeltasOnly deltas))
    if query.traceBatchSubscriptions.isEmpty then
      some (query, if deltas.isEmpty then [] else rowNotifications)
    else
      some (query, if batch.isEmpty then []
        else query.traceBatchSubscriptions.notifyAll (.traceBatch batch) ++ rowNotifications)

end ObservableQuery

section Spec

/-- A subscription that was made and not ended, with the kind of the call that made it. -/
structure Subscriber (C : Type) where
  kind : SubscriptionKind
  id : SubscriptionId
  callback : C
  deriving DecidableEq

def Subscriber.subscription (subscriber : Subscriber C) : Subscription C :=
  ⟨subscriber.id, subscriber.callback, true⟩

/-- What a live query is for: who listens, and what each listener hears of a change. -/
structure LiveQuery (ops : Operators V) (C : Type) where
  view : MaterializedView ops
  subscribers : List (Subscriber C)
  nextId : SubscriptionKind → SubscriptionId

namespace LiveQuery

variable {ops : Operators V}

def ofView (view : MaterializedView ops) : LiveQuery ops C := ⟨view, [], fun _ => 1⟩

def subscribe (query : LiveQuery ops C) (kind : SubscriptionKind) (callback : C) :
    LiveQuery ops C :=
  { query with
    subscribers := query.subscribers ++ [⟨kind, query.nextId kind, callback⟩]
    nextId := Function.update query.nextId kind (query.nextId kind + 1) }

def unsubscribe (query : LiveQuery ops C) (kind : SubscriptionKind) (id : SubscriptionId) :
    LiveQuery ops C :=
  { query with subscribers := query.subscribers.filter fun s => ¬(s.kind = kind ∧ s.id = id) }

variable [DecidableEq V]

/-- The view after a change that somebody listens to. -/
def afterChange (query : LiveQuery ops C) (change : TableChange V) : LiveQuery ops C :=
  if query.subscribers.isEmpty then query
  else { query with view := (query.view.change change.tableId change.deltas).1 }

/-- Each subscriber once, where the change makes a difference. -/
def notifications (query : LiveQuery ops C) (change : TableChange V) : List (Notification C V) :=
  let batch := (query.view.change change.tableId change.deltas).2
  if batch.isEmpty then []
  else query.subscribers.map fun s => ⟨s.subscription, payloadFor s.kind batch⟩

end LiveQuery

end Spec

section Agreement

variable {ops : Operators V}

/-- The kinds whose managers an unsubscription asks before the one of a kind. -/
def SubscriptionKind.earlier : SubscriptionKind → List SubscriptionKind
  | .changes => []
  | .rawDeltas => [.changes]
  | .traceBatches => [.changes, .rawDeltas]

theorem SubscriptionKind.earlier_asymm {kind kind' : SubscriptionKind} (h : kind ∈ kind'.earlier) :
    kind' ∉ kind.earlier := by
  cases kind <;> cases kind' <;> simp_all [earlier]

def ObservableQuery.manager (query : ObservableQuery ops C) :
    SubscriptionKind → SubscriptionManager C
  | .changes => query.subscriptions
  | .rawDeltas => query.rawDeltaSubscriptions
  | .traceBatches => query.traceBatchSubscriptions

def SubscriptionManager.Holds (manager : SubscriptionManager C) (id : SubscriptionId) : Prop :=
  ∃ subscription ∈ manager.subscriptions, subscription.id = id

theorem SubscriptionManager.unsubscribe_snd (manager : SubscriptionManager C)
    (id : SubscriptionId) : (manager.unsubscribe id).2 = true ↔ manager.Holds id := by
  simp [unsubscribe, Holds]

theorem SubscriptionManager.unsubscribe_of_not_holds {manager : SubscriptionManager C}
    {id : SubscriptionId} (h : ¬ manager.Holds id) : (manager.unsubscribe id).1 = manager := by
  unfold unsubscribe
  dsimp only
  rw [List.filter_eq_self.mpr]
  intro subscription hmem
  exact decide_eq_true fun hid => h ⟨subscription, hmem, hid⟩

namespace ObservableQuery

variable (query : ObservableQuery ops C)

@[simp] theorem subscribeTo_view (kind : SubscriptionKind) (callback : C) :
    (query.subscribeTo kind callback).1.view = query.view := by
  cases kind <;> rfl

theorem subscribeTo_manager (kind kind' : SubscriptionKind) (callback : C) :
    (query.subscribeTo kind callback).1.manager kind' =
      if kind' = kind then ((query.manager kind).subscribe callback).1 else query.manager kind' := by
  cases kind <;> cases kind' <;> rfl

@[simp] theorem unsubscribe_view (id : SubscriptionId) :
    (query.unsubscribe id).1.view = query.view := by
  unfold unsubscribe
  dsimp only
  split
  · rfl
  · split <;> rfl

/-- Only the first manager that knows the id loses a subscription. -/
theorem unsubscribe_manager (id : SubscriptionId) (kind : SubscriptionKind) :
    (query.unsubscribe id).1.manager kind =
      open Classical in
      if ∀ kind' ∈ kind.earlier, ¬ (query.manager kind').Holds id then
        ((query.manager kind).unsubscribe id).1 else query.manager kind := by
  have hchanges : (query.subscriptions.unsubscribe id).2 = true ↔ (query.manager .changes).Holds id :=
    SubscriptionManager.unsubscribe_snd _ id
  have hraw : (SubscriptionManager.unsubscribe query.rawDeltaSubscriptions id).2 = true ↔
      (query.manager .rawDeltas).Holds id := SubscriptionManager.unsubscribe_snd _ id
  unfold unsubscribe
  dsimp only
  by_cases hfirst : (query.manager .changes).Holds id
  · rw [if_pos (hchanges.mpr hfirst)]
    cases kind with
    | changes => rw [if_pos (by simp [SubscriptionKind.earlier])]; rfl
    | rawDeltas | traceBatches => rw [if_neg (by simp [SubscriptionKind.earlier, hfirst])]; rfl
  · rw [if_neg (mt hchanges.mp hfirst)]
    by_cases hsecond : (query.manager .rawDeltas).Holds id
    · rw [if_pos (hraw.mpr hsecond)]
      cases kind with
      | changes => rw [if_pos (by simp [SubscriptionKind.earlier])]; rfl
      | rawDeltas => rw [if_pos (by simp [SubscriptionKind.earlier, hfirst])]; rfl
      | traceBatches => rw [if_neg (by simp [SubscriptionKind.earlier, hsecond])]; rfl
    · rw [if_neg (mt hraw.mp hsecond)]
      cases kind with
      | changes => rw [if_pos (by simp [SubscriptionKind.earlier])]; rfl
      | rawDeltas => rw [if_pos (by simp [SubscriptionKind.earlier, hfirst])]; rfl
      | traceBatches => rw [if_pos (by simp [SubscriptionKind.earlier, hfirst, hsecond])]; rfl

end ObservableQuery

namespace LiveQuery

/-- The subscribers of one kind, as a manager keeps them. -/
def manager (live : LiveQuery ops C) (kind : SubscriptionKind) : SubscriptionManager C :=
  ⟨(live.subscribers.filter (·.kind = kind)).map Subscriber.subscription, live.nextId kind⟩

theorem manager_holds {live : LiveQuery ops C} {kind : SubscriptionKind} {id : SubscriptionId} :
    (live.manager kind).Holds id ↔ ∃ s ∈ live.subscribers, s.kind = kind ∧ s.id = id := by
  simp [SubscriptionManager.Holds, manager, Subscriber.subscription, and_assoc]

/-- No other subscriber is found under the id that a call of this kind handed out. -/
def Unambiguous (live : LiveQuery ops C) (kind : SubscriptionKind) (id : SubscriptionId) : Prop :=
  ∀ s ∈ live.subscribers, s.id = id → s.kind = kind ∨
    kind ∈ s.kind.earlier ∧ ∃ own ∈ live.subscribers, own.kind = kind ∧ own.id = id

instance (live : LiveQuery ops C) (kind : SubscriptionKind) (id : SubscriptionId) :
    Decidable (live.Unambiguous kind id) :=
  inferInstanceAs (Decidable (∀ s ∈ live.subscribers, s.id = id → s.kind = kind ∨
    kind ∈ s.kind.earlier ∧ ∃ own ∈ live.subscribers, own.kind = kind ∧ own.id = id))

end LiveQuery

/-- The managers of a query keep its subscribers, and its view shows what it should. -/
structure Agrees (query : ObservableQuery ops C) (live : LiveQuery ops C) : Prop where
  compiled : query.view.Compiled
  shows : query.view.Shows live.view
  managers : ∀ kind, query.manager kind = live.manager kind
  below : ∀ s ∈ live.subscribers, s.id < live.nextId s.kind

namespace Agrees

variable {query : ObservableQuery ops C} {live : LiveQuery ops C}

theorem ofView {view : MaterializedView ops} (h : view.Compiled) :
    Agrees (C := C) (.ofView view) (.ofView view) := by
  refine ⟨h, .refl view, fun kind => ?_, nofun⟩
  cases kind <;> rfl

theorem subscribe (h : Agrees query live) (kind : SubscriptionKind) (callback : C) :
    Agrees (query.subscribeTo kind callback).1 (live.subscribe kind callback) := by
  refine ⟨?_, ?_, fun kind' => ?_, fun s hs => ?_⟩
  · rw [query.subscribeTo_view]
    exact h.compiled
  · rw [query.subscribeTo_view]
    exact h.shows
  · rw [query.subscribeTo_manager, h.managers, h.managers]
    unfold LiveQuery.manager LiveQuery.subscribe SubscriptionManager.subscribe
    dsimp only
    split
    · next hkind =>
      subst hkind
      have hfresh : ((live.subscribers.filter (·.kind = kind')).map
          Subscriber.subscription).filter (·.id ≠ live.nextId kind') =
            (live.subscribers.filter (·.kind = kind')).map Subscriber.subscription := by
        rw [List.filter_eq_self]
        simp only [List.mem_map, List.mem_filter, decide_eq_true_eq]
        rintro _ ⟨s, ⟨hs, rfl⟩, rfl⟩
        exact (h.below s hs).ne
      rw [hfresh, List.filter_append, List.map_append]
      simp [Subscriber.subscription]
    · next hkind => simp [Function.update_of_ne hkind, Ne.symm hkind]
  · change s.id < Function.update live.nextId kind (live.nextId kind + 1) s.kind
    rcases List.mem_append.mp hs with hs | hs
    · have hbelow := h.below s hs
      by_cases hkind : s.kind = kind
      · rw [hkind, Function.update_self, ← hkind]
        exact hbelow.trans (Nat.lt_succ_self _)
      · rwa [Function.update_of_ne hkind]
    · obtain rfl := List.mem_singleton.mp hs
      rw [Function.update_self]
      exact Nat.lt_succ_self _

theorem unsubscribe (h : Agrees query live) {kind : SubscriptionKind} {id : SubscriptionId}
    (hid : live.Unambiguous kind id) :
    Agrees (query.unsubscribe id).1 (live.unsubscribe kind id) := by
  refine ⟨?_, ?_, fun kind' => ?_, fun s hs => h.below s (List.mem_of_mem_filter hs)⟩
  · rw [query.unsubscribe_view]
    exact h.compiled
  · rw [query.unsubscribe_view]
    exact h.shows
  · rw [query.unsubscribe_manager, h.managers]
    by_cases hkind : kind' = kind
    · subst hkind
      have hearlier : ∀ kind ∈ kind'.earlier, ¬ (query.manager kind).Holds id := by
        intro kind hmem hholds
        rw [h.managers] at hholds
        obtain ⟨s, hs, rfl, hsid⟩ := LiveQuery.manager_holds.mp hholds
        rcases hid s hs hsid with heq | ⟨hlater, -⟩
        · exact SubscriptionKind.earlier_asymm hmem (heq ▸ hmem)
        · exact SubscriptionKind.earlier_asymm hmem hlater
      rw [if_pos hearlier]
      unfold LiveQuery.manager LiveQuery.unsubscribe SubscriptionManager.unsubscribe
      simp only [List.filter_map, List.filter_filter]
      congr 2
      refine List.filter_congr fun s _ => ?_
      by_cases hs : s.kind = kind'
      · by_cases hsid : s.id = id <;> simp [hs, hsid, Subscriber.subscription]
      · simp [hs, Subscriber.subscription]
    · have hkept : (live.unsubscribe kind id).manager kind' = live.manager kind' := by
        unfold LiveQuery.manager LiveQuery.unsubscribe
        simp only [List.filter_filter]
        congr 2
        refine List.filter_congr fun s _ => ?_
        by_cases hs : s.kind = kind' <;> simp [hs, hkind]
      rw [hkept]
      split
      · next hnone =>
        refine SubscriptionManager.unsubscribe_of_not_holds fun hholds => ?_
        obtain ⟨s, hs, rfl, hsid⟩ := LiveQuery.manager_holds.mp hholds
        rcases hid s hs hsid with heq | ⟨hearlier, hown⟩
        · exact hkind heq
        · refine hnone kind hearlier ?_
          rw [h.managers]
          exact LiveQuery.manager_holds.mpr hown
      · rfl

variable [DecidableEq V]

omit [DecidableEq V] in
/-- The subscribers of the three kinds are all subscribers. -/
theorem perm_kinds (subscribers : List (Subscriber C)) (f : Subscriber C → Notification C V) :
    ((subscribers.filter (·.kind = .traceBatches)).map f ++
      ((subscribers.filter (·.kind = .rawDeltas)).map f ++
        (subscribers.filter (·.kind = .changes)).map f)).Perm (subscribers.map f) := by
  rw [← List.map_append, ← List.map_append]
  refine List.Perm.map f ?_
  have htrace := List.filter_append_perm (fun s : Subscriber C => s.kind = .traceBatches) subscribers
  refine List.Perm.trans (List.Perm.append_left _ ?_) htrace
  have hraw := List.filter_append_perm (fun s : Subscriber C => s.kind = .rawDeltas)
    (subscribers.filter fun s => !decide (s.kind = .traceBatches))
  refine List.Perm.trans (.of_eq ?_) hraw
  rw [List.filter_filter, List.filter_filter]
  congr 1
  · refine List.filter_congr fun s _ => ?_
    cases s.kind <;> rfl
  · refine List.filter_congr fun s _ => ?_
    cases s.kind <;> rfl

omit [DecidableEq V] in
theorem notifyAll_manager (live : LiveQuery ops C) (kind : SubscriptionKind)
    (batch : List (Delta (TraceTupleHandle V))) :
    (live.manager kind).notifyAll (payloadFor kind batch) =
      (live.subscribers.filter (·.kind = kind)).map fun s =>
        (⟨s.subscription, payloadFor s.kind batch⟩ : Notification C V) := by
  unfold SubscriptionManager.notifyAll LiveQuery.manager
  rw [List.filter_eq_self.mpr, List.map_map]
  · refine List.map_congr_left fun s hs => ?_
    rw [of_decide_eq_true (List.mem_filter.mp hs).2]
    rfl
  · simp only [List.mem_map]
    rintro _ ⟨s, -, rfl⟩
    rfl

omit [DecidableEq V] in
theorem manager_isEmpty (h : Agrees query live) (kind : SubscriptionKind) :
    (query.manager kind).isEmpty = true ↔ live.subscribers.filter (·.kind = kind) = [] := by
  rw [h.managers, SubscriptionManager.isEmpty, LiveQuery.manager, List.isEmpty_iff,
    List.map_eq_nil_iff]

/-- A change reaches every subscriber once, or nobody when it makes no difference. -/
theorem onTableChange (h : Agrees query live) (change : TableChange V) :
    ∃ next notifications, query.onTableChange change = some (next, notifications) ∧
      Agrees next (live.afterChange change) ∧
      notifications.Perm (live.notifications change) := by
  have hempty : (query.subscriptions.isEmpty && query.rawDeltaSubscriptions.isEmpty &&
      query.traceBatchSubscriptions.isEmpty) = true ↔ live.subscribers = [] := by
    rw [Bool.and_eq_true, Bool.and_eq_true, and_assoc]
    refine Iff.trans (and_congr (h.manager_isEmpty .changes) (and_congr
      (h.manager_isEmpty .rawDeltas) (h.manager_isEmpty .traceBatches))) ?_
    simp only [List.filter_eq_nil_iff, decide_eq_true_eq]
    constructor
    · rintro ⟨hchanges, hraw, htrace⟩
      refine List.eq_nil_iff_forall_not_mem.mpr fun s hs => ?_
      cases hkind : s.kind with
      | changes => exact hchanges s hs hkind
      | rawDeltas => exact hraw s hs hkind
      | traceBatches => exact htrace s hs hkind
    · intro hnil
      simp [hnil]
  unfold ObservableQuery.onTableChange LiveQuery.afterChange LiveQuery.notifications
  by_cases hnone : live.subscribers = []
  · rw [if_pos (hempty.mpr hnone), hnone]
    refine ⟨query, [], rfl, h, .of_eq ?_⟩
    dsimp only
    split <;> rfl
  · rw [if_neg (mt hempty.mp hnone), if_neg (mt List.isEmpty_iff.mp hnone)]
    obtain ⟨view, hview, hcompiled, hshows⟩ :=
      MaterializedView.onTableChangeBatch_eq h.compiled h.shows change.cached change.tableId change.deltas
    have hagrees : Agrees { query with view }
        { live with view := (live.view.change change.tableId change.deltas).1 } :=
      ⟨hcompiled, hshows, h.managers, h.below⟩
    rw [hview, Option.bind_eq_bind, Option.bind_some]
    dsimp only
    generalize (live.view.change change.tableId change.deltas).2 = batch
    have hperm := perm_kinds live.subscribers fun s =>
      (⟨s.subscription, payloadFor s.kind batch⟩ : Notification C V)
    rw [← notifyAll_manager, ← notifyAll_manager, ← notifyAll_manager, ← h.managers, ← h.managers,
      ← h.managers] at hperm
    split
    · next htrace =>
      have hnil : (query.manager .traceBatches).notifyAll
          (payloadFor .traceBatches batch) = ([] : List (Notification C V)) := by
        rw [h.managers, notifyAll_manager, (h.manager_isEmpty .traceBatches).mp htrace]
        rfl
      rw [hnil, List.nil_append] at hperm
      refine ⟨_, _, rfl, hagrees, ?_⟩
      rw [MaterializedView.materializeRows_isEmpty]
      split
      · exact .refl _
      · exact hperm
    · refine ⟨_, _, rfl, hagrees, ?_⟩
      split
      · exact .refl _
      · exact hperm

end Agrees

end Agreement

end Cynos.Reactive
