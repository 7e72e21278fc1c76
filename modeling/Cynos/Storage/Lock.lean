import Cynos.Storage.RowStore
import Mathlib.Data.Finset.Card

/-! Shared and exclusive locks of transactions on named resources. A lock is asked for and
given or refused at once: nobody waits. -/
namespace Cynos.Storage

inductive LockType where
  | shared
  | exclusive
  deriving DecidableEq

structure LockState where
  sharedHolders : Finset Nat
  exclusiveHolder : Option Nat

namespace LockState

def new : LockState := ⟨∅, none⟩

def isFree (state : LockState) : Bool :=
  state.sharedHolders = ∅ && state.exclusiveHolder.isNone

def canGrantShared (state : LockState) (txId : Nat) : Bool :=
  state.exclusiveHolder.isNone || state.exclusiveHolder = some txId

def canGrantExclusive (state : LockState) (txId : Nat) : Bool :=
  (state.exclusiveHolder.isNone && state.sharedHolders = ∅) ||
    (state.exclusiveHolder.isNone && state.sharedHolders.card = 1 && txId ∈ state.sharedHolders) ||
    state.exclusiveHolder = some txId

def holds (state : LockState) (txId : Nat) : Bool :=
  txId ∈ state.sharedHolders || state.exclusiveHolder = some txId

/-- What both ways to release do with a resource. -/
def withdraw (state : LockState) (txId : Nat) : LockState where
  sharedHolders := state.sharedHolders.erase txId
  exclusiveHolder :=
    if state.exclusiveHolder = some txId then none else state.exclusiveHolder

def addShared (state : LockState) (txId : Nat) : LockState :=
  { state with sharedHolders := insert txId state.sharedHolders }

def makeExclusive (state : LockState) (txId : Nat) : LockState where
  sharedHolders := state.sharedHolders.erase txId
  exclusiveHolder := some txId

theorem isFree_iff {state : LockState} : state.isFree = true ↔ state = .new := by
  obtain ⟨sharedHolders, exclusiveHolder⟩ := state
  simp [isFree, new]

@[simp] theorem isFree_new : new.isFree = true :=
  isFree_iff.mpr rfl

theorem withdraw_new (txId : Nat) : new.withdraw txId = new := by
  simp [withdraw, new]

theorem holds_iff {state : LockState} {txId : Nat} : state.holds txId = true ↔
    txId ∈ state.sharedHolders ∨ state.exclusiveHolder = some txId := by
  simp [holds]

end LockState

structure LockManager where
  locks : Std.ExtTreeMap String LockState

namespace LockManager

def new : LockManager := ⟨∅⟩

/-- `or_insert_with` leaves an entry also where the lock is then refused. -/
def acquire (manager : LockManager) (resource : String) (txId : Nat) :
    LockType → LockManager × Except Error Unit
  | .shared =>
    let state := manager.locks[resource]?.getD .new
    if state.canGrantShared txId then
      (⟨manager.locks.insert resource (state.addShared txId)⟩, .ok ())
    else
      (⟨manager.locks.insert resource state⟩,
        .error (.invalidOperation "Cannot acquire shared lock"))
  | .exclusive =>
    let state := manager.locks[resource]?.getD .new
    if state.canGrantExclusive txId then
      (⟨manager.locks.insert resource (state.makeExclusive txId)⟩, .ok ())
    else
      (⟨manager.locks.insert resource state⟩,
        .error (.invalidOperation "Cannot acquire exclusive lock"))

def releaseAll (manager : LockManager) (txId : Nat) : LockManager where
  locks := (manager.locks.map fun _ state => state.withdraw txId).filter
    fun _ state => !state.isFree

def release (manager : LockManager) (resource : String) (txId : Nat) : LockManager :=
  match manager.locks[resource]? with
  | none => manager
  | some state =>
    let state := state.withdraw txId
    if state.isFree then ⟨manager.locks.erase resource⟩
    else ⟨manager.locks.insert resource state⟩

def holdsLock (manager : LockManager) (resource : String) (txId : Nat) : Bool :=
  match manager.locks[resource]? with
  | some state => state.holds txId
  | none => false

def holdsExclusive (manager : LockManager) (resource : String) (txId : Nat) : Bool :=
  match manager.locks[resource]? with
  | some state => state.exclusiveHolder = some txId
  | none => false

def getLockedResources (manager : LockManager) (txId : Nat) : List String :=
  (manager.locks.toList.filter fun (_, state) => state.holds txId).map fun (name, _) => name

section States

/-- The state of a resource; one without an entry is free. -/
def state (manager : LockManager) (resource : String) : LockState :=
  manager.locks[resource]?.getD .new

theorem state_new (resource : String) : new.state resource = .new := by
  simp [state, new]

theorem holdsLock_eq (manager : LockManager) (resource : String) (txId : Nat) :
    manager.holdsLock resource txId = (manager.state resource).holds txId := by
  unfold holdsLock state
  cases manager.locks[resource]? with
  | none => simp [LockState.new, LockState.holds]
  | some state => rfl

theorem holdsExclusive_eq (manager : LockManager) (resource : String) (txId : Nat) :
    manager.holdsExclusive resource txId =
      decide ((manager.state resource).exclusiveHolder = some txId) := by
  unfold holdsExclusive state
  cases manager.locks[resource]? with
  | none => simp [LockState.new]
  | some state => rfl

theorem mem_getLockedResources {manager : LockManager} {resource : String} {txId : Nat} :
    resource ∈ manager.getLockedResources txId ↔ manager.holdsLock resource txId = true := by
  unfold getLockedResources holdsLock
  constructor
  · intro h
    obtain ⟨⟨name, state⟩, hm, rfl⟩ := List.mem_map.mp h
    obtain ⟨hm, hs⟩ := List.mem_filter.mp hm
    rw [Std.ExtTreeMap.mem_toList_iff_getElem?_eq_some] at hm
    simpa [hm] using hs
  · intro h
    cases he : manager.locks[resource]? with
    | none => simp [he] at h
    | some state =>
      rw [he] at h
      have hm := Std.ExtTreeMap.mem_toList_iff_getElem?_eq_some.mpr he
      exact List.mem_map.mpr ⟨(resource, state), List.mem_filter.mpr ⟨hm, h⟩, rfl⟩

theorem nodup_getLockedResources (manager : LockManager) (txId : Nat) :
    (manager.getLockedResources txId).Nodup := by
  have h : (manager.locks.toList.map fun (name, _) => name).Nodup := by
    have := manager.locks.nodup_keys
    rwa [← Std.ExtTreeMap.map_fst_toList_eq_keys] at this
  exact h.sublist (List.filter_sublist.map _)

theorem state_insert (manager : LockManager) (resource other : String) (state : LockState) :
    LockManager.state ⟨manager.locks.insert resource state⟩ other =
      if resource = other then state else manager.state other := by
  unfold LockManager.state
  rw [Std.ExtTreeMap.getElem?_insert]
  by_cases h : resource = other <;> simp [h]

theorem insert_state {manager : LockManager} {resource : String} {state : LockState}
    (h : manager.locks[resource]? = some state) :
    LockManager.mk (manager.locks.insert resource (manager.locks[resource]?.getD .new)) =
      manager := by
  obtain ⟨locks⟩ := manager
  refine congrArg LockManager.mk (Std.ExtTreeMap.ext_getElem? fun other => ?_)
  rw [Std.ExtTreeMap.getElem?_insert]
  by_cases he : resource = other
  · subst he
    simp [h]
  · simp [he]

theorem state_release (manager : LockManager) (resource other : String) (txId : Nat) :
    (manager.release resource txId).state other =
      if resource = other then (manager.state other).withdraw txId else manager.state other := by
  unfold release
  cases h : manager.locks[resource]? with
  | none =>
    by_cases he : resource = other
    · subst he
      simp [state, h, LockState.withdraw_new]
    · simp [he]
  | some entry =>
    simp only
    by_cases hf : (entry.withdraw txId).isFree = true
    · rw [if_pos hf]
      unfold state
      rw [Std.ExtTreeMap.getElem?_erase]
      by_cases he : resource = other
      · subst he
        simp [h, LockState.isFree_iff.mp hf]
      · simp [he]
    · rw [if_neg hf, state_insert]
      by_cases he : resource = other
      · subst he
        simp [state, h]
      · simp [he]

theorem state_releaseAll (manager : LockManager) (resource : String) (txId : Nat) :
    (manager.releaseAll txId).state resource = (manager.state resource).withdraw txId := by
  unfold releaseAll state
  rw [Std.ExtTreeMap.getElem?_filter', Std.ExtTreeMap.getElem?_map]
  cases manager.locks[resource]? with
  | none => simp [LockState.withdraw_new]
  | some entry =>
    by_cases hf : (entry.withdraw txId).isFree = true
    · rw [LockState.isFree_iff] at hf
      simp [Option.filter, hf]
    · simp [Option.filter, hf]

end States

section Acquire

/-- What a granted lock makes of the state of its resource. -/
def taken (state : LockState) (txId : Nat) : LockType → LockState
  | .shared => state.addShared txId
  | .exclusive => state.makeExclusive txId

def canGrant (state : LockState) (txId : Nat) : LockType → Bool
  | .shared => state.canGrantShared txId
  | .exclusive => state.canGrantExclusive txId

theorem canGrant_new (txId : Nat) (lockType : LockType) :
    canGrant .new txId lockType = true := by
  cases lockType <;>
    simp [canGrant, LockState.canGrantShared, LockState.canGrantExclusive, LockState.new]

theorem acquire_granted {manager : LockManager} {resource : String} {txId : Nat}
    {lockType : LockType} (h : canGrant (manager.state resource) txId lockType = true) :
    manager.acquire resource txId lockType =
      (⟨manager.locks.insert resource (taken (manager.state resource) txId lockType)⟩, .ok ()) := by
  cases lockType with
  | shared => exact if_pos h
  | exclusive => exact if_pos h

/-- A resource somebody holds has an entry, and it is put back as it was. -/
theorem acquire_refused {manager : LockManager} {resource : String} {txId : Nat}
    {lockType : LockType} (h : canGrant (manager.state resource) txId lockType = false) :
    ∃ error, manager.acquire resource txId lockType = (manager, .error error) := by
  have hsame : LockManager.mk (manager.locks.insert resource (manager.state resource)) =
      manager := by
    cases he : manager.locks[resource]? with
    | none =>
      have hnew : manager.state resource = .new := by rw [state, he]; rfl
      rw [hnew, canGrant_new] at h
      cases h
    | some entry => exact insert_state he
  cases lockType with
  | shared => exact ⟨_, (if_neg (ne_true_of_eq_false h)).trans (by rw [← state, hsame])⟩
  | exclusive => exact ⟨_, (if_neg (ne_true_of_eq_false h)).trans (by rw [← state, hsame])⟩

end Acquire

end LockManager

/-! The locks a history of calls has given. -/

inductive LockCall where
  | acquire (resource : String) (txId : Nat) (lockType : LockType)
  | release (resource : String) (txId : Nat)
  | releaseAll (txId : Nat)

/-- The transaction gives up what it holds on the resource. -/
def LockCall.Releases (resource : String) (txId : Nat) : LockCall → Prop
  | .acquire _ _ _ => False
  | .release name holder => name = resource ∧ holder = txId
  | .releaseAll holder => holder = txId

def LockManager.perform (manager : LockManager) : LockCall → LockManager × Except Error Unit
  | .acquire resource txId lockType => manager.acquire resource txId lockType
  | .release resource txId => (manager.release resource txId, .ok ())
  | .releaseAll txId => (manager.releaseAll txId, .ok ())

/-- The lock each transaction was granted on a resource and has not released. -/
abbrev Granted := String → Nat → Option LockType

namespace Granted

def none : Granted := fun _ _ => .none

/-- A shared lock taken again after an exclusive one leaves the exclusive one. -/
def grant (granted : Granted) (resource : String) (txId : Nat) (lockType : LockType) : Granted :=
  fun name holder =>
    if name = resource ∧ holder = txId then
      if granted name holder = some .exclusive then some .exclusive else some lockType
    else granted name holder

theorem grant_self (granted : Granted) (resource : String) (txId : Nat) (lockType : LockType) :
    granted.grant resource txId lockType resource = fun holder =>
      if holder = txId then
        if granted resource holder = some .exclusive then some .exclusive else some lockType
      else granted resource holder := by
  funext holder
  simp [grant]

theorem grant_of_ne (granted : Granted) {resource other : String} (txId : Nat)
    (lockType : LockType) (h : other ≠ resource) :
    granted.grant resource txId lockType other = granted other := by
  funext holder
  simp [grant, h]

def record (granted : Granted) : LockCall → Except Error Unit → Granted
  | .acquire resource txId lockType, .ok () => granted.grant resource txId lockType
  | .acquire _ _ _, .error _ => granted
  | .release resource txId, _ => fun name holder =>
    if name = resource ∧ holder = txId then .none else granted name holder
  | .releaseAll txId, _ => fun name holder =>
    if holder = txId then .none else granted name holder

end Granted

/-- Another transaction holds a lock that does not go with `lockType`. -/
def Granted.Conflict (granted : Granted) (resource : String) (txId : Nat) (lockType : LockType) :
    Prop :=
  ∃ holder held, holder ≠ txId ∧ granted resource holder = some held ∧
    (held = .exclusive ∨ lockType = .exclusive)

/-- A lock manager with what its callers were told. -/
structure LockRun where
  manager : LockManager
  granted : Granted

namespace LockRun

def start : LockRun := ⟨.new, .none⟩

def perform (run : LockRun) (call : LockCall) : LockRun :=
  let (manager, answer) := run.manager.perform call
  ⟨manager, run.granted.record call answer⟩

def performAll (run : LockRun) (calls : List LockCall) : LockRun :=
  calls.foldl perform run

end LockRun

/-- What the locks of one resource must look like to have been granted so. -/
structure LockState.Records (state : LockState) (granted : Nat → Option LockType) : Prop where
  exclusive : ∀ txId, state.exclusiveHolder = some txId ↔ granted txId = some .exclusive
  holds : ∀ txId, state.holds txId = true ↔ (granted txId).isSome
  alone : ∀ txId, state.exclusiveHolder = some txId →
    ∀ holder, state.holds holder = true → holder = txId

namespace LockState.Records

variable {state : LockState} {granted : Nat → Option LockType}

theorem start : LockState.new.Records fun _ => none where
  exclusive txId := by simp [new]
  holds txId := by simp [new, LockState.holds]
  alone txId h := by simp [new] at h

theorem withdraw (h : state.Records granted) (txId : Nat) :
    (state.withdraw txId).Records fun holder => if holder = txId then none else granted holder where
  exclusive holder := by
    have := h.exclusive holder
    by_cases he : state.exclusiveHolder = some txId
    · have := h.exclusive txId
      grind [LockState.withdraw]
    · grind [LockState.withdraw]
  holds holder := by
    have := h.holds holder
    grind [LockState.withdraw, LockState.holds_iff]
  alone holder he other ho := by
    refine h.alone holder ?_ other ?_
    · grind [LockState.withdraw]
    · grind [LockState.withdraw, LockState.holds_iff]

theorem granted_of_holds (h : state.Records granted) {txId : Nat} (hs : state.holds txId = true) :
    ∃ lockType, granted txId = some lockType :=
  Option.isSome_iff_exists.mp ((h.holds txId).mp hs)

theorem canGrantShared_iff (h : state.Records granted) (txId : Nat) :
    state.canGrantShared txId = true ↔
      ∀ holder, granted holder = some .exclusive → holder = txId := by
  constructor
  · intro hc holder hg
    have := (h.exclusive holder).mpr hg
    simpa [LockState.canGrantShared, this] using hc
  · intro hall
    cases he : state.exclusiveHolder with
    | none => simp [LockState.canGrantShared, he]
    | some holder =>
      have := hall holder ((h.exclusive holder).mp he)
      simp [LockState.canGrantShared, he, this]

theorem canGrantExclusive_iff (h : state.Records granted) (txId : Nat) :
    state.canGrantExclusive txId = true ↔
      ∀ holder held, granted holder = some held → holder = txId := by
  constructor
  · intro hc holder held hg
    have hs : state.holds holder = true := (h.holds holder).mpr (by simp [hg])
    have halone := h.alone txId
    simp only [LockState.canGrantExclusive, Bool.or_eq_true, Bool.and_eq_true,
      Option.isNone_iff_eq_none, decide_eq_true_eq] at hc
    rw [LockState.holds_iff] at hs
    rcases hc with (⟨hn, he⟩ | ⟨⟨hn, hcard⟩, hmem⟩) | he
    · simp [hn, he] at hs
    · rw [hn] at hs
      obtain ⟨only, honly⟩ := Finset.card_eq_one.mp hcard
      simp_all
    · exact halone he holder (LockState.holds_iff.mpr hs)
  · intro hall
    have hholds (holder : Nat) (hs : state.holds holder = true) : holder = txId := by
      obtain ⟨held, hg⟩ := h.granted_of_holds hs
      exact hall holder held hg
    cases he : state.exclusiveHolder with
    | some holder =>
      have := hholds holder (LockState.holds_iff.mpr (.inr he))
      simp [LockState.canGrantExclusive, he, this]
    | none =>
      have hsub : state.sharedHolders ⊆ {txId} := fun holder hm =>
        Finset.mem_singleton.mpr (hholds holder (LockState.holds_iff.mpr (.inl hm)))
      rcases Finset.subset_singleton_iff.mp hsub with hs | hs
      · simp [LockState.canGrantExclusive, he, hs]
      · simp [LockState.canGrantExclusive, he, hs]

theorem addShared (h : state.Records granted) {txId : Nat}
    (hc : state.canGrantShared txId = true) :
    (state.addShared txId).Records fun holder =>
      if holder = txId then
        if granted holder = some .exclusive then some .exclusive else some .shared
      else granted holder where
  exclusive holder := by
    have := h.exclusive holder
    grind [LockState.addShared]
  holds holder := by
    have := h.holds holder
    have := h.exclusive holder
    grind [LockState.addShared, LockState.holds_iff]
  alone holder he other ho := by
    rw [h.canGrantShared_iff] at hc
    have heq := hc holder ((h.exclusive holder).mp he)
    have := h.alone holder he other
    grind [LockState.addShared, LockState.holds_iff]

theorem makeExclusive (h : state.Records granted) {txId : Nat}
    (hc : state.canGrantExclusive txId = true) :
    (state.makeExclusive txId).Records fun holder =>
      if holder = txId then
        if granted holder = some .exclusive then some .exclusive else some .exclusive
      else granted holder := by
  rw [h.canGrantExclusive_iff] at hc
  have hnone (holder : Nat) (hne : holder ≠ txId) : granted holder = none := by
    cases hg : granted holder with
    | none => rfl
    | some held => exact absurd (hc holder held hg) hne
  have hshared (holder : Nat) (hm : holder ∈ state.sharedHolders) : holder = txId := by
    obtain ⟨held, hg⟩ := h.granted_of_holds (LockState.holds_iff.mpr (.inl hm))
    exact hc holder held hg
  refine ⟨fun holder => ?_, fun holder => ?_, fun holder he other ho => ?_⟩
  · have := hnone holder
    grind [LockState.makeExclusive]
  · have := hnone holder
    have := hshared holder
    grind [LockState.makeExclusive, LockState.holds_iff]
  · have := hshared other
    grind [LockState.makeExclusive, LockState.holds_iff]

theorem taken (h : state.Records granted) {txId : Nat} {lockType : LockType}
    (hc : LockManager.canGrant state txId lockType = true) :
    (LockManager.taken state txId lockType).Records fun holder =>
      if holder = txId then
        if granted holder = some .exclusive then some .exclusive else some lockType
      else granted holder := by
  cases lockType with
  | shared => exact h.addShared hc
  | exclusive => exact h.makeExclusive hc

end LockState.Records

namespace LockRun

/-- Every resource is locked as the history of the calls says. -/
def Recorded (run : LockRun) : Prop :=
  ∀ resource, (run.manager.state resource).Records (run.granted resource)

theorem start_recorded : start.Recorded := by
  intro resource
  rw [start, LockManager.state_new]
  exact .start

theorem Recorded.canGrant_iff {run : LockRun} (h : run.Recorded) (resource : String) (txId : Nat)
    (lockType : LockType) :
    LockManager.canGrant (run.manager.state resource) txId lockType = true ↔
      ¬ run.granted.Conflict resource txId lockType := by
  cases lockType with
  | shared =>
    refine ((h resource).canGrantShared_iff txId).trans ⟨?_, ?_⟩
    · rintro hall ⟨holder, held, hne, hg, he | he⟩
      · exact hne (hall holder (he ▸ hg))
      · cases he
    · intro hno holder hg
      by_contra hne
      exact hno ⟨holder, .exclusive, hne, hg, .inl rfl⟩
  | exclusive =>
    refine ((h resource).canGrantExclusive_iff txId).trans ⟨?_, ?_⟩
    · rintro hall ⟨holder, held, hne, hg, -⟩
      exact hne (hall holder held hg)
    · intro hno holder held hg
      by_contra hne
      exact hno ⟨holder, held, hne, hg, .inr rfl⟩

theorem Recorded.perform {run : LockRun} (h : run.Recorded) (call : LockCall) :
    (run.perform call).Recorded := by
  intro other
  cases call with
  | acquire resource txId lockType =>
    cases hc : LockManager.canGrant (run.manager.state resource) txId lockType with
    | false =>
      obtain ⟨error, he⟩ := LockManager.acquire_refused hc
      simpa [LockRun.perform, LockManager.perform, he, Granted.record] using h other
    | true =>
      simp only [LockRun.perform, LockManager.perform, LockManager.acquire_granted hc,
        Granted.record, LockManager.state_insert]
      by_cases he : resource = other
      · subst he
        rw [if_pos rfl, Granted.grant_self]
        exact (h resource).taken hc
      · rw [if_neg he, Granted.grant_of_ne _ _ _ (Ne.symm he)]
        exact h other
  | release resource txId =>
    simp only [LockRun.perform, LockManager.perform, Granted.record, LockManager.state_release]
    by_cases he : resource = other
    · subst he
      simpa using (h resource).withdraw txId
    · simpa [he, Ne.symm he] using h other
  | releaseAll txId =>
    simp only [LockRun.perform, LockManager.perform, Granted.record, LockManager.state_releaseAll]
    exact (h other).withdraw txId

theorem Recorded.performAll {run : LockRun} (h : run.Recorded) (calls : List LockCall) :
    (run.performAll calls).Recorded := by
  induction calls generalizing run with
  | nil => exact h
  | cons call calls ih => exact ih (h.perform call)

/-- An exclusive lock is gone only by a release of the transaction that holds it. -/
theorem exclusive_perform {run : LockRun} {resource : String} {txId : Nat} {call : LockCall}
    (h : run.granted resource txId = some .exclusive) (hr : ¬ call.Releases resource txId) :
    (run.perform call).granted resource txId = some .exclusive := by
  cases call with
  | acquire name holder lockType =>
    cases ha : (run.manager.acquire name holder lockType).2 with
    | error error => simp [LockRun.perform, LockManager.perform, ha, Granted.record, h]
    | ok _ => simp [LockRun.perform, LockManager.perform, ha, Granted.record, Granted.grant, h]
  | release name holder =>
    have : ¬ (resource = name ∧ txId = holder) := fun ⟨hn, ht⟩ => hr ⟨hn.symm, ht.symm⟩
    simp [LockRun.perform, LockManager.perform, Granted.record, h, this]
  | releaseAll holder =>
    have : txId ≠ holder := fun ht => hr ht.symm
    simp [LockRun.perform, LockManager.perform, Granted.record, h, this]

theorem exclusive_performAll {run : LockRun} {resource : String} {txId : Nat}
    {calls : List LockCall} (h : run.granted resource txId = some .exclusive)
    (hr : ∀ call ∈ calls, ¬ call.Releases resource txId) :
    (run.performAll calls).granted resource txId = some .exclusive := by
  induction calls generalizing run with
  | nil => exact h
  | cons call calls ih =>
    exact ih (exclusive_perform h (hr call List.mem_cons_self))
      fun later hl => hr later (List.mem_cons_of_mem call hl)

/-- What a caller may rely on. -/
structure Safe (run : LockRun) : Prop where
  exclusion : ∀ resource txId, run.manager.holdsExclusive resource txId = true →
    ∀ holder, run.manager.holdsLock resource holder = true → holder = txId
  holdsLock : ∀ resource txId, run.manager.holdsLock resource txId = true ↔
    (run.granted resource txId).isSome
  holdsExclusive : ∀ resource txId, run.manager.holdsExclusive resource txId = true ↔
    run.granted resource txId = some .exclusive
  lockedResources : ∀ resource txId, resource ∈ run.manager.getLockedResources txId ↔
    (run.granted resource txId).isSome
  listedOnce : ∀ txId, (run.manager.getLockedResources txId).Nodup
  refused : ∀ resource txId lockType manager error,
    run.manager.acquire resource txId lockType = (manager, .error error) →
      manager = run.manager ∧ run.granted.Conflict resource txId lockType
  conflicting : ∀ resource txId lockType, run.granted.Conflict resource txId lockType →
    ∃ error, run.manager.acquire resource txId lockType = (run.manager, .error error)
  kept : ∀ resource txId calls, run.granted resource txId = some .exclusive →
    (∀ call ∈ calls, ¬ call.Releases resource txId) →
      (run.performAll calls).manager.holdsExclusive resource txId = true

theorem Recorded.safe {run : LockRun} (h : run.Recorded) : run.Safe where
  exclusion resource txId he holder hs := by
    rw [LockManager.holdsExclusive_eq, decide_eq_true_eq] at he
    rw [LockManager.holdsLock_eq] at hs
    exact (h resource).alone txId he holder hs
  holdsLock resource txId := by
    rw [LockManager.holdsLock_eq]
    exact (h resource).holds txId
  holdsExclusive resource txId := by
    rw [LockManager.holdsExclusive_eq, decide_eq_true_eq]
    exact (h resource).exclusive txId
  lockedResources resource txId := by
    rw [LockManager.mem_getLockedResources, LockManager.holdsLock_eq]
    exact (h resource).holds txId
  listedOnce txId := run.manager.nodup_getLockedResources txId
  refused resource txId lockType manager error hacq := by
    cases hc : LockManager.canGrant (run.manager.state resource) txId lockType with
    | true => simp [LockManager.acquire_granted hc] at hacq
    | false =>
      obtain ⟨error, he⟩ := LockManager.acquire_refused hc
      rw [he] at hacq
      refine ⟨(congrArg Prod.fst hacq).symm, ?_⟩
      by_contra hno
      rw [(h.canGrant_iff resource txId lockType).mpr hno] at hc
      cases hc
  conflicting resource txId lockType hconf := by
    refine LockManager.acquire_refused (Bool.eq_false_iff.mpr fun hc => ?_)
    exact (h.canGrant_iff resource txId lockType).mp hc hconf
  kept resource txId calls hg hr := by
    rw [LockManager.holdsExclusive_eq, decide_eq_true_eq]
    exact ((h.performAll calls) resource |>.exclusive txId).mpr (exclusive_performAll hg hr)

/-- Whatever the calls and their order. -/
theorem performAll_safe (calls : List LockCall) : (start.performAll calls).Safe :=
  (start_recorded.performAll calls).safe

end LockRun
end Cynos.Storage
