import Mathlib.Data.List.Nodup
import Mathlib.Logic.Function.Basic

/-! Values kept in slots: a vector whose places are used again, a map from keys to places, and
the list of places that are free. -/
namespace Cynos

structure SlotMap (K A : Type*) where
  slots : List (Option A)
  slotOf : K → Option Nat
  free : List Nat

namespace SlotMap

variable {K A : Type*}

section Operations

def empty : SlotMap K A := ⟨[], fun _ => none, []⟩

def lookup (s : SlotMap K A) (k : K) : Option A := (s.slotOf k).bind fun i => s.slots[i]?.join

def values (s : SlotMap K A) : List A := s.slots.filterMap id

/-- A value in a place that is occupied already. -/
def replace (s : SlotMap K A) (i : Nat) (a : A) : SlotMap K A :=
  { s with slots := s.slots.set i (some a) }

variable [DecidableEq K]

/-- A new place at the end. -/
def append (s : SlotMap K A) (k : K) (a : A) : SlotMap K A :=
  ⟨s.slots ++ [some a], Function.update s.slotOf k (some s.slots.length), s.free⟩

/-- The place a new value gets. -/
def nextSlot (s : SlotMap K A) : Nat := s.free.headD s.slots.length

def insert (s : SlotMap K A) (k : K) (a : A) : SlotMap K A :=
  match s.free with
  | i :: free => ⟨s.slots.set i (some a), Function.update s.slotOf k (some i), free⟩
  | [] => s.append k a

def remove (s : SlotMap K A) (k : K) : SlotMap K A :=
  match s.slotOf k with
  | some i => ⟨s.slots.set i none, Function.update s.slotOf k none, i :: s.free⟩
  | none => s

def upsert (s : SlotMap K A) (k : K) (a : A) : SlotMap K A :=
  match s.slotOf k with
  | some i => s.replace i a
  | none => s.insert k a

end Operations

/-- The map names exactly the occupied places, each by the key of its value, and the free list
has exactly the others, each once. -/
structure Valid (keyOf : A → K) (s : SlotMap K A) : Prop where
  live : ∀ k i, s.slotOf k = some i ↔ ∃ a, s.slots[i]? = some (some a) ∧ keyOf a = k
  mem_free : ∀ i, i ∈ s.free ↔ s.slots[i]? = some none
  nodup_free : s.free.Nodup

variable {keyOf : A → K} {s : SlotMap K A}

theorem valid_empty : (empty : SlotMap K A).Valid keyOf where
  live k i := by simp [empty]
  mem_free i := by simp [empty]
  nodup_free := .nil

namespace Valid

variable (h : s.Valid keyOf)

include h

theorem slotOf_keyOf {i : Nat} {a : A} (ha : s.slots[i]? = some (some a)) :
    s.slotOf (keyOf a) = some i :=
  (h.live _ _).mpr ⟨a, ha, rfl⟩

theorem lookup_eq_some {k : K} {a : A} :
    s.lookup k = some a ↔ keyOf a = k ∧ ∃ i : Nat, s.slots[i]? = some (some a) := by
  unfold lookup
  constructor
  · intro hl
    obtain ⟨i, hi, hj⟩ := Option.bind_eq_some_iff.mp hl
    have hslot := Option.join_eq_some_iff.mp hj
    obtain ⟨b, hb, hk⟩ := (h.live k i).mp hi
    obtain rfl : b = a := by rw [hb] at hslot; simpa using hslot
    exact ⟨hk, i, hb⟩
  · rintro ⟨rfl, i, hi⟩
    rw [h.slotOf_keyOf hi, Option.bind_some, hi]
    rfl

theorem lookup_eq_none {k : K} : s.lookup k = none ↔ s.slotOf k = none := by
  unfold lookup
  cases hk : s.slotOf k with
  | none => simp
  | some i =>
    obtain ⟨a, ha, -⟩ := (h.live k i).mp hk
    simp [ha]

theorem mem_values {a : A} : a ∈ s.values ↔ s.lookup (keyOf a) = some a := by
  rw [h.lookup_eq_some, values, List.mem_filterMap]
  simp only [id_eq, exists_eq_right, true_and, List.mem_iff_getElem?]

theorem nodup_values : (s.values.map keyOf).Nodup := by
  rw [values, List.map_filterMap, List.Nodup, List.pairwise_filterMap, List.pairwise_iff_getElem]
  intro i j hi hj hij k hk k' hk' heq
  obtain ⟨a, ha, rfl⟩ := Option.map_eq_some_iff.mp hk
  obtain ⟨b, hb, rfl⟩ := Option.map_eq_some_iff.mp hk'
  have hi' := h.slotOf_keyOf ((List.getElem?_eq_getElem hi).trans (congrArg some ha))
  have hj' := h.slotOf_keyOf ((List.getElem?_eq_getElem hj).trans (congrArg some hb))
  rw [heq, hj'] at hi'
  exact Nat.ne_of_lt hij (Option.some.inj hi').symm

/-- A value may be exchanged for another one with its key. -/
theorem replace {i : Nat} {a b : A} (hb : s.slots[i]? = some (some b)) (hkey : keyOf a = keyOf b) :
    (s.replace i a).Valid keyOf where
  live k j := by
    obtain ⟨hi, -⟩ := List.getElem?_eq_some_iff.mp hb
    have := h.live k j
    have := h.live k i
    grind [SlotMap.replace]
  mem_free j := by
    obtain ⟨hi, -⟩ := List.getElem?_eq_some_iff.mp hb
    have := h.mem_free j
    grind [SlotMap.replace]
  nodup_free := h.nodup_free

theorem lookup_replace {i : Nat} {a b : A} (hb : s.slots[i]? = some (some b))
    (hkey : keyOf a = keyOf b) [DecidableEq K] (k : K) :
    (s.replace i a).lookup k = if k = keyOf a then some a else s.lookup k := by
  obtain ⟨hi, -⟩ := List.getElem?_eq_some_iff.mp hb
  have hslot := h.slotOf_keyOf hb
  by_cases hk : k = keyOf a
  · rw [if_pos hk, hk, (h.replace hb hkey).lookup_eq_some]
    exact ⟨rfl, i, by simp [SlotMap.replace, hi]⟩
  · rw [if_neg hk]
    unfold lookup
    change (s.slotOf k).bind (fun j => (s.slots.set i (some a))[j]?.join) = _
    cases hj : s.slotOf k with
    | none => rfl
    | some j =>
      have hne : i ≠ j := by
        rintro rfl
        obtain ⟨c, hc, rfl⟩ := (h.live k i).mp hj
        rw [hb] at hc
        obtain rfl : b = c := by simpa using hc
        exact hk hkey.symm
      rw [Option.bind_some, Option.bind_some, List.getElem?_set_ne hne]

/-- The place of a new value was free or does not exist yet. -/
theorem nextSlot_cases : s.slots[s.nextSlot]? = some none ∨ s.nextSlot = s.slots.length := by
  unfold nextSlot
  cases hfree : s.free with
  | nil => exact .inr rfl
  | cons i free => exact .inl ((h.mem_free i).mp (by simp [hfree]))

theorem ne_nextSlot {i : Nat} {a : A} (ha : s.slots[i]? = some (some a)) : i ≠ s.nextSlot := by
  rintro rfl
  rcases h.nextSlot_cases with hnext | hnext
  · simp [ha] at hnext
  · simp [hnext] at ha

variable [DecidableEq K]

theorem append {k : K} {a : A} (hk : s.slotOf k = none) (hkey : keyOf a = k) :
    (s.append k a).Valid keyOf where
  live k' j := by
    have := h.live k' j
    simp only [SlotMap.append, Function.update_apply]
    grind
  mem_free j := by
    have := h.mem_free j
    simp only [SlotMap.append]
    grind
  nodup_free := h.nodup_free

theorem insert {k : K} {a : A} (hk : s.slotOf k = none) (hkey : keyOf a = k) :
    (s.insert k a).Valid keyOf := by
  unfold SlotMap.insert
  cases hfree : s.free with
  | nil => exact h.append hk hkey
  | cons i free =>
    have hnodup := h.nodup_free
    have hi := (h.mem_free i).mp (by simp [hfree])
    rw [hfree, List.nodup_cons] at hnodup
    refine ⟨fun k' j => ?_, fun j => ?_, hnodup.2⟩
    · have := h.live k' j
      simp only [Function.update_apply]
      grind
    · have := h.mem_free j
      grind

theorem remove (k : K) : (s.remove k).Valid keyOf := by
  unfold SlotMap.remove
  cases hk : s.slotOf k with
  | none => exact h
  | some i =>
    obtain ⟨a, ha, hkey⟩ := (h.live k i).mp hk
    refine ⟨fun k' j => ?_, fun j => ?_, List.nodup_cons.mpr ⟨fun hi => ?_, h.nodup_free⟩⟩
    · have := h.live k' j
      have := h.live k' i
      simp only [Function.update_apply]
      grind
    · have := h.mem_free j
      grind
    · rw [h.mem_free, ha] at hi
      simp at hi

theorem upsert {k : K} {a : A} (hkey : keyOf a = k) : (s.upsert k a).Valid keyOf := by
  unfold SlotMap.upsert
  cases hk : s.slotOf k with
  | none => exact h.insert hk hkey
  | some i =>
    obtain ⟨b, hb, hb'⟩ := (h.live k i).mp hk
    exact h.replace hb (hkey.trans hb'.symm)

omit h [DecidableEq K] in
theorem slotOf_insert [DecidableEq K] (k : K) (a : A) :
    (s.insert k a).slotOf = Function.update s.slotOf k (some s.nextSlot) := by
  unfold SlotMap.insert nextSlot
  cases s.free <;> rfl

theorem getElem?_insert (k : K) (a : A) (j : Nat) :
    (s.insert k a).slots[j]? = if j = s.nextSlot then some (some a) else s.slots[j]? := by
  have hnext := h.nextSlot_cases
  unfold SlotMap.insert
  unfold nextSlot at hnext ⊢
  cases hfree : s.free with
  | nil =>
    simp only [hfree, List.headD_nil, SlotMap.append]
    grind
  | cons i free =>
    have hi := (h.mem_free i).mp (by simp [hfree])
    simp only [List.headD_cons]
    grind

theorem lookup_insert {k : K} (hk : s.slotOf k = none) {a : A} (hkey : keyOf a = k) (k' : K) :
    (s.insert k a).lookup k' = if k' = k then some a else s.lookup k' := by
  by_cases heq : k' = k
  · rw [if_pos heq, heq, (h.insert hk hkey).lookup_eq_some]
    exact ⟨hkey, s.nextSlot, by rw [h.getElem?_insert, if_pos rfl]⟩
  · rw [if_neg heq]
    unfold lookup
    rw [slotOf_insert, Function.update_of_ne heq]
    cases hj : s.slotOf k' with
    | none => rfl
    | some j =>
      obtain ⟨b, hb, -⟩ := (h.live k' j).mp hj
      rw [Option.bind_some, Option.bind_some, h.getElem?_insert, if_neg (h.ne_nextSlot hb)]

theorem lookup_upsert {k : K} {a : A} (hkey : keyOf a = k) (k' : K) :
    (s.upsert k a).lookup k' = if k' = k then some a else s.lookup k' := by
  unfold SlotMap.upsert
  cases hk : s.slotOf k with
  | none => exact h.lookup_insert hk hkey k'
  | some i =>
    obtain ⟨b, hb, hb'⟩ := (h.live k i).mp hk
    rw [h.lookup_replace hb (hkey.trans hb'.symm), hkey]

theorem lookup_remove (k k' : K) :
    (s.remove k).lookup k' = if k' = k then none else s.lookup k' := by
  have hvalid := h.remove k
  by_cases heq : k' = k
  · rw [if_pos heq, heq, hvalid.lookup_eq_none, SlotMap.remove]
    cases hk : s.slotOf k with
    | none => exact hk
    | some i => simp
  · rw [if_neg heq, SlotMap.remove]
    cases hk : s.slotOf k with
    | none => rfl
    | some i =>
      unfold lookup
      simp only [Function.update_of_ne heq]
      cases hj : s.slotOf k' with
      | none => rfl
      | some j =>
        have hne : i ≠ j := by
          rintro rfl
          obtain ⟨a, ha, rfl⟩ := (h.live k i).mp hk
          obtain ⟨b, hb, rfl⟩ := (h.live k' i).mp hj
          rw [ha] at hb
          simp only [Option.some.injEq] at hb
          exact heq (congrArg keyOf hb.symm)
        rw [Option.bind_some, Option.bind_some, List.getElem?_set_ne hne]

theorem lookup_append {k : K} (hk : s.slotOf k = none) {a : A} (hkey : keyOf a = k) (k' : K) :
    (s.append k a).lookup k' = if k' = k then some a else s.lookup k' := by
  by_cases heq : k' = k
  · rw [if_pos heq, heq, (h.append hk hkey).lookup_eq_some]
    exact ⟨hkey, s.slots.length, by simp [SlotMap.append]⟩
  · rw [if_neg heq]
    unfold lookup
    simp only [SlotMap.append, Function.update_of_ne heq]
    cases hj : s.slotOf k' with
    | none => rfl
    | some j =>
      obtain ⟨b, hb, -⟩ := (h.live k' j).mp hj
      obtain ⟨hlt, -⟩ := List.getElem?_eq_some_iff.mp hb
      rw [Option.bind_some, Option.bind_some, List.getElem?_append_left hlt]

end Valid
end SlotMap
end Cynos
