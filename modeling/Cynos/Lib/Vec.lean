import Mathlib.Data.List.Basic
import Mathlib.Data.List.Nodup
import Mathlib.Data.List.TakeWhile
import Mathlib.Order.Lattice

/-! Growable arrays as lists. An operation that would panic on an index out of
range returns `none`, so a run that reaches its end also shows that no index
was out of range. -/
namespace Cynos.Vec

def insertAt (xs : List α) (i : Nat) (a : α) : Option (List α) :=
  if i ≤ xs.length then some (xs.take i ++ a :: xs.drop i) else none

def removeAt (xs : List α) (i : Nat) : Option (List α) :=
  if i < xs.length then some (xs.take i ++ xs.drop (i + 1)) else none

def setAt (xs : List α) (i : Nat) (a : α) : Option (List α) :=
  if i < xs.length then some (xs.set i a) else none

def pop (xs : List α) : Option (α × List α) :=
  xs.getLast?.map fun last => (last, xs.dropLast)

def splitOff (xs : List α) (i : Nat) : Option (List α × List α) :=
  if i ≤ xs.length then some (xs.take i, xs.drop i) else none

/-- The last element takes the place of the removed one. -/
def swapRemove (xs : List α) (i : Nat) : Option (List α) :=
  match xs.getLast? with
  | some last => if i < xs.length then some ((xs.set i last).dropLast) else none
  | none => none

def resize (xs : List α) (n : Nat) (a : α) : List α :=
  xs.take n ++ List.replicate (n - xs.length) a

/-- Number of leading elements that satisfy `p`: on a list that `p` partitions,
the index where the second part starts. -/
def partitionPoint (xs : List α) (p : α → Bool) : Nat :=
  (xs.takeWhile p).length

@[simp] theorem insertAt_append (xs ys : List α) (a : α) :
    insertAt (xs ++ ys) xs.length a = some (xs ++ a :: ys) := by
  simp [insertAt]

theorem insertAt_append_of_eq {xs ys : List α} {i : Nat} (hi : i = xs.length) (a : α) :
    insertAt (xs ++ ys) i a = some (xs ++ a :: ys) := by
  rw [hi, insertAt_append]

@[simp] theorem removeAt_append (xs ys : List α) (a : α) :
    removeAt (xs ++ a :: ys) xs.length = some (xs ++ ys) := by
  simp [removeAt, List.drop_append]

theorem removeAt_append_of_eq {xs ys : List α} {i : Nat} (hi : i = xs.length) (a : α) :
    removeAt (xs ++ a :: ys) i = some (xs ++ ys) := by
  rw [hi, removeAt_append]

@[simp] theorem setAt_append (xs ys : List α) (a b : α) :
    setAt (xs ++ a :: ys) xs.length b = some (xs ++ b :: ys) := by
  simp [setAt]

theorem insertIdx_append (xs ys : List α) (a : α) :
    (xs ++ ys).insertIdx xs.length a = xs ++ a :: ys := by
  induction xs with
  | nil => rfl
  | cons x xs ih =>
    rw [List.cons_append, List.length_cons, List.insertIdx_succ_cons, ih, List.cons_append]

theorem modify_append (xs ys : List α) (a : α) (f : α → α) :
    (xs ++ a :: ys).modify xs.length f = xs ++ f a :: ys := by
  induction xs with
  | nil => rfl
  | cons x xs ih =>
    rw [List.cons_append, List.length_cons, List.modify_succ_cons, ih, List.cons_append]

theorem eraseIdx_append (xs ys : List α) (a : α) :
    (xs ++ a :: ys).eraseIdx xs.length = xs ++ ys := by
  rw [List.eraseIdx_append_of_length_le le_rfl, Nat.sub_self, List.eraseIdx_cons_zero]

@[simp] theorem pop_append (xs : List α) (a : α) :
    pop (xs ++ [a]) = some (a, xs) := by
  simp [pop]

theorem exists_concat {xs : List α} (h : 0 < xs.length) : ∃ init last, xs = init ++ [last] := by
  have hne : xs ≠ [] := List.length_pos_iff.mp h
  exact ⟨xs.dropLast, xs.getLast hne, (List.dropLast_append_getLast hne).symm⟩

theorem splitOff_of_le {xs : List α} {i : Nat} (hi : i ≤ xs.length) :
    splitOff xs i = some (xs.take i, xs.drop i) := by
  simp [splitOff, hi]

theorem swapRemove_last (init : List α) (last : α) :
    swapRemove (init ++ [last]) init.length = some init := by
  simp [swapRemove]

theorem swapRemove_of_lt {init : List α} {i : Nat} (hi : i < init.length) (last : α) :
    swapRemove (init ++ [last]) i = some (init.set i last) := by
  simp [swapRemove, List.set_append_left _ _ hi, Nat.lt_succ_of_lt hi]

theorem swapRemove_perm {xs : List α} {i : Nat} (hi : i < xs.length) :
    ∃ ys, swapRemove xs i = some ys ∧ (xs[i] :: ys).Perm xs := by
  obtain ⟨init, last, rfl⟩ := exists_concat (Nat.zero_lt_of_lt hi)
  simp only [List.length_append, List.length_cons, List.length_nil] at hi
  rcases Nat.lt_or_ge i init.length with hlt | hge
  · refine ⟨init.set i last, ?_, ?_⟩
    · exact swapRemove_of_lt hlt last
    · rw [List.getElem_append_left hlt]
      have hsplit := List.set_eq_take_append_cons_drop (l := init) (a := last) (i := i)
      rw [if_pos hlt] at hsplit
      have hinit : init = init.take i ++ init[i] :: init.drop (i + 1) := by simp
      rw [hsplit]
      conv => rhs; rw [hinit]
      have hmid : ∀ x, (init.take i ++ x :: init.drop (i + 1)).Perm
          (x :: (init.take i ++ init.drop (i + 1))) := fun x => List.perm_middle
      calc init[i] :: (init.take i ++ last :: init.drop (i + 1))
          |>.Perm (init[i] :: last :: (init.take i ++ init.drop (i + 1))) := (hmid last).cons _
        _ |>.Perm (last :: init[i] :: (init.take i ++ init.drop (i + 1))) := List.Perm.swap ..
        _ |>.Perm (last :: (init.take i ++ init[i] :: init.drop (i + 1))) := (hmid _).symm.cons _
        _ |>.Perm (init.take i ++ init[i] :: init.drop (i + 1) ++ [last]) :=
          (List.perm_append_singleton _ _).symm
  · have hi' : i = init.length := by omega
    subst hi'
    exact ⟨init, by simp [swapRemove], by simpa using (List.perm_append_singleton last init).symm⟩

/-- Where the elements are after one was removed. -/
theorem getElem?_swapRemove {xs : List α} {i : Nat} (hi : i < xs.length) :
    ∃ ys, swapRemove xs i = some ys ∧ ys.length + 1 = xs.length ∧
      ∀ j, ys[j]? = if j < ys.length then if j = i then xs[ys.length]? else xs[j]? else none := by
  obtain ⟨init, last, rfl⟩ := exists_concat (Nat.zero_lt_of_lt hi)
  rw [List.length_append, List.length_singleton] at hi
  rcases Nat.lt_or_ge i init.length with hlt | hge
  · refine ⟨_, swapRemove_of_lt hlt last, by simp, fun j => ?_⟩
    grind
  · obtain rfl : i = init.length := by omega
    refine ⟨_, swapRemove_last init last, by simp, fun j => ?_⟩
    grind

section Entries

variable {K A : Type*} {xs : List (K × A)} {i : Nat} {k : K} {a : A}

theorem map_fst_modify (xs : List (K × A)) (i : Nat) (a : A) :
    (xs.modify i fun e => (e.1, a)).map Prod.fst = xs.map Prod.fst := by
  refine List.ext_getElem? fun j => ?_
  rw [List.getElem?_map, List.getElem?_map, List.getElem?_modify]
  split <;> cases xs[j]? <;> rfl

/-- The entry of a key gets another value. -/
theorem mem_modify_entry [DecidableEq K] (h : (xs.map Prod.fst).Nodup)
    (hi : xs[i]? = some (k, a)) (b : A) (e : K × A) :
    (e ∈ xs.modify i fun e => (e.1, b)) ↔ if e.1 = k then e.2 = b else e ∈ xs := by
  have hmem : (k, a) ∈ xs := List.mem_of_getElem? hi
  have hentry : (xs.modify i fun e => (e.1, b))[i]? = some (k, b) := by
    rw [List.getElem?_modify, hi]
    simp
  have hother (j : Nat) (hj : i ≠ j) : (xs.modify i fun e => (e.1, b))[j]? = xs[j]? := by
    rw [List.getElem?_modify]
    simp [hj]
  split
  next hkey =>
    constructor
    · intro he
      have hnodup : ((xs.modify i fun e => (e.1, b)).map Prod.fst).Nodup := by
        rwa [map_fst_modify]
      exact congrArg Prod.snd
        (List.inj_on_of_nodup_map hnodup he (List.mem_of_getElem? hentry) hkey)
    · rintro rfl
      have he : e = (k, e.2) := Prod.ext hkey rfl
      exact he ▸ List.mem_of_getElem? hentry
  next hkey =>
    rw [List.mem_iff_getElem?, List.mem_iff_getElem?]
    refine exists_congr fun j => ?_
    by_cases hj : i = j
    · subst hj
      rw [hentry, hi]
      refine iff_of_false (fun heq => hkey ?_) (fun heq => hkey ?_)
      · rw [← Option.some.inj heq]
      · rw [← Option.some.inj heq]
    · rw [hother j hj]

/-- The entry of a key is taken out. -/
theorem swapRemove_entry (h : (xs.map Prod.fst).Nodup) (hi : xs[i]? = some (k, a)) :
    ∃ ys, swapRemove xs i = some ys ∧ (ys.map Prod.fst).Nodup ∧
      ∀ e, e ∈ ys ↔ e ∈ xs ∧ e.1 ≠ k := by
  obtain ⟨hlt, hget⟩ := List.getElem?_eq_some_iff.mp hi
  obtain ⟨ys, hys, hperm⟩ := swapRemove_perm hlt
  rw [hget] at hperm
  have hnodup := (hperm.map Prod.fst).nodup_iff.mpr h
  rw [List.map_cons, List.nodup_cons] at hnodup
  refine ⟨ys, hys, hnodup.2, fun e => ?_⟩
  rw [← hperm.mem_iff, List.mem_cons]
  constructor
  · intro he
    refine ⟨.inr he, fun hkey => hnodup.1 ?_⟩
    exact List.mem_map.mpr ⟨e, he, hkey⟩
  · rintro ⟨rfl | he, hkey⟩
    · exact absurd rfl hkey
    · exact he

end Entries

theorem idxOf?_append [BEq α] [LawfulBEq α] {xs ys : List α} {a : α} (ha : a ∉ xs) :
    (xs ++ a :: ys).idxOf? a = some xs.length := by
  induction xs with
  | nil => simp [List.idxOf?_cons]
  | cons x xs ih =>
    rw [List.mem_cons, not_or] at ha
    rw [List.cons_append, List.idxOf?_cons, if_neg (by simpa using Ne.symm ha.1), ih ha.2]
    rfl

theorem partitionPoint_le (xs : List α) (p : α → Bool) :
    partitionPoint xs p ≤ xs.length :=
  (List.takeWhile_prefix p).length_le

/-- The two parts of a partitioned list determine its partition point. -/
theorem partitionPoint_append {xs ys : List α} {p : α → Bool}
    (hxs : ∀ x ∈ xs, p x = true) (hys : ∀ y ∈ ys, p y = false) :
    partitionPoint (xs ++ ys) p = xs.length := by
  unfold partitionPoint
  rw [List.takeWhile_append_of_pos hxs]
  cases ys with
  | nil => simp
  | cons y ys => simp [hys y (by simp)]

section Order

variable [LinearOrder α]

/-- A strictly increasing list is partitioned by every downward closed property. -/
theorem split_sorted {xs : List α} (hs : xs.Pairwise (· < ·)) (p : α → Prop)
    (hp : ∀ x y, x < y → p y → p x) :
    ∃ lo hi, xs = lo ++ hi ∧ (∀ x ∈ lo, p x) ∧ (∀ y ∈ hi, ¬ p y) := by
  classical
  induction xs with
  | nil => exact ⟨[], [], by simp⟩
  | cons x xs ih =>
    have hx : ∀ y ∈ xs, x < y := fun y hy => List.rel_of_pairwise_cons hs hy
    by_cases h : p x
    · obtain ⟨lo, hi, rfl, hlo, hhi⟩ := ih (List.Pairwise.of_cons hs)
      exact ⟨x :: lo, hi, rfl, by simpa [h] using hlo, hhi⟩
    · refine ⟨[], x :: xs, rfl, by simp, ?_⟩
      intro y hy
      rcases List.mem_cons.mp hy with rfl | hy
      · exact h
      · exact fun hpy => h (hp _ _ (hx y hy) hpy)

theorem split_sorted_lt {xs : List α} (hs : xs.Pairwise (· < ·)) (a : α) :
    ∃ lo hi, xs = lo ++ hi ∧ (∀ x ∈ lo, x < a) ∧ (∀ y ∈ hi, a ≤ y) := by
  simpa using split_sorted hs (· < a) (fun x y h hy => h.trans hy)

theorem split_sorted_le {xs : List α} (hs : xs.Pairwise (· < ·)) (a : α) :
    ∃ lo hi, xs = lo ++ hi ∧ (∀ x ∈ lo, x ≤ a) ∧ (∀ y ∈ hi, a < y) := by
  simpa using split_sorted hs (· ≤ a) (fun x y h hy => h.le.trans hy)

end Order

/-- Relations between neighbours, checked pair by pair. -/
theorem isChain_of_zip_tail {R : α → α → Prop} {l : List α}
    (h : ∀ p ∈ l.zip l.tail, R p.1 p.2) : l.IsChain R := by
  induction l with
  | nil => exact .nil
  | cons x l ih =>
    cases l with
    | nil => exact .singleton x
    | cons y l => exact .cons_cons (h (x, y) (by simp)) (ih fun p hp => h p (by simp_all))

end Cynos.Vec
