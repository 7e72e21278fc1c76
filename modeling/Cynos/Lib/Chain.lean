import Mathlib.Data.List.Basic

/-! Doubly linked segments of a node store, seen through the two link functions. -/
namespace Cynos.Chain

/-- `Linked next prev p ids q`: the nodes `ids` are linked in this order, the first
one points back to `p` and the last one points on to `q`. -/
def Linked (next prev : α → Option α) : Option α → List α → Option α → Prop
  | _, [], _ => True
  | p, x :: xs, q =>
    prev x = p ∧ next x = (xs.head?.or q) ∧ Linked next prev (some x) xs q

section

variable {next prev next' prev' : α → Option α} {p q : Option α}

@[simp] theorem linked_nil : Linked next prev p [] q := trivial

theorem linked_cons {x : α} {xs : List α} :
    Linked next prev p (x :: xs) q ↔
      prev x = p ∧ next x = (xs.head?.or q) ∧ Linked next prev (some x) xs q := Iff.rfl

theorem linked_append {xs ys : List α} :
    Linked next prev p (xs ++ ys) q ↔
      Linked next prev p xs (ys.head?.or q) ∧
        Linked next prev (xs.getLast?.or p) ys q := by
  induction xs generalizing p with
  | nil => simp
  | cons x xs ih =>
    have hlast : (x :: xs).getLast?.or p = xs.getLast?.or (some x) := by
      rw [List.getLast?_cons]
      cases xs.getLast? <;> rfl
    have hhead : (xs ++ ys).head?.or q = xs.head?.or (ys.head?.or q) := by
      rw [List.head?_append, Option.or_assoc]
    simp only [List.cons_append, linked_cons, ih, hlast, hhead, and_assoc]

theorem linked_congr {xs : List α} (hnext : ∀ x ∈ xs, next' x = next x)
    (hprev : ∀ x ∈ xs, prev' x = prev x) :
    Linked next' prev' p xs q ↔ Linked next prev p xs q := by
  induction xs generalizing p with
  | nil => simp
  | cons x xs ih =>
    rw [linked_cons, linked_cons, hnext x (by simp), hprev x (by simp),
      ih (fun y hy => hnext y (by simp [hy])) (fun y hy => hprev y (by simp [hy]))]

/-- The links of the one element `x` between two segments. -/
theorem linked_middle {xs ys : List α} {x : α} :
    Linked next prev p (xs ++ x :: ys) q ↔
      Linked next prev p xs (some x) ∧ prev x = xs.getLast?.or p ∧
        next x = ys.head?.or q ∧ Linked next prev (some x) ys q := by
  rw [linked_append, linked_cons]
  simp

/-- The new element `y` enters behind `x`. -/
theorem linked_insert {xs ys : List α} {x y : α} (h : Linked next prev p (xs ++ x :: ys) q)
    (hnext : ∀ z ∈ xs ++ ys, next' z = next z) (hx : next' x = some y) (hy : next' y = next x)
    (hprev : ∀ z ∈ xs ++ x :: ys.tail, prev' z = prev z) (hy' : prev' y = some x)
    (hhead : ∀ z, ys.head? = some z → prev' z = some y) :
    Linked next' prev' p (xs ++ x :: y :: ys) q := by
  obtain ⟨hxs, hp, hn, hys⟩ := linked_middle.mp h
  refine linked_middle.mpr ⟨?_, ?_, by simpa using hx, hy', by rw [hy, hn], ?_⟩
  · exact (linked_congr (fun z hz => hnext z (by simp [hz]))
      fun z hz => hprev z (by simp [hz])).mpr hxs
  · rw [hprev x (by simp), hp]
  · cases ys with
    | nil => exact trivial
    | cons z zs =>
      obtain ⟨_, hnz, hzs⟩ := hys
      refine ⟨hhead z rfl, by rw [hnext z (by simp), hnz], ?_⟩
      exact (linked_congr (fun w hw => hnext w (by simp [hw]))
        fun w hw => hprev w (by simp [hw])).mpr hzs

/-- The element `y` behind `x` leaves. -/
theorem linked_remove {xs ys : List α} {x y : α}
    (h : Linked next prev p (xs ++ x :: y :: ys) q)
    (hnext : ∀ z ∈ xs ++ ys, next' z = next z) (hx : next' x = next y)
    (hprev : ∀ z ∈ xs ++ x :: ys.tail, prev' z = prev z)
    (hhead : ∀ z, ys.head? = some z → prev' z = some x) :
    Linked next' prev' p (xs ++ x :: ys) q := by
  obtain ⟨hxs, hp, _, _, hn, hys⟩ := linked_middle.mp h
  refine linked_middle.mpr ⟨?_, ?_, by rw [hx, hn], ?_⟩
  · exact (linked_congr (fun z hz => hnext z (by simp [hz]))
      fun z hz => hprev z (by simp [hz])).mpr hxs
  · rw [hprev x (by simp), hp]
  · cases ys with
    | nil => exact trivial
    | cons z zs =>
      obtain ⟨_, hnz, hzs⟩ := hys
      refine ⟨hhead z rfl, by rw [hnext z (by simp), hnz], ?_⟩
      exact (linked_congr (fun w hw => hnext w (by simp [hw]))
        fun w hw => hprev w (by simp [hw])).mpr hzs

/-- What the links of one element of a segment say. -/
theorem linked_at {xs ys : List α} {x : α} (h : Linked next prev p (xs ++ x :: ys) q) :
    prev x = xs.getLast?.or p ∧ next x = ys.head?.or q :=
  ⟨(linked_middle.mp h).2.1, (linked_middle.mp h).2.2.1⟩

end

end Cynos.Chain
