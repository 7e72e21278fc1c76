import Mathlib.Data.List.Sort

/-! Strictly increasing lists: sets as sorted arrays without repetitions. -/
namespace Cynos

variable {A : Type*} [LinearOrder A]

abbrev Ascending (xs : List A) : Prop := xs.Pairwise (· < ·)

namespace Ascending

variable {a : A} {xs ys : List A}

theorem eq_of_mem_iff (hx : Ascending xs) (hy : Ascending ys) (h : ∀ a, a ∈ xs ↔ a ∈ ys) :
    xs = ys :=
  List.Pairwise.eq_of_mem_iff hx hy h

theorem append_singleton (h : Ascending xs) (hlt : ∀ x ∈ xs, x < a) : Ascending (xs ++ [a]) :=
  List.pairwise_append.mpr ⟨h, List.pairwise_singleton .., by simpa using hlt⟩

/-- An ascending list has its greatest element last. -/
theorem le_getLast (h : Ascending xs) {last : A} (hlast : xs.getLast? = some last) :
    ∀ x ∈ xs, x ≤ last := by
  obtain ⟨init, rfl⟩ := List.getLast?_eq_some_iff.mp hlast
  intro x hx
  rcases List.mem_append.mp hx with hx | hx
  · exact ((List.pairwise_append.mp h).2.2 x hx last (by simp)).le
  · exact (List.mem_singleton.mp hx).le

section Merge

/-- Both lists in order, elements of both once. -/
def union : List A → List A → List A
  | [], ys => ys
  | xs, [] => xs
  | x :: xs, y :: ys =>
    if x < y then x :: union xs (y :: ys)
    else if y < x then y :: union (x :: xs) ys
    else x :: union xs ys
termination_by xs ys => xs.length + ys.length

/-- The elements of both lists, in order. -/
def inter : List A → List A → List A
  | [], _ => []
  | _, [] => []
  | x :: xs, y :: ys =>
    if x < y then inter xs (y :: ys)
    else if y < x then inter (x :: xs) ys
    else x :: inter xs ys
termination_by xs ys => xs.length + ys.length

theorem mem_union : a ∈ union xs ys ↔ a ∈ xs ∨ a ∈ ys := by
  induction xs, ys using union.induct with
  | case1 ys => simp [union]
  | case2 xs => cases xs <;> simp [union]
  | case3 x xs y ys hlt ih => rw [union, if_pos hlt, List.mem_cons, ih]; simp [or_assoc]
  | case4 x xs y ys hlt hgt ih =>
    rw [union, if_neg hlt, if_pos hgt, List.mem_cons, ih]
    simp only [List.mem_cons]
    tauto
  | case5 x xs y ys hlt hgt ih =>
    obtain rfl : x = y := le_antisymm (not_lt.mp hgt) (not_lt.mp hlt)
    rw [union, if_neg hlt, if_neg hgt, List.mem_cons, ih]
    simp only [List.mem_cons]
    tauto

theorem union_ascending (hx : Ascending xs) (hy : Ascending ys) : Ascending (union xs ys) := by
  induction xs, ys using union.induct with
  | case1 ys => rwa [union]
  | case2 xs =>
    cases xs with
    | nil => simp [union]
    | cons x xs => simpa [union] using hx
  | case3 x xs y ys hlt ih =>
    rw [union, if_pos hlt]
    refine (ih hx.of_cons hy).cons fun a ha => ?_
    rcases mem_union.mp ha with ha | ha
    · exact List.rel_of_pairwise_cons hx ha
    · exact (List.mem_cons.mp ha).elim (· ▸ hlt)
        fun ha => hlt.trans (List.rel_of_pairwise_cons hy ha)
  | case4 x xs y ys hlt hgt ih =>
    rw [union, if_neg hlt, if_pos hgt]
    refine (ih hx hy.of_cons).cons fun a ha => ?_
    rcases mem_union.mp ha with ha | ha
    · exact (List.mem_cons.mp ha).elim (· ▸ hgt)
        fun ha => hgt.trans (List.rel_of_pairwise_cons hx ha)
    · exact List.rel_of_pairwise_cons hy ha
  | case5 x xs y ys hlt hgt ih =>
    obtain rfl : x = y := le_antisymm (not_lt.mp hgt) (not_lt.mp hlt)
    rw [union, if_neg hlt, if_neg hgt]
    refine (ih hx.of_cons hy.of_cons).cons fun a ha => ?_
    exact (mem_union.mp ha).elim (List.rel_of_pairwise_cons hx) (List.rel_of_pairwise_cons hy)

theorem mem_inter (hx : Ascending xs) (hy : Ascending ys) :
    a ∈ inter xs ys ↔ a ∈ xs ∧ a ∈ ys := by
  induction xs, ys using inter.induct with
  | case1 ys => simp [inter]
  | case2 xs => cases xs <;> simp [inter]
  | case3 x xs y ys hlt ih =>
    have hout : x ∉ y :: ys := fun hmem =>
      (List.mem_cons.mp hmem).elim (fun h => hlt.ne h)
        fun hmem => (hlt.trans (List.rel_of_pairwise_cons hy hmem)).false
    rw [inter, if_pos hlt, ih hx.of_cons hy, List.mem_cons (a := a) (b := x)]
    exact ⟨fun h => ⟨.inr h.1, h.2⟩, fun h => ⟨h.1.resolve_left fun heq => hout (heq ▸ h.2), h.2⟩⟩
  | case4 x xs y ys hlt hgt ih =>
    have hout : y ∉ x :: xs := fun hmem =>
      (List.mem_cons.mp hmem).elim (fun h => hgt.ne h)
        fun hmem => (hgt.trans (List.rel_of_pairwise_cons hx hmem)).false
    rw [inter, if_neg hlt, if_pos hgt, ih hx hy.of_cons, List.mem_cons (a := a) (b := y)]
    exact ⟨fun h => ⟨h.1, .inr h.2⟩, fun h => ⟨h.1, h.2.resolve_left fun heq => hout (heq ▸ h.1)⟩⟩
  | case5 x xs y ys hlt hgt ih =>
    obtain rfl : x = y := le_antisymm (not_lt.mp hgt) (not_lt.mp hlt)
    have houtx : x ∉ xs := fun hmem => (List.rel_of_pairwise_cons hx hmem).false
    rw [inter, if_neg hlt, if_neg hgt, List.mem_cons, ih hx.of_cons hy.of_cons]
    simp only [List.mem_cons]
    tauto

theorem inter_sublist : (inter xs ys).Sublist xs := by
  induction xs, ys using inter.induct with
  | case1 ys => simp [inter]
  | case2 xs => cases xs <;> simp [inter]
  | case3 x xs y ys hlt ih =>
    rw [inter, if_pos hlt]
    exact ih.cons x
  | case4 x xs y ys hlt hgt ih =>
    rw [inter, if_neg hlt, if_pos hgt]
    exact ih
  | case5 x xs y ys hlt hgt ih =>
    rw [inter, if_neg hlt, if_neg hgt]
    exact ih.cons_cons x

end Merge

section Dedup

/-- Leaves one of equal neighbours. -/
def dedup : List A → List A
  | [] => []
  | [a] => [a]
  | a :: b :: rest => if a = b then dedup (b :: rest) else a :: dedup (b :: rest)

theorem mem_dedup : a ∈ dedup xs ↔ a ∈ xs := by
  induction xs using dedup.induct with
  | case1 => rfl
  | case2 x => rfl
  | case3 x rest ih => rw [dedup, if_pos rfl, ih]; simp
  | case4 x y rest hne ih =>
    rw [dedup, if_neg hne, List.mem_cons, ih, List.mem_cons (a := a) (b := x)]

theorem dedup_ascending (h : xs.Pairwise (· ≤ ·)) : Ascending (dedup xs) := by
  induction xs using dedup.induct with
  | case1 => exact .nil
  | case2 x => exact List.pairwise_singleton ..
  | case3 x rest ih =>
    rw [dedup, if_pos rfl]
    exact ih h.of_cons
  | case4 x y rest hne ih =>
    rw [dedup, if_neg hne]
    refine (ih h.of_cons).cons fun a ha => ?_
    have hxy : x < y := lt_of_le_of_ne (List.rel_of_pairwise_cons h (by simp)) hne
    rcases List.mem_cons.mp (mem_dedup.mp ha) with rfl | ha
    · exact hxy
    · exact hxy.trans_le (List.rel_of_pairwise_cons h.of_cons ha)

end Dedup

end Ascending

end Cynos
