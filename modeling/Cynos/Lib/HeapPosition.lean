import Mathlib.Algebra.Order.Ring.Nat
import Mathlib.Data.List.Induction

/-! Positions of the nodes of a binary tree in the order of a heap, and what is left of
them in words of a fixed width. A node is the path to it, `true` is right. -/
namespace Cynos.HeapPosition

def child (parent : Nat) (right : Bool) : Nat := 2 * parent + if right then 2 else 1

def position (path : List Bool) : Nat := path.foldl child 0

section Positions

@[simp] theorem position_nil : position [] = 0 := rfl

@[simp] theorem position_snoc (path : List Bool) (right : Bool) :
    position (path ++ [right]) = child (position path) right := by
  simp [position]

/-- The positions of one depth lie between two powers of two. -/
theorem position_bounds (path : List Bool) :
    2 ^ path.length ≤ position path + 1 ∧ position path + 1 < 2 ^ (path.length + 1) := by
  induction path using List.reverseRecOn with
  | nil => simp
  | append_singleton path right ih =>
    rw [position_snoc, List.length_append, List.length_singleton, child]
    simp only [pow_succ] at ih ⊢
    cases right <;> simp only [Bool.false_eq_true, if_false, if_true] <;> omega

theorem child_injective {parent other : Nat} {right right' : Bool}
    (h : child parent right = child other right') : parent = other ∧ right = right' := by
  unfold child at h
  cases right <;> cases right' <;> simp at h ⊢ <;> omega

theorem position_injective : Function.Injective position := by
  intro path
  induction path using List.reverseRecOn with
  | nil =>
    intro other h
    cases other using List.reverseRecOn with
    | nil => rfl
    | append_singleton other right =>
      rw [position_nil, position_snoc, child] at h
      split at h <;> omega
  | append_singleton path right ih =>
    intro other h
    cases other using List.reverseRecOn with
    | nil =>
      rw [position_nil, position_snoc, child] at h
      split at h <;> omega
    | append_singleton other right' =>
      rw [position_snoc, position_snoc] at h
      obtain ⟨hp, rfl⟩ := child_injective h
      rw [ih hp]

end Positions

section Saturation

/-- The nearest number a word of `bits` bits can hold. -/
def saturated (bits n : Nat) : Nat := min n (2 ^ bits - 1)

/-- Multiplication by two and addition may stop at the greatest word one by one. -/
theorem saturated_child (bits n : Nat) (right : Bool) :
    saturated bits (saturated bits (saturated bits n * 2) + if right then 2 else 1) =
      saturated bits (child n right) := by
  unfold saturated child
  split <;> omega

/-- A position fits below the greatest word when its node is less deep than the word is wide. -/
theorem saturated_position (bits : Nat) (path : List Bool) :
    saturated bits (position path) =
      if bits ≤ path.length then 2 ^ bits - 1 else position path := by
  obtain ⟨hlow, hhigh⟩ := position_bounds path
  unfold saturated
  split
  · rename_i h
    have := Nat.pow_le_pow_right (show 0 < 2 by decide) h
    omega
  · rename_i h
    have := Nat.pow_le_pow_right (show 0 < 2 by decide) (Nat.not_le.mp h)
    simp only [Nat.succ_eq_add_one] at this
    omega

theorem saturated_position_lt {bits : Nat} {path : List Bool} (h : path.length < bits) :
    position path < 2 ^ bits - 1 := by
  obtain ⟨-, hhigh⟩ := position_bounds path
  have := Nat.pow_le_pow_right (show 0 < 2 by decide) (Nat.succ_le_of_lt h)
  simp only [Nat.succ_eq_add_one] at this
  omega

theorem saturated_position_eq_iff {bits : Nat} {path other : List Bool} (hne : path ≠ other) :
    saturated bits (position path) = saturated bits (position other) ↔
      bits ≤ path.length ∧ bits ≤ other.length := by
  rw [saturated_position, saturated_position]
  by_cases hp : bits ≤ path.length
  · by_cases ho : bits ≤ other.length
    · simp [hp, ho]
    · have := saturated_position_lt (Nat.not_le.mp ho)
      rw [if_pos hp, if_neg ho]
      exact ⟨fun h => absurd h this.ne', fun h => absurd h.2 ho⟩
  · by_cases ho : bits ≤ other.length
    · have := saturated_position_lt (Nat.not_le.mp hp)
      rw [if_pos ho, if_neg hp]
      exact ⟨fun h => absurd h this.ne, fun h => absurd h.1 hp⟩
    · simpa [hp, ho] using fun h => hne (position_injective h)

/-- Images collide exactly where `p` holds of both elements. -/
theorem nodup_map_iff_countP {A B : Type} {f : A → B} {p : A → Bool} {l : List A} (hl : l.Nodup)
    (hf : ∀ a ∈ l, ∀ b ∈ l, a ≠ b → (f a = f b ↔ p a ∧ p b)) :
    (l.map f).Nodup ↔ l.countP p ≤ 1 := by
  induction l with
  | nil => simp
  | cons a l ih =>
    rw [List.nodup_cons] at hl
    have ih := ih hl.2 fun a ha b hb =>
      hf a (List.mem_cons_of_mem _ ha) b (List.mem_cons_of_mem _ hb)
    have hmem : f a ∈ l.map f ↔ p a = true ∧ 0 < l.countP p := by
      rw [List.mem_map, List.countP_pos_iff]
      constructor
      · rintro ⟨b, hb, he⟩
        have hne : a ≠ b := fun h => hl.1 (h ▸ hb)
        have := (hf a List.mem_cons_self b (List.mem_cons_of_mem _ hb) hne).mp he.symm
        exact ⟨this.1, b, hb, this.2⟩
      · rintro ⟨ha, b, hb, hpb⟩
        have hne : a ≠ b := fun h => hl.1 (h ▸ hb)
        exact ⟨b, hb, ((hf a List.mem_cons_self b (List.mem_cons_of_mem _ hb) hne).mpr
          ⟨ha, hpb⟩).symm⟩
    rw [List.map_cons, List.nodup_cons, ih, hmem, List.countP_cons]
    by_cases ha : p a = true
    · simp only [ha, true_and, if_true]
      omega
    · simp [ha]

theorem nodup_saturated_iff (bits : Nat) {paths : List (List Bool)} (h : paths.Nodup) :
    (paths.map fun path => saturated bits (position path)).Nodup ↔
      paths.countP (fun path => bits ≤ path.length) ≤ 1 :=
  nodup_map_iff_countP h fun _ _ _ _ hne => by
    simpa using saturated_position_eq_iff hne

end Saturation

end Cynos.HeapPosition
