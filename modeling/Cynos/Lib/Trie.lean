import Mathlib.Data.List.Induction

/-! A tree of nodes that refer to each other by number, followed from its root along a list of
keys. A new node changes what is reached along one list only. -/
namespace Cynos.Trie

variable {K : Type} {child : Nat → K → Option Nat} {size node next : Nat} {key : K}
  {front keys keys' : List K}

def walk (child : Nat → K → Option Nat) (keys : List K) : Option Nat := keys.foldlM child 0

/-- Numbers below the size, and no node reached in two ways. -/
structure Sound (child : Nat → K → Option Nat) (size : Nat) : Prop where
  nonempty : 0 < size
  parent : ∀ {node key next}, child node key = some next → node < size
  bounded : ∀ {node key next}, child node key = some next → next < size
  apart : ∀ {keys keys' node}, walk child keys = some node → walk child keys' = some node →
    keys = keys'

@[simp] theorem walk_nil : walk child [] = some 0 := rfl

theorem walk_snoc (keys : List K) (key : K) :
    walk child (keys ++ [key]) = (walk child keys).bind (child · key) := by
  unfold walk
  rw [List.foldlM_append]
  cases keys.foldlM child 0 with
  | none => rfl
  | some node => simp

theorem Sound.walk_lt (h : Sound child size) (hwalk : walk child keys = some node) :
    node < size := by
  rcases List.eq_nil_or_concat keys with rfl | ⟨keys, key, rfl⟩
  · obtain rfl := Option.some.inj hwalk
    exact h.nonempty
  · rw [List.concat_eq_append, walk_snoc] at hwalk
    obtain ⟨parent, -, hchild⟩ := Option.bind_eq_some_iff.mp hwalk
    exact h.bounded hchild

/-- The root alone. -/
theorem Sound.root : Sound (fun _ _ => none : Nat → K → Option Nat) 1 where
  nonempty := Nat.one_pos
  parent := by
    intro node key next h
    cases h
  bounded := by
    intro node key next h
    cases h
  apart := by
    have hnil : ∀ {keys : List K} {node : Nat},
        walk (fun _ _ => none) keys = some node → keys = [] := by
      intro keys node h
      rcases List.eq_nil_or_concat keys with rfl | ⟨keys, key, rfl⟩
      · rfl
      · rw [List.concat_eq_append, walk_snoc] at h
        obtain ⟨parent, -, hchild⟩ := Option.bind_eq_some_iff.mp h
        cases hchild
    intro keys keys' node h h'
    rw [hnil h, hnil h']

section Link

variable [DecidableEq K]

/-- One more child of a node. -/
def link (child : Nat → K → Option Nat) (node : Nat) (key : K) (next : Nat) (n : Nat) (k : K) :
    Option Nat :=
  if n = node ∧ k = key then some next else child n k

/-- A new node is reached along the list it was linked at, and everything else as before. -/
theorem walk_link (h : Sound child size) (hnode : walk child front = some node)
    (hnew : child node key = none) (keys : List K) : walk (link child node key size) keys =
      if keys = front ++ [key] then some size else walk child keys := by
  induction keys using List.reverseRecOn with
  | nil => rw [walk_nil, if_neg (by simp), walk_nil]
  | append_singleton keys k ih =>
    have hlast : keys ++ [k] = front ++ [key] ↔ keys = front ∧ k = key :=
      List.append_singleton_inj
    rw [walk_snoc, walk_snoc, ih]
    by_cases hkeys : keys = front ++ [key]
    · -- the new node has no children, and nothing was below it
      have hwalk : walk child keys = none := by rw [hkeys, walk_snoc, hnode]; exact hnew
      have hlong : ¬(keys = front ∧ k = key) := by
        rintro ⟨rfl, -⟩
        exact absurd (congrArg List.length hkeys) (by simp)
      have hchild : link child node key size size k = none := by
        have hsize : size ≠ node := Nat.ne_of_gt (h.walk_lt hnode)
        rw [link, if_neg fun hn => hsize hn.1]
        cases hc : child size k with
        | none => rfl
        | some next => exact absurd (h.parent hc) (Nat.lt_irrefl size)
      rw [if_pos hkeys, if_neg (mt hlast.mp hlong), hwalk]
      exact hchild
    · rw [if_neg hkeys]
      cases hwalk : walk child keys with
      | none =>
        rw [if_neg]
        · rfl
        · intro hsame
          rw [(hlast.mp hsame).1, hnode] at hwalk
          cases hwalk
      | some n =>
        have hiff : n = node ↔ keys = front := by
          refine ⟨fun hn => h.apart (hn ▸ hwalk) hnode, fun hk => ?_⟩
          exact Option.some.inj ((hk ▸ hwalk).symm.trans hnode)
        change link child node key size n k = _
        rw [link]
        simp only [hlast, hiff]
        rfl

theorem Sound.link (h : Sound child size) (hnode : walk child front = some node)
    (hnew : child node key = none) : Sound (link child node key size) (size + 1) where
  nonempty := Nat.succ_pos size
  parent := by
    intro n k next hchild
    unfold Trie.link at hchild
    split at hchild
    · rename_i hlink
      rw [hlink.1]
      exact Nat.lt_succ_of_lt (h.walk_lt hnode)
    · exact Nat.lt_succ_of_lt (h.parent hchild)
  bounded := by
    intro n k next hchild
    unfold Trie.link at hchild
    split at hchild
    · obtain rfl := Option.some.inj hchild
      exact Nat.lt_succ_self size
    · exact Nat.lt_succ_of_lt (h.bounded hchild)
  apart := by
    intro keys keys' n hwalk hwalk'
    rw [walk_link h hnode hnew] at hwalk hwalk'
    split at hwalk <;> split at hwalk'
    · rename_i hkeys hkeys'
      rw [hkeys, hkeys']
    · obtain rfl := Option.some.inj hwalk
      exact absurd (h.walk_lt hwalk') (Nat.lt_irrefl size)
    · obtain rfl := Option.some.inj hwalk'
      exact absurd (h.walk_lt hwalk) (Nat.lt_irrefl size)
    · exact h.apart hwalk hwalk'

end Link

end Cynos.Trie
