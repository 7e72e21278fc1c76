import Cynos.Index.Invariant

/-! Two neighbours below one parent, and the choice of a repair for one of them. -/
namespace Cynos.Index

open BTreeIndex

variable {K : Type}

/-- The slots of `node`, with `l` and `right` as neighbours separated by `q`. -/
structure Siblings (node : Node K) (lo : WithBot K) (A : Level K) (l : WithBot K × NodeId)
    (q : K) (right : NodeId) (B : Level K) (ka kb : List K) (ca cb : List NodeId) : Prop where
  keys : node.keys = ka ++ q :: kb
  children : node.children = ca ++ l.2 :: right :: cb
  before : ca.length = ka.length
  after : cb.length = kb.length
  leftEq : A ++ [l] = (lo :: ka.map (↑)).zip (ca ++ [l.2])
  rightEq : B = (kb.map (↑)).zip cb

section Siblings

variable {node : Node K} {lo : WithBot K} {A B : Level K} {l r : WithBot K × NodeId} {q : K}
  {right : NodeId} {ka kb : List K} {ca cb : List NodeId}

theorem Siblings.of_slots (har : node.children.length = node.keys.length + 1)
    (h : slots lo node = A ++ l :: r :: B) :
    ∃ (q : K) (ka kb : List K) (ca cb : List NodeId), r.1 = ↑q ∧
      Siblings node lo A l q r.2 B ka kb ca cb := by
  obtain ⟨ka, kb, ca, cb, hk, hc, hca, hcb, hA, hB⟩ := slots_covers har h
  cases kb with
  | nil => simp at hB
  | cons q kb =>
    cases cb with
    | nil => simp at hcb
    | cons c cb =>
      rw [List.map_cons, List.zip_cons_cons, List.cons.injEq] at hB
      obtain ⟨hr, hB⟩ := hB
      subst hr
      exact ⟨q, ka, kb, ca, cb, rfl, hk, hc, hca, by simpa using hcb, hA, hB⟩

theorem Siblings.slots_eq (h : Siblings node lo A l q right B ka kb ca cb) :
    slots lo node = A ++ l :: (↑q, right) :: B := by
  rw [slots_cons lo (c := ca ++ [l.2]) (d := right :: cb) h.keys (by rw [h.children]; simp)
    (by simp [h.before]), ← h.leftEq, List.zip_cons_cons, ← h.rightEq]
  simp

theorem Siblings.arity (h : Siblings node lo A l q right B ka kb ca cb) :
    node.children.length = node.keys.length + 1 := by
  rw [h.keys, h.children]
  simp [h.before, h.after]
  omega

theorem Siblings.length_eq (h : Siblings node lo A l q right B ka kb ca cb) :
    A.length = ka.length := by
  have := congrArg List.length h.leftEq
  simpa [h.before] using this

/-- A new separator between the two. -/
theorem Siblings.reseparate (h : Siblings node lo A l q right B ka kb ca cb) (q' : K) :
    Siblings { node with keys := ka ++ q' :: kb } lo A l q' right B ka kb ca cb :=
  ⟨rfl, h.children, h.before, h.after, h.leftEq, h.rightEq⟩

/-- The right one is gone. -/
theorem Siblings.slots_drop (h : Siblings node lo A l q right B ka kb ca cb) {node' : Node K}
    (hk : node'.keys = ka ++ kb) (hc : node'.children = ca ++ l.2 :: cb) :
    slots lo node' = A ++ l :: B := by
  rw [slots_append lo (c := ca ++ [l.2]) (d := cb) hk (by rw [hc]; simp) (by simp [h.before]),
    ← h.leftEq, ← h.rightEq]
  simp

end Siblings

section Choice

variable {node : Node K} {lo : WithBot K} {A B : Level K} {e : WithBot K × NodeId}

/-- The neighbour that a repair of `e` uses, with the room it has. -/
inductive Chosen (t : BTreeIndex K) (minKeys : Nat) (A : Level K) (B : Level K) :
    Repair → Prop where
  | borrowLeft (A' : Level K) (l : WithBot K × NodeId) (left : A = A' ++ [l])
    (rich : minKeys < (t.nodeAt l.2).keys.length) : Chosen t minKeys A B (.borrowLeft l.2)
  | borrowRight (r : WithBot K × NodeId) (B' : Level K) (right : B = r :: B')
    (rich : minKeys < (t.nodeAt r.2).keys.length) : Chosen t minKeys A B (.borrowRight r.2)
  | mergeLeft (A' : Level K) (l : WithBot K × NodeId) (left : A = A' ++ [l])
    (poor : (t.nodeAt l.2).keys.length ≤ minKeys) : Chosen t minKeys A B (.mergeLeft l.2)
  | mergeRight (r : WithBot K × NodeId) (B' : Level K) (left : A = []) (right : B = r :: B')
    (poor : (t.nodeAt r.2).keys.length ≤ minKeys) : Chosen t minKeys A B (.mergeRight r.2)

theorem chooseRepair_eq {t : BTreeIndex K} (minKeys : Nat)
    (har : node.children.length = node.keys.length + 1) (hkeys : 1 ≤ node.keys.length)
    (hslots : slots lo node = A ++ e :: B) (hids : ∀ c ∈ node.children, c < t.arena.length) :
    ∃ repair, t.chooseRepair node A.length minKeys = some repair ∧
      Chosen t minKeys A B repair := by
  have hchildren : node.children = Level.ids A ++ e.2 :: Level.ids B := by
    rw [← slots_map_snd lo har, hslots]
    simp
  have hlen : node.children.length = A.length + 1 + B.length := by
    rw [hchildren]
    simp [Level.ids]
    omega
  have hright : (if A.length < node.children.length - 1 then node.children[A.length + 1]?
      else none) = B.head?.map Prod.snd := by
    cases B with
    | nil =>
      rw [if_neg (by rw [hlen, List.length_nil]; omega)]
      rfl
    | cons r B =>
      rw [if_pos (by rw [hlen, List.length_cons]; omega), hchildren,
        List.getElem?_append_right (by simp [Level.ids])]
      simp [Level.ids]
  have hleft : (if 0 < A.length then node.children[A.length - 1]? else none) =
      A.getLast?.map Prod.snd := by
    rcases List.eq_nil_or_concat A with rfl | ⟨A', l, rfl⟩
    · rfl
    · rw [if_pos (by simp), hchildren]
      simp [Level.ids]
  have hnode : ∀ f ∈ A ++ e :: B, t.node f.2 = some (t.nodeAt f.2) := by
    intro f hf
    refine node_eq (hids f.2 ?_)
    rw [hchildren, ← Level.ids_cons, ← Level.ids_append]
    exact Level.mem_ids hf
  rw [chooseRepair, hleft, hright]
  rcases List.eq_nil_or_concat A with rfl | ⟨A', l, rfl⟩
  · cases B with
    | nil =>
      simp only [List.length_nil] at hlen
      omega
    | cons r B =>
      have hr := hnode r (by simp)
      simp only [List.getLast?_nil, Option.map_none, List.head?_cons, Option.map_some,
        Option.elim_none, Option.elim_some, hr, Option.bind_eq_bind, Option.bind_some,
        Option.map_some, Node.keyCount]
      by_cases hrich : (t.nodeAt r.2).keys.length > minKeys
      · exact ⟨_, rfl, by rw [if_pos (by simpa using hrich)]; exact .borrowRight r B rfl hrich⟩
      · exact ⟨_, rfl, by
          rw [if_neg (by simpa using hrich)]
          exact .mergeRight r B rfl rfl (not_lt.mp hrich)⟩
  · have hl := hnode l (by simp)
    rw [List.concat_eq_append] at *
    cases B with
    | nil =>
      simp only [List.getLast?_concat, Option.map_none, List.head?_nil, Option.map_some,
        Option.elim_none, Option.elim_some, hl, Option.bind_eq_bind, Option.bind_some,
        Option.map_some, Node.keyCount]
      by_cases hrich : (t.nodeAt l.2).keys.length > minKeys
      · exact ⟨_, rfl, by rw [if_pos (by simpa using hrich)]; exact .borrowLeft A' l rfl hrich⟩
      · exact ⟨_, rfl, by
          rw [if_neg (by simpa using hrich)]
          exact .mergeLeft A' l rfl (not_lt.mp hrich)⟩
    | cons r B =>
      have hr := hnode r (by simp)
      simp only [List.getLast?_concat, List.head?_cons, Option.map_some, Option.elim_some, hl, hr,
        Option.bind_eq_bind, Option.bind_some, Node.keyCount]
      by_cases hrich : (t.nodeAt l.2).keys.length > minKeys
      · exact ⟨_, rfl, by rw [if_pos (by simpa using hrich)]; exact .borrowLeft A' l rfl hrich⟩
      · rw [if_neg (by simpa using hrich)]
        by_cases hrich' : (t.nodeAt r.2).keys.length > minKeys
        · exact ⟨_, rfl, by
            rw [if_pos (by simpa using hrich')]
            exact .borrowRight r B rfl hrich'⟩
        · exact ⟨_, rfl, by
            rw [if_neg (by simpa using hrich')]
            exact .mergeLeft A' l rfl (not_lt.mp hrich)⟩

end Choice

end Cynos.Index
