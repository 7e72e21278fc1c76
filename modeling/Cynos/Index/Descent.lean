import Cynos.Index.Arena

/-! A descent ends in the leaf whose range covers the key. -/
namespace Cynos.Index

variable {K : Type} [LinearOrder K]

/-- The last entry of the level whose separator is not above `key`. -/
structure Covers (level : Level K) (key : K) (before : Level K) (e : WithBot K × NodeId)
    (after : Level K) : Prop where
  split : level = before ++ e :: after
  low : e.1 ≤ key
  high : ∀ f ∈ after, (key : WithBot K) < f.1

theorem exists_covers {level : Level K} (hinc : level.Increasing) (key : K)
    {first : WithBot K × NodeId} (hfirst : level.head? = some first) (hbot : first.1 = ⊥) :
    ∃ before e after, Covers level key before e after := by
  classical
  have hcut : ∀ l : Level K, l.Increasing → (∀ f, l.head? = some f → f.1 ≤ key) → l ≠ [] →
      ∃ before e after, Covers l key before e after := by
    intro l
    induction l with
    | nil => simp
    | cons f l ih =>
      intro hl hhead _
      have hf : f.1 ≤ key := hhead f rfl
      have htail : ∀ g ∈ l, f.1 < g.1 := fun g hg => List.rel_of_pairwise_cons hl hg
      cases l with
      | nil => exact ⟨[], f, [], rfl, hf, by simp⟩
      | cons g l =>
        by_cases hg : g.1 ≤ key
        · obtain ⟨before, e, after, hc⟩ :=
            ih (List.Pairwise.of_cons hl) (by simpa using hg) (by simp)
          exact ⟨f :: before, e, after, by rw [hc.split]; rfl, hc.low, hc.high⟩
        · refine ⟨[], f, g :: l, rfl, hf, ?_⟩
          intro h hh
          rcases List.mem_cons.mp hh with rfl | hh
          · exact not_le.mp hg
          · exact (not_le.mp hg).trans
              (List.rel_of_pairwise_cons (List.Pairwise.of_cons hl) hh)
  refine hcut level hinc ?_ (by rintro rfl; simp at hfirst)
  intro f hf
  rw [hfirst, Option.some.injEq] at hf
  subst hf
  simp [hbot]

theorem BTreeIndex.findChildPosition_eq {t : BTreeIndex K} (hasc : t.comparator = .asc)
    {node : Node K} {a b : List K} {key : K} (hkeys : node.keys = a ++ b)
    (ha : ∀ x ∈ a, x ≤ key) (hb : ∀ y ∈ b, key < y)
    (har : node.children.length = node.keys.length + 1) :
    t.findChildPosition node key = a.length := by
  have hpoint : Vec.partitionPoint node.keys (fun k => !t.comparator.isLess key k) = a.length := by
    rw [hkeys]
    apply Vec.partitionPoint_append
    · intro x hx
      simp [hasc, ha x hx]
    · intro y hy
      simp [hasc, hb y hy]
  rw [BTreeIndex.findChildPosition, hpoint, har, hkeys, List.length_append]
  omega

/-- In an increasing level the keys of a node split around a covered slot. -/
theorem slots_keys_split {lo : WithBot K} {a b : Level K}
    {e : WithBot K × NodeId} {key : K} (hinc : (a ++ e :: b).Increasing)
    (hlow : e.1 ≤ key) (hhigh : ∀ f ∈ b, (key : WithBot K) < f.1)
    {ka kb : List K} {ca cb : List NodeId}
    (ha : a ++ [e] = (lo :: ka.map (↑)).zip (ca ++ [e.2])) (hca : ca.length = ka.length)
    (hb : b = (kb.map (↑)).zip cb) (hcb : cb.length = kb.length) :
    lo ≤ key ∧ (∀ x ∈ ka, x ≤ key) ∧ (∀ y ∈ kb, key < y) := by
  have hfst : (a ++ [e]).map Prod.fst = lo :: ka.map (↑) := by
    rw [ha, List.map_fst_zip]
    simp [hca]
  have hle : ∀ x ∈ lo :: ka.map ((↑) : K → WithBot K), x ≤ (key : WithBot K) := by
    intro x hx
    rw [← hfst] at hx
    obtain ⟨f, hf, rfl⟩ := List.mem_map.mp hx
    rcases List.mem_append.mp hf with hf | hf
    · exact (((List.pairwise_append.mp hinc).2.2 f hf e (by simp)).le).trans hlow
    · rw [List.mem_singleton] at hf
      rwa [hf]
  refine ⟨hle lo (by simp), fun x hx => ?_, fun y hy => ?_⟩
  · exact WithBot.coe_le_coe.mp (hle x (by simp [hx]))
  · have hfb : b.map Prod.fst = kb.map (↑) := by
      rw [hb, List.map_fst_zip]
      simp [hcb]
    have hmem : (y : WithBot K) ∈ b.map Prod.fst := by
      rw [hfb]
      exact List.mem_map_of_mem hy
    obtain ⟨f, hf, hfy⟩ := List.mem_map.mp hmem
    exact WithBot.coe_lt_coe.mp (hfy ▸ hhigh f hf)

section Descend

variable {N : NodeId → Node K} {minKeys maxKeys : NodeId → Nat} {order : Nat}
  {light : Option NodeId}

/-- One step of a descent goes from the covering node of a level to the
covering node of the next. -/
theorem Link.descend {up down a b : Level K} {e : WithBot K × NodeId} {key : K}
    (h : Link N minKeys maxKeys up down) (hinc : down.Increasing) (hc : Covers down key a e b) :
    ∃ u m v, Covers up key u m v ∧ (N m.2).isLeaf = false ∧
      ∀ t : BTreeIndex K, t.comparator = .asc →
        (N m.2).children[t.findChildPosition (N m.2) key]? = some e.2 := by
  obtain ⟨u, m, v, a', b', hup, hslots, ha, hb⟩ := h.locate hc.split
  have hm : m ∈ up := by simp [hup]
  have har := (h.internal m hm).arity
  obtain ⟨ka, kb, ca, cb, hk, hch, hca, hcb, hpa, hpb⟩ := slots_covers har hslots
  have hinc' : (a' ++ e :: b').Increasing := by
    refine List.Pairwise.sublist ?_ hinc
    rw [hc.split, ha, hb]
    simp
  have hhigh : ∀ f ∈ b', (key : WithBot K) < f.1 := fun f hf => hc.high f (by simp [hb, hf])
  obtain ⟨hlo, hka, hkb⟩ := slots_keys_split hinc' hc.low hhigh hpa hca hpb hcb
  refine ⟨u, m, v, ⟨hup, hlo, ?_⟩, (h.internal m hm).notLeaf, ?_⟩
  · intro f hf
    obtain ⟨c, cs, hcs⟩ := List.exists_cons_of_ne_nil
      (h.children_ne_nil f (by simp [hup, hf]))
    refine hc.high (f.1, c) ?_
    rw [hb]
    refine List.mem_append_right _ (List.mem_flatMap.mpr ⟨f, hf, ?_⟩)
    simp [slots, hcs]
  · intro t hasc
    rw [t.findChildPosition_eq hasc hk hka hkb har, hch, ← hca]
    simp

theorem Stack.descend {down : Level K} {ups : List (Level K)} {t : BTreeIndex K} {key : K}
    (h : Stack t.nodeAt order light t.root down ups) (hasc : t.comparator = .asc)
    (hids : ∀ id ∈ levelIds ups, id < t.arena.length) (hinc : down.Increasing)
    {a b : Level K} {e : WithBot K × NodeId} (hc : Covers down key a e b) (fuel : Nat) :
    t.findLeafFrom key (ups.length + fuel) t.root = t.findLeafFrom key fuel e.2 := by
  induction ups generalizing down a b e fuel with
  | nil =>
    obtain ⟨rfl, _⟩ := h
    have he : e = (⊥, t.root) := by
      have := hc.split
      cases a with
      | nil => exact (List.cons.inj this).1.symm
      | cons f a => simp at this
    rw [he, List.length_nil, Nat.zero_add]
  | cons up ups ih =>
    obtain ⟨hlink, hrest⟩ := h
    obtain ⟨u, m, v, hm, hleaf, hchild⟩ := hlink.descend hinc hc
    have hmem : m.2 ∈ up.ids := Level.mem_ids (by simp [hm.split])
    have hstep := ih hrest (fun id hid => hids id (by simp [hid])) (hlink.increasing hinc)
      hm (fuel + 1)
    rw [List.length_cons, Nat.add_assoc, Nat.add_comm 1, hstep, BTreeIndex.findLeafFrom,
      BTreeIndex.node_eq (hids m.2 (by simp [hmem]))]
    simp [hleaf, hchild t hasc]

end Descend

end Cynos.Index
