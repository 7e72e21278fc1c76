import Cynos.Index.Promote

/-! Insertion into leaves, with their splits. -/
namespace Cynos.Index

open BTreeIndex

variable {K : Type}

section Leaves

variable {N N' : NodeId → Node K} {order : Nat} {heavy heavy' : Option NodeId} {leaves : Level K}

/-- Leaves do not read their parents. -/
theorem LeafLevel.congr (h : LeafLevel N order heavy leaves)
    (hsame : ∀ e ∈ leaves, N' e.2 = setParent (N' e.2).parent (N e.2)) :
    LeafLevel N' order heavy leaves := by
  have hids : ∀ id ∈ leaves.ids, N' id = setParent (N' id).parent (N id) := by
    intro id hid
    obtain ⟨e, he, rfl⟩ := List.mem_map.mp hid
    exact hsame e he
  refine ⟨?_, ?_, ?_, ?_, ?_⟩
  · intro e he
    rw [hsame e he]
    exact h.isLeaf e he
  · intro e he
    rw [hsame e he]
    exact h.aligned e he
  · intro e he
    rw [hsame e he]
    exact h.upper e he
  · intro e he
    rw [hsame e he]
    exact h.stored e he
  · refine (Chain.linked_congr (fun id hid => ?_) fun id hid => ?_).mpr h.chain
    · rw [hids id hid, setParent_next]
    · rw [hids id hid, setParent_prev]

end Leaves

section Write

variable [LinearOrder K] {t : BTreeIndex K} {heavy heavy' : Option NodeId} {leaves : Level K}
  {ups : List (Level K)} {a b : Level K} {e : WithBot K × NodeId}

/-- New entries for one leaf, within its separators. -/
theorem Shape.setLeaf (h : Shape t heavy leaves ups) (hsplit : leaves = a ++ e :: b)
    (heavy' : Option NodeId) (keys : List K) (values : List (List RowId)) (hsorted : keys.Pairwise (· < ·))
    (haligned : values.length = keys.length) (hstored : ∀ ids ∈ values, ids ≠ [])
    (hupper : keys.length < maxKeysOf t.order heavy' e.2)
    (hheavy : ∀ f ∈ a ++ b, maxKeysOf t.order heavy f.2 ≤ maxKeysOf t.order heavy' f.2)
    (habove : ∀ k ∈ keys, e.1 ≤ k) (hbelow : ∀ f ∈ b, ∀ k ∈ keys, (k : WithBot K) < f.1) :
    Shape (t.setNode e.2 { t.nodeAt e.2 with keys, values }) heavy' leaves ups ∧
      leafEntries (t.setNode e.2 { t.nodeAt e.2 with keys, values }).nodeAt leaves =
        leafEntries t.nodeAt a ++ keys.zip values ++ leafEntries t.nodeAt b := by
  subst hsplit
  have he : e ∈ a ++ e :: b := by simp
  have hlt : e.2 < t.arena.length := h.inArena (.inl (Level.mem_ids he))
  obtain ⟨hne, hups⟩ := h.distinct.middle_notMem
  have hcase : ∀ f ∈ a ++ e :: b, f = e ∨ f ∈ a ++ b := by
    intro f hf
    simp only [List.mem_append, List.mem_cons] at hf ⊢
    tauto
  let t' := t.setNode e.2 { t.nodeAt e.2 with keys, values }
  have hat : t'.nodeAt = Function.update t.nodeAt e.2 { t.nodeAt e.2 with keys, values } :=
    nodeAt_setNode hlt _
  have hself : t'.nodeAt e.2 = { t.nodeAt e.2 with keys, values } := by
    rw [hat, Function.update_self]
  have hother : ∀ f ∈ a ++ b, t'.nodeAt f.2 = t.nodeAt f.2 := by
    intro f hf
    rw [hat, Function.update_of_ne (hne f hf)]
  have hsame : ∀ id, (t'.nodeAt id).parent = (t.nodeAt id).parent ∧
      (t'.nodeAt id).next = (t.nodeAt id).next ∧ (t'.nodeAt id).prev = (t.nodeAt id).prev ∧
      (t'.nodeAt id).isLeaf = (t.nodeAt id).isLeaf := by
    intro id
    by_cases hid : id = e.2
    · rw [hid, hself]
      exact ⟨rfl, rfl, rfl, rfl⟩
    · rw [hat, Function.update_of_ne hid]
      exact ⟨rfl, rfl, rfl, rfl⟩
  have hentries : leafEntries t'.nodeAt (a ++ e :: b) =
      leafEntries t.nodeAt a ++ keys.zip values ++ leafEntries t.nodeAt b := by
    have hrest : ∀ l, (∀ f ∈ l, f ∈ a ++ b) → leafEntries t'.nodeAt l = leafEntries t.nodeAt l :=
      fun l hl => leafEntries_congr fun f hf => by rw [hother f (hl f hf)]; exact ⟨rfl, rfl⟩
    rw [leafEntries_append, leafEntries_cons, hself, hrest a fun f hf => by simp [hf],
      hrest b fun f hf => by simp [hf], List.append_assoc]
  refine ⟨⟨?_, ?_, ⟨?_, ?_, ?_, ?_, ?_⟩, ⟨h.ordered.increasing, ?_, ?_, ?_⟩, h.asc, h.order⟩,
    hentries⟩
  · refine h.stack.congr (fun id hid => ?_) (fun _ _ => le_refl _) fun id _ => (hsame id).1
    rw [hat, Function.update_of_ne (ne_of_mem_of_not_mem hid hups)]
    exact .refl _
  · rw [arena_length_setNode]
    exact h.distinct
  · intro f hf
    rw [(hsame f.2).2.2.2, h.leaf.isLeaf f hf]
  · intro f hf
    rcases hcase f hf with rfl | hf'
    · rw [hself]
      exact haligned
    · rw [hother f hf', h.leaf.aligned f hf]
  · intro f hf
    rcases hcase f hf with rfl | hf'
    · rw [hself]
      exact hupper
    · rw [hother f hf']
      exact (h.leaf.upper f hf).trans_le (hheavy f hf')
  · intro f hf
    rcases hcase f hf with rfl | hf'
    · rw [hself]
      exact hstored
    · rw [hother f hf']
      exact h.leaf.stored f hf
  · exact (Chain.linked_congr (fun id _ => (hsame id).2.1) fun id _ => (hsame id).2.2.1).mpr
      h.leaf.chain
  · intro f hf
    rcases hcase f hf with rfl | hf'
    · rw [hself]
      exact hsorted
    · rw [hother f hf']
      exact h.ordered.sorted f hf
  · intro f hf
    rcases hcase f hf with rfl | hf'
    · rw [hself]
      exact habove
    · rw [hother f hf']
      exact h.ordered.above f hf
  · obtain ⟨ha, hb, hab⟩ := List.pairwise_append.mp h.ordered.below
    refine List.pairwise_append.mpr ⟨?_, List.pairwise_cons.mpr ⟨?_, ?_⟩, ?_⟩
    · refine ha.imp_of_mem fun {f g} hf _ hfg => ?_
      rw [hother f (by simp [hf])]
      exact hfg
    · intro f hf
      rw [hself]
      exact hbelow f hf
    · refine hb.of_cons.imp_of_mem fun {f g} hf _ hfg => ?_
      rw [hother f (by simp [hf])]
      exact hfg
    · intro f hf g hg
      rw [hother f (by simp [hf])]
      exact hab f hf g hg

end Write

section Split

variable [LinearOrder K] {t : BTreeIndex K} {leaves : Level K} {ups : List (Level K)}
  {a b : Level K} {lo : WithBot K} {leafId : NodeId}

/-- The leaf `leafId` after its upper half went to the cell `new`. -/
structure LeafHalved (N N' : NodeId → Node K) (leafId new : NodeId) (kl kr : List K)
    (vl vr : List (List RowId)) : Prop where
  left : N' leafId = { N leafId with keys := kl, values := vl, next := some new }
  right : N' new = { (Node.newLeaf : Node K) with
    keys := kr, values := vr, next := (N leafId).next, prev := some leafId
    parent := (N leafId).parent }
  next : ∀ id, (N leafId).next = some id → N' id = { N id with prev := some new }
  other : ∀ id, id ≠ leafId → id ≠ new → (N leafId).next ≠ some id → N' id = N id

omit [LinearOrder K] in
variable [Ord K] in
theorem splitLeaf_eq {kl kr : List K} {q : K} {vl vr : List (List RowId)}
    (hid : leafId < t.arena.length)
    (hk : (t.nodeAt leafId).keys = kl ++ q :: kr) (hv : (t.nodeAt leafId).values = vl ++ vr)
    (hmid : kl.length = (t.nodeAt leafId).keys.length / 2) (hvl : vl.length = kl.length)
    (hnext : ∀ id, (t.nodeAt leafId).next = some id → id < t.arena.length ∧ id ≠ leafId) :
    ∃ t', t.splitLeaf leafId = insertIntoParent t'.arena.length t' leafId q t.arena.length ∧
      SameHeader t t' ∧ t'.root = t.root ∧ t'.arena.length = t.arena.length + 1 ∧
      LeafHalved t.nodeAt t'.nodeAt leafId t.arena.length kl (q :: kr) vl vr := by
  have hkeys : Vec.splitOff (t.nodeAt leafId).keys ((t.nodeAt leafId).keys.length / 2) =
      some (kl, q :: kr) := by
    rw [← hmid, hk, Vec.splitOff_of_le (by simp), List.take_left' rfl, List.drop_left' rfl]
  have hvalues : Vec.splitOff (t.nodeAt leafId).values ((t.nodeAt leafId).keys.length / 2) =
      some (vl, vr) := by
    rw [← hmid, hv, Vec.splitOff_of_le (by simp [hvl]), List.take_left' hvl, List.drop_left' hvl]
  let newLeaf : Node K :=
    { (Node.newLeaf : Node K) with
      keys := q :: kr, values := vr, next := (t.nodeAt leafId).next, prev := some leafId
      parent := (t.nodeAt leafId).parent }
  let t1 := t.setNode leafId { t.nodeAt leafId with keys := kl, values := vl }
  let t2 := (t1.allocNode newLeaf).1
  have hlt2 : leafId < t2.arena.length := by
    simp only [t2, t1, arena_length_allocNode, arena_length_setNode]
    exact hid.trans (Nat.lt_succ_self _)
  have hat2 : t2.nodeAt = Function.update (Function.update t.nodeAt leafId
      { t.nodeAt leafId with keys := kl, values := vl }) t.arena.length newLeaf := by
    simp only [t2, t1, nodeAt_allocNode, nodeAt_setNode hid, arena_length_setNode]
  cases hn : (t.nodeAt leafId).next with
  | none =>
    refine ⟨t2.setNode leafId { t2.nodeAt leafId with next := some t.arena.length }, ?_,
      ⟨rfl, rfl, rfl, rfl⟩, rfl, by simp [t2, t1], ⟨?_, ?_, by simp [hn], ?_⟩⟩
    · rw [splitLeaf, node_eq hid]
      simp only [Option.bind_eq_bind, Option.bind_some, Node.keyCount, hkeys, hvalues,
        allocNode_snd, arena_length_setNode, hn]
      rw [← hn, modifyNode_eq hlt2]
      simp only [Option.bind_some, List.head?_cons, arena_length_setNode]
    · rw [nodeAt_setNode hlt2, Function.update_self, hat2, Function.update_of_ne hid.ne,
        Function.update_self]
    · rw [nodeAt_setNode hlt2, Function.update_of_ne hid.ne', hat2, Function.update_self]
    · intro id h1 h2 _
      rw [nodeAt_setNode hlt2, Function.update_of_ne h1, hat2, Function.update_of_ne h2,
        Function.update_of_ne h1]
  | some n =>
    obtain ⟨hnlt, hne⟩ := hnext n hn
    have hnlt2 : n < t2.arena.length := by
      simp only [t2, t1, arena_length_allocNode, arena_length_setNode]
      exact hnlt.trans (Nat.lt_succ_self _)
    let t3 := t2.setNode n { t2.nodeAt n with prev := some t.arena.length }
    have hlt3 : leafId < t3.arena.length := by
      simpa [t3] using hlt2
    have hat3 : t3.nodeAt = Function.update t2.nodeAt n
        { t2.nodeAt n with prev := some t.arena.length } := nodeAt_setNode hnlt2 _
    refine ⟨t3.setNode leafId { t3.nodeAt leafId with next := some t.arena.length }, ?_,
      ⟨rfl, rfl, rfl, rfl⟩, rfl, by simp [t3, t2, t1], ⟨?_, ?_, ?_, ?_⟩⟩
    · rw [splitLeaf, node_eq hid]
      simp only [Option.bind_eq_bind, Option.bind_some, Node.keyCount, hkeys, hvalues,
        allocNode_snd, arena_length_setNode, hn]
      rw [← hn, modifyNode_eq hnlt2]
      simp only [Option.bind_some]
      rw [modifyNode_eq hlt3]
      simp only [Option.bind_some, List.head?_cons, arena_length_setNode]
    · rw [nodeAt_setNode hlt3, Function.update_self, hat3, Function.update_of_ne hne.symm, hat2,
        Function.update_of_ne hid.ne, Function.update_self]
    · rw [nodeAt_setNode hlt3, Function.update_of_ne hid.ne', hat3,
        Function.update_of_ne hnlt.ne', hat2, Function.update_self]
    · intro id hid'
      rw [hn, Option.some.injEq] at hid'
      subst hid'
      rw [nodeAt_setNode hlt3, Function.update_of_ne hne, hat3, Function.update_self, hat2,
        Function.update_of_ne hnlt.ne, Function.update_of_ne hne]
    · intro id h1 h2 h3
      have h3 : id ≠ n := fun h => h3 (by rw [hn, h])
      rw [nodeAt_setNode hlt3, Function.update_of_ne h1, hat3, Function.update_of_ne h3, hat2,
        Function.update_of_ne h2, Function.update_of_ne h1]

section Halved

variable {N N' : NodeId → Node K} {order new : Nat} {kl kr : List K} {q : K}
  {vl vr : List (List RowId)}

omit [LinearOrder K] in
theorem LeafHalved.at_leaf (h : LeafHalved N N' leafId new kl kr vl vr) {id : NodeId}
    (h1 : id ≠ leafId) (h2 : id ≠ new) :
    (N' id).keys = (N id).keys ∧ (N' id).values = (N id).values ∧
      (N' id).isLeaf = (N id).isLeaf ∧ (N' id).next = (N id).next ∧
      (N' id).parent = (N id).parent ∧ (N' id).children = (N id).children := by
  by_cases h3 : (N leafId).next = some id
  · rw [h.next id h3]
    exact ⟨rfl, rfl, rfl, rfl, rfl, rfl⟩
  · rw [h.other id h1 h2 h3]
    exact ⟨rfl, rfl, rfl, rfl, rfl, rfl⟩

omit [LinearOrder K] in
theorem LeafHalved.leafLevel (h : LeafHalved N N' leafId new kl kr vl vr)
    (hl : LeafLevel N order (some leafId) (a ++ (lo, leafId) :: b))
    (hne : ∀ f ∈ a ++ b, f.2 ≠ leafId) (hnew : ∀ f ∈ a ++ (lo, leafId) :: b, f.2 ≠ new)
    (hnodup : (Level.ids (a ++ (lo, leafId) :: b)).Nodup)
    (hvl : vl.length = kl.length) (hvr : vr.length = kr.length)
    (hkl : kl.length < order) (hkr : kr.length < order)
    (hv : (N leafId).values = vl ++ vr) :
    LeafLevel N' order none (a ++ (lo, leafId) :: (↑q, new) :: b) := by
  have hcase : ∀ f ∈ a ++ (lo, leafId) :: ((q : WithBot K), new) :: b,
      f ∈ a ++ b ∨ f = (lo, leafId) ∨ f = (↑q, new) := by
    intro f hf
    simp only [List.mem_append, List.mem_cons] at hf ⊢
    tauto
  have hold : ∀ f ∈ a ++ b, f ∈ a ++ (lo, leafId) :: b := fun f hf => mem_insert_middle hf
  have hat : ∀ f ∈ a ++ b, (N' f.2).keys = (N f.2).keys ∧ (N' f.2).values = (N f.2).values ∧
      (N' f.2).isLeaf = (N f.2).isLeaf ∧ (N' f.2).next = (N f.2).next ∧
      (N' f.2).parent = (N f.2).parent ∧ (N' f.2).children = (N f.2).children :=
    fun f hf => h.at_leaf (hne f hf) (hnew f (hold f hf))
  have hmem : (lo, leafId) ∈ a ++ (lo, leafId) :: b := by simp
  refine ⟨?_, ?_, ?_, ?_, ?_⟩
  · intro f hf
    rcases hcase f hf with hf | rfl | rfl
    · rw [(hat f hf).2.2.1]
      exact hl.isLeaf f (hold f hf)
    · rw [h.left]
      exact hl.isLeaf _ hmem
    · rw [h.right]
      rfl
  · intro f hf
    rcases hcase f hf with hf | rfl | rfl
    · rw [(hat f hf).1, (hat f hf).2.1]
      exact hl.aligned f (hold f hf)
    · rw [h.left]
      exact hvl
    · rw [h.right]
      exact hvr
  · intro f hf
    rcases hcase f hf with hf | rfl | rfl
    · rw [(hat f hf).1]
      have := hl.upper f (hold f hf)
      rwa [maxKeysOf_of_ne (hne f hf).symm] at this
    · rw [h.left]
      exact hkl
    · rw [h.right]
      exact hkr
  · have hstored := hl.stored _ hmem
    intro f hf
    rcases hcase f hf with hf | rfl | rfl
    · rw [(hat f hf).2.1]
      exact hl.stored f (hold f hf)
    · rw [h.left]
      exact fun ids hids => hstored ids (by rw [hv]; exact List.mem_append_left _ hids)
    · rw [h.right]
      exact fun ids hids => hstored ids (by rw [hv]; exact List.mem_append_right _ hids)
  · have hchain := hl.chain
    simp only [Level.ids_append, Level.ids_cons] at hchain hnodup ⊢
    obtain ⟨_, hnext⟩ := Chain.linked_at hchain
    rw [Option.or_none] at hnext
    have hids : ∀ id ∈ a.ids ++ Level.ids b, id ≠ leafId ∧ id ≠ new := by
      intro id hid
      rw [← Level.ids_append] at hid
      obtain ⟨f, hf, rfl⟩ := List.mem_map.mp hid
      exact ⟨hne f hf, hnew f (hold f hf)⟩
    refine Chain.linked_insert hchain (fun id hid => ?_) (by rw [h.left]) (by rw [h.right])
      (fun id hid => ?_) (by rw [h.right]) fun id hid => ?_
    · obtain ⟨h1, h2⟩ := hids id hid
      exact (h.at_leaf h1 h2).2.2.2.1
    · rcases List.mem_append.mp hid with hid | hid
      · obtain ⟨h1, h2⟩ := hids id (List.mem_append_left _ hid)
        rw [h.other id h1 h2]
        rw [hnext]
        intro hhead
        have hidb : id ∈ Level.ids b := List.mem_of_mem_head? hhead
        exact List.disjoint_of_nodup_append hnodup hid (List.mem_cons_of_mem _ hidb)
      · rcases List.mem_cons.mp hid with rfl | hid
        · rw [h.left]
        · obtain ⟨h1, h2⟩ := hids id (List.mem_append_right _ (List.mem_of_mem_tail hid))
          rw [h.other id h1 h2]
          rw [hnext]
          intro hhead
          obtain ⟨rest, hrest⟩ := List.head?_eq_some_iff.mp hhead
          have hnd := hnodup.of_append_right.of_cons
          rw [hrest] at hid hnd
          exact (List.nodup_cons.mp hnd).1 hid
    · rw [h.next id (by rw [hnext, hid])]

/-- The first key of the upper half separates it from the lower half. -/
theorem LeafHalved.ordered (h : LeafHalved N N' leafId new kl (q :: kr) vl vr)
    (ho : Ordered N (a ++ (lo, leafId) :: b))
    (hne : ∀ f ∈ a ++ b, f.2 ≠ leafId) (hnew : ∀ f ∈ a ++ (lo, leafId) :: b, f.2 ≠ new)
    (hk : (N leafId).keys = kl ++ q :: kr) (hkl : kl ≠ []) :
    Ordered N' (a ++ (lo, leafId) :: (↑q, new) :: b) := by
  have hmem : (lo, leafId) ∈ a ++ (lo, leafId) :: b := by simp
  have hold : ∀ f ∈ a ++ b, f ∈ a ++ (lo, leafId) :: b := fun f hf => mem_insert_middle hf
  have hat : ∀ f ∈ a ++ b, (N' f.2).keys = (N f.2).keys :=
    fun f hf => (h.at_leaf (hne f hf) (hnew f (hold f hf))).1
  have hsorted := ho.sorted _ hmem
  have habove := ho.above _ hmem
  obtain ⟨hinca, hincb, hincab⟩ := List.pairwise_append.mp ho.increasing
  obtain ⟨hba, hbb, hbab⟩ := List.pairwise_append.mp ho.below
  rw [hk] at hsorted habove
  obtain ⟨hsl, hsr, hslr⟩ := List.pairwise_append.mp hsorted
  have hbelow : ∀ f ∈ b, ∀ k ∈ kl ++ q :: kr, (k : WithBot K) < f.1 := by
    have := (List.pairwise_cons.mp hbb).1
    rwa [hk] at this
  have hleft : ∀ k ∈ kl, (k : WithBot K) < q :=
    fun k hk => WithBot.coe_lt_coe.mpr (hslr k hk q (by simp))
  have hlo : lo < (q : WithBot K) := by
    obtain ⟨k, rest, rfl⟩ := List.exists_cons_of_ne_nil hkl
    exact (habove k (by simp)).trans_lt (hleft k (by simp))
  have hq : ∀ f ∈ b, (q : WithBot K) < f.1 := fun f hf => hbelow f hf q (by simp)
  have hcase : ∀ f ∈ a ++ (lo, leafId) :: ((q : WithBot K), new) :: b,
      f ∈ a ++ b ∨ f = (lo, leafId) ∨ f = (↑q, new) := by
    intro f hf
    simp only [List.mem_append, List.mem_cons] at hf ⊢
    tauto
  have hincb' := List.pairwise_cons.mp hincb
  refine ⟨?_, ?_, ?_, ?_⟩
  · refine List.pairwise_append.mpr ⟨hinca, List.pairwise_cons.mpr ⟨?_,
      List.pairwise_cons.mpr ⟨hq, hincb'.2⟩⟩, ?_⟩
    · intro f hf
      rcases List.mem_cons.mp hf with rfl | hf
      · exact hlo
      · exact hincb'.1 f hf
    · intro f hf g hg
      have hfl : f.1 < lo := hincab f hf (lo, leafId) (by simp)
      rcases List.mem_cons.mp hg with rfl | hg
      · exact hfl
      · rcases List.mem_cons.mp hg with rfl | hg
        · exact hfl.trans hlo
        · exact hincab f hf g (by simp [hg])
  · intro f hf
    rcases hcase f hf with hf | rfl | rfl
    · rw [hat f hf]
      exact ho.sorted f (hold f hf)
    · rw [h.left]
      exact hsl
    · rw [h.right]
      exact hsr
  · intro f hf
    rcases hcase f hf with hf | rfl | rfl
    · rw [hat f hf]
      exact ho.above f (hold f hf)
    · rw [h.left]
      exact fun k hk => habove k (List.mem_append_left _ hk)
    · rw [h.right]
      intro k hk
      rcases List.mem_cons.mp hk with rfl | hk
      · exact le_refl _
      · exact WithBot.coe_le_coe.mpr (List.rel_of_pairwise_cons hsr hk).le
  · refine List.pairwise_append.mpr ⟨?_, List.pairwise_cons.mpr ⟨?_,
      List.pairwise_cons.mpr ⟨?_, ?_⟩⟩, ?_⟩
    · refine hba.imp_of_mem fun {f g} hf _ hfg => ?_
      rw [hat f (by simp [hf])]
      exact hfg
    · rw [h.left]
      intro f hf k hk
      rcases List.mem_cons.mp hf with rfl | hf
      · exact hleft k hk
      · exact hbelow f hf k (List.mem_append_left _ hk)
    · rw [h.right]
      exact fun f hf k hk => hbelow f hf k (List.mem_append_right _ hk)
    · refine hbb.of_cons.imp_of_mem fun {f g} hf _ hfg => ?_
      rw [hat f (by simp [hf])]
      exact hfg
    · intro f hf g hg k hk
      rw [hat f (by simp [hf])] at hk
      have hkl := hbab f hf (lo, leafId) (by simp) k hk
      rcases List.mem_cons.mp hg with rfl | hg
      · exact hkl
      · rcases List.mem_cons.mp hg with rfl | hg
        · exact hkl.trans hlo
        · exact hbab f hf g (by simp [hg]) k hk

omit [LinearOrder K] in
theorem LeafHalved.leafEntries (h : LeafHalved N N' leafId new kl kr vl vr)
    (hne : ∀ f ∈ a ++ b, f.2 ≠ leafId) (hnew : ∀ f ∈ a ++ (lo, leafId) :: b, f.2 ≠ new)
    (hk : (N leafId).keys = kl ++ kr) (hv : (N leafId).values = vl ++ vr)
    (hvl : vl.length = kl.length) :
    leafEntries N' (a ++ (lo, leafId) :: (↑q, new) :: b) =
      leafEntries N (a ++ (lo, leafId) :: b) := by
  have hsame : ∀ f ∈ a ++ b,
      (N' f.2).keys = (N f.2).keys ∧ (N' f.2).values = (N f.2).values := fun f hf =>
    have := h.at_leaf (hne f hf) (hnew f (mem_insert_middle hf))
    ⟨this.1, this.2.1⟩
  have hrest : ∀ l, (∀ f ∈ l, f ∈ a ++ b) → Index.leafEntries N' l = Index.leafEntries N l :=
    fun l hl => leafEntries_congr fun f hf => hsame f (hl f hf)
  rw [leafEntries_append, leafEntries_append, leafEntries_cons, leafEntries_cons,
    leafEntries_cons, h.left, h.right, hk, hv, List.zip_append hvl.symm,
    hrest a fun f hf => by simp [hf], hrest b fun f hf => by simp [hf]]
  simp

end Halved

/-- A heavy leaf is split. -/
theorem Shape.splitLeaf (h : Shape t (some leafId) (a ++ (lo, leafId) :: b) ups)
    (hheavy : t.order ≤ (t.nodeAt leafId).keys.length) :
    ∃ (t' : BTreeIndex K) (q : K) (ups' : List (Level K)), t.splitLeaf leafId = some t' ∧ SameHeader t t' ∧
      Shape t' none (a ++ (lo, leafId) :: (↑q, t.arena.length) :: b) ups' ∧
      leafEntries t'.nodeAt (a ++ (lo, leafId) :: (↑q, t.arena.length) :: b) =
        leafEntries t.nodeAt (a ++ (lo, leafId) :: b) ∧
      q ∈ (t.nodeAt leafId).keys ∧
      (t'.nodeAt leafId).keys ≠ [] ∧
      (t'.nodeAt leafId).keys.head? = (t.nodeAt leafId).keys.head? ∧
      (t'.nodeAt t.arena.length).keys.head? = some q ∧
      (∀ e ∈ a ++ b, (t'.nodeAt e.2).keys = (t.nodeAt e.2).keys) := by
  have he : (lo, leafId) ∈ a ++ (lo, leafId) :: b := by simp
  have hid : leafId < t.arena.length := h.inArena (.inl (Level.mem_ids he))
  have horder := h.order
  let mid := (t.nodeAt leafId).keys.length / 2
  have hal : (t.nodeAt leafId).values.length = (t.nodeAt leafId).keys.length :=
    h.leaf.aligned _ he
  have hup : (t.nodeAt leafId).keys.length < t.order + 1 := by
    simpa using h.leaf.upper _ he
  have hmid : mid < (t.nodeAt leafId).keys.length := by omega
  obtain ⟨kl, q, kr, hk, hkl⟩ : ∃ kl q kr,
      (t.nodeAt leafId).keys = kl ++ q :: kr ∧ kl.length = mid :=
    ⟨(t.nodeAt leafId).keys.take mid, (t.nodeAt leafId).keys[mid],
      (t.nodeAt leafId).keys.drop (mid + 1), by simp, by rw [List.length_take]; omega⟩
  obtain ⟨vl, vr, hv, hvl⟩ : ∃ vl vr, (t.nodeAt leafId).values = vl ++ vr ∧ vl.length = mid :=
    ⟨(t.nodeAt leafId).values.take mid, (t.nodeAt leafId).values.drop mid,
      (List.take_append_drop ..).symm, by rw [List.length_take]; omega⟩
  have hlen : kl.length + (kr.length + 1) = (t.nodeAt leafId).keys.length := by
    rw [hk, List.length_append, List.length_cons]
  have hvlen : vl.length + vr.length = (t.nodeAt leafId).keys.length := by
    rw [← hal, hv, List.length_append]
  obtain ⟨hne, hups⟩ := h.distinct.middle_notMem
  have hin : ∀ f ∈ a ++ (lo, leafId) :: b, f.2 < t.arena.length :=
    fun f hf => h.inArena (.inl (Level.mem_ids hf))
  have hnew : ∀ f ∈ a ++ (lo, leafId) :: b, f.2 ≠ t.arena.length := fun f hf => (hin f hf).ne
  have hnodup : (Level.ids (a ++ (lo, leafId) :: b)).Nodup := by
    have := h.distinct.nodup
    rw [levelIds_cons] at this
    exact this.of_append_left
  have hnext : ∀ id, (t.nodeAt leafId).next = some id → id < t.arena.length ∧ id ≠ leafId := by
    intro id hnid
    have hchain := h.leaf.chain
    rw [Level.ids_append, Level.ids_cons] at hchain
    have hhead := (Chain.linked_at hchain).2
    rw [Option.or_none] at hhead
    have hmem : id ∈ Level.ids b := List.mem_of_mem_head? (hhead.symm.trans hnid)
    obtain ⟨f, hf, rfl⟩ := List.mem_map.mp hmem
    exact ⟨hin f (by simp [hf]), hne f (by simp [hf])⟩
  obtain ⟨t1, hrun, hheader, hroot, hsize, hhalf⟩ := splitLeaf_eq hid hk hv hkl
    (hvl.trans hkl.symm) hnext
  have hstack : Stack t1.nodeAt t1.order none t1.root (a ++ (lo, leafId) :: b) ups := by
    rw [hheader.order, hroot]
    have haway : ∀ id ∈ levelIds ups, id ≠ leafId ∧ id ≠ t.arena.length := fun id hid =>
      ⟨ne_of_mem_of_not_mem hid hups, (h.inArena (.inr hid)).ne⟩
    have hsame := @hhalf.at_leaf
    refine h.stack.congr (fun id hid => ?_) (fun _ _ => le_refl _) fun id hid => ?_
    · obtain ⟨h1, h2⟩ := haway id hid
      exact ⟨(hsame h1 h2).1, (hsame h1 h2).2.2.2.2.2, (hsame h1 h2).2.2.1⟩
    · by_cases h1 : id = leafId
      · rw [h1, hhalf.left]
      · refine (hsame h1 ?_).2.2.2.2.1
        rcases List.mem_append.mp hid with hid | hid
        · exact (h.inArena (.inl hid)).ne
        · exact (haway id hid).2
  have hd1 : Distinct t1.arena.length ((a ++ (lo, leafId) :: (↑q, t.arena.length) :: b) :: ups) := by
    have hcut : ∀ x : Level K, a ++ (lo, leafId) :: x = (a ++ [(lo, leafId)]) ++ x := by simp
    have := h.distinct
    rw [hcut] at this ⊢
    exact this.insert rfl hsize
  have hordered := hhalf.ordered h.ordered hne hnew hk (by
    rintro rfl
    rw [List.length_nil] at hkl
    omega)
  have hleaf := hhalf.leafLevel (q := q) h.leaf hne hnew hnodup (hvl.trans hkl.symm)
    (by rw [List.length_cons]; omega) (by omega) (by rw [List.length_cons]; omega) hv
  have hentries := hhalf.leafEntries (q := q) hne hnew hk hv (hvl.trans hkl.symm)
  obtain ⟨t', ups', hrun', hframe, hstack', hd', _, _⟩ := insertIntoParent_spec hstack hd1
    hordered.increasing (hheader.comparator.trans h.asc) (hheader.order ▸ horder)
    (show ups.length < t1.arena.length by
      have := h.stack.ups_length_lt h.distinct
      omega)
  have hkeep : ∀ f ∈ a ++ (lo, leafId) :: (↑q, t.arena.length) :: b,
      t'.nodeAt f.2 = setParent (t'.nodeAt f.2).parent (t1.nodeAt f.2) := fun f hf =>
    hframe.keep f.2 (hd1.inArena _ (mem_levelIds_cons.mpr (.inl (Level.mem_ids hf))))
      (hd1.notMem_above (Level.mem_ids hf))
  have hkeys : ∀ f ∈ a ++ (lo, leafId) :: (↑q, t.arena.length) :: b,
      (t'.nodeAt f.2).keys = (t1.nodeAt f.2).keys := fun f hf => by
    rw [hkeep f hf, setParent_keys]
  have hentries' : leafEntries t'.nodeAt (a ++ (lo, leafId) :: (↑q, t.arena.length) :: b) =
      leafEntries t.nodeAt (a ++ (lo, leafId) :: b) := by
    rw [← hentries]
    exact leafEntries_congr fun f hf => by
      rw [hkeep f hf]
      exact ⟨rfl, rfl⟩
  refine ⟨t', q, ups', hrun.trans hrun', hheader.trans hframe.header,
    ⟨hstack', hd', ?_, hordered.congr hkeys, ?_, ?_⟩, hentries', by simp [hk], ?_, ?_, ?_, ?_⟩
  · rw [hframe.header.order, hheader.order]
    exact hleaf.congr hkeep
  · rw [hframe.header.comparator, hheader.comparator, h.asc]
  · rw [hframe.header.order, hheader.order]
    exact horder
  · rw [hkeys _ (by simp : (lo, leafId) ∈ _), hhalf.left]
    rintro rfl
    rw [List.length_nil] at hkl
    omega
  · rw [hkeys _ (by simp : (lo, leafId) ∈ _), hhalf.left, hk]
    cases kl with
    | nil =>
      rw [List.length_nil] at hkl
      omega
    | cons k kl => rfl
  · rw [hkeys _ (by simp : ((q : WithBot K), t.arena.length) ∈ _), hhalf.right]
    rfl
  · intro f hf
    have hf' : f ∈ a ++ (lo, leafId) :: b := mem_insert_middle hf
    rw [hkeys f, (hhalf.at_leaf (hne f hf) (hnew f hf')).1]
    simp only [List.mem_append, List.mem_cons] at hf' ⊢
    tauto

end Split

section Put

variable [LinearOrder K]

/-- `node'` is the leaf `node` after the row ids were put under the key. -/
inductive Node.Put (node : Node K) (key : K) (ids : List RowId) : Node K → Prop where
  | found (ka kb : List K) (va vb : List (List RowId)) (old : List RowId)
    (keys : node.keys = ka ++ key :: kb) (values : node.values = va ++ old :: vb)
    (before : va.length = ka.length) :
    Put node key ids { node with keys := ka ++ key :: kb, values := va ++ (old ++ ids) :: vb }
  | missing (ka kb : List K) (va vb : List (List RowId))
    (keys : node.keys = ka ++ kb) (values : node.values = va ++ vb)
    (before : va.length = ka.length) (lt : ∀ x ∈ ka, x < key) (gt : ∀ y ∈ kb, key < y) :
    Put node key ids { node with keys := ka ++ key :: kb, values := va ++ ids :: vb }

variable {t : BTreeIndex K} {leaves : Level K} {ups : List (Level K)} {a b : Level K}
  {e : WithBot K × NodeId} {key : K} {ids : List RowId} {node : Node K}

theorem Node.Put.insertAt {node' : Node K} {id : RowId} (h : node.Put key [id] node')
    (hs : node.keys.Pairwise (· < ·)) :
    node.insertAt (node.findKeyPosition key) key id = some node' := by
  have hpoint : ∀ ka kb, node.keys = ka ++ kb → (∀ x ∈ ka, x < key) → (∀ y ∈ kb, key ≤ y) →
      node.findKeyPosition key = ka.length := by
    intro ka kb hk hlt hge
    rw [Node.findKeyPosition, hk]
    exact Vec.partitionPoint_append (fun x hx => by simp [hlt x hx])
      fun y hy => by simp [hge y hy]
  cases h with
  | found ka kb va vb old hk hv hlen =>
    rw [hk] at hs
    obtain ⟨_, hs2, hs3⟩ := List.pairwise_append.mp hs
    have hpos := hpoint ka (key :: kb) hk (fun x hx => hs3 x hx key (by simp)) (by
      intro y hy
      rcases List.mem_cons.mp hy with rfl | hy
      · exact le_refl _
      · exact (List.rel_of_pairwise_cons hs2 hy).le)
    have hany : (node.keys[ka.length]?).any (· == key) = true := by
      rw [hk]
      simp
    rw [hpos, Node.insertAt, hany, hk, hv, ← hlen]
    simp
  | missing ka kb va vb hk hv hlen hlt hgt =>
    have hpos := hpoint ka kb hk hlt fun y hy => (hgt y hy).le
    have hany : (node.keys[ka.length]?).any (· == key) = false := by
      rw [hk, List.getElem?_append_right (le_refl _), Nat.sub_self]
      cases kb with
      | nil => rfl
      | cons y kb => simpa using (hgt y (by simp)).ne'
    rw [hpos, Node.insertAt, hany, hk, hv, Vec.insertAt_append,
      Vec.insertAt_append_of_eq hlen.symm]
    rfl

/-- Putting row ids into the covering leaf. -/
theorem Shape.put {node' : Node K} (h : Shape t none leaves ups) (hc : Covers leaves key a e b)
    (hput : (t.nodeAt e.2).Put key ids node') (hids : ids ≠ []) :
    Shape (t.setNode e.2 node') (some e.2) leaves ups ∧
      Multimap.values (leafEntries (t.setNode e.2 node').nodeAt leaves) =
        Function.update (Multimap.values (leafEntries t.nodeAt leaves)) key
          (Multimap.values (leafEntries t.nodeAt leaves) key ++ ids) ∧
      Multimap.size (leafEntries (t.setNode e.2 node').nodeAt leaves) =
        Multimap.size (leafEntries t.nodeAt leaves) + ids.length := by
  have he : e ∈ leaves := by simp [hc.split]
  have hsorted := h.ordered.sorted e he
  have hal := h.leaf.aligned e he
  have hup := h.leaf.upper e he
  rw [maxKeysOf_none] at hup
  have hbelow : ∀ f ∈ b, ∀ k ∈ (t.nodeAt e.2).keys, (k : WithBot K) < f.1 := by
    have := h.ordered.below
    rw [hc.split] at this
    exact fun f hf => List.rel_of_pairwise_cons (List.pairwise_append.mp this).2.1 hf
  have hentries : leafEntries t.nodeAt leaves = leafEntries t.nodeAt a ++
      (t.nodeAt e.2).keys.zip (t.nodeAt e.2).values ++ leafEntries t.nodeAt b := by
    rw [hc.split, leafEntries_append, leafEntries_cons, List.append_assoc]
  have hbefore := h.ordered.before_lt hc
  cases hput with
  | found ka kb va vb old hk hv hlen =>
    have hlen' : vb.length = kb.length := by
      rw [hk, hv] at hal
      simp only [List.length_append, List.length_cons] at hal
      omega
    have hold := h.values_of_found hc hk hv hlen
    rw [hk] at hsorted hbelow
    rw [hk, List.length_append, List.length_cons] at hup
    have hka : ∀ p ∈ leafEntries t.nodeAt a ++ ka.zip va, p.1 ≠ key := by
      intro p hp
      rcases List.mem_append.mp hp with hp | hp
      · exact (hbefore p hp).ne
      · exact ((List.pairwise_append.mp hsorted).2.2 p.1 (List.of_mem_zip hp).1 key
          (by simp)).ne
    have hstored : ∀ vs ∈ va ++ (old ++ ids) :: vb, vs ≠ [] := by
      have := h.leaf.stored e he
      rw [hv] at this
      intro vs hvs
      rcases List.mem_append.mp hvs with hvs | hvs
      · exact this vs (by simp [hvs])
      · rcases List.mem_cons.mp hvs with rfl | hvs
        · simp [hids]
        · exact this vs (by simp [hvs])
    obtain ⟨hshape, hnew⟩ := h.setLeaf hc.split (some e.2)
      (ka ++ key :: kb) (va ++ (old ++ ids) :: vb) hsorted
      (by simp [hlen, hlen']) hstored (by simp; omega) (fun f _ => le_maxKeysOf ..)
      (by simpa [hk] using h.ordered.above e he) hbelow
    · refine ⟨hshape, ?_, ?_⟩
      · rw [hold, hnew, hentries, hk, hv, List.zip_append hlen.symm, List.zip_append hlen.symm,
          List.zip_cons_cons, List.zip_cons_cons]
        simp only [List.append_assoc, List.cons_append]
        rw [← List.append_assoc, ← List.append_assoc]
        exact Multimap.values_replace old _ hka
      · rw [hnew, hentries, hk, hv, List.zip_append hlen.symm, List.zip_append hlen.symm,
          List.zip_cons_cons, List.zip_cons_cons]
        simp only [Multimap.size_append, Multimap.size_cons, List.length_append]
        omega
  | missing ka kb va vb hk hv hlen hlt hgt =>
    have hlen' : vb.length = kb.length := by
      rw [hk, hv] at hal
      simp only [List.length_append] at hal
      omega
    have hnot : key ∉ (t.nodeAt e.2).keys := by
      rw [hk, List.mem_append]
      rintro (hm | hm)
      · exact (hlt key hm).false
      · exact (hgt key hm).false
    have hold := h.values_of_missing hc hnot
    have habove := h.ordered.above e he
    rw [hk] at hsorted hbelow habove
    rw [hk, List.length_append] at hup
    obtain ⟨hs1, hs2, hs3⟩ := List.pairwise_append.mp hsorted
    have hka : ∀ p ∈ leafEntries t.nodeAt a ++ ka.zip va, p.1 ≠ key := by
      intro p hp
      rcases List.mem_append.mp hp with hp | hp
      · exact (hbefore p hp).ne
      · exact (hlt p.1 (List.of_mem_zip hp).1).ne
    have hsorted' : (ka ++ key :: kb).Pairwise (· < ·) := by
      refine List.pairwise_append.mpr ⟨hs1, List.pairwise_cons.mpr ⟨hgt, hs2⟩, ?_⟩
      intro x hx y hy
      rcases List.mem_cons.mp hy with rfl | hy
      · exact hlt x hx
      · exact hs3 x hx y hy
    have hstored : ∀ vs ∈ va ++ ids :: vb, vs ≠ [] := by
      have := h.leaf.stored e he
      rw [hv] at this
      intro vs hvs
      rcases List.mem_append.mp hvs with hvs | hvs
      · exact this vs (by simp [hvs])
      · rcases List.mem_cons.mp hvs with rfl | hvs
        · exact hids
        · exact this vs (by simp [hvs])
    have habove' : ∀ k ∈ ka ++ key :: kb, e.1 ≤ k := by
      intro k hk
      rcases List.mem_append.mp hk with hk | hk
      · exact habove k (by simp [hk])
      · rcases List.mem_cons.mp hk with rfl | hk
        · exact hc.low
        · exact habove k (by simp [hk])
    have hbelow' : ∀ f ∈ b, ∀ k ∈ ka ++ key :: kb, (k : WithBot K) < f.1 := by
      intro f hf k hk
      rcases List.mem_append.mp hk with hk | hk
      · exact hbelow f hf k (by simp [hk])
      · rcases List.mem_cons.mp hk with rfl | hk
        · exact hc.high f hf
        · exact hbelow f hf k (by simp [hk])
    obtain ⟨hshape, hnew⟩ := h.setLeaf hc.split (some e.2)
      (ka ++ key :: kb) (va ++ ids :: vb) hsorted' (by simp [hlen, hlen'])
      hstored (by simp; omega) (fun f _ => le_maxKeysOf ..) habove' hbelow'
    refine ⟨hshape, ?_, ?_⟩
    · rw [hold, hnew, hentries, hk, hv, List.zip_append hlen.symm, List.zip_append hlen.symm,
        List.zip_cons_cons]
      simp only [List.append_assoc, List.cons_append, List.nil_append]
      rw [← List.append_assoc, ← List.append_assoc]
      exact Multimap.values_middle _ hka
    · rw [hnew, hentries, hk, hv, List.zip_append hlen.symm, List.zip_append hlen.symm,
        List.zip_cons_cons]
      simp only [Multimap.size_append, Multimap.size_cons]
      omega

end Put

section Grow

variable [LinearOrder K] {t : BTreeIndex K} {leaves : Level K} {ups : List (Level K)}
  {a b : Level K} {e : WithBot K × NodeId} {key : K} {ids : List RowId} {node' : Node K}

theorem Shape.addRows {heavy : Option NodeId} (h : Shape t heavy leaves ups) (count : Nat) :
    Shape (t.addRows count) heavy leaves ups :=
  ⟨h.stack, h.distinct, h.leaf, h.ordered, h.asc, h.order⟩

theorem Node.Put.keys_ne_nil {node : Node K} (h : node.Put key ids node') : node'.keys ≠ [] := by
  cases h <;> simp

theorem Node.Put.head?_le {node : Node K} (h : node.Put key ids node') {first first' : K}
    (hfirst : node.keys.head? = some first) (hfirst' : node'.keys.head? = some first') :
    first' ≤ first := by
  cases h with
  | found ka kb va vb old hk hv hlen =>
    rw [hk] at hfirst
    exact (Option.some.inj (hfirst.symm.trans hfirst')).ge
  | missing ka kb va vb hk hv hlen hlt hgt =>
    cases ka with
    | nil =>
      obtain rfl : key = first' := by simpa using hfirst'
      rw [hk, List.nil_append] at hfirst
      exact (hgt first (List.mem_of_mem_head? hfirst)).le
    | cons x ka =>
      rw [hk] at hfirst
      exact (Option.some.inj (hfirst.symm.trans hfirst')).ge

omit [LinearOrder K] in
theorem Node.Put.length_le [LinearOrder K] {node : Node K} (h : node.Put key ids node') :
    node'.keys.length ≤ node.keys.length + 1 := by
  cases h with
  | found ka kb va vb old hk hv hlen => simp [hk]
  | missing ka kb va vb hk hv hlen hlt hgt => simp [hk]; omega

omit [LinearOrder K] in
theorem mem_tail_insert {x y f : WithBot K × NodeId} (h : f ∈ (a ++ x :: y :: b).tail) :
    f = y ∨ f ∈ (a ++ x :: b).tail := by
  cases a with
  | nil => simpa using h
  | cons g a =>
    simp only [List.cons_append, List.tail_cons, List.mem_append, List.mem_cons] at h ⊢
    tauto

/-- Row ids enter the covering leaf, which is split when it is full. -/
theorem Tree.put (h : Tree t leaves ups) (hc : Covers leaves key a e b)
    (hput : (t.nodeAt e.2).Put key ids node') (hids : ids ≠ []) :
    ∃ t' leaves' ups', (if node'.keyCount ≥ t.order
        then ((t.setNode e.2 node').addRows ids.length).splitLeaf e.2
        else some ((t.setNode e.2 node').addRows ids.length)) = some t' ∧
      Tree t' leaves' ups' ∧ t'.order = t.order ∧ t'.unique = t.unique ∧
      Multimap.values (leafEntries t'.nodeAt leaves') =
        Function.update (Multimap.values (leafEntries t.nodeAt leaves)) key
          (Multimap.values (leafEntries t.nodeAt leaves) key ++ ids) ∧
      (node'.keyCount < t.order → leaves' = leaves) ∧
      (∀ low k, Gap t'.nodeAt leaves' low k → Gap t.nodeAt leaves low k) := by
  obtain ⟨hshape, hvalues, hsize⟩ := h.toShape.put hc hput hids
  have he : e ∈ leaves := by simp [hc.split]
  have hlt : e.2 < t.arena.length := h.inArena (.inl (Level.mem_ids he))
  have hself : (t.setNode e.2 node').nodeAt e.2 = node' := by
    rw [nodeAt_setNode hlt, Function.update_self]
  have hdist := h.distinct
  rw [hc.split] at hdist
  obtain ⟨hne, _⟩ := hdist.middle_notMem
  have hother : ∀ f ∈ a ++ b, (t.setNode e.2 node').nodeAt f.2 = t.nodeAt f.2 := by
    intro f hf
    rw [nodeAt_setNode hlt, Function.update_of_ne (hne f hf)]
  have hnonempty : ∀ f ∈ leaves, ((t.setNode e.2 node').nodeAt f.2).keys ≠ [] := by
    intro f hf
    by_cases hfe : f.2 = e.2
    · rw [hfe, hself]
      exact hput.keys_ne_nil
    · rw [nodeAt_setNode hlt, Function.update_of_ne hfe]
      refine h.noEmpty ?_ f hf
      rintro rfl
      rw [h.stack.1, List.mem_singleton] at hf he
      exact hfe (by rw [hf, he])
  have htail : ∀ f ∈ leaves.tail, (t.nodeAt f.2).keys ≠ [] := by
    intro f hf
    refine h.noEmpty ?_ f (List.mem_of_mem_tail hf)
    rintro rfl
    rw [h.stack.1] at hf
    simp at hf
  -- the first key of a leaf only moves down
  have hgaps : ∀ low k, Gap (t.setNode e.2 node').nodeAt leaves low k →
      Gap t.nodeAt leaves low k := by
    rintro _ k ⟨f, hf, rfl, hlow, first, hhead, hk⟩
    by_cases hfe : f.2 = e.2
    · have hhead' := List.head?_eq_some_head (htail f hf)
      rw [hfe, hself] at hhead
      exact ⟨f, hf, rfl, hlow, _, hhead', hk.trans_le (hput.head?_le (hfe ▸ hhead') hhead)⟩
    · rw [nodeAt_setNode hlt, Function.update_of_ne hfe] at hhead
      exact ⟨f, hf, rfl, hlow, first, hhead, hk⟩
  by_cases hfull : node'.keyCount ≥ t.order
  · obtain ⟨lo, leafId⟩ := e
    obtain rfl := hc.split
    obtain ⟨t', q, ups', hrun, hheader, hshape', hentries, hq, hne1, hhead1, hhead2, hrest⟩ :=
      (hshape.addRows ids.length).splitLeaf (by
        change t.order ≤ ((t.setNode leafId node').nodeAt leafId).keys.length
        rw [hself]
        exact hfull)
    generalize ((t.setNode leafId node').addRows ids.length).arena.length = new at *
    have hold : ∀ f ∈ a ++ (lo, leafId) :: b,
        (t'.nodeAt f.2).keys.head? = ((t.setNode leafId node').nodeAt f.2).keys.head? := by
      intro f hf
      by_cases hfe : f = (lo, leafId)
      · rw [hfe]
        exact hhead1
      · rw [hrest f]
        · rfl
        · simp only [List.mem_append, List.mem_cons] at hf ⊢
          tauto
    refine ⟨t', _, ups', by rw [if_pos hfull, hrun], ⟨hshape', fun _ f hf => ?_, ?_⟩,
      hheader.order, hheader.unique, ?_, fun hroom => absurd hroom (not_lt.mpr hfull), ?_⟩
    · intro hnil
      have hhead : (t'.nodeAt f.2).keys.head? = none := by rw [hnil, List.head?_nil]
      by_cases hfq : f = (↑q, new)
      · rw [hfq, hhead2] at hhead
        simp at hhead
      · have hf' : f ∈ a ++ (lo, leafId) :: b := by
          simp only [List.mem_append, List.mem_cons] at hf ⊢
          tauto
        rw [hold f hf', List.head?_eq_none_iff] at hhead
        exact hnonempty f hf' hhead
    · rw [hheader.stats, hentries]
      change t.stats.totalRows + ids.length = _
      rw [h.counted]
      exact hsize.symm
    · rw [hentries]
      exact hvalues
    · rintro _ k ⟨f, hf, rfl, hlow, first, hhead, hk⟩
      refine hgaps _ k ?_
      rcases mem_tail_insert hf with rfl | hf
      · rw [hhead2, Option.some.injEq] at hhead
        rw [hhead] at hlow
        exact absurd (WithBot.coe_le_coe.mp hlow) (not_le.mpr hk)
      · rw [hold f (List.mem_of_mem_tail hf)] at hhead
        exact ⟨f, hf, rfl, hlow, first, hhead, hk⟩
  · have hroom : node'.keys.length < t.order := not_le.mp hfull
    refine ⟨(t.setNode e.2 node').addRows ids.length, leaves, ups, by rw [if_neg hfull],
      ⟨Shape.addRows ⟨hshape.stack, hshape.distinct, ⟨hshape.leaf.isLeaf, hshape.leaf.aligned, ?_,
        hshape.leaf.stored, hshape.leaf.chain⟩, hshape.ordered, hshape.asc, hshape.order⟩ _,
        fun _ => hnonempty, ?_⟩, rfl, rfl, hvalues, fun _ => rfl, hgaps⟩
    · intro f hf
      by_cases hfe : f.2 = e.2
      · rw [hfe, hself]
        exact hroom
      · have := hshape.leaf.upper f hf
        rwa [maxKeysOf_of_ne (Ne.symm hfe)] at this
    · change t.stats.totalRows + ids.length = _
      rw [h.counted]
      exact hsize.symm

theorem Node.exists_put {node : Node K} (hs : node.keys.Pairwise (· < ·))
    (hlen : node.values.length = node.keys.length) (key : K) (ids : List RowId) :
    ∃ node', node.Put key ids node' := by
  cases node.finds hs hlen key with
  | found ka kb va vb old hk hv hva => exact ⟨_, .found ka kb va vb old hk hv hva⟩
  | missing ka kb va vb hk hv hva _ hlt hgt => exact ⟨_, .missing ka kb va vb hk hv hva hlt hgt⟩

theorem Shape.findKey_isSome {heavy : Option NodeId} (h : Shape t heavy leaves ups)
    (hc : Covers leaves key a e b) :
    ((t.nodeAt e.2).findKey key).isSome = true ↔
      Multimap.values (leafEntries t.nodeAt leaves) key ≠ [] := by
  have he : e ∈ leaves := by simp [hc.split]
  have hcontains := h.containsKey_eq key
  rw [BTreeIndex.containsKey, h.findLeaf_eq hc] at hcontains
  simp only [Option.bind_eq_bind, Option.bind_some,
    node_eq (h.inArena (.inl (Level.mem_ids he))), Option.some.injEq] at hcontains
  rw [hcontains]
  simp

theorem Tree.insert (h : Tree t leaves ups) (key : K) (id : RowId) :
    ∃ t' r leaves' ups', t.insert key id = some (t', r) ∧ Tree t' leaves' ups' ∧
      t'.order = t.order ∧ t'.unique = t.unique ∧
      (if t.unique ∧ Multimap.values (leafEntries t.nodeAt leaves) key ≠ [] then
        t' = t ∧ r = .error .duplicateKey
      else r = .ok () ∧ Multimap.values (leafEntries t'.nodeAt leaves') =
        Function.update (Multimap.values (leafEntries t.nodeAt leaves)) key
          (Multimap.values (leafEntries t.nodeAt leaves) key ++ [id])) ∧
      (∀ low k, Gap t'.nodeAt leaves' low k → Gap t.nodeAt leaves low k) := by
  obtain ⟨a, e, b, hc⟩ := h.toShape.exists_covers key
  have he : e ∈ leaves := by simp [hc.split]
  have hnode := node_eq (h.inArena (.inl (Level.mem_ids he)))
  have hsorted := h.ordered.sorted e he
  have hfind := h.toShape.findKey_isSome hc
  rw [BTreeIndex.insert, h.toShape.findLeaf_eq hc]
  simp only [Option.bind_eq_bind, Option.bind_some, hnode]
  by_cases hdup : t.unique ∧ Multimap.values (leafEntries t.nodeAt leaves) key ≠ []
  · refine ⟨t, .error .duplicateKey, leaves, ups, ?_, h, rfl, rfl, ?_, fun _ _ hk => hk⟩
    · rw [if_pos]
      rw [Bool.and_eq_true]
      exact ⟨hdup.1, hfind.mpr hdup.2⟩
    · rw [if_pos hdup]
      exact ⟨rfl, rfl⟩
  · obtain ⟨node', hput⟩ := Node.exists_put hsorted (h.leaf.aligned e he) key [id]
    obtain ⟨t', leaves', ups', hrun, htree, horder, hunique, hvalues, _, hgap⟩ :=
      h.put hc hput (by simp)
    refine ⟨t', .ok (), leaves', ups', ?_, htree, horder, hunique, ?_, hgap⟩
    · rw [if_neg, hput.insertAt hsorted]
      · simp only [Option.bind_some]
        change (if node'.keyCount ≥ t.order then _ else _) = _
        split_ifs at hrun ⊢ with hfull
        · rw [List.length_singleton] at hrun
          rw [hrun]
          rfl
        · rw [Option.some.injEq] at hrun
          rw [← hrun]
          rfl
      · rw [Bool.and_eq_true]
        exact fun hboth => hdup ⟨hboth.1, hfind.mp hboth.2⟩
    · rw [if_neg hdup]
      exact ⟨rfl, hvalues⟩

end Grow

end Cynos.Index
