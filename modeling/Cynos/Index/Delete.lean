import Cynos.Index.Insert
import Cynos.Index.Underflow

/-! Underflow of leaves, and deletion. -/
namespace Cynos.Index

open BTreeIndex

variable {K : Type}

section Replace

variable {N N' : NodeId → Node K} {order : Nat} {x y ms ms' : Level K}

theorem LeafLevel.replace (h : LeafLevel N order none (x ++ ms ++ y))
    (hside : ∀ f ∈ x ++ y, (N' f.2).isLeaf = (N f.2).isLeaf ∧ (N' f.2).keys = (N f.2).keys ∧
      (N' f.2).values = (N f.2).values)
    (hms : ∀ f ∈ ms', (N' f.2).isLeaf = true ∧ (N' f.2).values.length = (N' f.2).keys.length ∧
      (N' f.2).keys.length < order ∧ ∀ ids ∈ (N' f.2).values, ids ≠ [])
    (hchain : Chain.Linked (fun id => (N' id).next) (fun id => (N' id).prev) none
      (x ++ ms' ++ y).ids none) :
    LeafLevel N' order none (x ++ ms' ++ y) := by
  have hcase : ∀ f ∈ x ++ ms' ++ y, f ∈ x ++ y ∧ f ∈ x ++ ms ++ y ∨ f ∈ ms' := by
    intro f hf
    simp only [List.mem_append] at hf ⊢
    tauto
  refine ⟨fun f hf => ?_, fun f hf => ?_, fun f hf => ?_, fun f hf => ?_, hchain⟩ <;>
    rcases hcase f hf with ⟨hf, hold⟩ | hf
  · rw [(hside f hf).1]
    exact h.isLeaf f hold
  · exact (hms f hf).1
  · rw [(hside f hf).2.1, (hside f hf).2.2]
    exact h.aligned f hold
  · exact (hms f hf).2.1
  · rw [(hside f hf).2.1]
    exact h.upper f hold
  · exact (hms f hf).2.2.1
  · rw [(hside f hf).2.2]
    exact h.stored f hold
  · exact (hms f hf).2.2.2

theorem leafEntries_replace
    (hside : ∀ f ∈ x ++ y, (N' f.2).keys = (N f.2).keys ∧ (N' f.2).values = (N f.2).values)
    (hms : leafEntries N' ms' = leafEntries N ms) :
    leafEntries N' (x ++ ms' ++ y) = leafEntries N (x ++ ms ++ y) := by
  rw [leafEntries_append, leafEntries_append, leafEntries_append, leafEntries_append, hms,
    leafEntries_congr fun f hf => hside f (List.mem_append_left y hf),
    leafEntries_congr fun f hf => hside f (List.mem_append_right x hf)]

variable [LinearOrder K]

theorem Ordered.sublist {leaves leaves' : Level K} (h : Ordered N leaves)
    (hsub : leaves'.Sublist leaves) : Ordered N leaves' :=
  ⟨h.increasing.sublist hsub, fun e he => h.sorted e (hsub.subset he),
    fun e he => h.above e (hsub.subset he), h.below.sublist hsub⟩

theorem Ordered.replace (h : Ordered N (x ++ ms ++ y)) {l : WithBot K × NodeId} (hl : l ∈ ms)
    (hside : ∀ f ∈ x ++ y, (N' f.2).keys = (N f.2).keys) (hms : Ordered N' ms')
    (hlow : ∀ f ∈ ms', l.1 ≤ f.1)
    (hhigh : ∀ f ∈ ms', ∀ g ∈ y, f.1 < g.1 ∧ ∀ k ∈ (N' f.2).keys, (k : WithBot K) < g.1) :
    Ordered N' (x ++ ms' ++ y) := by
  have hcase : ∀ f ∈ x ++ ms' ++ y, f ∈ x ++ y ∧ f ∈ x ++ ms ++ y ∨ f ∈ ms' := by
    intro f hf
    simp only [List.mem_append] at hf ⊢
    tauto
  obtain ⟨hixm, hiy, hixmy⟩ := List.pairwise_append.mp h.increasing
  obtain ⟨hix, _, hixm'⟩ := List.pairwise_append.mp hixm
  obtain ⟨hbxm, hby, hbxmy⟩ := List.pairwise_append.mp h.below
  obtain ⟨hbx, _, hbxm'⟩ := List.pairwise_append.mp hbxm
  have hx : ∀ f ∈ x, (N' f.2).keys = (N f.2).keys := fun f hf => hside f (by simp [hf])
  refine ⟨?_, fun f hf => ?_, fun f hf => ?_, ?_⟩
  · refine List.pairwise_append.mpr ⟨List.pairwise_append.mpr ⟨hix, hms.increasing,
      fun f hf g hg => (hixm' f hf l hl).trans_le (hlow g hg)⟩, hiy, fun f hf g hg => ?_⟩
    rcases List.mem_append.mp hf with hf | hf
    · exact hixmy f (List.mem_append_left _ hf) g hg
    · exact (hhigh f hf g hg).1
  · rcases hcase f hf with ⟨hf, hold⟩ | hf
    · rw [hside f hf]
      exact h.sorted f hold
    · exact hms.sorted f hf
  · rcases hcase f hf with ⟨hf, hold⟩ | hf
    · rw [hside f hf]
      exact h.above f hold
    · exact hms.above f hf
  · refine List.pairwise_append.mpr ⟨List.pairwise_append.mpr ⟨?_, hms.below, ?_⟩, ?_, ?_⟩
    · refine hbx.imp_of_mem fun {f g} hf _ hfg => ?_
      rw [hx f hf]
      exact hfg
    · intro f hf g hg k hk
      rw [hx f hf] at hk
      exact (hbxm' f hf l hl k hk).trans_le (hlow g hg)
    · refine hby.imp_of_mem fun {f g} hf _ hfg => ?_
      rw [hside f (by simp [hf])]
      exact hfg
    · intro f hf g hg
      rcases List.mem_append.mp hf with hf | hf
      · rw [hx f hf]
        exact hbxmy f (List.mem_append_left _ hf) g hg
      · exact (hhigh f hf g hg).2

end Replace

section LeafPair

variable [LinearOrder K] {t t' : BTreeIndex K} {u v A B : Level K} {p l : WithBot K × NodeId}
  {q k : K} {right : NodeId} {ka kb : List K} {ca cb : List NodeId} {ups : List (Level K)}

/-- Two neighbouring leaves under a parent with slots `A`, the two, `B`. -/
structure LeafPair (t : BTreeIndex K) (u : Level K) (p : WithBot K × NodeId) (v A : Level K)
    (l : WithBot K × NodeId) (q : K) (right : NodeId) (B : Level K) (ka kb : List K)
    (ca cb : List NodeId) (ups : List (Level K)) : Prop where
  shape : Shape t none (expand t.nodeAt u ++ (A ++ [l, (↑q, right)] ++ B) ++ expand t.nodeAt v)
    ((u ++ p :: v) :: ups)
  siblings : Siblings (t.nodeAt p.2) p.1 A l q right B ka kb ca cb

theorem LeafPair.slots_eq (h : LeafPair t u p v A l q right B ka kb ca cb ups) :
    slots p.1 (t.nodeAt p.2) = A ++ [l, (↑q, right)] ++ B := by
  rw [h.siblings.slots_eq]
  simp

theorem LeafPair.mem (_ : LeafPair t u p v A l q right B ka kb ca cb ups) :
    l ∈ expand t.nodeAt u ++ (A ++ [l, (↑q, right)] ++ B) ++ expand t.nodeAt v ∧
      ((q : WithBot K), right) ∈
        expand t.nodeAt u ++ (A ++ [l, (↑q, right)] ++ B) ++ expand t.nodeAt v := by
  simp

theorem LeafPair.ids_merged (_ : LeafPair t u p v A l q right B ka kb ca cb ups) :
    ∀ id ∈ (expand t.nodeAt u ++ (A ++ [l] ++ B) ++ expand t.nodeAt v).ids,
      id ∈ (expand t.nodeAt u ++ (A ++ [l, (↑q, right)] ++ B) ++ expand t.nodeAt v).ids := by
  intro id hid
  simp only [Level.ids_append, Level.ids_cons, List.mem_append, List.mem_cons] at hid ⊢
  tauto

theorem LeafPair.cells (h : LeafPair t u p v A l q right B ka kb ca cb ups) :
    Cells t p.2 l.2 right := by
  have hd := h.shape.distinct
  have hcut : expand t.nodeAt u ++ (A ++ [l, (↑q, right)] ++ B) ++ expand t.nodeAt v =
      (expand t.nodeAt u ++ A) ++ [l, (↑q, right)] ++ (B ++ expand t.nodeAt v) := by simp
  rw [hcut] at hd
  exact Cells.of_distinct hd

/-- A node outside the tree is none of the three. -/
theorem LeafPair.outside (h : LeafPair t u p v A l q right B ka kb ca cb ups) {id : NodeId}
    (hid : id ∉ levelIds ((expand t.nodeAt u ++ (A ++ [l, (↑q, right)] ++ B) ++
      expand t.nodeAt v) :: (u ++ p :: v) :: ups)) : id ≠ p.2 ∧ id ≠ l.2 ∧ id ≠ right := by
  rw [mem_levelIds_cons, mem_levelIds_cons, not_or, not_or] at hid
  refine ⟨?_, ?_, ?_⟩
  · rintro rfl
    exact hid.2.1 (Level.mem_ids (by simp))
  · rintro rfl
    exact hid.1 (Level.mem_ids h.mem.1)
  · rintro rfl
    exact hid.1 (Level.mem_ids h.mem.2)

/-- The nodes beside the two and their parent. -/
structure Beside (t t' : BTreeIndex K) (u : Level K) (p : WithBot K × NodeId) (v A : Level K)
    (B : Level K) (ups : List (Level K)) : Prop where
  side : ∀ id ∈ (expand t.nodeAt u ++ (A ++ B) ++ expand t.nodeAt v).ids,
    (t'.nodeAt id).keys = (t.nodeAt id).keys ∧ (t'.nodeAt id).values = (t.nodeAt id).values ∧
      (t'.nodeAt id).isLeaf = (t.nodeAt id).isLeaf ∧ (t'.nodeAt id).parent = (t.nodeAt id).parent
  above : ∀ id ∈ (u ++ v).ids ++ levelIds ups, t'.nodeAt id = t.nodeAt id

theorem LeafPair.stack (h : LeafPair t u p v A l q right B ka kb ca cb ups)
    (light' : Option NodeId) (ms' : Level K) (hbeside : Beside t t' u p v A B ups)
    (hheader : SameHeader t t') (hroot : t'.root = t.root)
    (hslots' : slots p.1 (t'.nodeAt p.2) = A ++ ms' ++ B)
    (hint : (t'.nodeAt p.2).Internal (minKeysOf light' p.2) t.order)
    (hparent : (t'.nodeAt p.2).parent = (t.nodeAt p.2).parent)
    (hms' : ∀ e ∈ ms', (t'.nodeAt e.2).parent = some p.2) :
    Stack t'.nodeAt t'.order light' t'.root
      (expand t.nodeAt u ++ (A ++ ms' ++ B) ++ expand t.nodeAt v) ((u ++ p :: v) :: ups) := by
  rw [hheader.order, hroot]
  refine h.shape.stack.relink h.slots_eq hslots' hint (fun id hid => ?_) (fun id hid => ?_) hms'
  · rw [hbeside.above id hid]
    exact ⟨.refl _, minKeysOf_le ..⟩
  · rcases List.mem_append.mp hid with hid | hid
    · exact (hbeside.side id hid).2.2.2
    · by_cases hidp : id = p.2
      · rw [hidp, hparent]
      · rw [hbeside.above]
        simp only [Level.ids_append, Level.ids_cons, List.mem_append, List.mem_cons] at hid ⊢
        tauto

theorem LeafPair.beside (h : LeafPair t u p v A l q right B ka kb ca cb ups)
    {pNode leftNode rightNode : Node K} {moved : List NodeId} {f : Node K → Node K}
    (hr : Rebalanced t t' p.2 l.2 right pNode leftNode rightNode moved f)
    (hf : ∀ n, (f n).keys = n.keys ∧ (f n).values = n.values ∧ (f n).isLeaf = n.isLeaf ∧
      (f n).parent = n.parent)
    (hmoved : ∀ c ∈ moved, c ∈ (expand t.nodeAt u ++ (A ++ [l, (↑q, right)] ++ B) ++
      expand t.nodeAt v).ids) : Beside t t' u p v A B ups := by
  have hd := h.shape.distinct
  have hp : p.2 ∈ levelIds ((u ++ p :: v) :: ups) :=
    mem_levelIds_cons.mpr (.inl (Level.mem_ids (by simp)))
  have hmem : ∀ id ∈ (expand t.nodeAt u ++ (A ++ B) ++ expand t.nodeAt v).ids,
      id ∈ (expand t.nodeAt u ++ (A ++ [l, (↑q, right)] ++ B) ++ expand t.nodeAt v).ids := by
    intro id hid
    simp only [Level.ids_append, List.mem_append] at hid ⊢
    tauto
  have hne : ∀ id ∈ (expand t.nodeAt u ++ (A ++ B) ++ expand t.nodeAt v).ids,
      id ≠ l.2 ∧ id ≠ right := by
    have hn := hd.nodup
    rw [levelIds_cons] at hn
    have hn := hn.of_append_left
    have hperm : (expand t.nodeAt u ++ (A ++ [l, (↑q, right)] ++ B) ++ expand t.nodeAt v).ids.Perm
        ([l.2, right] ++ (expand t.nodeAt u ++ (A ++ B) ++ expand t.nodeAt v).ids) := by
      simp only [Level.ids_append, List.append_assoc, Level.ids_cons, Level.ids_nil]
      refine (List.Perm.append_left _ (List.perm_append_comm_assoc _ _ _)).trans ?_
      exact List.perm_append_comm_assoc _ _ _
    have hdis := List.disjoint_of_nodup_append (hperm.nodup_iff.mp hn)
    refine fun id hid => ⟨?_, ?_⟩
    · rintro rfl
      exact hdis (by simp) hid
    · rintro rfl
      exact hdis (by simp) hid
  refine ⟨fun id hid => ?_, fun id hid => ?_⟩
  · have hidp : id ≠ p.2 := fun heq => hd.notMem_above (hmem id hid) (heq ▸ hp)
    obtain ⟨hl, hri⟩ := hne id hid
    by_cases hm : id ∈ moved
    · rw [hr.atMoved id hm]
      exact hf _
    · rw [hr.other id hidp hl hri hm]
      exact ⟨rfl, rfl, rfl, rfl⟩
  · have hidup : id ∈ levelIds ((u ++ p :: v) :: ups) := by
      rw [mem_levelIds_cons]
      simp only [Level.ids_append, Level.ids_cons, List.mem_append, List.mem_cons] at hid ⊢
      tauto
    obtain ⟨hpne, hpups⟩ := hd.tail.middle_notMem
    have hidp : id ≠ p.2 := by
      rcases List.mem_append.mp hid with hid | hid
      · obtain ⟨f, hf, rfl⟩ := List.mem_map.mp hid
        exact hpne f hf
      · exact ne_of_mem_of_not_mem hid hpups
    have hnot : ∀ c ∈ (expand t.nodeAt u ++ (A ++ [l, (↑q, right)] ++ B) ++
        expand t.nodeAt v).ids, id ≠ c := fun c hc heq => hd.notMem_above hc (heq ▸ hidup)
    exact hr.other id hidp (hnot _ (Level.mem_ids h.mem.1)) (hnot _ (Level.mem_ids h.mem.2))
      fun hm => hnot id (hmoved id hm) rfl

theorem LeafPair.cut (_ : LeafPair t u p v A l q right B ka kb ca cb ups) (ms : Level K) :
    expand t.nodeAt u ++ (A ++ ms ++ B) ++ expand t.nodeAt v =
      (expand t.nodeAt u ++ A) ++ ms ++ (B ++ expand t.nodeAt v) := by
  simp

/-- The keys of the two are sorted as one list, and lie between their neighbours. -/
theorem LeafPair.sorted (h : LeafPair t u p v A l q right B ka kb ca cb ups) :
    ((t.nodeAt l.2).keys ++ (t.nodeAt right).keys).Pairwise (· < ·) ∧
      (∀ x ∈ (t.nodeAt l.2).keys ++ (t.nodeAt right).keys, l.1 ≤ x) ∧
      (∀ g ∈ B ++ expand t.nodeAt v, l.1 < g.1 ∧
        ∀ x ∈ (t.nodeAt l.2).keys ++ (t.nodeAt right).keys, (x : WithBot K) < g.1) := by
  have ho := h.shape.ordered
  rw [h.cut] at ho
  obtain ⟨hinc, hsorted, habove, hbelow⟩ := ho
  obtain ⟨hi1, _, hi3⟩ := List.pairwise_append.mp hinc
  obtain ⟨_, hi2, _⟩ := List.pairwise_append.mp hi1
  obtain ⟨hb1, _, hb3⟩ := List.pairwise_append.mp hbelow
  obtain ⟨_, hb2, _⟩ := List.pairwise_append.mp hb1
  have hlq : l.1 < (q : WithBot K) := (List.pairwise_cons.mp hi2).1 (↑q, right) (by simp)
  have hleft : ∀ x ∈ (t.nodeAt l.2).keys, (x : WithBot K) < q :=
    (List.pairwise_cons.mp hb2).1 (↑q, right) (by simp)
  have hright : ∀ x ∈ (t.nodeAt right).keys, (q : WithBot K) ≤ x :=
    habove (↑q, right) (by simp)
  refine ⟨List.pairwise_append.mpr ⟨hsorted l (by simp), hsorted (↑q, right) (by simp), ?_⟩,
    fun x hx => ?_, fun g hg => ⟨hi3 l (by simp) g hg, fun x hx => ?_⟩⟩
  · exact fun x hx y hy => WithBot.coe_lt_coe.mp ((hleft x hx).trans_le (hright y hy))
  · rcases List.mem_append.mp hx with hx | hx
    · exact habove l (by simp) x hx
    · exact hlq.le.trans (hright x hx)
  · rcases List.mem_append.mp hx with hx | hx
    · exact hb3 l (by simp) g hg x hx
    · exact hb3 (↑q, right) (by simp) g hg x hx

/-- The two leaves share their keys out anew. -/
theorem LeafPair.borrow (h : LeafPair t u p v A l q right B ka kb ca cb ups) {kl kr : List K}
    {vl vr : List (List RowId)}
    (hr : Rebalanced t t' p.2 l.2 right { t.nodeAt p.2 with keys := ka ++ k :: kb }
      { t.nodeAt l.2 with keys := kl, values := vl }
      { t.nodeAt right with keys := k :: kr, values := vr } [] id)
    (hkeys : kl ++ k :: kr = (t.nodeAt l.2).keys ++ (t.nodeAt right).keys)
    (hvalues : vl ++ vr = (t.nodeAt l.2).values ++ (t.nodeAt right).values)
    (hlen : vl.length = kl.length) (hne : kl ≠ []) (hl : kl.length < t.order)
    (hright : kr.length + 1 < t.order) :
    Shape t' none (expand t.nodeAt u ++ (A ++ [l, (↑k, right)] ++ B) ++ expand t.nodeAt v)
      ((u ++ p :: v) :: ups) ∧
    leafEntries t'.nodeAt (expand t.nodeAt u ++ (A ++ [l, (↑k, right)] ++ B) ++
        expand t.nodeAt v) =
      leafEntries t.nodeAt (expand t.nodeAt u ++ (A ++ [l, (↑q, right)] ++ B) ++
        expand t.nodeAt v) ∧
    ∀ f ∈ (expand t.nodeAt u ++ A) ++ (B ++ expand t.nodeAt v),
      (t'.nodeAt f.2).keys = (t.nodeAt f.2).keys := by
  have hbeside := h.beside hr (fun _ => ⟨rfl, rfl, rfl, rfl⟩) (by simp)
  obtain ⟨hsorted, habove, hbelow⟩ := h.sorted
  rw [← hkeys] at hsorted habove hbelow
  obtain ⟨hskl, hskr, hlr⟩ := List.pairwise_append.mp hsorted
  have hleft := h.shape.leaf
  have hpl := (h.shape.stack.1.parents p (by simp) l.2 (by simp [h.siblings.children]))
  have hpr := (h.shape.stack.1.parents p (by simp) right (by simp [h.siblings.children]))
  have hip := h.shape.stack.1.internal p (by simp)
  have hall : (vl ++ vr).length = (kl ++ k :: kr).length := by
    rw [hkeys, hvalues, List.length_append, List.length_append, hleft.aligned l h.mem.1,
      hleft.aligned _ h.mem.2]
  rw [List.length_append, List.length_append] at hall
  have hcases : ∀ {P : WithBot K × NodeId → Prop}, P l → P (↑k, right) →
      ∀ e ∈ [l, ((k : WithBot K), right)], P e := by
    intro P h1 h2 e he
    simp only [List.mem_cons, List.not_mem_nil, or_false] at he
    rcases he with rfl | rfl
    · exact h1
    · exact h2
  have hside : ∀ f ∈ (expand t.nodeAt u ++ A) ++ (B ++ expand t.nodeAt v),
      (t'.nodeAt f.2).keys = (t.nodeAt f.2).keys ∧
        (t'.nodeAt f.2).values = (t.nodeAt f.2).values ∧
        (t'.nodeAt f.2).isLeaf = (t.nodeAt f.2).isLeaf := by
    intro f hf
    have := hbeside.side f.2 (Level.mem_ids (by simpa using hf))
    exact ⟨this.1, this.2.1, this.2.2.1⟩
  have hlinks : ∀ id ∈ (expand t.nodeAt u ++ (A ++ [l, (↑q, right)] ++ B) ++ expand t.nodeAt v).ids,
      (t'.nodeAt id).next = (t.nodeAt id).next ∧ (t'.nodeAt id).prev = (t.nodeAt id).prev := by
    intro id hid
    by_cases h1 : id = l.2
    · rw [h1, hr.atLeft]
      exact ⟨rfl, rfl⟩
    · by_cases h2 : id = right
      · rw [h2, hr.atRight]
        exact ⟨rfl, rfl⟩
      · rw [hr.other id _ h1 h2 (by simp)]
        · exact ⟨rfl, rfl⟩
        · rintro rfl
          exact h.shape.distinct.notMem_above hid (mem_levelIds_cons.mpr (.inl (Level.mem_ids (by simp))))
  have hids : ∀ k' : K, (expand t.nodeAt u ++ (A ++ [l, (↑k', right)] ++ B) ++
      expand t.nodeAt v).ids = (expand t.nodeAt u ++ (A ++ [l, (↑q, right)] ++ B) ++
      expand t.nodeAt v).ids := by
    intro k'
    simp
  have hstored : ∀ ids ∈ vl ++ vr, ids ≠ [] := by
    rw [hvalues]
    intro ids hids
    rcases List.mem_append.mp hids with hids | hids
    · exact hleft.stored l h.mem.1 ids hids
    · exact hleft.stored _ h.mem.2 ids hids
  have hlk : l.1 < (k : WithBot K) := by
    obtain ⟨x, xs, rfl⟩ := List.exists_cons_of_ne_nil hne
    exact (habove x (by simp)).trans_lt (WithBot.coe_lt_coe.mpr (hlr x (by simp) k (by simp)))
  have hstack := h.stack none [l, (↑k, right)] hbeside hr.header hr.root ?_ ?_
    (by rw [hr.atParent]) (hcases (by rw [hr.atLeft]; exact hpl) (by rw [hr.atRight]; exact hpr))
  · refine ⟨⟨hstack, ?_, ?_, ?_, ?_, ?_⟩, ?_, fun f hf => (hside f hf).1⟩
    · rw [hr.size]
      refine ⟨?_, fun id hid => ?_⟩
      · rw [levelIds_cons, hids, ← levelIds_cons]
        exact h.shape.distinct.nodup
      · rw [levelIds_cons, hids, ← levelIds_cons] at hid
        exact h.shape.distinct.inArena id hid
    · rw [hr.header.order, h.cut]
      rw [h.cut] at hleft
      refine hleft.replace (fun f hf => ?_) (hcases ?_ ?_) ?_
      · exact ⟨(hside f hf).2.2, (hside f hf).1, (hside f hf).2.1⟩
      · rw [hr.atLeft]
        exact ⟨hleft.isLeaf l (by simp), hlen, hl,
          fun ids hids => hstored ids (List.mem_append_left _ hids)⟩
      · rw [hr.atRight]
        exact ⟨hleft.isLeaf (↑q, right) (by simp), show vr.length = (k :: kr).length by omega, hright,
          fun ids hids => hstored ids (List.mem_append_right _ hids)⟩
      · rw [← h.cut, hids]
        refine (Chain.linked_congr (fun id hid => (hlinks id hid).1)
          fun id hid => (hlinks id hid).2).mpr h.shape.leaf.chain
    · have ho := h.shape.ordered
      rw [h.cut] at ho ⊢
      refine ho.replace (l := l) (by simp) (fun f hf => (hside f hf).1) ⟨?_, hcases ?_ ?_,
        hcases ?_ ?_, ?_⟩ (hcases (le_refl _) hlk.le) (hcases ?_ ?_)
      · simpa [Level.Increasing] using hlk
      · rw [hr.atLeft]
        exact hskl
      · rw [hr.atRight]
        exact hskr
      · rw [hr.atLeft]
        exact fun x hx => habove x (List.mem_append_left _ hx)
      · rw [hr.atRight]
        intro x hx
        rcases List.mem_cons.mp hx with rfl | hx
        · exact le_refl _
        · exact WithBot.coe_le_coe.mpr (List.rel_of_pairwise_cons hskr hx).le
      · refine List.pairwise_cons.mpr ⟨fun f hf => ?_, List.pairwise_singleton _ _⟩
        obtain rfl := List.mem_singleton.mp hf
        rw [hr.atLeft]
        exact fun x hx => WithBot.coe_lt_coe.mpr (hlr x hx k (by simp))
      · rw [hr.atLeft]
        exact fun g hg => ⟨(hbelow g hg).1, fun x hx =>
          (hbelow g hg).2 x (List.mem_append_left _ hx)⟩
      · rw [hr.atRight]
        exact fun g hg => ⟨(hbelow g hg).2 k (by simp), fun x hx =>
          (hbelow g hg).2 x (List.mem_append_right _ hx)⟩
    · rw [hr.header.comparator, h.shape.asc]
    · rw [hr.header.order]
      exact h.shape.order
    · rw [h.cut, h.cut]
      refine leafEntries_replace (fun f hf => ⟨(hside f hf).1, (hside f hf).2.1⟩) ?_
      simp only [leafEntries_cons, leafEntries_nil, List.append_nil, hr.atLeft, hr.atRight]
      rw [← List.zip_append hlen.symm, hkeys, hvalues,
        List.zip_append (h.shape.leaf.aligned l h.mem.1).symm]
  · rw [hr.atParent, (h.siblings.reseparate k).slots_eq]
    simp
  · rw [hr.atParent]
    exact ⟨hip.notLeaf, (h.siblings.reseparate k).arity, by simp; omega,
      by have := hip.upper; rw [h.siblings.keys] at this; simpa using this⟩

/-- The right leaf is absorbed by the left one; their parent is light now. -/
theorem LeafPair.merge (h : LeafPair t u p v A l q right B ka kb ca cb ups)
    (hroom : (t.nodeAt l.2).keys.length + (t.nodeAt right).keys.length < t.order) :
    ∃ t', t.mergeNodes l.2 right p.2 ka.length = some t' ∧ SameHeader t t' ∧
      Stack t'.nodeAt t'.order (some p.2) t'.root
        (expand t.nodeAt u ++ (A ++ [l] ++ B) ++ expand t.nodeAt v) ((u ++ p :: v) :: ups) ∧
      Distinct t'.arena.length ((expand t.nodeAt u ++ (A ++ [l] ++ B) ++ expand t.nodeAt v) ::
        (u ++ p :: v) :: ups) ∧
      l.2 ∈ (t'.nodeAt p.2).children ∧
      LeafLevel t'.nodeAt t'.order none
        (expand t.nodeAt u ++ (A ++ [l] ++ B) ++ expand t.nodeAt v) ∧
      Ordered t'.nodeAt (expand t.nodeAt u ++ (A ++ [l] ++ B) ++ expand t.nodeAt v) ∧
      leafEntries t'.nodeAt (expand t.nodeAt u ++ (A ++ [l] ++ B) ++ expand t.nodeAt v) =
        leafEntries t.nodeAt (expand t.nodeAt u ++ (A ++ [l, (↑q, right)] ++ B) ++
          expand t.nodeAt v) ∧
      (t'.nodeAt l.2).keys = (t.nodeAt l.2).keys ++ (t.nodeAt right).keys ∧
      (∀ f ∈ (expand t.nodeAt u ++ A) ++ (B ++ expand t.nodeAt v),
        (t'.nodeAt f.2).keys = (t.nodeAt f.2).keys) ∧
      t'.arena.length = t.arena.length ∧
      ∀ id, id ∉ levelIds ((expand t.nodeAt u ++ (A ++ [l, (↑q, right)] ++ B) ++
        expand t.nodeAt v) :: (u ++ p :: v) :: ups) → t'.nodeAt id = t.nodeAt id := by
  have hd := h.shape.distinct
  have hleaf := h.shape.leaf
  have hchain := hleaf.chain
  have hnodup := hd.nodup
  rw [levelIds_cons] at hnodup
  have hnodup := hnodup.of_append_left
  have hids : (expand t.nodeAt u ++ (A ++ [l, (↑q, right)] ++ B) ++ expand t.nodeAt v).ids =
      (expand t.nodeAt u ++ A).ids ++ l.2 :: right :: (B ++ expand t.nodeAt v).ids := by simp
  rw [hids] at hchain hnodup
  have hnextEq : (t.nodeAt right).next = (B ++ expand t.nodeAt v).ids.head? := by
    have := (Chain.linked_middle.mp hchain).2.2.2
    rw [Chain.linked_cons] at this
    simpa using this.2.1
  have hy : ∀ n ∈ (B ++ expand t.nodeAt v).ids,
      n ∈ (expand t.nodeAt u ++ (A ++ [l, (↑q, right)] ++ B) ++ expand t.nodeAt v).ids := by
    intro n hn
    rw [hids]
    exact List.mem_append_right _ (List.mem_cons_of_mem _ (List.mem_cons_of_mem _ hn))
  obtain ⟨hnx, hnly, hnxly⟩ := List.nodup_append.mp hnodup
  obtain ⟨hnl, hnry⟩ := List.nodup_cons.mp hnly
  obtain ⟨hnr, hny⟩ := List.nodup_cons.mp hnry
  have hp : p.2 ∈ levelIds ((u ++ p :: v) :: ups) :=
    mem_levelIds_cons.mpr (.inl (Level.mem_ids (by simp)))
  obtain ⟨t', hrun, hr⟩ := mergeNodes_leaf h.cells h.siblings (hleaf.isLeaf l h.mem.1)
    fun n hn => by
      have hmem : n ∈ (B ++ expand t.nodeAt v).ids :=
        List.mem_of_mem_head? (hnextEq.symm.trans hn)
      refine ⟨hd.inArena n (mem_levelIds_cons.mpr (.inl (hy n hmem))), ?_, ?_, ?_⟩
      · exact fun heq => hd.notMem_above (hy n hmem) (heq ▸ hp)
      · rintro rfl
        exact hnl (List.mem_cons_of_mem _ hmem)
      · rintro rfl
        exact hnr hmem
  have hbeside := h.beside hr (fun _ => ⟨rfl, rfl, rfl, rfl⟩) (by
    intro c hc
    rw [hnextEq, Option.mem_toList] at hc
    exact hy c (List.mem_of_mem_head? hc))
  obtain ⟨hsorted, habove, hbelow⟩ := h.sorted
  have hpl := (h.shape.stack.1.parents p (by simp) l.2 (by simp [h.siblings.children]))
  have hip := h.shape.stack.1.internal p (by simp)
  have hcases : ∀ {P : WithBot K × NodeId → Prop}, P l → ∀ e ∈ [l], P e := by
    intro P h1 e he
    rwa [List.mem_singleton.mp he]
  have hside : ∀ f ∈ (expand t.nodeAt u ++ A) ++ (B ++ expand t.nodeAt v),
      (t'.nodeAt f.2).keys = (t.nodeAt f.2).keys ∧
        (t'.nodeAt f.2).values = (t.nodeAt f.2).values ∧
        (t'.nodeAt f.2).isLeaf = (t.nodeAt f.2).isLeaf := by
    intro f hf
    have := hbeside.side f.2 (Level.mem_ids (by simpa using hf))
    exact ⟨this.1, this.2.1, this.2.2.1⟩
  have hslots' : slots p.1 (t'.nodeAt p.2) = A ++ [l] ++ B := by
    rw [hr.atParent, h.siblings.slots_drop rfl rfl]
    simp
  have hpInternal : (t'.nodeAt p.2).Internal (minKeysOf (some p.2) p.2) t.order := by
    rw [hr.atParent, minKeysOf_some_self]
    have hupper := hip.upper
    rw [h.siblings.keys] at hupper
    refine ⟨hip.notLeaf, ?_, Nat.zero_le _, ?_⟩
    · simp [h.siblings.before, h.siblings.after]
      omega
    · simp at hupper ⊢
      omega
  have hsub : (expand t.nodeAt u ++ (A ++ [l] ++ B) ++ expand t.nodeAt v).ids.Sublist
      (expand t.nodeAt u ++ (A ++ [l, (↑q, right)] ++ B) ++ expand t.nodeAt v).ids := by
    refine List.Sublist.map _ (((List.Sublist.append_left ?_ _).append_right _).append_left _
      |>.append_right _)
    exact (List.nil_sublist _).cons_cons l
  refine ⟨t', hrun, hr.header, h.stack _ _ hbeside hr.header hr.root hslots' hpInternal
    (by rw [hr.atParent]) (hcases (by rw [hr.atLeft]; exact hpl)), ⟨?_, ?_⟩, by simp [hr.atParent],
    ?_, ?_, ?_, by rw [hr.atLeft], fun f hf => (hside f hf).1, hr.size, fun id hid => ?_⟩
  · exact hd.nodup.sublist (hsub.append_right _)
  · rw [hr.size]
    exact fun id hid => hd.inArena id ((hsub.append_right _).subset hid)
  · rw [hr.header.order, h.cut]
    have hal := hleaf.aligned l h.mem.1
    have har := hleaf.aligned (↑q, right) h.mem.2
    have hsl := hleaf.stored l h.mem.1
    have hsr := hleaf.stored (↑q, right) h.mem.2
    have hll := hleaf.isLeaf l h.mem.1
    rw [h.cut] at hleaf
    refine hleaf.replace (fun f hf => ⟨(hside f hf).2.2, (hside f hf).1, (hside f hf).2.1⟩)
      (hcases ?_) ?_
    · rw [hr.atLeft]
      refine ⟨hll, by simp [hal, har], by simpa using hroom, fun ids hids => ?_⟩
      rcases List.mem_append.mp hids with hids | hids
      · exact hsl ids hids
      · exact hsr ids hids
    · have hids' : ((expand t.nodeAt u ++ A) ++ [l] ++ (B ++ expand t.nodeAt v)).ids =
          (expand t.nodeAt u ++ A).ids ++ l.2 :: (B ++ expand t.nodeAt v).ids := by simp
      have hxy : ∀ id ∈ (expand t.nodeAt u ++ A).ids ++ (B ++ expand t.nodeAt v).ids,
          id ≠ p.2 ∧ id ≠ l.2 ∧ id ≠ right := by
        intro id hid
        have hmem : id ∈ (expand t.nodeAt u ++ (A ++ [l, (↑q, right)] ++ B) ++
            expand t.nodeAt v).ids := by
          rw [hids]
          simp only [List.mem_append, List.mem_cons] at hid ⊢
          tauto
        refine ⟨fun heq => hd.notMem_above hmem (heq ▸ hp), ?_, ?_⟩
        · rintro rfl
          rcases List.mem_append.mp hid with hid | hid
          · exact hnxly _ hid _ (by simp) rfl
          · exact hnl (List.mem_cons_of_mem _ hid)
        · rintro rfl
          rcases List.mem_append.mp hid with hid | hid
          · exact hnxly _ hid _ (by simp) rfl
          · exact hnr hid
      rw [hids']
      refine Chain.linked_remove hchain (fun id hid => ?_) (by rw [hr.atLeft]) (fun id hid => ?_)
        fun id hid => ?_
      · obtain ⟨h1, h2, h3⟩ := hxy id hid
        by_cases hm : id ∈ (t.nodeAt right).next.toList
        · rw [hr.atMoved id hm]
        · rw [hr.other id h1 h2 h3 hm]
      · rcases List.mem_append.mp hid with hid | hid
        · obtain ⟨h1, h2, h3⟩ := hxy id (List.mem_append_left _ hid)
          rw [hr.other id h1 h2 h3]
          rw [hnextEq, Option.mem_toList]
          intro hhead
          exact hnxly id hid id (List.mem_cons_of_mem _
            (List.mem_cons_of_mem _ (List.mem_of_mem_head? hhead))) rfl
        · rcases List.mem_cons.mp hid with rfl | hid
          · rw [hr.atLeft]
          · obtain ⟨h1, h2, h3⟩ := hxy id (List.mem_append_right _ (List.mem_of_mem_tail hid))
            rw [hr.other id h1 h2 h3]
            rw [hnextEq, Option.mem_toList]
            intro hhead
            obtain ⟨rest, hrest⟩ := List.head?_eq_some_iff.mp hhead
            rw [hrest] at hid hny
            exact (List.nodup_cons.mp hny).1 hid
      · rw [hr.atMoved id (by rw [hnextEq, hid]; simp)]
  · have ho := h.shape.ordered
    rw [h.cut] at ho ⊢
    refine ho.replace (l := l) (by simp) (fun f hf => (hside f hf).1) ⟨List.pairwise_singleton _ _,
      hcases ?_, hcases ?_, List.pairwise_singleton _ _⟩ (hcases (le_refl _)) (hcases ?_)
    · rw [hr.atLeft]
      exact hsorted
    · rw [hr.atLeft]
      exact habove
    · rw [hr.atLeft]
      exact hbelow
  · rw [h.cut, h.cut]
    refine leafEntries_replace (fun f hf => ⟨(hside f hf).1, (hside f hf).2.1⟩) ?_
    simp only [leafEntries_cons, leafEntries_nil, List.append_nil, hr.atLeft]
    rw [List.zip_append (h.shape.leaf.aligned l h.mem.1).symm]
  · obtain ⟨hidp, hidl, hidr⟩ := h.outside hid
    refine hr.other id hidp hidl hidr fun hmoved => ?_
    rw [hnextEq, Option.mem_toList] at hmoved
    exact hid (mem_levelIds_cons.mpr (.inl (hy id (List.mem_of_mem_head? hmoved))))

end LeafPair

section Leaf

variable [LinearOrder K] {t t' : BTreeIndex K} {leaves a b : Level K} {ups : List (Level K)}
  {e : WithBot K × NodeId}

/-- Leaves do not change while the levels above them are repaired. -/
theorem Shape.of_repaired {ups' : List (Level K)} (hleaf : LeafLevel t.nodeAt t.order none leaves)
    (hordered : Ordered t.nodeAt leaves) (hasc : t.comparator = .asc) (horder : 3 ≤ t.order)
    (hd : Distinct t.arena.length (leaves :: ups)) (h : Repaired t t' leaves ups ups') :
    Shape t' none leaves ups' ∧ leafEntries t'.nodeAt leaves = leafEntries t.nodeAt leaves ∧
      ∀ f ∈ leaves, (t'.nodeAt f.2).keys = (t.nodeAt f.2).keys := by
  have hkeep : ∀ f ∈ leaves, t'.nodeAt f.2 = setParent (t'.nodeAt f.2).parent (t.nodeAt f.2) :=
    fun f hf => h.frame.keep f.2 (hd.inArena f.2 (mem_levelIds_cons.mpr (.inl (Level.mem_ids hf))))
      (hd.notMem_above (Level.mem_ids hf))
  have hkeys : ∀ f ∈ leaves, (t'.nodeAt f.2).keys = (t.nodeAt f.2).keys := fun f hf => by
    rw [hkeep f hf, setParent_keys]
  refine ⟨⟨h.stack, h.distinct, ?_, hordered.congr hkeys, ?_, ?_⟩, ?_, hkeys⟩
  · rw [h.frame.header.order]
    exact hleaf.congr hkeep
  · rw [h.frame.header.comparator, hasc]
  · rw [h.frame.header.order]
    exact horder
  · exact leafEntries_congr fun f hf => by
      rw [hkeep f hf]
      exact ⟨rfl, rfl⟩

omit [LinearOrder K] in
/-- Repairs above some of the leaves leave the nodes outside the tree alone. -/
theorem Repaired.outside {down : Level K} {ups ups' : List (Level K)}
    (h : Repaired t t' down ups ups') (hsub : ∀ id ∈ down.ids, id ∈ leaves.ids) {id : NodeId}
    (hlt : id < t.arena.length) (hid : id ∉ levelIds (leaves :: ups)) :
    t'.nodeAt id = t.nodeAt id := by
  rw [mem_levelIds_cons, not_or] at hid
  exact h.frame.below id hlt hid.2 fun hmem => hid.1 (hsub id hmem)

omit [LinearOrder K] in
theorem Repaired.mem_of_sub {down : Level K} {ups ups' : List (Level K)}
    (h : Repaired t t' down ups ups') (hsub : ∀ id ∈ down.ids, id ∈ leaves.ids) {id : NodeId}
    (hid : id ∈ levelIds (down :: ups')) : id ∈ levelIds (leaves :: ups) := by
  rw [mem_levelIds_cons] at hid ⊢
  exact hid.imp (hsub id) (h.sub id)

/-- An empty leaf was repaired: the leaves `a` before it are still there, and none
behind them is empty. -/
structure LeafRepaired (t t' : BTreeIndex K) (leaves : Level K) (ups : List (Level K))
    (a leaves' a' b' : Level K) (ups' : List (Level K)) : Prop where
  header : SameHeader t t'
  shape : Shape t' none leaves' ups'
  entries : leafEntries t'.nodeAt leaves' = leafEntries t.nodeAt leaves
  split : leaves' = a' ++ b'
  ids : a'.ids = a.ids
  empty : ∀ f ∈ a', (t'.nodeAt f.2).keys = [] → (t.nodeAt f.2).keys = []
  nonempty : ∀ f ∈ b', (t'.nodeAt f.2).keys ≠ []
  outside : ∀ id < t.arena.length, id ∉ levelIds (leaves :: ups) → t'.nodeAt id = t.nodeAt id
  sub : ∀ id ∈ levelIds (leaves' :: ups'), id ∈ levelIds (leaves :: ups)

theorem handleUnderflow_leaf (h : Shape t none leaves ups) (hsplit : leaves = a ++ e :: b)
    (hups : ups ≠ []) (hempty : (t.nodeAt e.2).keys = [])
    (hright : ∀ f ∈ b, (t.nodeAt f.2).keys ≠ []) (fuel : Nat) (hfuel : ups.length ≤ fuel) :
    ∃ t' leaves' a' b' ups', handleUnderflow fuel t e.2 = some t' ∧
      LeafRepaired t t' leaves ups a leaves' a' b' ups' := by
  obtain ⟨up, ups, rfl⟩ := List.exists_cons_of_ne_nil hups
  obtain ⟨fuel, rfl⟩ : ∃ n, fuel = n + 1 := ⟨fuel - 1, by
    rw [List.length_cons] at hfuel
    omega⟩
  have horder := h.order
  have hlink := h.stack.1
  obtain ⟨u, m, v, A, B, rfl, hslots, rfl, rfl⟩ := hlink.locate hsplit
  have hmup : m.2 ∈ (u ++ m :: v).ids := Level.mem_ids (by simp)
  have hmint := hlink.internal m (by simp)
  have hchildren : (t.nodeAt m.2).children = (A ++ e :: B).ids := by
    rw [← hslots, slots_map_snd _ hmint.arity]
  have hmlt : m.2 < t.arena.length :=
    h.distinct.tail.inArena m.2 (mem_levelIds_cons.mpr (.inl hmup))
  have hnodup : (t.nodeAt m.2).children.Nodup := by
    have := h.distinct.nodup
    rw [levelIds_cons, hsplit] at this
    rw [hchildren]
    refine this.of_append_left.sublist ?_
    simp only [Level.ids_append, Level.ids_cons, List.append_assoc]
    refine .trans (List.Sublist.append_left ?_ _) (List.sublist_append_right _ _)
    exact (List.sublist_append_left _ _).cons_cons _
  have hids : ∀ c ∈ (t.nodeAt m.2).children, c < t.arena.length := fun c hc =>
    h.distinct.inArena c (mem_levelIds_cons.mpr (.inl (hlink.mem_down (by simp) hc)))
  have hzero : (t.nodeAt e.2).keys.length = 0 := by rw [hempty, List.length_nil]
  obtain ⟨repair, hchosen, hstep⟩ := handleUnderflow_step hlink hslots hmint.lower hnodup hmlt
    hids (by omega) fuel
  rw [hstep]
  cases hchosen with
  | borrowLeft A' l hA rich =>
    subst hA
    obtain ⟨q, ka, kb, ca, cb, hq, hsib⟩ := Siblings.of_slots hmint.arity
      (A := A') (l := l) (r := e) (B := B) (by simpa using hslots)
    obtain rfl : leaves = expand t.nodeAt u ++ (A' ++ [l, (↑q, e.2)] ++ B) ++
        expand t.nodeAt v := by
      rw [hsplit, ← hq]
      simp
    have hpair : LeafPair t u m v A' l q e.2 B ka kb ca cb ups := ⟨h, hsib⟩
    have hal := h.leaf.aligned l hpair.mem.1
    obtain ⟨kl, k, hk⟩ := Vec.exists_concat (show 0 < (t.nodeAt l.2).keys.length by omega)
    obtain ⟨vl, w, hv⟩ := Vec.exists_concat (show 0 < (t.nodeAt l.2).values.length by omega)
    have hup : (t.nodeAt l.2).keys.length < t.order := h.leaf.upper l hpair.mem.1
    rw [hk, List.length_append, List.length_singleton] at rich hup
    rw [hk, hv, List.length_append, List.length_append, List.length_singleton,
      List.length_singleton] at hal
    obtain ⟨t', hrun, hr⟩ := borrowFromLeft_leaf hpair.cells hsib
      (h.leaf.isLeaf (↑q, e.2) hpair.mem.2) hk hv
    obtain ⟨hshape, hentries, hside⟩ := hpair.borrow hr (by rw [hk]; simp) (by rw [hv]; simp)
      (by omega) (List.length_pos_iff.mp (by omega)) (by omega) (by omega)
    refine ⟨t', _, (expand t.nodeAt u ++ A') ++ [l], (↑k, e.2) :: (B ++ expand t.nodeAt v), _, ?_,
      hr.header, hshape, hentries, by simp, by simp, fun f hf hnil => ?_, fun f hf => ?_,
      fun id _ hid => ?_, fun id hid => ?_⟩
    · rw [← hrun, List.length_append, List.length_singleton, hsib.length_eq]
    · rcases List.mem_append.mp hf with hf | hf
      · rwa [hside f (List.mem_append_left _ hf)] at hnil
      · obtain rfl := List.mem_singleton.mp hf
        rw [hr.atLeft] at hnil
        rw [show kl = [] from hnil, List.length_nil] at rich
        omega
    · rcases List.mem_cons.mp hf with rfl | hf
      · rw [hr.atRight]
        exact List.cons_ne_nil _ _
      · rw [hside f (List.mem_append_right _ hf)]
        exact hright f hf
    · obtain ⟨hidp, hidl, hidr⟩ := hpair.outside hid
      exact hr.other id hidp hidl hidr (by simp)
    · simpa using hid
  | borrowRight r B' hB rich =>
    subst hB
    obtain ⟨q, ka, kb, ca, cb, hq, hsib⟩ := Siblings.of_slots hmint.arity hslots
    obtain rfl : leaves = expand t.nodeAt u ++ (A ++ [e, (↑q, r.2)] ++ B') ++
        expand t.nodeAt v := by
      rw [hsplit, ← hq]
      simp
    have hpair : LeafPair t u m v A e q r.2 B' ka kb ca cb ups := ⟨h, hsib⟩
    have hal : (t.nodeAt r.2).values.length = (t.nodeAt r.2).keys.length :=
      h.leaf.aligned (↑q, r.2) hpair.mem.2
    have hale := h.leaf.aligned e hpair.mem.1
    have hup : (t.nodeAt r.2).keys.length < t.order :=
      h.leaf.upper (↑q, r.2) hpair.mem.2
    obtain ⟨k, k', kr, hk⟩ : ∃ k k' kr, (t.nodeAt r.2).keys = k :: k' :: kr := by
      match hr : (t.nodeAt r.2).keys with
      | [] => rw [hr, List.length_nil] at rich; omega
      | [_] => rw [hr, List.length_singleton] at rich; omega
      | k :: k' :: kr => exact ⟨k, k', kr, rfl⟩
    obtain ⟨w, vr, hv⟩ := List.exists_cons_of_length_pos (l := (t.nodeAt r.2).values) (by omega)
    rw [hk, List.length_cons, List.length_cons] at hup
    obtain ⟨t', hrun, hr⟩ := borrowFromRight_leaf hpair.cells hsib
      (h.leaf.isLeaf e hpair.mem.1) hk hv
    obtain ⟨hshape, hentries, hside⟩ := hpair.borrow hr (by rw [hk]; simp) (by rw [hv]; simp)
      (by simp [hale]) (by simp) (by simp [hzero]; omega) (by omega)
    refine ⟨t', _, expand t.nodeAt u ++ A, e :: (↑k', r.2) :: (B' ++ expand t.nodeAt v), _, ?_,
      hr.header, hshape, hentries, by simp, rfl, fun f hf hnil => ?_, fun f hf => ?_,
      fun id _ hid => ?_, fun id hid => ?_⟩
    · rw [← hrun, hsib.length_eq]
    · rwa [hside f (List.mem_append_left _ hf)] at hnil
    · rcases List.mem_cons.mp hf with rfl | hf
      · rw [hr.atLeft]
        simp
      · rcases List.mem_cons.mp hf with rfl | hf
        · rw [hr.atRight]
          exact List.cons_ne_nil _ _
        · rw [hside f (List.mem_append_right _ hf)]
          exact hright f (List.mem_cons_of_mem _ hf)
    · obtain ⟨hidp, hidl, hidr⟩ := hpair.outside hid
      exact hr.other id hidp hidl hidr (by simp)
    · simpa using hid
  | mergeLeft A' l hA poor =>
    subst hA
    obtain ⟨q, ka, kb, ca, cb, hq, hsib⟩ := Siblings.of_slots hmint.arity
      (A := A') (l := l) (r := e) (B := B) (by simpa using hslots)
    obtain rfl : leaves = expand t.nodeAt u ++ (A' ++ [l, (↑q, e.2)] ++ B) ++
        expand t.nodeAt v := by
      rw [hsplit, ← hq]
      simp
    have hpair : LeafPair t u m v A' l q e.2 B ka kb ca cb ups := ⟨h, hsib⟩
    obtain ⟨t1, hmerge, hheader1, hstack1, hd1, hleft1, hleaf1, hordered1, hentries1, hkeys1,
      hside1, hsize1, houtside1⟩ := hpair.merge (by omega)
    obtain ⟨t', ups', hrun, hrep⟩ := afterMerge_spec fuel hstack1 hd1 hmup hleft1
      (by rw [hheader1.order]; exact horder) (by rw [List.length_cons] at hfuel; omega)
    obtain ⟨hshape, hentries, hkeys⟩ := Shape.of_repaired hleaf1 hordered1
      (by rw [hheader1.comparator, h.asc]) (by rw [hheader1.order]; exact horder) hd1 hrep
    have hsub := hpair.ids_merged
    refine ⟨t', _, (expand t.nodeAt u ++ A') ++ [l], B ++ expand t.nodeAt v, ups', ?_,
      hheader1.trans hrep.frame.header, hshape, hentries.trans hentries1, by simp, by simp,
      fun f hf hnil => ?_, fun f hf => ?_, fun id hlt hid => ?_, fun id hid => ?_⟩
    · rw [List.length_append, List.length_singleton, Nat.add_sub_cancel, hsib.length_eq]
      simp only [Option.bind_eq_bind, hmerge, Option.bind_some, hrun]
    · rw [hkeys f] at hnil
      · rcases List.mem_append.mp hf with hf | hf
        · rwa [hside1 f (List.mem_append_left _ hf)] at hnil
        · obtain rfl := List.mem_singleton.mp hf
          rw [hkeys1] at hnil
          exact (List.append_eq_nil_iff.mp hnil).1
      · simp only [List.mem_append] at hf ⊢
        tauto
    · rw [hkeys f, hside1 f (List.mem_append_right _ hf)]
      · exact hright f hf
      · simp only [List.mem_append] at hf ⊢
        tauto
    · rw [hrep.outside hsub (hsize1 ▸ hlt) hid, houtside1 id hid]
    · exact hrep.mem_of_sub hsub hid
  | mergeRight r B' hA hB poor =>
    subst hB
    obtain ⟨q, ka, kb, ca, cb, hq, hsib⟩ := Siblings.of_slots hmint.arity hslots
    obtain rfl : leaves = expand t.nodeAt u ++ (A ++ [e, (↑q, r.2)] ++ B') ++
        expand t.nodeAt v := by
      rw [hsplit, ← hq]
      simp
    have hpair : LeafPair t u m v A e q r.2 B' ka kb ca cb ups := ⟨h, hsib⟩
    obtain ⟨t1, hmerge, hheader1, hstack1, hd1, hleft1, hleaf1, hordered1, hentries1, hkeys1,
      hside1, hsize1, houtside1⟩ := hpair.merge (by omega)
    obtain ⟨t', ups', hrun, hrep⟩ := afterMerge_spec fuel hstack1 hd1 hmup hleft1
      (by rw [hheader1.order]; exact horder) (by rw [List.length_cons] at hfuel; omega)
    obtain ⟨hshape, hentries, hkeys⟩ := Shape.of_repaired hleaf1 hordered1
      (by rw [hheader1.comparator, h.asc]) (by rw [hheader1.order]; exact horder) hd1 hrep
    have hsub := hpair.ids_merged
    refine ⟨t', _, expand t.nodeAt u ++ A, e :: (B' ++ expand t.nodeAt v), ups', ?_,
      hheader1.trans hrep.frame.header, hshape, hentries.trans hentries1, by simp, rfl,
      fun f hf hnil => ?_, fun f hf => ?_, fun id hlt hid => ?_, fun id hid => ?_⟩
    · rw [hsib.length_eq]
      simp only [Option.bind_eq_bind, hmerge, Option.bind_some, hrun]
    · rw [hkeys f, hside1 f (List.mem_append_left _ hf)] at hnil
      · exact hnil
      · simp only [List.mem_append] at hf ⊢
        tauto
    · rw [hkeys f]
      · rcases List.mem_cons.mp hf with rfl | hf
        · rw [hkeys1, hempty, List.nil_append]
          exact hright r (by simp)
        · rw [hside1 f (List.mem_append_right _ hf)]
          exact hright f (List.mem_cons_of_mem _ hf)
      · simp only [List.mem_append, List.mem_cons] at hf ⊢
        tauto
    · rw [hrep.outside hsub (hsize1 ▸ hlt) hid, houtside1 id hid]
    · exact hrep.mem_of_sub hsub hid

end Leaf

end Cynos.Index
