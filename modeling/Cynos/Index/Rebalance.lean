import Cynos.Index.Siblings

/-! Borrows and merges between two neighbours. The levels below them do not
change; the level of the two and their parent do. -/
namespace Cynos.Index

open BTreeIndex

variable {K : Type}

/-- Three nodes are rewritten, and the nodes `moved` are changed by `f`. -/
structure Rebalanced (t t' : BTreeIndex K) (p left right : NodeId)
    (pNode leftNode rightNode : Node K) (moved : List NodeId) (f : Node K → Node K) : Prop where
  header : SameHeader t t'
  root : t'.root = t.root
  size : t'.arena.length = t.arena.length
  atParent : t'.nodeAt p = pNode
  atLeft : t'.nodeAt left = leftNode
  atRight : t'.nodeAt right = rightNode
  atMoved : ∀ id ∈ moved, t'.nodeAt id = f (t.nodeAt id)
  other : ∀ id, id ≠ p → id ≠ left → id ≠ right → id ∉ moved → t'.nodeAt id = t.nodeAt id

/-- Three different cells of the arena. -/
structure Cells (t : BTreeIndex K) (p left right : NodeId) : Prop where
  parentLt : p < t.arena.length
  leftLt : left < t.arena.length
  rightLt : right < t.arena.length
  leftNe : left ≠ p
  rightNe : right ≠ p
  leftNeRight : left ≠ right

theorem Cells.of_distinct {t : BTreeIndex K} {x y u v : Level K} {p l r : WithBot K × NodeId}
    {ups : List (Level K)}
    (hd : Distinct t.arena.length ((x ++ [l, r] ++ y) :: (u ++ p :: v) :: ups)) :
    Cells t p.2 l.2 r.2 := by
  have hl : l.2 ∈ (x ++ [l, r] ++ y).ids := Level.mem_ids (by simp)
  have hr : r.2 ∈ (x ++ [l, r] ++ y).ids := Level.mem_ids (by simp)
  have hp : p.2 ∈ levelIds ((u ++ p :: v) :: ups) :=
    mem_levelIds_cons.mpr (.inl (Level.mem_ids (by simp)))
  refine ⟨hd.tail.inArena _ hp, hd.inArena _ (mem_levelIds_cons.mpr (.inl hl)),
    hd.inArena _ (mem_levelIds_cons.mpr (.inl hr)), ?_, ?_, ?_⟩
  · exact fun heq => hd.notMem_above hl (heq ▸ hp)
  · exact fun heq => hd.notMem_above hr (heq ▸ hp)
  · have hn := hd.nodup
    rw [levelIds_cons] at hn
    have hpair : [l.2, r.2].Nodup := hn.of_append_left.sublist (by
      simp only [Level.ids_append, Level.ids_cons, Level.ids_nil]
      exact (List.sublist_append_right _ _).trans (List.sublist_append_left _ _))
    simpa using hpair

section Equations

variable {t : BTreeIndex K} {p left right : NodeId} {lo : WithBot K} {A B : Level K}
  {s : WithBot K} {q : K} {ka kb : List K} {ca cb : List NodeId}

theorem rebalanced_setNodes (h : Cells t p left right) (pNode leftNode rightNode : Node K)
    {f : Node K → Node K} :
    Rebalanced t (((t.setNode left leftNode).setNode right rightNode).setNode p pNode)
      p left right pNode leftNode rightNode [] f := by
  have hat : (((t.setNode left leftNode).setNode right rightNode).setNode p pNode).nodeAt =
      Function.update (Function.update (Function.update t.nodeAt left leftNode) right rightNode)
        p pNode := by
    simp [h.parentLt, h.leftLt, h.rightLt]
  refine ⟨⟨rfl, rfl, rfl, rfl⟩, rfl, by simp, ?_, ?_, ?_, by simp, ?_⟩
  · rw [hat, Function.update_self]
  · rw [hat, Function.update_of_ne h.leftNe, Function.update_of_ne h.leftNeRight,
      Function.update_self]
  · rw [hat, Function.update_of_ne h.rightNe, Function.update_self]
  · intro id h1 h2 h3 _
    rw [hat, Function.update_of_ne h1, Function.update_of_ne h3, Function.update_of_ne h2]

theorem rebalanced_setNodes' (h : Cells t p left right) {pNode leftNode rightNode : Node K}
    {f : Node K → Node K} :
    Rebalanced t (((t.setNode right rightNode).setNode left leftNode).setNode p pNode)
      p left right pNode leftNode rightNode [] f := by
  have hcells : Cells t p right left :=
    ⟨h.parentLt, h.rightLt, h.leftLt, h.rightNe, h.leftNe, h.leftNeRight.symm⟩
  have := rebalanced_setNodes (f := f) hcells pNode rightNode leftNode
  exact ⟨this.header, this.root, this.size, this.atParent, this.atRight, this.atLeft,
    this.atMoved, fun id h1 h2 h3 h4 => this.other id h1 h3 h2 h4⟩

theorem Rebalanced.setNode {t' : BTreeIndex K} {pNode leftNode rightNode : Node K} {c : NodeId}
    {f : Node K → Node K}
    (h : Rebalanced t t' p left right pNode leftNode rightNode [] f) (hc : c < t.arena.length)
    (hp : c ≠ p) (hl : c ≠ left) (hr : c ≠ right) :
    Rebalanced t (t'.setNode c (f (t'.nodeAt c))) p left right pNode leftNode rightNode [c] f := by
  have hat : (t'.setNode c (f (t'.nodeAt c))).nodeAt =
      Function.update t'.nodeAt c (f (t'.nodeAt c)) := by
    rw [nodeAt_setNode (by rw [h.size]; exact hc)]
  refine ⟨h.header.trans (sameHeader_setNode ..), h.root, by simpa using h.size, ?_, ?_, ?_, ?_, ?_⟩
  · rw [hat, Function.update_of_ne hp.symm, h.atParent]
  · rw [hat, Function.update_of_ne hl.symm, h.atLeft]
  · rw [hat, Function.update_of_ne hr.symm, h.atRight]
  · intro id hid
    obtain rfl := List.mem_singleton.mp hid
    rw [hat, Function.update_self, h.other id hp hl hr (by simp)]
  · intro id h1 h2 h3 h4
    rw [hat, Function.update_of_ne (by simpa using h4), h.other id h1 h2 h3 (by simp)]

theorem borrowFromLeft_leaf (h : Cells t p left right)
    (hsib : Siblings (t.nodeAt p) lo A (s, left) q right B ka kb ca cb)
    (hleaf : (t.nodeAt right).isLeaf = true) {kl : List K} {k : K} {vl : List (List RowId)}
    {v : List RowId} (hk : (t.nodeAt left).keys = kl ++ [k])
    (hv : (t.nodeAt left).values = vl ++ [v]) :
    ∃ t', t.borrowFromLeft right left p (ka.length + 1) = some t' ∧
      Rebalanced t t' p left right { t.nodeAt p with keys := ka ++ k :: kb }
        { t.nodeAt left with keys := kl, values := vl }
        { t.nodeAt right with
          keys := k :: (t.nodeAt right).keys, values := v :: (t.nodeAt right).values } [] id := by
  refine ⟨_, ?_, rebalanced_setNodes h _ _ _⟩
  rw [borrowFromLeft, node_eq h.leftLt, node_eq h.rightLt, node_eq h.parentLt]
  simp only [Option.bind_eq_bind, Option.bind_some, hleaf, if_true, hk, hv, Vec.pop_append,
    hsib.keys, Nat.add_sub_cancel, Vec.setAt_append]

theorem borrowFromRight_leaf (h : Cells t p left right)
    (hsib : Siblings (t.nodeAt p) lo A (s, left) q right B ka kb ca cb)
    (hleaf : (t.nodeAt left).isLeaf = true) {k k' : K} {kr : List K} {v : List RowId}
    {vr : List (List RowId)} (hk : (t.nodeAt right).keys = k :: k' :: kr)
    (hv : (t.nodeAt right).values = v :: vr) :
    ∃ t', t.borrowFromRight left right p ka.length = some t' ∧
      Rebalanced t t' p left right { t.nodeAt p with keys := ka ++ k' :: kb }
        { t.nodeAt left with
          keys := (t.nodeAt left).keys ++ [k], values := (t.nodeAt left).values ++ [v] }
        { t.nodeAt right with keys := k' :: kr, values := vr } [] id := by
  refine ⟨_, ?_, rebalanced_setNodes' h⟩
  have hremove : ∀ {α : Type} (x : α) (xs : List α), Vec.removeAt (x :: xs) 0 = some xs := by
    intro α x xs
    exact Vec.removeAt_append [] xs x
  rw [borrowFromRight, node_eq h.leftLt, node_eq h.rightLt, node_eq h.parentLt]
  simp only [Option.bind_eq_bind, Option.bind_some, hleaf, if_true, hk, hv, List.head?_cons,
    hremove, hsib.keys, Vec.setAt_append]

theorem borrowFromLeft_internal (h : Cells t p left right)
    (hsib : Siblings (t.nodeAt p) lo A (s, left) q right B ka kb ca cb)
    (hleaf : (t.nodeAt right).isLeaf = false) {kl : List K} {k : K} {cl : List NodeId}
    {c : NodeId} (hk : (t.nodeAt left).keys = kl ++ [k])
    (hch : (t.nodeAt left).children = cl ++ [c]) (hc : c < t.arena.length) (hcp : c ≠ p)
    (hcl : c ≠ left) (hcr : c ≠ right) :
    ∃ t', t.borrowFromLeft right left p (ka.length + 1) = some t' ∧
      Rebalanced t t' p left right { t.nodeAt p with keys := ka ++ k :: kb }
        { t.nodeAt left with keys := kl, children := cl }
        { t.nodeAt right with
          keys := q :: (t.nodeAt right).keys, children := c :: (t.nodeAt right).children }
        [c] (setParent (some right)) := by
  refine ⟨_, ?_, (rebalanced_setNodes h _ _ _).setNode hc hcp hcl hcr⟩
  have hget : (ka ++ q :: kb)[ka.length]? = some q := by simp
  rw [borrowFromLeft, node_eq h.leftLt, node_eq h.rightLt, node_eq h.parentLt]
  simp only [Option.bind_eq_bind, Option.bind_some, hleaf, Bool.false_eq_true, if_false, hk, hch,
    Vec.pop_append, hsib.keys, Nat.add_sub_cancel, Vec.setAt_append, hget]
  rw [modifyNode_eq (by simpa using hc)]

theorem borrowFromRight_internal (h : Cells t p left right)
    (hsib : Siblings (t.nodeAt p) lo A (s, left) q right B ka kb ca cb)
    (hleaf : (t.nodeAt left).isLeaf = false) {kr : List K} {k : K} {cr : List NodeId}
    {c : NodeId} (hk : (t.nodeAt right).keys = k :: kr)
    (hch : (t.nodeAt right).children = c :: cr) (hc : c < t.arena.length) (hcp : c ≠ p)
    (hcl : c ≠ left) (hcr : c ≠ right) :
    ∃ t', t.borrowFromRight left right p ka.length = some t' ∧
      Rebalanced t t' p left right { t.nodeAt p with keys := ka ++ k :: kb }
        { t.nodeAt left with
          keys := (t.nodeAt left).keys ++ [q], children := (t.nodeAt left).children ++ [c] }
        { t.nodeAt right with keys := kr, children := cr } [c] (setParent (some left)) := by
  refine ⟨_, ?_, (rebalanced_setNodes' h).setNode hc hcp hcl hcr⟩
  have hget : (ka ++ q :: kb)[ka.length]? = some q := by simp
  have hremove : ∀ {α : Type} (x : α) (xs : List α), Vec.removeAt (x :: xs) 0 = some xs := by
    intro α x xs
    exact Vec.removeAt_append [] xs x
  rw [borrowFromRight, node_eq h.leftLt, node_eq h.rightLt, node_eq h.parentLt]
  simp only [Option.bind_eq_bind, Option.bind_some, hleaf, Bool.false_eq_true, if_false, hk, hch,
    List.head?_cons, hremove, hsib.keys, Vec.setAt_append, hget]
  rw [modifyNode_eq (by simpa using hc)]

theorem Rebalanced.setParentNode {t' : BTreeIndex K} {leftNode rightNode : Node K}
    {moved : List NodeId} {f : Node K → Node K} (hcells : Cells t p left right)
    (h : Rebalanced t t' p left right (t.nodeAt p) leftNode rightNode moved f) (hp : p ∉ moved)
    (pNode : Node K) :
    Rebalanced t (t'.setNode p pNode) p left right pNode leftNode rightNode moved f := by
  have hat : (t'.setNode p pNode).nodeAt = Function.update t'.nodeAt p pNode :=
    nodeAt_setNode (by rw [h.size]; exact hcells.parentLt) _
  refine ⟨h.header.trans (sameHeader_setNode ..), h.root, by simpa using h.size, ?_, ?_, ?_, ?_, ?_⟩
  · rw [hat, Function.update_self]
  · rw [hat, Function.update_of_ne hcells.leftNe, h.atLeft]
  · rw [hat, Function.update_of_ne hcells.rightNe, h.atRight]
  · intro id hid
    rw [hat, Function.update_of_ne (ne_of_mem_of_not_mem hid hp), h.atMoved id hid]
  · intro id h1 h2 h3 h4
    rw [hat, Function.update_of_ne h1, h.other id h1 h2 h3 h4]

theorem rebalanced_pair (h : Cells t p left right) (leftNode rightNode : Node K)
    {f : Node K → Node K} :
    Rebalanced t ((t.setNode right rightNode).setNode left leftNode) p left right (t.nodeAt p)
      leftNode rightNode [] f := by
  have hat : ((t.setNode right rightNode).setNode left leftNode).nodeAt =
      Function.update (Function.update t.nodeAt right rightNode) left leftNode := by
    simp [h.leftLt, h.rightLt]
  refine ⟨⟨rfl, rfl, rfl, rfl⟩, rfl, by simp, ?_, ?_, ?_, by simp, ?_⟩
  · rw [hat, Function.update_of_ne h.leftNe.symm, Function.update_of_ne h.rightNe.symm]
  · rw [hat, Function.update_self]
  · rw [hat, Function.update_of_ne h.leftNeRight.symm, Function.update_self]
  · intro id h1 h2 h3 _
    rw [hat, Function.update_of_ne h2, Function.update_of_ne h3]

/-- The end of a merge takes the right node out of the parent. -/
theorem mergeNodes_eq {leftNode rightNode : Node K} {moved : List NodeId}
    {f : Node K → Node K} (hcells : Cells t p left right)
    (hsib : Siblings (t.nodeAt p) lo A (s, left) q right B ka kb ca cb) (t' : BTreeIndex K)
    (habsorb : t.absorbRight left right p ka.length = some t')
    (h : Rebalanced t t' p left right (t.nodeAt p) leftNode rightNode moved f) (hp : p ∉ moved) :
    ∃ t'', t.mergeNodes left right p ka.length = some t'' ∧
      Rebalanced t t'' p left right
        { t.nodeAt p with keys := ka ++ kb, children := ca ++ left :: cb }
        leftNode rightNode moved f := by
  refine ⟨_, ?_, h.setParentNode hcells hp _⟩
  have hkeys : Vec.removeAt (ka ++ q :: kb) ka.length = some (ka ++ kb) := Vec.removeAt_append ..
  have hchildren : Vec.removeAt (ca ++ left :: right :: cb) (ka.length + 1) =
      some (ca ++ left :: cb) := by
    have hcut : ca ++ left :: right :: cb = (ca ++ [left]) ++ right :: cb := by simp
    rw [hcut, Vec.removeAt_append_of_eq (by simp [hsib.before])]
    simp
  rw [mergeNodes, habsorb]
  simp only [Option.bind_eq_bind, Option.bind_some]
  rw [node_eq (by rw [h.size]; exact hcells.parentLt), h.atParent]
  simp only [Option.bind_some, hsib.keys, hsib.children, hkeys, hchildren]

theorem mergeNodes_leaf (h : Cells t p left right)
    (hsib : Siblings (t.nodeAt p) lo A (s, left) q right B ka kb ca cb)
    (hleaf : (t.nodeAt left).isLeaf = true)
    (hnext : ∀ n, (t.nodeAt right).next = some n →
      n < t.arena.length ∧ n ≠ p ∧ n ≠ left ∧ n ≠ right) :
    ∃ t', t.mergeNodes left right p ka.length = some t' ∧
      Rebalanced t t' p left right
        { t.nodeAt p with keys := ka ++ kb, children := ca ++ left :: cb }
        { t.nodeAt left with
          keys := (t.nodeAt left).keys ++ (t.nodeAt right).keys
          values := (t.nodeAt left).values ++ (t.nodeAt right).values
          next := (t.nodeAt right).next }
        { t.nodeAt right with keys := [], values := [] }
        (t.nodeAt right).next.toList (fun node => { node with prev := some left }) := by
  cases hn : (t.nodeAt right).next with
  | none =>
    refine mergeNodes_eq h hsib _ ?_ (rebalanced_pair h _ _) (by simp)
    rw [absorbRight, node_eq h.leftLt, node_eq h.rightLt, node_eq h.parentLt]
    simp only [Option.bind_eq_bind, Option.bind_some, hleaf, if_true, hn]
  | some n =>
    obtain ⟨hlt, hp, hl, hr⟩ := hnext n hn
    refine mergeNodes_eq h hsib _ ?_ ((rebalanced_pair h _ _).setNode hlt hp hl hr)
      (by simpa using hp.symm)
    rw [absorbRight, node_eq h.leftLt, node_eq h.rightLt, node_eq h.parentLt]
    simp only [Option.bind_eq_bind, Option.bind_some, hleaf, if_true, hn]
    rw [modifyNode_eq (by simpa using hlt)]

theorem mergeNodes_internal (h : Cells t p left right)
    (hsib : Siblings (t.nodeAt p) lo A (s, left) q right B ka kb ca cb)
    (hleaf : (t.nodeAt left).isLeaf = false)
    (hc : ∀ c ∈ (t.nodeAt right).children, c < t.arena.length ∧ c ≠ p ∧ c ≠ left ∧ c ≠ right) :
    ∃ t', t.mergeNodes left right p ka.length = some t' ∧
      Rebalanced t t' p left right
        { t.nodeAt p with keys := ka ++ kb, children := ca ++ left :: cb }
        { t.nodeAt left with
          keys := (t.nodeAt left).keys ++ q :: (t.nodeAt right).keys
          children := (t.nodeAt left).children ++ (t.nodeAt right).children }
        { t.nodeAt right with keys := [], children := [] }
        (t.nodeAt right).children (setParent (some left)) := by
  have hpair := rebalanced_pair (f := setParent (some left)) h
    { t.nodeAt left with
      keys := (t.nodeAt left).keys ++ q :: (t.nodeAt right).keys
      children := (t.nodeAt left).children ++ (t.nodeAt right).children }
    { t.nodeAt right with keys := [], children := [] }
  obtain ⟨t', hset, hheader, hroot, hsize, hat⟩ := setParents_eq (t.nodeAt right).children
    (fun c hmem => by rw [hpair.size]; exact (hc c hmem).1) left
  have hnot : p ∉ (t.nodeAt right).children := fun hmem => (hc p hmem).2.1 rfl
  refine mergeNodes_eq h hsib t' ?_ ⟨hpair.header.trans hheader, hroot.trans hpair.root,
    hsize.trans hpair.size, ?_, ?_, ?_, ?_, ?_⟩ hnot
  · have hget : (ka ++ q :: kb)[ka.length]? = some q := by simp
    rw [absorbRight, node_eq h.leftLt, node_eq h.rightLt, node_eq h.parentLt]
    simp only [Option.bind_eq_bind, Option.bind_some]
    rw [if_neg (by simp [hleaf]), hsib.keys, hget]
    exact hset
  · rw [hat]
    simp only [hnot, if_false, hpair.atParent]
  · have hnotl : left ∉ (t.nodeAt right).children := fun hmem => (hc left hmem).2.2.1 rfl
    rw [hat]
    simp only [hnotl, if_false, hpair.atLeft]
  · have hnotr : right ∉ (t.nodeAt right).children := fun hmem => (hc right hmem).2.2.2 rfl
    rw [hat]
    simp only [hnotr, if_false, hpair.atRight]
  · intro id hid
    obtain ⟨_, hp, hl, hr⟩ := hc id hid
    rw [hat]
    simp only [hid, if_true, hpair.other id hp hl hr (by simp)]
  · intro id h1 h2 h3 h4
    rw [hat]
    simp only [h4, if_false, hpair.other id h1 h2 h3 (by simp)]

end Equations

end Cynos.Index
