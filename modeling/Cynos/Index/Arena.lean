import Cynos.Index.Levels

/-! Reading and writing the arena, as updates of one function from ids to nodes. -/
namespace Cynos.Index.BTreeIndex

variable {K : Type}

def nodeAt (t : BTreeIndex K) (id : NodeId) : Node K := (t.node id).getD default

/-- Only the nodes and the root differ. -/
structure SameHeader (t t' : BTreeIndex K) : Prop where
  order : t'.order = t.order
  unique : t'.unique = t.unique
  comparator : t'.comparator = t.comparator
  stats : t'.stats = t.stats

theorem SameHeader.refl (t : BTreeIndex K) : SameHeader t t := ⟨rfl, rfl, rfl, rfl⟩

theorem SameHeader.trans {t t' t'' : BTreeIndex K} (h : SameHeader t t')
    (h' : SameHeader t' t'') : SameHeader t t'' :=
  ⟨h'.order.trans h.order, h'.unique.trans h.unique, h'.comparator.trans h.comparator,
    h'.stats.trans h.stats⟩

theorem sameHeader_setNode (t : BTreeIndex K) (id : NodeId) (node : Node K) :
    SameHeader t (t.setNode id node) := ⟨rfl, rfl, rfl, rfl⟩

theorem sameHeader_allocNode (t : BTreeIndex K) (node : Node K) :
    SameHeader t (t.allocNode node).1 := ⟨rfl, rfl, rfl, rfl⟩

theorem node_eq {t : BTreeIndex K} {id : NodeId} (h : id < t.arena.length) :
    t.node id = some (t.nodeAt id) := by
  simp [nodeAt, node, h]

theorem nodeAt_of_node {t : BTreeIndex K} {id : NodeId} {node : Node K}
    (h : t.node id = some node) : t.nodeAt id = node := by
  rw [nodeAt, h, Option.getD_some]

@[simp] theorem arena_length_setNode (t : BTreeIndex K) (id : NodeId) (node : Node K) :
    (t.setNode id node).arena.length = t.arena.length := by simp [setNode]

@[simp] theorem arena_length_allocNode (t : BTreeIndex K) (node : Node K) :
    (t.allocNode node).1.arena.length = t.arena.length + 1 := by simp [allocNode]

@[simp] theorem allocNode_snd (t : BTreeIndex K) (node : Node K) :
    (t.allocNode node).2 = t.arena.length := rfl

@[simp] theorem setNode_root (t : BTreeIndex K) (id : NodeId) (node : Node K) :
    (t.setNode id node).root = t.root := rfl
@[simp] theorem setNode_order (t : BTreeIndex K) (id : NodeId) (node : Node K) :
    (t.setNode id node).order = t.order := rfl
@[simp] theorem setNode_unique (t : BTreeIndex K) (id : NodeId) (node : Node K) :
    (t.setNode id node).unique = t.unique := rfl
@[simp] theorem setNode_comparator (t : BTreeIndex K) (id : NodeId) (node : Node K) :
    (t.setNode id node).comparator = t.comparator := rfl
@[simp] theorem setNode_stats (t : BTreeIndex K) (id : NodeId) (node : Node K) :
    (t.setNode id node).stats = t.stats := rfl
@[simp] theorem allocNode_root (t : BTreeIndex K) (node : Node K) :
    (t.allocNode node).1.root = t.root := rfl
@[simp] theorem allocNode_order (t : BTreeIndex K) (node : Node K) :
    (t.allocNode node).1.order = t.order := rfl
@[simp] theorem allocNode_comparator (t : BTreeIndex K) (node : Node K) :
    (t.allocNode node).1.comparator = t.comparator := rfl

@[simp] theorem nodeAt_setNode {t : BTreeIndex K} {id : NodeId} (h : id < t.arena.length)
    (node : Node K) : (t.setNode id node).nodeAt = Function.update t.nodeAt id node := by
  funext j
  by_cases hj : j = id
  · subst hj
    simp [nodeAt, BTreeIndex.node, setNode, h]
  · simp [nodeAt, BTreeIndex.node, setNode, Function.update_of_ne hj,
      List.getElem?_set_ne (Ne.symm hj)]

@[simp] theorem nodeAt_allocNode (t : BTreeIndex K) (node : Node K) :
    (t.allocNode node).1.nodeAt = Function.update t.nodeAt t.arena.length node := by
  funext j
  by_cases hj : j = t.arena.length
  · subst hj
    simp [nodeAt, BTreeIndex.node, allocNode]
  · rw [Function.update_of_ne hj]
    rcases Nat.lt_or_gt_of_ne hj with hlt | hgt
    · simp [nodeAt, BTreeIndex.node, allocNode, List.getElem?_append_left hlt]
    · have h₁ : t.arena.length ≤ j := hgt.le
      have h₂ : (t.arena ++ [node]).length ≤ j := by
        rw [List.length_append, List.length_singleton]
        exact hgt
      simp only [nodeAt, BTreeIndex.node, allocNode, List.getElem?_eq_none h₁,
        List.getElem?_eq_none h₂]

theorem modifyNode_eq {t : BTreeIndex K} {id : NodeId} (h : id < t.arena.length)
    (f : Node K → Node K) : t.modifyNode id f = some (t.setNode id (f (t.nodeAt id))) := by
  simp [modifyNode, node_eq h]

@[simp] theorem setParent_keys (p : Option NodeId) (n : Node K) : (setParent p n).keys = n.keys := rfl
@[simp] theorem setParent_values (p : Option NodeId) (n : Node K) :
    (setParent p n).values = n.values := rfl
@[simp] theorem setParent_children (p : Option NodeId) (n : Node K) :
    (setParent p n).children = n.children := rfl
@[simp] theorem setParent_parent (p : Option NodeId) (n : Node K) : (setParent p n).parent = p := rfl
@[simp] theorem setParent_isLeaf (p : Option NodeId) (n : Node K) :
    (setParent p n).isLeaf = n.isLeaf := rfl
@[simp] theorem setParent_next (p : Option NodeId) (n : Node K) : (setParent p n).next = n.next := rfl
@[simp] theorem setParent_prev (p : Option NodeId) (n : Node K) : (setParent p n).prev = n.prev := rfl
@[simp] theorem setParent_setParent (p q : Option NodeId) (n : Node K) :
    setParent p (setParent q n) = setParent p n := rfl
@[simp] theorem setParent_self (n : Node K) : setParent n.parent n = n := rfl

theorem setParents_eq {t : BTreeIndex K} (children : List NodeId)
    (h : ∀ c ∈ children, c < t.arena.length) (parent : NodeId) :
    ∃ t', t.setParents children parent = some t' ∧ SameHeader t t' ∧ t'.root = t.root ∧
      t'.arena.length = t.arena.length ∧
      t'.nodeAt = fun id =>
        if id ∈ children then setParent (some parent) (t.nodeAt id) else t.nodeAt id := by
  induction children generalizing t with
  | nil => exact ⟨t, rfl, .refl t, rfl, rfl, by simp⟩
  | cons c children ih =>
    have hc : c < t.arena.length := h c (by simp)
    obtain ⟨t', hset, hheader, hroot, hlen, hat⟩ :=
      ih (t := t.setNode c (setParent (some parent) (t.nodeAt c)))
        (by simpa using fun d hd => h d (by simp [hd]))
    refine ⟨t', ?_, (sameHeader_setNode ..).trans hheader, by simpa using hroot,
      by simpa using hlen, ?_⟩
    · rw [setParents, List.foldlM_cons, modifyNode_eq hc]
      exact hset
    · rw [hat, nodeAt_setNode hc]
      funext id
      by_cases hid : id = c
      · subst hid
        by_cases hmem : id ∈ children <;> simp [hmem]
      · simp [hid]

end Cynos.Index.BTreeIndex
