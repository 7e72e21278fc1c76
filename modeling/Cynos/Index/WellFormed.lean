import Cynos.Index.Invariant

/-! The representation invariant in terms of the nodes that the root reaches. -/
namespace Cynos.Index

variable {K : Type}

namespace BTreeIndex

def ChildOf (t : BTreeIndex K) (parent child : NodeId) : Prop :=
  ∃ node, t.node parent = some node ∧ node.isLeaf = false ∧ child ∈ node.children

/-- The subtree of a node. -/
inductive Below (t : BTreeIndex K) (id : NodeId) : NodeId → Prop where
  | refl : Below t id id
  | step {a b : NodeId} : Below t id a → t.ChildOf a b → Below t id b

inductive AtDepth (t : BTreeIndex K) : Nat → NodeId → Prop where
  | root : AtDepth t 0 t.root
  | child {d : Nat} {a b : NodeId} : AtDepth t d a → t.ChildOf a b → AtDepth t (d + 1) b

/-- The node belongs to the tree: the root reaches it. -/
def Live (t : BTreeIndex K) (id : NodeId) : Prop := ∃ d, t.AtDepth d id

/-- The leaves below a node, from left to right. -/
def leavesFrom (t : BTreeIndex K) : Nat → NodeId → List NodeId
  | 0, _ => []
  | fuel + 1, id =>
    let node := t.nodeAt id
    if node.isLeaf then [id] else node.children.flatMap (t.leavesFrom fuel)

def leafIds (t : BTreeIndex K) : List NodeId := t.leavesFrom t.arena.length t.root

/-- Number of row ids stored in a leaf. -/
def rowCount (t : BTreeIndex K) (id : NodeId) : Nat :=
  ((t.nodeAt id).values.map List.length).sum

structure WellFormed [LT K] [LE K] (t : BTreeIndex K) : Prop where
  inArena : ∀ d id, t.AtDepth d id → ∃ node, t.node id = some node
  sorted : ∀ d id node, t.AtDepth d id → t.node id = some node → node.keys.Pairwise (· < ·)
  arity : ∀ d id node, t.AtDepth d id → t.node id = some node → node.isLeaf = false →
    node.children.length = node.keys.length + 1
  left : ∀ d id node (i : Nat) separator child, t.AtDepth d id → t.node id = some node →
    node.isLeaf = false → node.keys[i]? = some separator → node.children[i]? = some child →
    ∀ below n, t.Below child below → t.node below = some n → ∀ k ∈ n.keys, k < separator
  right : ∀ d id node (i : Nat) separator child, t.AtDepth d id → t.node id = some node →
    node.isLeaf = false → node.keys[i]? = some separator → node.children[i + 1]? = some child →
    ∀ below n, t.Below child below → t.node below = some n → ∀ k ∈ n.keys, separator ≤ k
  height : ∃ height, ∀ d id node, t.AtDepth d id → t.node id = some node →
    (node.isLeaf = true ↔ d = height)
  noEmptyLeaf : ∀ d id node, t.AtDepth d id → t.node id = some node → node.isLeaf = true →
    id ≠ t.root → node.keys ≠ []
  rootParent : ∀ node, t.node t.root = some node → node.parent = none
  parents : ∀ d id child, t.AtDepth d id → t.ChildOf id child →
    ∃ node, t.node child = some node ∧ node.parent = some id
  chain : Chain.Linked (fun id => (t.nodeAt id).next) (fun id => (t.nodeAt id).prev) none
    t.leafIds none
  len : t.len = (t.leafIds.map t.rowCount).sum

end BTreeIndex

open BTreeIndex

section Levels

variable {t : BTreeIndex K} {order : Nat} {light : Option NodeId} {leaves : Level K}
  {ups : List (Level K)}

theorem Stack.levels {N : NodeId → Node K} {root : NodeId}
    (h : Stack N order light root leaves ups) :
    (leaves :: ups)[ups.length]? = some [(⊥, root)] ∧
      ∀ i up, (leaves :: ups)[i + 1]? = some up → ∃ down, (leaves :: ups)[i]? = some down ∧
        Link N (minKeysOf light) (fun _ => order) up down := by
  induction ups generalizing leaves with
  | nil => exact ⟨by simp [h.1], by simp⟩
  | cons up ups ih =>
    obtain ⟨hlink, hrest⟩ := h
    obtain ⟨htop, hlinks⟩ := ih hrest
    refine ⟨by simpa using htop, fun i up' hi => ?_⟩
    cases i with
    | zero =>
      obtain rfl : up = up' := by simpa using hi
      exact ⟨leaves, rfl, hlink⟩
    | succ i => exact hlinks i up' hi

/-- The nodes at one depth are one level. -/
theorem BTreeIndex.AtDepth.level {d : Nat} {id : NodeId} (h : t.AtDepth d id)
    (hstack : Stack t.nodeAt order light t.root leaves ups)
    (hleaf : ∀ e ∈ leaves, (t.nodeAt e.2).isLeaf = true)
    (hids : ∀ id ∈ levelIds (leaves :: ups), id < t.arena.length) :
    ∃ i level, i + d = ups.length ∧ (leaves :: ups)[i]? = some level ∧ id ∈ level.ids := by
  obtain ⟨htop, hlinks⟩ := hstack.levels
  induction h with
  | root => exact ⟨ups.length, _, rfl, htop, by simp⟩
  | child _ hchild ih =>
    obtain ⟨i, level, hi, hlevel, hmem⟩ := ih
    obtain ⟨node, hnode, hnotLeaf, hc⟩ := hchild
    obtain ⟨e, he, rfl⟩ := List.mem_map.mp hmem
    have hlt : e.2 < t.arena.length :=
      hids e.2 (List.mem_flatMap.mpr ⟨level, List.mem_of_getElem? hlevel, hmem⟩)
    rw [node_eq hlt, Option.some.injEq] at hnode
    subst hnode
    cases i with
    | zero =>
      obtain rfl : leaves = level := by simpa using hlevel
      rw [hleaf e he] at hnotLeaf
      simp at hnotLeaf
    | succ i =>
      obtain ⟨down, hdown, hlink⟩ := hlinks i level hlevel
      exact ⟨i, down, by omega, hdown, hlink.mem_down he hc⟩

theorem Stack.live (h : Stack t.nodeAt order light t.root leaves ups)
    (hids : ∀ id ∈ levelIds (leaves :: ups), id < t.arena.length) :
    ∀ id ∈ levelIds (leaves :: ups), t.Live id := by
  induction ups generalizing leaves with
  | nil =>
    intro id hid
    rw [h.1] at hid
    obtain rfl : id = t.root := by simpa using hid
    exact ⟨0, .root⟩
  | cons up ups ih =>
    obtain ⟨hlink, hrest⟩ := h
    have hids' : ∀ id ∈ levelIds (up :: ups), id < t.arena.length :=
      fun id hid => hids id (mem_levelIds_cons.mpr (.inr hid))
    intro id hid
    rcases mem_levelIds_cons.mp hid with hid | hid
    · rw [hlink.expands, expand, Level.ids, List.map_flatMap, List.mem_flatMap] at hid
      obtain ⟨e, he, hmem⟩ := hid
      have heids : e.2 ∈ levelIds (up :: ups) := mem_levelIds_cons.mpr (.inl (Level.mem_ids he))
      obtain ⟨d, hd⟩ := ih hrest hids' e.2 heids
      have hint := hlink.internal e he
      refine ⟨d + 1, hd.child ⟨_, node_eq (hids' e.2 heids), hint.notLeaf, ?_⟩⟩
      exact slots_map_snd e.1 hint.arity ▸ hmem
    · exact ih hrest hids' id hid

theorem Shape.live_iff [LinearOrder K] {heavy : Option NodeId} (h : Shape t heavy leaves ups)
    (id : NodeId) : t.Live id ↔ id ∈ levelIds (leaves :: ups) := by
  refine ⟨fun ⟨d, hd⟩ => ?_, h.stack.live h.distinct.inArena id⟩
  obtain ⟨i, level, _, hlevel, hmem⟩ := hd.level h.stack h.leaf.isLeaf h.distinct.inArena
  exact List.mem_flatMap.mpr ⟨level, List.mem_of_getElem? hlevel, hmem⟩

theorem Stack.leavesFrom_eq (h : Stack t.nodeAt order light t.root leaves ups) (fuel : Nat) :
    t.leavesFrom (ups.length + fuel) t.root = leaves.ids.flatMap (t.leavesFrom fuel) := by
  induction ups generalizing leaves fuel with
  | nil => simp [h.1]
  | cons up ups ih =>
    obtain ⟨hlink, hrest⟩ := h
    rw [List.length_cons, Nat.add_assoc, Nat.add_comm 1, ih hrest, hlink.expands, expand,
      Level.ids, Level.ids, List.map_flatMap, List.flatMap_assoc, List.flatMap_map]
    refine List.flatMap_congr fun e he => ?_
    have hslots : (slots e.1 (t.nodeAt e.2)).map Prod.snd = (t.nodeAt e.2).children :=
      slots_map_snd _ (hlink.internal e he).arity
    rw [leavesFrom, hslots]
    simp [(hlink.internal e he).notLeaf]

end Levels

section Bounds

variable [LinearOrder K] {t : BTreeIndex K} {order : Nat} {light : Option NodeId}
  {minKeys maxKeys : NodeId → Nat}

omit [LinearOrder K] in
theorem BTreeIndex.Below.head {a b : NodeId} (h : t.Below a b) :
    a = b ∨ ∃ c, t.ChildOf a c ∧ t.Below c b := by
  induction h with
  | refl => exact .inl rfl
  | step _ hchild ih =>
    rcases ih with rfl | ⟨c, hc, hbelow⟩
    · exact .inr ⟨_, hchild, .refl⟩
    · exact .inr ⟨c, hc, hbelow.step hchild⟩

/-- All keys in the subtrees of a level lie between its separators. -/
def Bounded (t : BTreeIndex K) (level : Level K) : Prop :=
  ∀ a e b, level = a ++ e :: b → ∀ id, t.Below e.2 id → ∀ k ∈ (t.nodeAt id).keys,
    e.1 ≤ (k : WithBot K) ∧ ∀ f ∈ b, (k : WithBot K) < f.1

theorem Ordered.bounded {leaves : Level K} (h : Ordered t.nodeAt leaves)
    (hleaf : ∀ e ∈ leaves, (t.nodeAt e.2).isLeaf = true)
    (hids : ∀ id ∈ leaves.ids, id < t.arena.length) : Bounded t leaves := by
  rintro a e b rfl id hbelow k hk
  rcases hbelow.head with rfl | ⟨c, ⟨node, hnode, hnotLeaf, _⟩, _⟩
  · have hb := (List.pairwise_append.mp h.below).2.1
    exact ⟨h.above e (by simp) k hk, fun f hf => List.rel_of_pairwise_cons hb hf k hk⟩
  · rw [node_eq (hids e.2 (by simp)), Option.some.injEq] at hnode
    rw [← hnode, hleaf e (by simp)] at hnotLeaf
    simp at hnotLeaf

theorem Link.bounded {up down : Level K} (h : Link t.nodeAt minKeys maxKeys up down)
    (hinc : down.Increasing) (hdown : Bounded t down)
    (hids : ∀ id ∈ up.ids, id < t.arena.length) : Bounded t up := by
  rintro a e b rfl id hbelow k hk
  have har := (h.internal e (by simp)).arity
  have hexp : down = expand t.nodeAt a ++ (slots e.1 (t.nodeAt e.2) ++ expand t.nodeAt b) := by
    rw [h.expands, expand_append, expand_cons]
  -- the separators of the later nodes stand in the lower level
  have hlater : ∀ f ∈ b, ∃ c, (f.1, c) ∈ expand t.nodeAt b := by
    intro f hf
    obtain ⟨c, cs, hc⟩ := List.exists_cons_of_ne_nil (h.children_ne_nil f (by simp [hf]))
    exact ⟨c, List.mem_flatMap.mpr ⟨f, hf, by simp [slots, hc]⟩⟩
  obtain ⟨c₀, cs, hc₀⟩ := List.exists_cons_of_ne_nil (h.children_ne_nil e (by simp))
  have hslots : slots e.1 (t.nodeAt e.2) = (e.1, c₀) :: ((t.nodeAt e.2).keys.map (↑)).zip cs := by
    simp [slots, hc₀]
  have hincSlots : (slots e.1 (t.nodeAt e.2)).Pairwise fun x y => x.1 < y.1 := by
    rw [hexp] at hinc
    exact (List.pairwise_append.mp (List.pairwise_append.mp hinc).2.1).1
  have hcross : ∀ x ∈ slots e.1 (t.nodeAt e.2), ∀ y ∈ expand t.nodeAt b, x.1 < y.1 := by
    rw [hexp] at hinc
    exact (List.pairwise_append.mp (List.pairwise_append.mp hinc).2.1).2.2
  have hfirst : ∀ x ∈ slots e.1 (t.nodeAt e.2), e.1 ≤ x.1 := by
    intro x hx
    rw [hslots] at hx hincSlots
    rcases List.mem_cons.mp hx with rfl | hx
    · exact le_refl _
    · exact (List.rel_of_pairwise_cons hincSlots hx).le
  rcases hbelow.head with rfl | ⟨c, ⟨node, hnode, _, hc⟩, hbelow'⟩
  · have hmem : (k : WithBot K) ∈ (slots e.1 (t.nodeAt e.2)).map Prod.fst := by
      rw [slots_map_fst har]
      exact List.mem_cons_of_mem _ (List.mem_map_of_mem hk)
    obtain ⟨x, hx, hxk⟩ := List.mem_map.mp hmem
    refine ⟨hxk ▸ hfirst x hx, fun f hf => ?_⟩
    obtain ⟨c, hc⟩ := hlater f hf
    exact hxk ▸ hcross x hx (f.1, c) hc
  · rw [node_eq (hids e.2 (by simp)), Option.some.injEq] at hnode
    subst hnode
    rw [← slots_map_snd e.1 har] at hc
    obtain ⟨x, hx, rfl⟩ := List.mem_map.mp hc
    obtain ⟨s₁, s₂, hs⟩ := List.append_of_mem hx
    obtain ⟨hlow, hhigh⟩ := hdown (expand t.nodeAt a ++ s₁) x (s₂ ++ expand t.nodeAt b)
      (by rw [hexp, hs]; simp) id hbelow' k hk
    refine ⟨(hfirst x hx).trans hlow, fun f hf => ?_⟩
    obtain ⟨c, hc⟩ := hlater f hf
    exact hhigh (f.1, c) (List.mem_append_right _ hc)

theorem Stack.bounded {leaves : Level K} {ups : List (Level K)}
    (h : Stack t.nodeAt order light t.root leaves ups) (hinc : leaves.Increasing)
    (hleaves : Bounded t leaves)
    (hids : ∀ id ∈ levelIds (leaves :: ups), id < t.arena.length) :
    ∀ level ∈ leaves :: ups, Bounded t level ∧ level.Increasing := by
  induction ups generalizing leaves with
  | nil => simpa using ⟨hleaves, hinc⟩
  | cons up ups ih =>
    obtain ⟨hlink, hrest⟩ := h
    have hids' : ∀ id ∈ levelIds (up :: ups), id < t.arena.length :=
      fun id hid => hids id (mem_levelIds_cons.mpr (.inr hid))
    intro level hlevel
    rcases List.mem_cons.mp hlevel with rfl | hlevel
    · exact ⟨hleaves, hinc⟩
    · exact ih hrest (hlink.increasing hinc) (hlink.bounded hinc hleaves
        fun id hid => hids' id (mem_levelIds_cons.mpr (.inl hid))) hids' level hlevel

omit [LinearOrder K] in
/-- The two children around the key at position `i` follow each other below. -/
theorem Link.around {up down a b : Level K} {e : WithBot K × NodeId}
    (h : Link t.nodeAt minKeys maxKeys up down) (hup : up = a ++ e :: b) {i : Nat} {k : K}
    (hk : (t.nodeAt e.2).keys[i]? = some k) :
    ∃ c d w z lo, (t.nodeAt e.2).children[i]? = some c ∧
      (t.nodeAt e.2).children[i + 1]? = some d ∧
      down = w ++ (lo, c) :: ((k : WithBot K), d) :: z := by
  obtain ⟨hi, hget⟩ := List.getElem?_eq_some_iff.mp hk
  have har := (h.internal e (by simp [hup])).arity
  have hkeys : (t.nodeAt e.2).keys =
      (t.nodeAt e.2).keys.take i ++ k :: (t.nodeAt e.2).keys.drop (i + 1) := by
    rw [← hget, List.getElem_cons_drop, List.take_append_drop]
  obtain ⟨c, rest, hc⟩ := List.exists_cons_of_length_pos
    (show 0 < ((t.nodeAt e.2).children.drop i).length by rw [List.length_drop]; omega)
  have hrest := congrArg List.length hc
  rw [List.length_drop, List.length_cons] at hrest
  obtain ⟨d, rest, rfl⟩ := List.exists_cons_of_length_pos (show 0 < rest.length by omega)
  have hchildren : (t.nodeAt e.2).children = (t.nodeAt e.2).children.take i ++ c :: d :: rest := by
    rw [← hc, List.take_append_drop]
  have hlen : ((t.nodeAt e.2).children.take i).length = i := by
    rw [List.length_take]
    omega
  have hslots := slots_cons e.1 (c := (t.nodeAt e.2).children.take i ++ [c]) (d := d :: rest) hkeys
    (by rw [List.append_assoc]; exact hchildren) (by
      rw [List.length_append, hlen, List.length_take, List.length_singleton]
      omega)
  obtain ⟨firsts, lo, hfirsts⟩ := Vec.exists_concat
    (show 0 < (e.1 :: ((t.nodeAt e.2).keys.take i).map ((↑) : K → WithBot K)).length by simp)
  have hfirstsLen := congrArg List.length hfirsts
  rw [List.length_cons, List.length_map, List.length_take, List.length_append,
    List.length_singleton] at hfirstsLen
  rw [hfirsts, List.zip_append (by omega)] at hslots
  refine ⟨c, d, expand t.nodeAt a ++ firsts.zip ((t.nodeAt e.2).children.take i),
    (((t.nodeAt e.2).keys.drop (i + 1)).map (↑)).zip rest ++ expand t.nodeAt b, lo, ?_, ?_, ?_⟩
  · rw [hchildren, List.getElem?_append_right hlen.le, hlen, Nat.sub_self]
    rfl
  · rw [hchildren, List.getElem?_append_right (by omega), hlen, Nat.add_sub_cancel_left]
    rfl
  · rw [h.expands, hup, expand_append, expand_cons, hslots]
    simp

end Bounds

section Tree

variable [LinearOrder K] {t : BTreeIndex K} {leaves : Level K} {ups : List (Level K)}

/-- What the levels of a tree say about a node at some depth. -/
theorem Tree.atDepth (h : Tree t leaves ups) {d : Nat} {id : NodeId} {node : Node K}
    (hd : t.AtDepth d id) (hnode : t.node id = some node) :
    node = t.nodeAt id ∧ (node.isLeaf = true ∧ d = ups.length ∧ id ∈ leaves.ids ∨
      node.isLeaf = false ∧ d < ups.length ∧ ∃ up down, id ∈ up.ids ∧
        Link t.nodeAt (minKeysOf none) (fun _ => t.order) up down ∧ Bounded t down ∧
        down.Increasing) := by
  have hids : ∀ id ∈ levelIds (leaves :: ups), id < t.arena.length := h.distinct.inArena
  have hb := h.stack.bounded h.ordered.increasing
    (h.ordered.bounded h.leaf.isLeaf fun id hid => hids id (mem_levelIds_cons.mpr (.inl hid))) hids
  obtain ⟨i, level, hi, hlevel, hmem⟩ := hd.level h.stack h.leaf.isLeaf hids
  have hlt : id < t.arena.length :=
    hids id (List.mem_flatMap.mpr ⟨level, List.mem_of_getElem? hlevel, hmem⟩)
  obtain rfl : node = t.nodeAt id := by
    rw [node_eq hlt, Option.some.injEq] at hnode
    exact hnode.symm
  refine ⟨rfl, ?_⟩
  obtain ⟨e, he, rfl⟩ := List.mem_map.mp hmem
  cases i with
  | zero =>
    obtain rfl : leaves = level := by simpa using hlevel
    exact .inl ⟨h.leaf.isLeaf e he, by omega, hmem⟩
  | succ i =>
    obtain ⟨down, hdown, hlink⟩ := h.stack.levels.2 i level hlevel
    obtain ⟨hbounded, hinc⟩ := hb down (List.mem_of_getElem? hdown)
    exact .inr ⟨(hlink.internal e he).notLeaf, by omega, level, down, hmem, hlink, hbounded, hinc⟩

omit [LinearOrder K] in
theorem Stack.root_parent {N : NodeId → Node K} {order : Nat} {light : Option NodeId}
    {root : NodeId} {down : Level K} {ups : List (Level K)}
    (h : Stack N order light root down ups) : (N root).parent = none := by
  induction ups generalizing down with
  | nil => exact h.2
  | cons up ups ih => exact ih h.2

theorem Shape.leafIds_eq {heavy : Option NodeId} (h : Shape t heavy leaves ups) :
    t.leafIds = leaves.ids := by
  have hlt := h.stack.ups_length_lt h.distinct
  obtain ⟨fuel, hfuel⟩ := Nat.exists_eq_add_of_lt hlt
  rw [leafIds, hfuel, Nat.add_assoc, h.stack.leavesFrom_eq]
  have hone : ∀ id ∈ leaves.ids, t.leavesFrom (fuel + 1) id = [id] := by
    intro id hid
    obtain ⟨e, he, rfl⟩ := List.mem_map.mp hid
    rw [leavesFrom, if_pos (h.leaf.isLeaf e he)]
  rw [List.flatMap_congr hone, List.flatMap_singleton']

theorem Tree.wellFormed (h : Tree t leaves ups) : t.WellFormed where
  inArena d id hd := by
    obtain ⟨i, level, _, hlevel, hmem⟩ := hd.level h.stack h.leaf.isLeaf h.distinct.inArena
    exact ⟨_, node_eq (h.distinct.inArena id
      (List.mem_flatMap.mpr ⟨level, List.mem_of_getElem? hlevel, hmem⟩))⟩
  sorted d id node hd hnode := by
    obtain ⟨rfl, ⟨_, _, hmem⟩ | ⟨_, _, up, down, hmem, hlink, _, hinc⟩⟩ := h.atDepth hd hnode
    · obtain ⟨e, he, rfl⟩ := List.mem_map.mp hmem
      exact h.ordered.sorted e he
    · obtain ⟨e, he, rfl⟩ := List.mem_map.mp hmem
      obtain ⟨a, b, rfl⟩ := List.append_of_mem he
      rw [Level.increasing_iff, hlink.expands, expand_append, expand_cons, List.map_append,
        List.map_append, slots_map_fst (hlink.internal e he).arity] at hinc
      have hkeys := (List.pairwise_append.mp (List.pairwise_append.mp hinc).2.1).1
      simpa [List.pairwise_map] using hkeys.of_cons
  arity d id node hd hnode hnotLeaf := by
    obtain ⟨rfl, ⟨hleaf, _⟩ | ⟨_, _, up, down, hmem, hlink, _⟩⟩ := h.atDepth hd hnode
    · simp [hnotLeaf] at hleaf
    · obtain ⟨e, he, rfl⟩ := List.mem_map.mp hmem
      exact (hlink.internal e he).arity
  left d id node i separator child hd hnode hnotLeaf hkey hchild below n hbelow hn k hk := by
    obtain ⟨rfl, ⟨hleaf, _⟩ | ⟨_, _, up, down, hmem, hlink, hb, _⟩⟩ := h.atDepth hd hnode
    · simp [hnotLeaf] at hleaf
    · obtain ⟨e, he, rfl⟩ := List.mem_map.mp hmem
      obtain ⟨a, b, hup⟩ := List.append_of_mem he
      obtain ⟨c, r, w, z, lo, hc, _, hdown⟩ := hlink.around hup hkey
      obtain rfl : c = child := by simpa [hc] using hchild
      have := (hb w (lo, c) _ hdown below hbelow k (nodeAt_of_node hn ▸ hk)).2 _
        List.mem_cons_self
      exact WithBot.coe_lt_coe.mp this
  right d id node i separator child hd hnode hnotLeaf hkey hchild below n hbelow hn k hk := by
    obtain ⟨rfl, ⟨hleaf, _⟩ | ⟨_, _, up, down, hmem, hlink, hb, _⟩⟩ := h.atDepth hd hnode
    · simp [hnotLeaf] at hleaf
    · obtain ⟨e, he, rfl⟩ := List.mem_map.mp hmem
      obtain ⟨a, b, hup⟩ := List.append_of_mem he
      obtain ⟨c, r, w, z, lo, _, hr, hdown⟩ := hlink.around hup hkey
      obtain rfl : r = child := by simpa [hr] using hchild
      have := (hb (w ++ [(lo, c)]) (separator, r) z (by simp [hdown]) below hbelow k
        (nodeAt_of_node hn ▸ hk)).1
      exact WithBot.coe_le_coe.mp this
  height := by
    refine ⟨ups.length, fun d id node hd hnode => ?_⟩
    obtain ⟨rfl, ⟨hleaf, hdepth, _⟩ | ⟨hnotLeaf, hdepth, _⟩⟩ := h.atDepth hd hnode
    · simp [hleaf, hdepth]
    · simp [hnotLeaf, hdepth.ne]
  noEmptyLeaf d id node hd hnode hleaf hne := by
    obtain ⟨rfl, ⟨_, _, hmem⟩ | ⟨hnotLeaf, _⟩⟩ := h.atDepth hd hnode
    · obtain ⟨e, he, rfl⟩ := List.mem_map.mp hmem
      refine h.noEmpty ?_ e he
      rintro rfl
      have := h.stack.1
      subst this
      simp only [List.mem_singleton] at he
      exact hne (by rw [he])
    · simp [hleaf] at hnotLeaf
  rootParent node hnode := by
    rw [← nodeAt_of_node hnode, h.stack.root_parent]
  parents d id child hd hchild := by
    obtain ⟨node, hnode, hnotLeaf, hc⟩ := hchild
    obtain ⟨rfl, ⟨hleaf, _⟩ | ⟨_, _, up, down, hmem, hlink, _⟩⟩ := h.atDepth hd hnode
    · simp [hnotLeaf] at hleaf
    · obtain ⟨e, he, rfl⟩ := List.mem_map.mp hmem
      obtain ⟨i, level, _, hlevel, hin⟩ := (hd.child ⟨_, hnode, hnotLeaf, hc⟩).level h.stack
        h.leaf.isLeaf h.distinct.inArena
      exact ⟨_, node_eq (h.distinct.inArena child (List.mem_flatMap.mpr
        ⟨level, List.mem_of_getElem? hlevel, hin⟩)), hlink.parents e he child hc⟩
  chain := by
    rw [h.leafIds_eq]
    exact h.leaf.chain
  len := by
    rw [h.leafIds_eq, BTreeIndex.len, h.counted]
    have haligned := h.leaf.aligned
    clear h
    induction leaves with
    | nil => rfl
    | cons e leaves ih =>
      rw [leafEntries_cons, Multimap.size_append, Level.ids_cons, List.map_cons, List.sum_cons,
        ih fun f hf => haligned f (by simp [hf]), rowCount, Multimap.size]
      congr 1
      conv_rhs => rw [← List.map_snd_zip (haligned e (by simp)).le, List.map_map]
      rfl

end Tree

end Cynos.Index
