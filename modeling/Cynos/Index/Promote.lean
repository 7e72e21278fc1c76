import Cynos.Index.Invariant

/-! A new node enters the levels above: widening, splits, a new root. -/
namespace Cynos.Index

open BTreeIndex

variable {K : Type}

/-- Nothing but parents changed outside the levels `ups`, and those only in `down`. -/
structure Frame (t t' : BTreeIndex K) (down : Level K) (ups : List (Level K)) : Prop where
  header : SameHeader t t'
  size : t.arena.length ≤ t'.arena.length
  keep : ∀ id < t.arena.length, id ∉ levelIds ups →
    t'.nodeAt id = setParent (t'.nodeAt id).parent (t.nodeAt id)
  below : ∀ id < t.arena.length, id ∉ levelIds ups → id ∉ down.ids → t'.nodeAt id = t.nodeAt id

theorem Frame.sameShape {t t' : BTreeIndex K} {down : Level K} {ups : List (Level K)}
    (h : Frame t t' down ups) {id : NodeId} (hid : id < t.arena.length)
    (hups : id ∉ levelIds ups) : SameShape (t'.nodeAt id) (t.nodeAt id) := by
  rw [h.keep id hid hups]
  exact ⟨rfl, rfl, rfl⟩

theorem splitInternalNode_eq {t : BTreeIndex K} {id : NodeId} {kl kr : List K} {p : K}
    {cl cr : List NodeId} (hid : id < t.arena.length)
    (hk : (t.nodeAt id).keys = kl ++ p :: kr) (hc : (t.nodeAt id).children = cl ++ cr)
    (hmid : kl.length = (t.nodeAt id).keys.length / 2) (hcl : cl.length = kl.length + 1)
    (hcr : ∀ c ∈ cr, c < t.arena.length) :
    ∃ t', t.splitInternalNode id = some (t', p, t.arena.length) ∧ SameHeader t t' ∧
      t'.root = t.root ∧ t'.arena.length = t.arena.length + 1 ∧
      t'.nodeAt = fun j =>
        let node := Function.update
          (Function.update t.nodeAt id { t.nodeAt id with keys := kl, children := cl })
          t.arena.length
          { (Node.newInternal : Node K) with
            keys := kr, children := cr, parent := (t.nodeAt id).parent } j
        if j ∈ cr then setParent (some t.arena.length) node else node := by
  have hget : (t.nodeAt id).keys[(t.nodeAt id).keys.length / 2]? = some p := by
    rw [← hmid, hk, List.getElem?_append_right (le_refl _)]
    simp
  have hkeys : Vec.splitOff (t.nodeAt id).keys ((t.nodeAt id).keys.length / 2 + 1) =
      some (kl ++ [p], kr) := by
    have hcut : kl ++ p :: kr = (kl ++ [p]) ++ kr := by simp
    rw [← hmid, hk, Vec.splitOff_of_le (by simp), hcut,
      List.take_left' (by simp), List.drop_left' (by simp)]
  have hchildren : Vec.splitOff (t.nodeAt id).children ((t.nodeAt id).keys.length / 2 + 1) =
      some (cl, cr) := by
    rw [← hmid, hc, Vec.splitOff_of_le (by simp [hcl]),
      List.take_left' hcl, List.drop_left' hcl]
  obtain ⟨t', hset, hheader, hroot, hlen, hat⟩ := setParents_eq
    (t := ((t.setNode id { t.nodeAt id with keys := kl, children := cl }).allocNode
      { (Node.newInternal : Node K) with
        keys := kr, children := cr, parent := (t.nodeAt id).parent }).1)
    cr (fun c hc => by simpa using Nat.lt_succ_of_lt (hcr c hc)) t.arena.length
  refine ⟨t', ?_, ?_, by simpa using hroot, by simpa using hlen, ?_⟩
  · rw [splitInternalNode, node_eq hid]
    simp only [Option.bind_eq_bind, Option.bind_some, Node.keyCount, hget, hkeys, hchildren,
      List.dropLast_concat, allocNode_snd, arena_length_setNode]
    rw [hset]
    rfl
  · exact ((sameHeader_setNode ..).trans (sameHeader_allocNode ..)).trans hheader
  · rw [hat, nodeAt_allocNode, nodeAt_setNode hid, arena_length_setNode]

section Parents

variable [LinearOrder K]

theorem insertIntoParent_root {t : BTreeIndex K} {q : K} {right : NodeId}
    (hroot : (t.nodeAt t.root).parent = none) (hl : t.root < t.arena.length)
    (hr : right < t.arena.length) (hne : right ≠ t.root) (fuel : Nat) :
    ∃ t', insertIntoParent (fuel + 1) t t.root q right = some t' ∧ SameHeader t t' ∧
      t'.root = t.arena.length ∧ t'.arena.length = t.arena.length + 1 ∧
      t'.nodeAt = Function.update (Function.update
        (Function.update t.nodeAt t.arena.length
          { (Node.newInternal : Node K) with keys := [q], children := [t.root, right] })
        t.root (setParent (some t.arena.length) (t.nodeAt t.root)))
        right (setParent (some t.arena.length) (t.nodeAt right)) := by
  let newRoot : Node K :=
    { (Node.newInternal : Node K) with keys := [q], children := [t.root, right] }
  let t1 := (t.allocNode newRoot).1
  let t2 := t1.setNode t.root (setParent (some t.arena.length) (t.nodeAt t.root))
  let t3 := t2.setNode right (setParent (some t.arena.length) (t.nodeAt right))
  have hl' : t.root < t.arena.length + 1 := hl.trans (Nat.lt_succ_self _)
  have hr' : right < t.arena.length + 1 := hr.trans (Nat.lt_succ_self _)
  have hat : t3.nodeAt = Function.update (Function.update
      (Function.update t.nodeAt t.arena.length newRoot)
      t.root (setParent (some t.arena.length) (t.nodeAt t.root)))
      right (setParent (some t.arena.length) (t.nodeAt right)) := by
    simp [t3, t2, t1, hl', hr']
  refine ⟨{ t3 with root := t.arena.length }, ?_, ⟨rfl, rfl, rfl, rfl⟩, rfl, by simp [t3, t2, t1],
    hat⟩
  rw [insertIntoParent, node_eq hl]
  simp only [Option.bind_eq_bind, Option.bind_some, hroot, allocNode_snd]
  rw [modifyNode_eq (by simpa using hl')]
  simp only [Option.bind_some]
  rw [modifyNode_eq (by simpa using hr')]
  simp only [Option.bind_some, t3, t2, t1, newRoot, nodeAt_allocNode, Function.update_of_ne hl.ne]
  rw [nodeAt_setNode (by simpa using hl'), nodeAt_allocNode, Function.update_of_ne hne,
    Function.update_of_ne hr.ne]

/-- The parent `m` of `left` after `right` was put in behind it. -/
structure Widened (N N' : NodeId → Node K) (m left right : NodeId) (q : K)
    (ka kb : List K) (ca cb : List NodeId) : Prop where
  keys : (N m).keys = ka ++ kb
  children : (N m).children = ca ++ left :: cb
  before : ca.length = ka.length
  after : cb.length = kb.length
  edited : N' = Function.update (Function.update N m
    { N m with keys := ka ++ q :: kb, children := ca ++ left :: right :: cb })
    right (setParent (some m) (N right))

omit [LinearOrder K] in
theorem Widened.slots_eq {N N' : NodeId → Node K} {m left right : NodeId} {q : K}
    {ka kb : List K} {ca cb : List NodeId} (h : Widened N N' m left right q ka kb ca cb)
    (hne : right ≠ m) {lo lo' : WithBot K} {a b : Level K}
    (ha : a ++ [(lo', left)] = (lo :: ka.map (↑)).zip (ca ++ [left]))
    (hb : b = (kb.map (↑)).zip cb) :
    slots lo (N' m) = a ++ (lo', left) :: (↑q, right) :: b := by
  rw [h.edited, Function.update_of_ne hne.symm, Function.update_self,
    slots_cons lo (a := ka) (k := q) (b := kb) (c := ca ++ [left]) (d := right :: cb) rfl (by simp)
      (by simp [h.before]), ← ha, List.zip_cons_cons, ← hb]
  simp

theorem insertIntoParent_step {t : BTreeIndex K} {up a b : Level K} {lo : WithBot K} {q : K}
    {left right : NodeId} {minKeys maxKeys : NodeId → Nat}
    (hlink : Link t.nodeAt minKeys maxKeys up (a ++ (lo, left) :: b))
    (hinc : Level.Increasing (a ++ (lo, left) :: (↑q, right) :: b))
    (hasc : t.comparator = .asc) (hl : left < t.arena.length) (hr : right < t.arena.length)
    (hup : ∀ id ∈ up.ids, id < t.arena.length ∧ right ≠ id) (fuel : Nat) :
    ∃ t3 u m v a' b' ka kb ca cb, up = u ++ m :: v ∧ a = expand t.nodeAt u ++ a' ∧
      b = b' ++ expand t.nodeAt v ∧ Widened t.nodeAt t3.nodeAt m.2 left right q ka kb ca cb ∧
      slots m.1 (t3.nodeAt m.2) = a' ++ (lo, left) :: (↑q, right) :: b' ∧
      SameHeader t t3 ∧ t3.root = t.root ∧ t3.arena.length = t.arena.length ∧
      insertIntoParent (fuel + 1) t left q right =
        if (t3.nodeAt m.2).keys.length ≥ t.order then do
          let (t, promoteKey, newNodeId) ← t3.splitInternalNode m.2
          insertIntoParent fuel t m.2 promoteKey newNodeId
        else some t3 := by
  obtain ⟨u, m, v, a', b', hsplit, hslots, ha, hb⟩ := hlink.locate rfl
  have hm : m ∈ up := by simp [hsplit]
  have har := (hlink.internal m hm).arity
  obtain ⟨ka, kb, ca, cb, hk, hch, hca, hcb, hpa, hpb⟩ := slots_covers har hslots
  obtain ⟨hml, hmr⟩ := hup m.2 (Level.mem_ids hm)
  have hinc' : Level.Increasing (a' ++ (lo, left) :: (↑q, right) :: b') := by
    refine List.Pairwise.sublist ?_ hinc
    rw [ha, hb]
    simp
  have hpos : t.findChildPosition (t.nodeAt m.2) q = ka.length := by
    have hlow : lo ≤ (q : WithBot K) := by
      have := List.pairwise_append.mp hinc'
      exact ((List.pairwise_cons.mp this.2.1).1 (↑q, right) (by simp)).le
    have hhigh : ∀ f ∈ b', (q : WithBot K) < f.1 := by
      have := (List.pairwise_append.mp hinc').2.1.of_cons
      exact fun f hf => List.rel_of_pairwise_cons this hf
    have hinc'' : Level.Increasing (a' ++ (lo, left) :: b') :=
      hinc'.sublist (List.Sublist.append_left (.cons_cons _ (List.sublist_cons_self ..)) _)
    obtain ⟨_, hka, hkb⟩ := slots_keys_split hinc'' hlow hhigh hpa hca hpb hcb
    exact t.findChildPosition_eq hasc hk hka hkb har
  have hparent : (t.nodeAt left).parent = some m.2 :=
    hlink.parents m hm left (by simp [hch])
  let widened : Node K :=
    { t.nodeAt m.2 with keys := ka ++ q :: kb, children := ca ++ left :: right :: cb }
  let t3 := (t.setNode m.2 widened).setNode right (setParent (some m.2) (t.nodeAt right))
  have hat : t3.nodeAt = Function.update (Function.update t.nodeAt m.2 widened)
      right (setParent (some m.2) (t.nodeAt right)) := by
    simp [t3, hml, hr]
  have hwide : Widened t.nodeAt t3.nodeAt m.2 left right q ka kb ca cb :=
    ⟨hk, hch, hca, hcb, hat⟩
  refine ⟨t3, u, m, v, a', b', ka, kb, ca, cb, hsplit, ha, hb, hwide,
    hwide.slots_eq hmr hpa hpb, ⟨rfl, rfl, rfl, rfl⟩, rfl, by simp [t3], ?_⟩
  have hkeys : Vec.insertAt (t.nodeAt m.2).keys ka.length q = some (ka ++ q :: kb) := by
    rw [hk, Vec.insertAt_append]
  have hchildren : Vec.insertAt (t.nodeAt m.2).children (ka.length + 1) right =
      some (ca ++ left :: right :: cb) := by
    have hcut : ca ++ left :: cb = (ca ++ [left]) ++ cb := by simp
    rw [hch, hcut, Vec.insertAt_append_of_eq (by simp [hca])]
    simp
  rw [insertIntoParent, node_eq hl]
  simp only [Option.bind_eq_bind, Option.bind_some, hparent, node_eq hml, hpos, hkeys, hchildren]
  rw [modifyNode_eq (by simpa using hr), nodeAt_setNode hml, Function.update_of_ne hmr]
  simp only [Option.bind_some, hat, Function.update_of_ne hmr.symm, Function.update_self,
    setNode_order]
  rfl

section Widened

variable {N N3 N4 : NodeId → Node K} {order : Nat} {u v a' b' : Level K}
  {m : WithBot K × NodeId} {lo : WithBot K} {p q : K} {left right new : NodeId}
  {ka kb kl kr : List K} {ca cb cl cr : List NodeId}

/-- `right` and the children of a level are not in the level itself. -/
structure Apart (N : NodeId → Node K) (right : NodeId) (up : Level K) : Prop where
  nodup : up.ids.Nodup
  right_notMem : right ∉ up.ids
  right_notChild : ∀ e ∈ up, right ∉ (N e.2).children
  children : ∀ e ∈ up, ∀ c ∈ (N e.2).children, c ∉ up.ids

omit [LinearOrder K] in
theorem Link.apart {minKeys maxKeys : NodeId → Nat} {up down : Level K}
    (h : Link N minKeys maxKeys up down) (hd : (right :: (down.ids ++ up.ids)).Nodup) :
    Apart N right up := by
  obtain ⟨hr, hd⟩ := List.nodup_cons.mp hd
  refine ⟨hd.of_append_right, fun hmem => hr (by simp [hmem]), ?_, ?_⟩
  · intro e he hmem
    exact hr (List.mem_append_left _ (h.mem_down he hmem))
  · intro e he c hc hmem
    exact List.disjoint_of_nodup_append hd (h.mem_down he hc) hmem

omit [LinearOrder K] in
theorem Apart.ne_of_mem (h : Apart N right (u ++ m :: v)) {e : WithBot K × NodeId}
    (he : e ∈ u ++ v) : e.2 ≠ m.2 ∧ e.2 ≠ right := by
  refine ⟨fun hem => ?_, fun her => ?_⟩
  · have hn := h.nodup
    rw [Level.ids_append, Level.ids_cons, List.nodup_middle, List.nodup_cons] at hn
    exact hn.1 (by rw [← Level.ids_append, ← hem]; exact Level.mem_ids he)
  · refine h.right_notMem (her ▸ Level.mem_ids ?_)
    simp only [List.mem_append, List.mem_cons] at he ⊢
    tauto

omit [LinearOrder K] in
theorem mem_insert_middle {e : WithBot K × NodeId} (he : e ∈ u ++ v) : e ∈ u ++ m :: v := by
  simp only [List.mem_append, List.mem_cons] at he ⊢
  tauto

omit [LinearOrder K] in
theorem Widened.at_of_ne (h : Widened N N3 m.2 left right q ka kb ca cb) {id : NodeId}
    (hm : id ≠ m.2) (hr : id ≠ right) : N3 id = N id := by
  rw [h.edited, Function.update_of_ne hr, Function.update_of_ne hm]

omit [LinearOrder K] in
theorem Widened.at_right (h : Widened N N3 m.2 left right q ka kb ca cb) :
    N3 right = setParent (some m.2) (N right) := by
  rw [h.edited, Function.update_self]

omit [LinearOrder K] in
theorem Widened.at_parent (h : Widened N N3 m.2 left right q ka kb ca cb) (hne : m.2 ≠ right) :
    N3 m.2 = { N m.2 with keys := ka ++ q :: kb, children := ca ++ left :: right :: cb } := by
  rw [h.edited, Function.update_of_ne hne, Function.update_self]

omit [LinearOrder K] in
/-- All children of the widened node know their parent. -/
theorem Widened.own (h : Widened N N3 m.2 left right q ka kb ca cb)
    (hparents : ∀ c ∈ (N m.2).children, (N c).parent = some m.2)
    (hself : m.2 ∉ (N m.2).children) {c : NodeId} (hc : c ∈ ca ++ left :: right :: cb) :
    (N3 c).parent = some m.2 := by
  by_cases hcr : c = right
  · rw [hcr, h.at_right, setParent_parent]
  · have hold : c ∈ (N m.2).children := by
      rw [h.children]
      simp only [List.mem_append, List.mem_cons] at hc ⊢
      tauto
    rw [h.at_of_ne (fun hcm => hself (by rwa [hcm] at hold)) hcr]
    exact hparents c hold

omit [LinearOrder K] in
/-- A widened node that is not full stays alone in its place. -/
theorem Widened.link {down : Level K} (h : Widened N N3 m.2 left right q ka kb ca cb)
    (hlink : Link N (minKeysOf none) (fun _ => order) (u ++ m :: v) down)
    (hapart : Apart N right (u ++ m :: v)) (hroom : (N3 m.2).keys.length < order) :
    Link N3 (minKeysOf none) (fun _ => order) (u ++ m :: v)
      (expand N u ++ slots m.1 (N3 m.2) ++ expand N v) := by
  have hm : m ∈ u ++ m :: v := by simp
  have hmr : m.2 ≠ right := fun h => hapart.right_notMem (h ▸ Level.mem_ids hm)
  have hself : m.2 ∉ (N m.2).children := fun hc => hapart.children m hm _ hc (Level.mem_ids hm)
  have hlink' : Link N (minKeysOf none) (fun _ => order) (u ++ [m] ++ v) down := by
    simpa using hlink
  have : Link N3 (minKeysOf none) (fun _ => order) (u ++ [m] ++ v) _ := hlink'.replace ?_ (fun _ _ => le_refl _) (fun _ _ => le_refl _) ?_ ?_ ?_
  · simpa using this
  · intro e he
    obtain ⟨h1, h2⟩ := hapart.ne_of_mem he
    rw [h.at_of_ne h1 h2]
    exact .refl _
  · intro e he c hc
    have he' : e ∈ u ++ m :: v := mem_insert_middle he
    rw [h.at_of_ne]
    · rintro rfl
      exact hapart.children e he' _ hc (Level.mem_ids hm)
    · rintro rfl
      exact hapart.right_notChild e he' hc
  · intro e he
    obtain rfl := List.mem_singleton.mp he
    have hint := hlink.internal e hm
    refine ⟨?_, ?_, ?_, hroom⟩
    · rw [h.at_parent hmr]
      exact hint.notLeaf
    · rw [h.at_parent hmr]
      simp [h.before, h.after]
      omega
    · rw [h.at_parent hmr]
      simp [minKeysOf]
      omega
  · intro e he c hc
    obtain rfl := List.mem_singleton.mp he
    rw [h.at_parent hmr] at hc
    exact h.own (hlink.parents e hm) hself hc

/-- The node `m` after its upper half went to the cell `new`. -/
structure Halved (N N' : NodeId → Node K) (m new : NodeId) (kl : List K) (p : K) (kr : List K)
    (cl cr : List NodeId) : Prop where
  keys : (N m).keys = kl ++ p :: kr
  children : (N m).children = cl ++ cr
  left : cl.length = kl.length + 1
  right : cr.length = kr.length + 1
  edited : N' = fun j =>
    let node := Function.update
      (Function.update N m { N m with keys := kl, children := cl }) new
      { (Node.newInternal : Node K) with keys := kr, children := cr, parent := (N m).parent } j
    if j ∈ cr then setParent (some new) node else node

omit [LinearOrder K] in
theorem Halved.at_of_ne (h : Halved N3 N4 m.2 new kl p kr cl cr) {id : NodeId}
    (hm : id ≠ m.2) (hnew : id ≠ new) (hcr : id ∉ cr) : N4 id = N3 id := by
  rw [h.edited]
  simp [hm, hnew, hcr]

omit [LinearOrder K] in
theorem Halved.sameShape (h : Halved N3 N4 m.2 new kl p kr cl cr) {id : NodeId}
    (hm : id ≠ m.2) (hnew : id ≠ new) : SameShape (N4 id) (N3 id) := by
  rw [h.edited]
  by_cases hcr : id ∈ cr
  · simpa [hm, hnew, hcr] using ⟨rfl, rfl, rfl⟩
  · simpa [hm, hnew, hcr] using .refl _

omit [LinearOrder K] in
theorem Halved.at_left (h : Halved N3 N4 m.2 new kl p kr cl cr) (hcr : m.2 ∉ cr)
    (hne : m.2 ≠ new) : N4 m.2 = { N3 m.2 with keys := kl, children := cl } := by
  rw [h.edited]
  simp [hcr, hne]

omit [LinearOrder K] in
theorem Halved.at_right (h : Halved N3 N4 m.2 new kl p kr cl cr) (hcr : new ∉ cr) :
    N4 new = { (Node.newInternal : Node K) with
      keys := kr, children := cr, parent := (N3 m.2).parent } := by
  rw [h.edited]
  simp [hcr]

omit [LinearOrder K] in
theorem Widened.mem_children (h : Widened N N3 m.2 left right q ka kb ca cb)
    (h' : Halved N3 N4 m.2 new kl p kr cl cr) (hmr : m.2 ≠ right) {c : NodeId}
    (hc : c ∈ cl ++ cr) : c = right ∨ c ∈ (N m.2).children := by
  rw [← h'.children, h.at_parent hmr] at hc
  rw [h.children]
  simp only [List.mem_append, List.mem_cons] at hc ⊢
  tauto

omit [LinearOrder K] in
theorem Widened.keep_split (h : Widened N N3 m.2 left right q ka kb ca cb)
    (h' : Halved N3 N4 m.2 new kl p kr cl cr) {id : NodeId} (hm : id ≠ m.2) (hnew : id ≠ new) :
    N4 id = setParent (N4 id).parent (N id) := by
  have hN : N3 id = setParent (N3 id).parent (N id) := by
    by_cases hr : id = right
    · rw [hr, h.at_right, setParent_parent]
    · rw [h.at_of_ne hm hr, setParent_self]
  rw [h'.edited]
  by_cases hcr : id ∈ cr
  · simp only [hcr, if_true, Function.update_of_ne hnew, Function.update_of_ne hm,
      setParent_parent]
    rw [hN, setParent_setParent]
  · simpa only [hcr, if_false, Function.update_of_ne hnew, Function.update_of_ne hm] using hN

omit [LinearOrder K] in
theorem Widened.below_split (h : Widened N N3 m.2 left right q ka kb ca cb)
    (h' : Halved N3 N4 m.2 new kl p kr cl cr) (hmr : m.2 ≠ right) {id : NodeId} (hm : id ≠ m.2)
    (hnew : id ≠ new) (hr : id ≠ right) (hc : id ∉ (N m.2).children) : N4 id = N id := by
  rw [h'.at_of_ne hm hnew, h.at_of_ne hm hr]
  intro hcr
  rcases h.mem_children h' hmr (List.mem_append_right _ hcr) with hcr | hcr
  · exact hr hcr
  · exact hc hcr

omit [LinearOrder K] in
/-- A full widened node gives its upper half to a new neighbour. -/
theorem Widened.link_split {down : Level K} (h : Widened N N3 m.2 left right q ka kb ca cb)
    (h' : Halved N3 N4 m.2 new kl p kr cl cr)
    (hlink : Link N (minKeysOf none) (fun _ => order) (u ++ m :: v) down)
    (hapart : Apart N right (u ++ m :: v)) (hnodup : (cl ++ cr).Nodup)
    (hnew : ∀ e ∈ u ++ m :: v, e.2 ≠ new ∧ new ∉ (N e.2).children) (hnewr : right ≠ new)
    (hkl : 1 ≤ kl.length) (hkr : 1 ≤ kr.length) (hkl' : kl.length < order)
    (hkr' : kr.length < order) :
    Link N4 (minKeysOf none) (fun _ => order) (u ++ m :: (↑p, new) :: v)
      (expand N u ++ slots m.1 (N3 m.2) ++ expand N v) := by
  have hm : m ∈ u ++ m :: v := by simp
  have hmr : m.2 ≠ right := fun h => hapart.right_notMem (h ▸ Level.mem_ids hm)
  have hself : m.2 ∉ (N m.2).children := fun hc => hapart.children m hm _ hc (Level.mem_ids hm)
  have hmem : ∀ c, c ∈ cl ++ cr ↔ c ∈ ca ++ left :: right :: cb := by
    intro c
    rw [← h'.children, h.at_parent hmr]
  have hchild : ∀ c ∈ cl ++ cr, c = right ∨ c ∈ (N m.2).children :=
    fun c hc => h.mem_children h' hmr hc
  have hnewm : m.2 ≠ new := (hnew m hm).1
  have hmcr : ∀ c ∈ cl ++ cr, c ≠ m.2 ∧ c ≠ new := by
    intro c hc
    rcases hchild c hc with rfl | hc
    · exact ⟨hmr.symm, hnewr⟩
    · exact ⟨fun heq => hself (heq ▸ hc), fun heq => (hnew m hm).2 (heq ▸ hc)⟩
  have hatm : N4 m.2 = { N3 m.2 with keys := kl, children := cl } :=
    h'.at_left (fun hc => (hmcr _ (List.mem_append_right _ hc)).1 rfl) hnewm
  have hatn := h'.at_right fun hc => (hmcr _ (List.mem_append_right _ hc)).2 rfl
  have hint := hlink.internal m hm
  have hlink' : Link N (minKeysOf none) (fun _ => order) (u ++ [m] ++ v) down := by
    simpa using hlink
  have : Link N4 (minKeysOf none) (fun _ => order) (u ++ [m, (↑p, new)] ++ v) _ := hlink'.replace ?_ (fun _ _ => le_refl _) (fun _ _ => le_refl _) ?_ ?_ ?_
  · have hslots := slots_cons m.1 h'.keys h'.children h'.left
    rw [expand_cons, expand_cons, hatm, hatn, expand_nil] at this
    simp only [List.append_assoc, List.cons_append, List.nil_append, List.append_nil] at this ⊢
    rw [hslots, List.append_assoc]
    exact this
  · intro e he
    obtain ⟨h1, h2⟩ := hapart.ne_of_mem he
    rw [← h.at_of_ne h1 h2]
    exact h'.sameShape h1 (hnew e (mem_insert_middle he)).1
  · intro e he c hc
    have he' : e ∈ u ++ m :: v := mem_insert_middle he
    have hcm : c ≠ m.2 := by
      rintro rfl
      exact hapart.children e he' _ hc (Level.mem_ids hm)
    have hcright : c ≠ right := by
      rintro rfl
      exact hapart.right_notChild e he' hc
    rw [h'.at_of_ne hcm, h.at_of_ne hcm hcright]
    · rintro rfl
      exact (hnew e he').2 hc
    · intro hcr
      rcases hchild c (List.mem_append_right _ hcr) with hcr | hcr
      · exact hcright hcr
      · have hpe := hlink.parents e he' c hc
        rw [hlink.parents m hm c hcr, Option.some.injEq] at hpe
        exact (hapart.ne_of_mem he).1 hpe.symm
  · intro e he
    simp only [List.mem_cons, List.not_mem_nil, or_false] at he
    rcases he with rfl | rfl
    · rw [hatm]
      refine ⟨?_, h'.left, by simpa using hkl, hkl'⟩
      rw [h.at_parent hmr]
      exact hint.notLeaf
    · rw [hatn]
      exact ⟨rfl, h'.right, by simpa using hkr, hkr'⟩
  · intro e he c hc
    simp only [List.mem_cons, List.not_mem_nil, or_false] at he
    rcases he with rfl | rfl
    · rw [hatm] at hc
      have hc' := List.mem_append_left cr hc
      rw [h'.at_of_ne (hmcr c hc').1 (hmcr c hc').2
        fun hcr => List.disjoint_of_nodup_append hnodup hc hcr]
      exact h.own (hlink.parents e hm) hself ((hmem c).mp hc')
    · rw [hatn] at hc
      rw [h'.edited]
      simp only [hc, if_true, setParent_parent]

end Widened

omit [LinearOrder K] in
theorem splitInternalNode_halved {t : BTreeIndex K} {id : NodeId} (hid : id < t.arena.length)
    (hkeys : 3 ≤ (t.nodeAt id).keys.length)
    (har : (t.nodeAt id).children.length = (t.nodeAt id).keys.length + 1)
    (hc : ∀ c ∈ (t.nodeAt id).children, c < t.arena.length) :
    ∃ t' kl p kr cl cr, t.splitInternalNode id = some (t', p, t.arena.length) ∧
      SameHeader t t' ∧ t'.root = t.root ∧ t'.arena.length = t.arena.length + 1 ∧
      Halved t.nodeAt t'.nodeAt id t.arena.length kl p kr cl cr ∧
      1 ≤ kl.length ∧ 1 ≤ kr.length ∧ kl.length + kr.length < (t.nodeAt id).keys.length := by
  let mid := (t.nodeAt id).keys.length / 2
  have hmid : mid < (t.nodeAt id).keys.length := by omega
  have hk : (t.nodeAt id).keys = (t.nodeAt id).keys.take mid ++
      (t.nodeAt id).keys[mid] :: (t.nodeAt id).keys.drop (mid + 1) := by
    simp
  have hchildren := (List.take_append_drop (mid + 1) (t.nodeAt id).children).symm
  have hkl : ((t.nodeAt id).keys.take mid).length = mid := by
    rw [List.length_take]; omega
  have hkr : ((t.nodeAt id).keys.drop (mid + 1)).length =
      (t.nodeAt id).keys.length - (mid + 1) := List.length_drop
  have hcl : ((t.nodeAt id).children.take (mid + 1)).length = mid + 1 := by
    rw [List.length_take]; omega
  have hcr : ((t.nodeAt id).children.drop (mid + 1)).length =
      (t.nodeAt id).children.length - (mid + 1) := List.length_drop
  obtain ⟨t', hrun, hheader, hroot, hlen, hat⟩ := splitInternalNode_eq hid hk hchildren hkl
    (by rw [hcl, hkl]) (fun c hmem => hc c (List.mem_of_mem_drop hmem))
  refine ⟨t', _, _, _, _, _, hrun, hheader, hroot, hlen,
    ⟨hk, hchildren, by rw [hcl, hkl], by rw [hcr, hkr]; omega, hat⟩, ?_, ?_, ?_⟩
  · rw [hkl]; omega
  · rw [hkr]; omega
  · rw [hkl, hkr]; omega

omit [LinearOrder K] in
/-- A fresh cell enters one of the levels. -/
theorem Distinct.insert {size new : Nat} {a b : Level K} {e : WithBot K × NodeId}
    {levels : List (Level K)} (h : Distinct size ((a ++ b) :: levels)) (he : e.2 = size)
    (hnew : new = size + 1) : Distinct new ((a ++ e :: b) :: levels) := by
  have hperm : (levelIds ((a ++ e :: b) :: levels)).Perm
      (e.2 :: levelIds ((a ++ b) :: levels)) := by
    rw [levelIds_cons, levelIds_cons, Level.ids_append, Level.ids_append, Level.ids_cons,
      ← List.cons_append]
    exact List.perm_middle.append_right _
  refine ⟨hperm.nodup_iff.mpr (List.nodup_cons.mpr ⟨fun hmem => ?_, h.nodup⟩), fun id hid => ?_⟩
  · exact (h.inArena _ hmem).ne he
  · rcases List.mem_cons.mp (hperm.mem_iff.mp hid) with rfl | hid
    · rw [he, hnew]
      exact Nat.lt_succ_self _
    · rw [hnew]
      exact (h.inArena id hid).trans (Nat.lt_succ_self _)

omit [LinearOrder K] in
theorem Level.nodup_of_append {down up : Level K} {ups : List (Level K)} {size : Nat}
    (h : Distinct size (down :: up :: ups)) : (down.ids ++ up.ids).Nodup := by
  have := h.nodup
  rw [levelIds_cons, levelIds_cons, ← List.append_assoc] at this
  exact this.of_append_left

/-- The new separator `q` and the node `right` behind it enter the levels above. -/
theorem insertIntoParent_spec {t : BTreeIndex K} {a b : Level K} {lo : WithBot K} {q : K}
    {left right : NodeId} {ups : List (Level K)}
    (hstack : Stack t.nodeAt t.order none t.root (a ++ (lo, left) :: b) ups)
    (hd : Distinct t.arena.length ((a ++ (lo, left) :: (↑q, right) :: b) :: ups))
    (hinc : Level.Increasing (a ++ (lo, left) :: (↑q, right) :: b)) {fuel : Nat}
    (hasc : t.comparator = .asc) (horder : 3 ≤ t.order) (hfuel : ups.length < fuel) :
    ∃ t' ups', insertIntoParent fuel t left q right = some t' ∧
      Frame t t' (a ++ (lo, left) :: (↑q, right) :: b) ups ∧
      Stack t'.nodeAt t'.order none t'.root (a ++ (lo, left) :: (↑q, right) :: b) ups' ∧
      Distinct t'.arena.length ((a ++ (lo, left) :: (↑q, right) :: b) :: ups') ∧
      (∀ id ∈ levelIds ups', id ∈ levelIds ups ∨ t.arena.length ≤ id) ∧ ups' ≠ [] := by
  obtain ⟨fuel, rfl⟩ : ∃ n, fuel = n + 1 := ⟨fuel - 1, by omega⟩
  have hl : left < t.arena.length := hd.inArena _ (by simp)
  have hr : right < t.arena.length := hd.inArena _ (by simp)
  induction ups generalizing t a b lo q left right fuel with
  | nil =>
    obtain ⟨hdown, hroot⟩ := hstack
    obtain ⟨rfl, rfl, rfl, rfl⟩ : a = [] ∧ lo = ⊥ ∧ left = t.root ∧ b = [] := by
      cases a with
      | nil => simpa [and_assoc] using hdown
      | cons e a => simp at hdown
    have hne : right ≠ t.root := by
      have := hd.nodup
      simp only [List.nil_append, levelIds_cons, levelIds_nil, Level.ids_cons, Level.ids_nil,
        List.append_nil, List.nodup_cons, List.mem_singleton] at this
      exact fun h => this.1 h.symm
    obtain ⟨t', hrun, hheader, hroot', hlen, hat⟩ := insertIntoParent_root hroot hl hr hne fuel
      (q := q)
    refine ⟨t', [[(⊥, t.arena.length)]], hrun, ⟨hheader, by omega, ?_, ?_⟩,
      ⟨⟨?_, ?_, ?_⟩, ?_, ?_⟩, ⟨?_, ?_⟩, by simp, by simp⟩
    · intro id hid _
      rw [hat]
      by_cases h1 : id = right
      · subst h1; simp
      · by_cases h2 : id = t.root
        · subst h2; simp [h1]
        · simp [h1, h2, hid.ne]
    · intro id hid _ hdn
      simp only [List.nil_append, Level.ids_cons, Level.ids_nil, List.mem_cons,
        List.not_mem_nil, or_false, not_or] at hdn
      rw [hat, Function.update_of_ne hdn.2, Function.update_of_ne hdn.1,
        Function.update_of_ne hid.ne]
    · rw [hat]
      simp [hl.ne', hr.ne', slots]
    · intro e he
      obtain rfl := List.mem_singleton.mp he
      rw [hat, hheader.order]
      simp only [ne_eq, hr.ne', not_false_eq_true, Function.update_of_ne, hl.ne',
        Function.update_self]
      exact ⟨rfl, rfl, by simp, by simp; omega⟩
    · intro e he c hc
      obtain rfl := List.mem_singleton.mp he
      rw [hat] at hc ⊢
      simp only [ne_eq, hr.ne', not_false_eq_true, Function.update_of_ne, hl.ne',
        Function.update_self, List.mem_cons, List.not_mem_nil, or_false] at hc
      rcases hc with rfl | rfl
      · simp [hne.symm]
      · simp
    · rw [hroot']
    · rw [hroot', hat]
      simp [hl.ne', hr.ne', Node.newInternal]
    · simp [hl.ne, hr.ne, hne.symm]
    · intro id hid
      simp only [List.nil_append, levelIds_cons, Level.ids_cons, Level.ids_nil, levelIds_nil,
        List.append_nil, List.cons_append, List.mem_cons, List.not_mem_nil, or_false] at hid
      rw [hlen]
      rcases hid with rfl | rfl | rfl
      · exact hl.trans (Nat.lt_succ_self _)
      · exact hr.trans (Nat.lt_succ_self _)
      · exact Nat.lt_succ_self _
  | cons up ups ih =>
    obtain ⟨hlink, hstack⟩ := hstack
    have hperm : (right :: ((a ++ (lo, left) :: b).ids ++ up.ids)).Nodup := by
      have := Level.nodup_of_append hd
      simp only [Level.ids_append, Level.ids_cons] at this ⊢
      refine (List.Perm.nodup_iff ?_).mp this
      rw [← List.cons_append]
      refine List.Perm.append_right _ ?_
      have hcut : a.ids ++ left :: right :: b.ids = (a.ids ++ [left]) ++ right :: b.ids := by simp
      have hcut' : a.ids ++ left :: b.ids = (a.ids ++ [left]) ++ b.ids := by simp
      rw [hcut, hcut']
      exact List.perm_middle
    have hapart := hlink.apart hperm
    obtain ⟨t3, u, m, v, a', b', ka, kb, ca, cb, rfl, rfl, rfl, hwide, hslots, hheader, hroot,
      hlen, hrun⟩ := insertIntoParent_step hlink hinc hasc hl hr (fun id hid =>
        ⟨hd.inArena id (by simp [hid]), fun h => hapart.right_notMem (h ▸ hid)⟩) fuel
    have hm : m ∈ u ++ m :: v := by simp
    have hmr : m.2 ≠ right := fun h => hapart.right_notMem (h ▸ Level.mem_ids hm)
    have hup : ∀ id ∈ (u ++ m :: v).ids, id < t.arena.length ∧ id ∉ levelIds ups :=
      fun id hid => ⟨hd.tail.inArena id (mem_levelIds_cons.mpr (.inl hid)),
        hd.tail.notMem_above hid⟩
    have hups : ∀ id ∈ levelIds ups, id ∉ (u ++ m :: v).ids ∧ id < t.arena.length ∧ id ≠ right := by
      refine fun id hid => ⟨fun h => (hup id h).2 hid,
        hd.tail.inArena id (mem_levelIds_cons.mpr (.inr hid)), ?_⟩
      rintro rfl
      exact hd.notMem_above (by simp) (mem_levelIds_cons.mpr (.inr hid))
    have hdown : (expand t.nodeAt u ++ a' ++ (lo, left) :: (↑q, right) ::
        (b' ++ expand t.nodeAt v)) = expand t.nodeAt u ++ slots m.1 (t3.nodeAt m.2) ++
        expand t.nodeAt v := by
      rw [hslots]
      simp
    by_cases hroom : (t3.nodeAt m.2).keys.length ≥ t.order
    · obtain ⟨fuel, rfl⟩ : ∃ n, fuel = n + 1 := ⟨fuel - 1, by
        rw [List.length_cons] at hfuel
        omega⟩
      have hint := hlink.internal m hm
      have hkeys3 : (t3.nodeAt m.2).keys.length = (t.nodeAt m.2).keys.length + 1 := by
        rw [hwide.at_parent hmr, hwide.keys]
        simp
        omega
      have har3 : (t3.nodeAt m.2).children.length = (t3.nodeAt m.2).keys.length + 1 := by
        rw [hkeys3, ← hint.arity, hwide.at_parent hmr, hwide.children]
        simp
        omega
      have hchildren : (t3.nodeAt m.2).children = (slots m.1 (t3.nodeAt m.2)).ids :=
        (slots_map_snd _ har3).symm
      have hin3 : ∀ c ∈ (t3.nodeAt m.2).children, c < t3.arena.length := by
        intro c hc
        rw [hlen]
        refine hd.inArena c ?_
        rw [hdown, levelIds_cons, Level.ids_append, Level.ids_append, ← hchildren]
        simp [hc]
      obtain ⟨t4, kl, p, kr, cl, cr, hsplit, hheader4, hroot4, hlen4, hhalf, hkl, hkr, hsum⟩ :=
        splitInternalNode_halved (by rw [hlen]; exact (hup m.2 (Level.mem_ids hm)).1)
          (horder.trans hroom) har3 hin3
      have hnodup : (cl ++ cr).Nodup := by
        have := hd.nodup
        rw [hdown, levelIds_cons, Level.ids_append, Level.ids_append, ← hchildren,
          hhalf.children] at this
        exact this.of_append_left.of_append_left.of_append_right
      have hnew : ∀ id, id < t.arena.length → id ≠ t3.arena.length := by
        intro id hid
        rw [hlen]
        exact hid.ne
      have hdownlt : ∀ id ∈ (expand t.nodeAt u ++ a' ++ (lo, left) :: (↑q, right) ::
          (b' ++ expand t.nodeAt v)).ids, id < t.arena.length :=
        fun id hid => hd.inArena id (by rw [levelIds_cons]; exact List.mem_append_left _ hid)
      have holdlt : ∀ e ∈ u ++ m :: v, ∀ c ∈ (t.nodeAt e.2).children, c < t.arena.length := by
        intro e he c hc
        exact hdownlt c (Level.mem_ids_second.mpr (.inr (hlink.mem_down he hc)))
      have hlink4 := hwide.link_split hhalf hlink hapart hnodup
        (fun e he => ⟨hnew e.2 (hup e.2 (Level.mem_ids he)).1,
          fun hc => hnew _ (holdlt e he _ hc) rfl⟩)
        (hnew right hr) hkl hkr (by have := hint.upper; omega) (by have := hint.upper; omega)
      rw [← hdown] at hlink4
      have hkeep : ∀ id, id < t.arena.length → id ≠ m.2 →
          t4.nodeAt id = setParent (t4.nodeAt id).parent (t.nodeAt id) :=
        fun id hid hidm => hwide.keep_split hhalf hidm (hnew id hid)
      have hbelow : ∀ id, id < t.arena.length → id ≠ m.2 → id ≠ right →
          id ∉ (t.nodeAt m.2).children → t4.nodeAt id = t.nodeAt id :=
        fun id hid hidm hidr hidc => hwide.below_split hhalf hmr hidm (hnew id hid) hidr hidc
      have hupsm : ∀ id ∈ levelIds ups, id ≠ m.2 :=
        fun id hid h => (hups id hid).1 (h ▸ Level.mem_ids hm)
      have hmcr : m.2 ∉ cr := by
        intro hmem
        rcases hwide.mem_children hhalf hmr (List.mem_append_right _ hmem) with h | h
        · exact hmr h
        · exact hapart.children m hm _ h (Level.mem_ids hm)
      have haway : ∀ id ∈ (u ++ m :: v).ids ++ levelIds ups,
          id < t.arena.length ∧ id ≠ right ∧ id ∉ (t.nodeAt m.2).children := by
        intro id hid
        rcases List.mem_append.mp hid with hid | hid
        · exact ⟨(hup id hid).1, fun h => hapart.right_notMem (h ▸ hid),
            fun hc => hapart.children m hm id hc hid⟩
        · refine ⟨(hups id hid).2.1, (hups id hid).2.2, fun hc => ?_⟩
          exact hd.notMem_above (Level.mem_ids_second.mpr (.inr (hlink.mem_down hm hc)))
            (mem_levelIds_cons.mpr (.inr hid))
      have hstack4 : Stack t4.nodeAt t4.order none t4.root (u ++ m :: v) ups := by
        rw [hheader4.order, hheader.order, hroot4, hroot]
        refine hstack.congr (fun id hid => ?_) (fun _ _ => le_refl _) fun id hid => ?_
        · rw [hkeep id (hups id hid).2.1 (hupsm id hid)]
          exact ⟨rfl, rfl, rfl⟩
        · by_cases hidm : id = m.2
          · rw [hidm, hhalf.at_left hmcr (hnew _ (hup m.2 (Level.mem_ids hm)).1),
              hwide.at_parent hmr]
          · obtain ⟨hidlt, hidr, hidc⟩ := haway id hid
            rw [hbelow id hidlt hidm hidr hidc]
      have hd4 : Distinct t4.arena.length ((u ++ m :: (↑p, t3.arena.length) :: v) :: ups) := by
        have hcut : ∀ x : Level K, u ++ m :: x = (u ++ [m]) ++ x := by simp
        have := hd.tail
        rw [hcut] at this ⊢
        exact this.insert hlen (by rw [hlen4, hlen])
      obtain ⟨t', ups', hrun', hframe, hstack', hd', hids, hne⟩ := ih hstack4 hd4
        (hlink4.increasing hinc) (by rw [hheader4.comparator, hheader.comparator, hasc])
        (by rw [hheader4.order, hheader.order]; exact horder) fuel
        (by rw [List.length_cons] at hfuel; omega)
        (by rw [hlen4, hlen]; exact (hup m.2 (Level.mem_ids hm)).1.trans (Nat.lt_succ_self _))
        (by rw [hlen4]; exact Nat.lt_succ_self _)
      have hlen' : t4.arena.length = t.arena.length + 1 := by rw [hlen4, hlen]
      have hsize : ∀ id, id < t.arena.length → id < t4.arena.length := fun id hid => by
        rw [hlen']
        exact hid.trans (Nat.lt_succ_self _)
      refine ⟨t', (u ++ m :: (↑p, t3.arena.length) :: v) :: ups', ?_,
        ⟨(hheader.trans hheader4).trans hframe.header, by have := hframe.size; omega, ?_, ?_⟩,
        ⟨?_, hstack'⟩, ⟨?_, ?_⟩, ?_, by simp⟩
      · rw [hrun, if_pos hroom]
        simp only [Option.bind_eq_bind, hsplit, Option.bind_some, hrun']
      · intro id hid hnot
        rw [levelIds_cons, List.mem_append, not_or] at hnot
        have hidm : id ≠ m.2 := fun h => hnot.1 (h ▸ Level.mem_ids hm)
        rw [hframe.keep id (hsize id hid) hnot.2, hkeep id hid hidm]
        rfl
      · intro id hid hnot hdn
        rw [levelIds_cons, List.mem_append, not_or] at hnot
        have hidm : id ≠ m.2 := fun h => hnot.1 (h ▸ Level.mem_ids hm)
        rw [hframe.below id (hsize id hid) hnot.2, hbelow id hid hidm]
        · rintro rfl
          exact hdn (by simp)
        · intro hc
          exact hdn (Level.mem_ids_second.mpr (.inr (hlink.mem_down hm hc)))
        · rw [Level.mem_ids_second, not_or]
          exact ⟨hnew id hid, hnot.1⟩
      · rw [hframe.header.order, hheader4.order, hheader.order]
        refine hlink4.congr (fun e he => ?_) (fun _ _ => le_refl _) (fun _ _ => le_refl _)
          fun c hc => ?_
        · exact hframe.sameShape
            (hd4.inArena _ (by rw [levelIds_cons]; exact List.mem_append_left _ (Level.mem_ids he)))
            (hd4.notMem_above (Level.mem_ids he))
        · rw [hframe.below c (hsize c (hdownlt c hc))]
          · intro hmem
            exact hd.notMem_above hc (by simp [hmem])
          · intro hmem
            rcases Level.mem_ids_second.mp hmem with hmem | hmem
            · exact hnew c (hdownlt c hc) hmem
            · exact hd.notMem_above hc (mem_levelIds_cons.mpr (.inl hmem))
      · have hcnew : ∀ c ∈ (expand t.nodeAt u ++ a' ++ (lo, left) :: (↑q, right) ::
            (b' ++ expand t.nodeAt v)).ids, c ∉ levelIds
              ((u ++ m :: (↑p, t3.arena.length) :: v) :: ups') := by
          intro c hc hmem
          have hcne := hnew c (hdownlt c hc)
          have hnot := hd.notMem_above hc
          rw [mem_levelIds_cons, Level.mem_ids_second, or_assoc] at hmem
          rw [mem_levelIds_cons, not_or] at hnot
          rcases hmem with hmem | hmem | hmem
          · exact hcne hmem
          · exact hnot.1 hmem
          · rcases hids c hmem with hmem | hmem
            · exact hnot.2 hmem
            · rw [hlen'] at hmem
              exact (hdownlt c hc).not_ge ((Nat.le_succ _).trans hmem)
        rw [levelIds_cons]
        refine List.Nodup.append ?_ hd'.nodup hcnew
        have := hd.nodup
        rw [levelIds_cons] at this
        exact this.of_append_left
      · intro id hid
        rw [levelIds_cons, List.mem_append] at hid
        rcases hid with hid | hid
        · exact (hsize id (hdownlt id hid)).trans_le hframe.size
        · exact hd'.inArena id hid
      · intro id hid
        rw [mem_levelIds_cons, Level.mem_ids_second, or_assoc] at hid
        rcases hid with hid | hid | hid
        · exact .inr (by rw [hid, hlen])
        · exact .inl (mem_levelIds_cons.mpr (.inl hid))
        · rcases hids id hid with hid | hid
          · exact .inl (by simp [hid])
          · exact .inr ((Nat.le_succ _).trans (hlen'.ge.trans hid))
    · have hlink3 := hwide.link hlink hapart (not_le.mp hroom)
      rw [← hdown] at hlink3
      refine ⟨t3, (u ++ m :: v) :: ups, by rw [hrun, if_neg hroom],
        ⟨hheader, hlen.ge, ?_, ?_⟩, ⟨?_, ?_⟩, by rwa [hlen], fun id hid => .inl hid, by simp⟩
      · intro id hid hnot
        by_cases hidr : id = right
        · rw [hidr, hwide.at_right, setParent_parent]
        · rw [hwide.at_of_ne _ hidr, setParent_self]
          rintro rfl
          exact hnot (by simp)
      · intro id hid hnot hdn
        refine hwide.at_of_ne ?_ ?_
        · rintro rfl
          exact hnot (by simp)
        · rintro rfl
          exact hdn (by simp)
      · rwa [hheader.order]
      · rw [hheader.order, hroot]
        have hsame : ∀ id, id ∈ levelIds ups → t3.nodeAt id = t.nodeAt id := by
          intro id hid
          obtain ⟨h1, _, h2⟩ := hups id hid
          exact hwide.at_of_ne (fun h => h1 (h ▸ Level.mem_ids hm)) h2
        refine hstack.congr (fun id hid => by rw [hsame id hid]; exact .refl _)
          (fun _ _ => le_refl _) fun id hid => ?_
        by_cases hidm : id = m.2
        · rw [hidm, hwide.at_parent hmr]
        · rw [hwide.at_of_ne hidm]
          rintro rfl
          rcases List.mem_append.mp hid with hid | hid
          · exact hapart.right_notMem hid
          · exact (hups _ hid).2.2 rfl

end Parents

end Cynos.Index
