import Cynos.Index.BTree
import Cynos.Lib.Chain
import Cynos.Lib.Multimap

/-! The levels of a B+tree. A level lists the nodes of one depth from left to
right, each with the separator before it. Every level is the expansion of the
one above, so the separators of all internal nodes reappear in the leaf level,
and splits, borrows and merges of internal nodes leave the levels below alone. -/
namespace Cynos.Index

variable {K : Type}

abbrev Level (K : Type) := List (WithBot K × NodeId)

def Level.ids (level : Level K) : List NodeId := level.map Prod.snd

@[simp] theorem Level.ids_nil : Level.ids ([] : Level K) = [] := rfl
@[simp] theorem Level.ids_cons (e : WithBot K × NodeId) (level : Level K) :
    Level.ids (e :: level) = e.2 :: Level.ids level := rfl
@[simp] theorem Level.ids_append (a b : Level K) :
    Level.ids (a ++ b) = Level.ids a ++ Level.ids b := by simp [Level.ids]

theorem Level.mem_ids {level : Level K} {e : WithBot K × NodeId} (h : e ∈ level) :
    e.2 ∈ level.ids := List.mem_map_of_mem h

theorem Level.mem_ids_second {a b : Level K} {e f : WithBot K × NodeId} {id : NodeId} :
    id ∈ Level.ids (a ++ e :: f :: b) ↔ id = f.2 ∨ id ∈ Level.ids (a ++ e :: b) := by
  simp only [Level.ids_append, Level.ids_cons, List.mem_append, List.mem_cons]
  tauto

/-- The children of a node that starts at `lo`, with the separators before them. -/
def slots (lo : WithBot K) (node : Node K) : Level K :=
  (lo :: node.keys.map (↑)).zip node.children

def expand (N : NodeId → Node K) (level : Level K) : Level K :=
  level.flatMap fun e => slots e.1 (N e.2)

@[simp] theorem expand_nil (N : NodeId → Node K) : expand N [] = [] := rfl
@[simp] theorem expand_cons (N : NodeId → Node K) (e : WithBot K × NodeId) (level : Level K) :
    expand N (e :: level) = slots e.1 (N e.2) ++ expand N level := rfl
@[simp] theorem expand_append (N : NodeId → Node K) (a b : Level K) :
    expand N (a ++ b) = expand N a ++ expand N b := by simp [expand]

/-- What `slots` reads of a node. -/
def SameShape (a b : Node K) : Prop :=
  a.keys = b.keys ∧ a.children = b.children ∧ a.isLeaf = b.isLeaf

theorem SameShape.refl (a : Node K) : SameShape a a := ⟨rfl, rfl, rfl⟩

theorem SameShape.slots {a b : Node K} (h : SameShape a b) (lo : WithBot K) :
    slots lo a = slots lo b := by
  simp [Index.slots, h.1, h.2.1]

theorem expand_congr {N N' : NodeId → Node K} {level : Level K}
    (h : ∀ e ∈ level, SameShape (N' e.2) (N e.2)) : expand N' level = expand N level := by
  induction level with
  | nil => rfl
  | cons e level ih =>
    rw [expand_cons, expand_cons, (h e (by simp)).slots, ih fun f hf => h f (by simp [hf])]

/-- An internal node with at least `minKeys` and fewer than `maxKeys` keys. -/
structure Node.Internal (minKeys maxKeys : Nat) (node : Node K) : Prop where
  notLeaf : node.isLeaf = false
  arity : node.children.length = node.keys.length + 1
  lower : minKeys ≤ node.keys.length
  upper : node.keys.length < maxKeys

theorem Node.Internal.congr {minKeys maxKeys minKeys' maxKeys' : Nat} {a b : Node K}
    (h : a.Internal minKeys maxKeys) (hab : SameShape b a) (hmin : minKeys' ≤ minKeys)
    (hmax : maxKeys ≤ maxKeys') : b.Internal minKeys' maxKeys' := by
  obtain ⟨hk, hc, hl⟩ := hab
  exact ⟨by rw [hl, h.notLeaf], by rw [hk, hc, h.arity],
    by rw [hk]; exact hmin.trans h.lower, by rw [hk]; exact h.upper.trans_le hmax⟩

/-- Internal nodes hold at least one key, except that `light` may hold none
while an underflow of it is being repaired. -/
def minKeysOf (light : Option NodeId) (id : NodeId) : Nat := if light = some id then 0 else 1

/-- A node that is about to be split holds one key more than the others may. -/
def maxKeysOf (order : Nat) (heavy : Option NodeId) (id : NodeId) : Nat :=
  if heavy = some id then order + 1 else order

@[simp] theorem minKeysOf_none (id : NodeId) : minKeysOf none id = 1 := rfl
@[simp] theorem minKeysOf_some_self (id : NodeId) : minKeysOf (some id) id = 0 := by
  simp [minKeysOf]
theorem minKeysOf_of_ne {light id : NodeId} (h : light ≠ id) : minKeysOf (some light) id = 1 := by
  simp [minKeysOf, h]
@[simp] theorem maxKeysOf_none (order : Nat) (id : NodeId) : maxKeysOf order none id = order := rfl
@[simp] theorem maxKeysOf_some_self (order : Nat) (id : NodeId) :
    maxKeysOf order (some id) id = order + 1 := by simp [maxKeysOf]
theorem maxKeysOf_of_ne {order : Nat} {heavy id : NodeId} (h : heavy ≠ id) :
    maxKeysOf order (some heavy) id = order := by
  simp [maxKeysOf, h]
theorem minKeysOf_le (light : Option NodeId) (id : NodeId) : minKeysOf light id ≤ 1 := by
  unfold minKeysOf
  split <;> omega
theorem le_maxKeysOf (order : Nat) (heavy : Option NodeId) (id : NodeId) :
    order ≤ maxKeysOf order heavy id := by
  unfold maxKeysOf
  split <;> omega

/-- The level `up` sits right above the level `down`. -/
structure Link (N : NodeId → Node K) (minKeys maxKeys : NodeId → Nat)
    (up down : Level K) : Prop where
  expands : down = expand N up
  internal : ∀ e ∈ up, (N e.2).Internal (minKeys e.2) (maxKeys e.2)
  parents : ∀ e ∈ up, ∀ c ∈ (N e.2).children, (N c).parent = some e.2

/-- The levels `ups` reach from `down` up to the root. -/
def Stack (N : NodeId → Node K) (order : Nat) (light : Option NodeId) (root : NodeId) :
    Level K → List (Level K) → Prop
  | down, [] => down = [(⊥, root)] ∧ (N root).parent = none
  | down, up :: ups =>
    Link N (minKeysOf light) (fun _ => order) up down ∧ Stack N order light root up ups

def levelIds (levels : List (Level K)) : List NodeId := levels.flatMap Level.ids

@[simp] theorem levelIds_nil : levelIds ([] : List (Level K)) = [] := rfl
@[simp] theorem levelIds_cons (level : Level K) (levels : List (Level K)) :
    levelIds (level :: levels) = level.ids ++ levelIds levels := rfl

theorem mem_levelIds_cons {level : Level K} {levels : List (Level K)} {id : NodeId} :
    id ∈ levelIds (level :: levels) ↔ id ∈ level.ids ∨ id ∈ levelIds levels := by
  rw [levelIds_cons, List.mem_append]

/-- The nodes of all levels are different cells of an arena of this size. -/
structure Distinct (size : Nat) (levels : List (Level K)) : Prop where
  nodup : (levelIds levels).Nodup
  inArena : ∀ id ∈ levelIds levels, id < size

theorem Distinct.tail {size : Nat} {level : Level K} {levels : List (Level K)}
    (h : Distinct size (level :: levels)) : Distinct size levels := by
  refine ⟨?_, fun id hid => h.inArena id (by simp [hid])⟩
  have := h.nodup
  rw [levelIds_cons] at this
  exact this.of_append_right

/-- A node stands in one level only. -/
theorem Distinct.notMem_above {size : Nat} {level : Level K} {levels : List (Level K)}
    (h : Distinct size (level :: levels)) {id : NodeId} (hid : id ∈ level.ids) :
    id ∉ levelIds levels := by
  have := h.nodup
  rw [levelIds_cons] at this
  exact fun hmem => List.disjoint_of_nodup_append this hid hmem

theorem Distinct.middle_notMem {size : Nat} {a b : Level K} {e : WithBot K × NodeId}
    {levels : List (Level K)}
    (h : Distinct size ((a ++ e :: b) :: levels)) :
    (∀ f ∈ a ++ b, f.2 ≠ e.2) ∧ e.2 ∉ levelIds levels := by
  refine ⟨fun f hf hfe => ?_, h.notMem_above (by simp)⟩
  have hn := h.nodup
  rw [levelIds_cons] at hn
  have hn := hn.of_append_left
  rw [Level.ids_append, Level.ids_cons, List.nodup_middle, List.nodup_cons] at hn
  exact hn.1 (by rw [← Level.ids_append, ← hfe]; exact Level.mem_ids hf)

section Slots

theorem slots_map_snd (lo : WithBot K) {node : Node K}
    (h : node.children.length = node.keys.length + 1) :
    (slots lo node).ids = node.children := by
  simp [slots, Level.ids, List.map_snd_zip, h]

theorem slots_map_fst {lo : WithBot K} {node : Node K}
    (h : node.children.length = node.keys.length + 1) :
    (slots lo node).map Prod.fst = lo :: node.keys.map (↑) := by
  rw [slots, List.map_fst_zip (by simp [h])]

/-- Two adjacent groups of children, cut after the first `a.length` keys. -/
theorem slots_append (lo : WithBot K) {node : Node K} {a b : List K} {c d : List NodeId}
    (hk : node.keys = a ++ b) (hc : node.children = c ++ d)
    (hl : c.length = a.length + 1) :
    slots lo node = (lo :: a.map (↑)).zip c ++ (b.map (↑)).zip d := by
  rw [slots, hk, hc, List.map_append, ← List.cons_append, List.zip_append (by simp [hl])]

theorem slots_cons (lo : WithBot K) {node : Node K} {a b : List K} {k : K}
    {c d : List NodeId} (hk : node.keys = a ++ k :: b) (hc : node.children = c ++ d)
    (hl : c.length = a.length + 1) :
    slots lo node = (lo :: a.map (↑)).zip c ++ ((k : WithBot K) :: b.map (↑)).zip d := by
  rw [slots_append lo hk hc hl, List.map_cons]

/-- A cut of the slots after a nonempty prefix is a cut of keys and children. -/
theorem slots_split {lo : WithBot K} {node : Node K} {p q : Level K}
    (har : node.children.length = node.keys.length + 1) (hp : p ≠ [])
    (h : slots lo node = p ++ q) :
    ∃ a b ca cb, node.keys = a ++ b ∧ node.children = ca ++ cb ∧
      ca.length = a.length + 1 ∧ p = (lo :: a.map (↑)).zip ca ∧ q = (b.map (↑)).zip cb ∧
      cb.length = b.length := by
  have hlen : p.length ≤ node.children.length := by
    have hs : (slots lo node).length = node.children.length := by simp [slots, har]
    rw [h, List.length_append] at hs
    omega
  have hpos : 0 < p.length := List.length_pos_iff.mpr hp
  have hcut := slots_append lo (List.take_append_drop (p.length - 1) node.keys).symm
    (List.take_append_drop p.length node.children).symm
    (by rw [List.length_take, List.length_take]; omega)
  refine ⟨_, _, _, _, (List.take_append_drop (p.length - 1) node.keys).symm,
    (List.take_append_drop p.length node.children).symm, ?_, ?_, ?_, ?_⟩
  · rw [List.length_take, List.length_take]; omega
  · refine (List.append_inj (h.symm.trans hcut) ?_).1
    simp only [List.length_zip, List.length_cons, List.length_map, List.length_take]
    omega
  · refine (List.append_inj (h.symm.trans hcut) ?_).2
    simp only [List.length_zip, List.length_cons, List.length_map, List.length_take]
    omega
  · rw [List.length_drop, List.length_drop]; omega

/-- The keys of a node around one of its slots. -/
theorem slots_covers {lo : WithBot K} {node : Node K} {a b : Level K}
    {e : WithBot K × NodeId} (har : node.children.length = node.keys.length + 1)
    (h : slots lo node = a ++ e :: b) :
    ∃ ka kb ca cb, node.keys = ka ++ kb ∧ node.children = ca ++ e.2 :: cb ∧
      ca.length = ka.length ∧ cb.length = kb.length ∧
      a ++ [e] = (lo :: ka.map (↑)).zip (ca ++ [e.2]) ∧ b = (kb.map (↑)).zip cb := by
  obtain ⟨ka, kb, ca, cb, hk, hc, hlen, hp, hq, hlen'⟩ :=
    slots_split har (p := a ++ [e]) (q := b) (by simp) (by simpa using h)
  obtain ⟨ca, c, rfl⟩ : ∃ init last, ca = init ++ [last] := by
    refine ⟨ca.dropLast, ca.getLast ?_, (List.dropLast_append_getLast _).symm⟩
    rintro rfl
    simp at hlen
  have hsnd : (a ++ [e]).map Prod.snd = ca ++ [c] := by
    rw [hp, List.map_snd_zip]
    simpa using hlen.le
  have hce : e.2 = c := by
    rw [List.map_append, List.map_singleton] at hsnd
    exact List.singleton_inj.mp (List.append_inj_right' hsnd rfl)
  subst hce
  refine ⟨ka, kb, ca, cb, hk, by simpa using hc, by simpa using hlen, hlen', hp, hq⟩

end Slots

section Expansion

variable {N N' : NodeId → Node K} {minKeys maxKeys minKeys' maxKeys' : NodeId → Nat}

theorem firsts_sublist {up : Level K} (h : ∀ e ∈ up, (N e.2).children ≠ []) :
    (up.map Prod.fst).Sublist ((expand N up).map Prod.fst) := by
  induction up with
  | nil => simp
  | cons e up ih =>
    obtain ⟨c, cs, hc⟩ : ∃ c cs, (N e.2).children = c :: cs :=
      List.exists_cons_of_ne_nil (h e (by simp))
    rw [expand_cons, List.map_append, List.map_cons, slots, hc, List.zip_cons_cons,
      List.map_cons, List.cons_append]
    exact ((ih fun f hf => h f (by simp [hf])).trans
      (List.sublist_append_right _ _)).cons_cons _

theorem Link.children_ne_nil {up down : Level K} (h : Link N minKeys maxKeys up down) :
    ∀ e ∈ up, (N e.2).children ≠ [] := by
  intro e he hnil
  have := (h.internal e he).arity
  simp [hnil] at this

theorem Link.mem_down {up down : Level K} (h : Link N minKeys maxKeys up down)
    {e : WithBot K × NodeId} (he : e ∈ up) {c : NodeId} (hc : c ∈ (N e.2).children) :
    c ∈ down.ids := by
  rw [← slots_map_snd e.1 (h.internal e he).arity] at hc
  rw [h.expands, expand, Level.ids, List.map_flatMap]
  exact List.mem_flatMap.mpr ⟨e, he, hc⟩

/-- The place in the upper level of an entry of the lower one. -/
theorem Link.locate {up down a b : Level K} {e : WithBot K × NodeId}
    (h : Link N minKeys maxKeys up down) (hdown : down = a ++ e :: b) :
    ∃ u m v a' b', up = u ++ m :: v ∧ slots m.1 (N m.2) = a' ++ e :: b' ∧
      a = expand N u ++ a' ∧ b = b' ++ expand N v := by
  rw [h.expands] at hdown
  clear h
  induction up generalizing a with
  | nil => simp at hdown
  | cons m up ih =>
    rw [expand_cons] at hdown
    rcases List.append_eq_append_iff.mp hdown with ⟨rest, ha, hrest⟩ | ⟨rest, hslots, hrest⟩
    · obtain ⟨u, n, v, a', b', rfl, hs, rfl, rfl⟩ := ih hrest
      exact ⟨m :: u, n, v, a', b', rfl, hs, by simp [ha], rfl⟩
    · cases rest with
      | nil =>
        obtain ⟨u, n, v, a', b', rfl, hs, ha, rfl⟩ := ih (a := []) (by simpa using hrest.symm)
        refine ⟨m :: u, n, v, a', b', rfl, hs, ?_, rfl⟩
        rw [expand_cons, List.append_assoc, ← ha, List.append_nil, hslots, List.append_nil]
      | cons f rest =>
        obtain ⟨rfl, rfl⟩ := List.cons.inj hrest
        exact ⟨[], m, up, a, rest, rfl, hslots, by simp, rfl⟩

/-- Some neighbours of the upper level are replaced by others; the lower level
then shows the children of the new ones in their place. -/
theorem Link.replace {u ms ms' v down : Level K}
    (h : Link N minKeys maxKeys (u ++ ms ++ v) down)
    (hshape : ∀ e ∈ u ++ v, SameShape (N' e.2) (N e.2))
    (hmin : ∀ e ∈ u ++ v, minKeys' e.2 ≤ minKeys e.2)
    (hmax : ∀ e ∈ u ++ v, maxKeys e.2 ≤ maxKeys' e.2)
    (hparents : ∀ e ∈ u ++ v, ∀ c ∈ (N e.2).children, (N' c).parent = (N c).parent)
    (hinternal : ∀ e ∈ ms', (N' e.2).Internal (minKeys' e.2) (maxKeys' e.2))
    (hown : ∀ e ∈ ms', ∀ c ∈ (N' e.2).children, (N' c).parent = some e.2) :
    Link N' minKeys' maxKeys' (u ++ ms' ++ v) (expand N u ++ expand N' ms' ++ expand N v) := by
  have hold : ∀ e ∈ u ++ v, e ∈ u ++ ms ++ v := by
    intro e he
    simp only [List.mem_append] at he ⊢
    tauto
  have hcase : ∀ e ∈ u ++ ms' ++ v, e ∈ u ++ v ∨ e ∈ ms' := by
    intro e he
    simp only [List.mem_append] at he ⊢
    tauto
  refine ⟨?_, fun e he => ?_, fun e he c hc => ?_⟩
  · rw [expand_append, expand_append,
      expand_congr fun e he => hshape e (List.mem_append_left _ he),
      expand_congr fun e he => hshape e (List.mem_append_right _ he)]
  · rcases hcase e he with he | he
    · exact (h.internal e (hold e he)).congr (hshape e he) (hmin e he) (hmax e he)
    · exact hinternal e he
  · rcases hcase e he with he | he
    · rw [(hshape e he).2.1] at hc
      rw [hparents e he c hc, h.parents e (hold e he) c hc]
    · exact hown e he c hc

theorem Link.congr {up down : Level K} (h : Link N minKeys maxKeys up down)
    (hshape : ∀ e ∈ up, SameShape (N' e.2) (N e.2))
    (hmin : ∀ e ∈ up, minKeys' e.2 ≤ minKeys e.2) (hmax : ∀ e ∈ up, maxKeys e.2 ≤ maxKeys' e.2)
    (hparent : ∀ c ∈ down.ids, (N' c).parent = (N c).parent) :
    Link N' minKeys' maxKeys' up down := by
  have hlink : Link N minKeys maxKeys (up ++ [] ++ []) down := by simpa using h
  have : Link N' minKeys' maxKeys' (up ++ [] ++ []) _ := hlink.replace
    (by simpa using hshape) (by simpa using hmin) (by simpa using hmax)
    (fun e he c hc => hparent c (h.mem_down (by simpa using he) hc)) (by simp) (by simp)
  simpa [h.expands] using this

theorem Stack.congr {order : Nat} {light light' : Option NodeId} {root : NodeId}
    {down : Level K} {ups : List (Level K)} (h : Stack N order light root down ups)
    (hshape : ∀ id ∈ levelIds ups, SameShape (N' id) (N id))
    (hlight : ∀ id ∈ levelIds ups, minKeysOf light' id ≤ minKeysOf light id)
    (hparent : ∀ id ∈ down.ids ++ levelIds ups, (N' id).parent = (N id).parent) :
    Stack N' order light' root down ups := by
  induction ups generalizing down with
  | nil =>
    obtain ⟨hdown, hroot⟩ := h
    refine ⟨hdown, ?_⟩
    rw [hparent root (by simp [hdown]), hroot]
  | cons up ups ih =>
    obtain ⟨hlink, hrest⟩ := h
    refine ⟨hlink.congr (fun e he => ?_) (fun e he => ?_) (fun _ _ => le_refl _) (fun c hc => ?_),
      ih hrest (fun id hid => ?_) (fun id hid => ?_) (fun id hid => ?_)⟩
    · exact hshape e.2 (by simp [Level.mem_ids he])
    · exact hlight e.2 (by simp [Level.mem_ids he])
    · exact hparent c (by simp [hc])
    · exact hshape id (by simp [hid])
    · exact hlight id (by simp [hid])
    · exact hparent id (by
        rw [levelIds_cons]
        exact List.mem_append_right _ hid)

end Expansion

section Order

variable [LinearOrder K] {N : NodeId → Node K} {minKeys maxKeys : NodeId → Nat}

/-- Separators increase from left to right. -/
def Level.Increasing (level : Level K) : Prop := level.Pairwise fun e f => e.1 < f.1

theorem Level.increasing_iff {level : Level K} :
    level.Increasing ↔ (level.map Prod.fst).Pairwise (· < ·) := by
  rw [List.pairwise_map, Level.Increasing]

theorem Link.increasing {up down : Level K} (h : Link N minKeys maxKeys up down)
    (hdown : down.Increasing) : up.Increasing := by
  rw [Level.increasing_iff] at hdown ⊢
  rw [h.expands] at hdown
  exact hdown.sublist (firsts_sublist h.children_ne_nil)

end Order

end Cynos.Index
