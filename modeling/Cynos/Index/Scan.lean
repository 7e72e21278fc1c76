import Cynos.Index.Range
import Cynos.Index.Runs

/-! A scan visits the stored entries in key order, from its start on. -/
namespace Cynos.Index

open BTreeIndex

variable {K : Type}

/-- Where an entry is stored. -/
structure Place (K : Type) where
  node : NodeId
  pos : Nat
  key : K
  values : List RowId

def Place.entry (x : Place K) : K × List RowId := (x.key, x.values)

def leafPlaces (id : NodeId) : Nat → List (K × List RowId) → List (Place K)
  | _, [] => []
  | pos, (key, values) :: entries => ⟨id, pos, key, values⟩ :: leafPlaces id (pos + 1) entries

def places (N : NodeId → Node K) (leaves : Level K) : List (Place K) :=
  leaves.flatMap fun e => leafPlaces e.2 0 ((N e.2).keys.zip (N e.2).values)

/-- The row ids of some places, with their keys. -/
def rows (ps : List (Place K)) : List (K × RowId) :=
  ps.flatMap fun x => x.values.map fun id => (x.key, id)

section Places

variable {N : NodeId → Node K} {id : NodeId}

@[simp] theorem places_nil : places N ([] : Level K) = [] := rfl
@[simp] theorem places_cons (e : WithBot K × NodeId) (leaves : Level K) :
    places N (e :: leaves) =
      leafPlaces e.2 0 ((N e.2).keys.zip (N e.2).values) ++ places N leaves := rfl
@[simp] theorem places_append (a b : Level K) :
    places N (a ++ b) = places N a ++ places N b := by simp [places]

@[simp] theorem rows_nil : rows ([] : List (Place K)) = [] := rfl
@[simp] theorem rows_cons (x : Place K) (ps : List (Place K)) :
    rows (x :: ps) = x.values.map (fun id => (x.key, id)) ++ rows ps := rfl
@[simp] theorem rows_append (ps qs : List (Place K)) : rows (ps ++ qs) = rows ps ++ rows qs := by
  simp [rows]

theorem leafPlaces_append (pos : Nat) (es fs : List (K × List RowId)) :
    leafPlaces id pos (es ++ fs) = leafPlaces id pos es ++ leafPlaces id (pos + es.length) fs := by
  induction es generalizing pos with
  | nil => rfl
  | cons e es ih =>
    obtain ⟨key, values⟩ := e
    rw [List.cons_append, leafPlaces, leafPlaces, ih, List.cons_append, List.length_cons,
      Nat.add_assoc, Nat.add_comm 1]

theorem leafPlaces_split {pos : Nat} {es : List (K × List RowId)} {p q : List (Place K)}
    {x : Place K} (h : leafPlaces id pos es = p ++ x :: q) :
    ∃ es₁ es₂, es = es₁ ++ (x.key, x.values) :: es₂ ∧ x.node = id ∧ x.pos = pos + es₁.length ∧
      p = leafPlaces id pos es₁ ∧ q = leafPlaces id (x.pos + 1) es₂ := by
  induction es generalizing pos p with
  | nil => simp [leafPlaces] at h
  | cons e es ih =>
    obtain ⟨key, values⟩ := e
    rw [leafPlaces] at h
    cases p with
    | nil =>
      obtain ⟨rfl, rfl⟩ := List.cons.inj h
      exact ⟨[], es, rfl, rfl, rfl, rfl, rfl⟩
    | cons y p =>
      obtain ⟨rfl, htail⟩ := List.cons.inj h
      obtain ⟨es₁, es₂, rfl, hnode, hpos, rfl, hq⟩ := ih htail
      refine ⟨(key, values) :: es₁, es₂, rfl, hnode, ?_, rfl, hq⟩
      rw [hpos, List.length_cons, Nat.add_assoc, Nat.add_comm 1]

theorem places_split {leaves : Level K} {p q : List (Place K)} {x : Place K}
    (h : places N leaves = p ++ x :: q) :
    ∃ a e b es₁ es₂, leaves = a ++ e :: b ∧
      (N e.2).keys.zip (N e.2).values = es₁ ++ (x.key, x.values) :: es₂ ∧ x.node = e.2 ∧
      x.pos = es₁.length ∧ p = places N a ++ leafPlaces e.2 0 es₁ ∧
      q = leafPlaces e.2 (x.pos + 1) es₂ ++ places N b := by
  induction leaves generalizing p with
  | nil => simp at h
  | cons e leaves ih =>
    rw [places_cons] at h
    rcases List.append_eq_append_iff.mp h with ⟨r, rfl, hr⟩ | ⟨r, hr, hq⟩
    · obtain ⟨a, f, b, es₁, es₂, rfl, hzip, hnode, hpos, rfl, hq⟩ := ih hr
      exact ⟨e :: a, f, b, es₁, es₂, rfl, hzip, hnode, hpos, by simp, hq⟩
    · cases r with
      | nil =>
        obtain ⟨a, f, b, es₁, es₂, rfl, hzip, hnode, hpos, hp, hq⟩ := ih (p := [])
          (by simpa using hq.symm)
        refine ⟨e :: a, f, b, es₁, es₂, rfl, hzip, hnode, hpos, ?_, hq⟩
        rw [List.append_nil] at hr
        rw [places_cons, List.append_assoc, ← hp, List.append_nil, hr]
      | cons y r =>
        obtain ⟨rfl, rfl⟩ := List.cons.inj hq
        obtain ⟨es₁, es₂, hzip, hnode, hpos, rfl, rfl⟩ := leafPlaces_split hr
        exact ⟨[], e, leaves, es₁, es₂, rfl, hzip, hnode, by simpa using hpos, by simp, rfl⟩

theorem leafPlaces_entries (id : NodeId) (pos : Nat) (es : List (K × List RowId)) :
    (leafPlaces id pos es).map Place.entry = es := by
  induction es generalizing pos with
  | nil => rfl
  | cons e es ih => simp [leafPlaces, Place.entry, ih]

theorem places_entries (leaves : Level K) :
    (places N leaves).map Place.entry = leafEntries N leaves := by
  rw [places, leafEntries, List.map_flatMap]
  simp only [leafPlaces_entries]

end Places

section Leaves

variable {t : BTreeIndex K} {order : Nat} {light : Option NodeId} {leaves : Level K}
  {ups : List (Level K)}

theorem Stack.leftmost (h : Stack t.nodeAt order light t.root leaves ups)
    (hids : ∀ id ∈ levelIds ups, id < t.arena.length) (fuel : Nat) :
    ∃ e, leaves.head? = some e ∧
      t.leftmostFrom (ups.length + fuel) t.root = t.leftmostFrom fuel e.2 := by
  induction ups generalizing leaves fuel with
  | nil => exact ⟨_, by rw [h.1]; rfl, by simp⟩
  | cons up ups ih =>
    obtain ⟨hlink, hrest⟩ := h
    obtain ⟨e, he, hrun⟩ := ih hrest
      (fun id hid => hids id (mem_levelIds_cons.mpr (.inr hid))) (fuel + 1)
    have hmem := List.mem_of_mem_head? he
    have hlt := hids e.2 (mem_levelIds_cons.mpr (.inl (Level.mem_ids hmem)))
    obtain ⟨c, cs, hc⟩ := List.exists_cons_of_ne_nil (hlink.children_ne_nil e hmem)
    obtain ⟨rest, rfl⟩ := List.head?_eq_some_iff.mp he
    refine ⟨(e.1, c), by rw [hlink.expands, expand_cons, slots, hc]; rfl, ?_⟩
    rw [List.length_cons, Nat.add_assoc, Nat.add_comm 1, hrun, leftmostFrom, node_eq hlt]
    simp [(hlink.internal e hmem).notLeaf, hc]

theorem Stack.rightmost (h : Stack t.nodeAt order light t.root leaves ups)
    (hids : ∀ id ∈ levelIds ups, id < t.arena.length) (fuel : Nat) :
    ∃ e, leaves.getLast? = some e ∧
      t.rightmostFrom (ups.length + fuel) t.root = t.rightmostFrom fuel e.2 := by
  induction ups generalizing leaves fuel with
  | nil => exact ⟨_, by rw [h.1]; rfl, by simp⟩
  | cons up ups ih =>
    obtain ⟨hlink, hrest⟩ := h
    obtain ⟨e, he, hrun⟩ := ih hrest
      (fun id hid => hids id (mem_levelIds_cons.mpr (.inr hid))) (fuel + 1)
    obtain ⟨front, rfl⟩ := List.getLast?_eq_some_iff.mp he
    have hmem : e ∈ front ++ [e] := by simp
    have hlt := hids e.2 (mem_levelIds_cons.mpr (.inl (Level.mem_ids hmem)))
    have har := (hlink.internal e hmem).arity
    obtain ⟨cs, c, hc⟩ := Vec.exists_concat (List.length_pos_iff.mpr (hlink.children_ne_nil e hmem))
    have hids' : (slots e.1 (t.nodeAt e.2)).ids = cs ++ [c] := by rw [slots_map_snd _ har, hc]
    obtain ⟨ss, s, hs⟩ : ∃ ss s, slots e.1 (t.nodeAt e.2) = ss ++ [s] := Vec.exists_concat (by
      have := congrArg List.length hids'
      rw [Level.ids, List.length_map, List.length_append, List.length_singleton] at this
      omega)
    have hsc : s.2 = c := by
      rw [hs, Level.ids_append] at hids'
      simpa using (List.append_inj' hids' rfl).2
    refine ⟨s, by rw [hlink.expands, expand_append, expand_cons, hs]; simp, ?_⟩
    rw [List.length_cons, Nat.add_assoc, Nat.add_comm 1, hrun, rightmostFrom, node_eq hlt, hsc]
    simp [(hlink.internal e hmem).notLeaf, hc]

end Leaves

section Iterator

variable [LinearOrder K] {t : BTreeIndex K} {leaves : Level K} {ups : List (Level K)}

/-- The places of a scan in its direction. -/
def directed (t : BTreeIndex K) (leaves : Level K) (reverse : Bool) : List (Place K) :=
  if reverse then (places t.nodeAt leaves).reverse else places t.nodeAt leaves

def Place.loc (x : Place K) : NodeId × Nat := (x.node, x.pos)

omit [LinearOrder K] in
theorem Tree.zip_length [LinearOrder K] (h : Tree t leaves ups) {e : WithBot K × NodeId}
    (he : e ∈ leaves) :
    ((t.nodeAt e.2).keys.zip (t.nodeAt e.2).values).length = (t.nodeAt e.2).keys.length := by
  rw [List.length_zip, h.leaf.aligned e he, Nat.min_self]

/-- The first place of the leaves `b` is position 0 of their first leaf. -/
theorem Tree.places_head? (h : Tree t leaves ups) {a b : Level K} (hsplit : leaves = a ++ b)
    (hne : ∀ f ∈ b, (t.nodeAt f.2).keys ≠ []) :
    (places t.nodeAt b).head?.map Place.loc = b.ids.head?.map fun id => (id, 0) := by
  cases b with
  | nil => rfl
  | cons f b =>
    have hlen := h.zip_length (show f ∈ leaves by simp [hsplit])
    obtain ⟨p, ps, hp⟩ := List.exists_cons_of_length_pos (show
      0 < ((t.nodeAt f.2).keys.zip (t.nodeAt f.2).values).length by
        rw [hlen]
        exact List.length_pos_iff.mpr (hne f (by simp)))
    rw [places_cons, hp]
    rfl

theorem Tree.places_getLast? (h : Tree t leaves ups) {a b : Level K} (hsplit : leaves = a ++ b)
    (hne : ∀ f ∈ a, (t.nodeAt f.2).keys ≠ []) :
    (places t.nodeAt a).getLast?.map Place.loc =
      a.ids.getLast?.map fun id => (id, (t.nodeAt id).keys.length - 1) := by
  rcases List.eq_nil_or_concat a with rfl | ⟨a, f, rfl⟩
  · rfl
  · rw [List.concat_eq_append] at *
    have hlen := h.zip_length (show f ∈ leaves by simp [hsplit])
    have hpos := List.length_pos_iff.mpr (hne f (by simp))
    obtain ⟨es, e, he⟩ := Vec.exists_concat (hlen ▸ hpos)
    have hes := congrArg List.length he
    rw [hlen, List.length_append, List.length_singleton] at hes
    rw [places_append, places_cons, he, leafPlaces_append]
    simp [leafPlaces, Place.loc, Level.ids, hes]

def BTreeIterator.loc (it : BTreeIterator) : Option (NodeId × Nat) :=
  it.currentNode.map fun id => (id, it.currentPos)

/-- The iterator `it` went on to a place, or behind the last one. -/
structure Advanced (it it' : BTreeIterator) (target : Option (Place K)) : Prop where
  loc : it'.loc = target.map Place.loc
  value : it'.valuePos = 0
  reverse : it'.reverse = it.reverse

theorem Tree.noEmpty_of_ne (h : Tree t leaves ups) {e f : WithBot K × NodeId} (he : e ∈ leaves)
    (hf : f ∈ leaves) (hne : f ≠ e) : (t.nodeAt f.2).keys ≠ [] := by
  refine h.noEmpty ?_ f hf
  rintro rfl
  rw [h.stack.1, List.mem_singleton] at he hf
  exact hne (hf.trans he.symm)

theorem Tree.leaves_ne (h : Tree t leaves ups) {a b : Level K} {e : WithBot K × NodeId}
    (hsplit : leaves = a ++ e :: b) :
    ∀ f ∈ a ++ b, (t.nodeAt f.2).keys ≠ [] := by
  have hd := h.distinct
  rw [hsplit] at hd
  intro f hf
  refine h.noEmpty_of_ne (e := e) (by simp [hsplit]) ?_
    fun hfe => hd.middle_notMem.1 f hf (hfe ▸ rfl)
  rw [hsplit, List.mem_append, List.mem_cons]
  rcases List.mem_append.mp hf with hf | hf
  · exact .inl hf
  · exact .inr (.inr hf)

theorem Tree.advance_forward (h : Tree t leaves ups) {p q : List (Place K)} {x : Place K}
    (hplaces : places t.nodeAt leaves = p ++ x :: q) {it : BTreeIterator}
    (hloc : it.loc = some x.loc) (hreverse : it.reverse = false) :
    ∃ it', t.advanceKey it = some it' ∧ Advanced it it' q.head? := by
  obtain ⟨a, e, b, es₁, es₂, hsplit, hzip, hxnode, hxpos, rfl, rfl⟩ := places_split hplaces
  obtain ⟨_, hnode, hloc⟩ := Option.map_eq_some_iff.mp hloc
  obtain ⟨rfl, hpos⟩ := Prod.mk.inj hloc
  have he : e ∈ leaves := by simp [hsplit]
  have hlen := h.zip_length he
  rw [hzip, List.length_append, List.length_cons] at hlen
  have hchain := h.leaf.chain
  rw [hsplit, Level.ids_append, Level.ids_cons] at hchain
  have hnext : (t.nodeAt e.2).next = (Level.ids b).head? := by
    simpa using (Chain.linked_at hchain).2
  rw [advanceKey, hnode, hxnode]
  simp only [node_eq (h.inArena (.inl (Level.mem_ids he))), Option.bind_eq_bind,
    Option.bind_some, hreverse, Bool.false_eq_true, if_false, hpos, hxpos, ← hlen]
  cases es₂ with
  | nil =>
    rw [if_pos (by simp)]
    have hhead := h.places_head? (a := a ++ [e]) (b := b) (by simp [hsplit])
      fun f hf => h.leaves_ne hsplit f (by simp [hf])
    refine ⟨_, rfl, ⟨?_, rfl, hreverse.symm⟩⟩
    rw [leafPlaces, List.nil_append, hhead, BTreeIterator.loc, hnext]
  | cons e' es₂ =>
    rw [if_neg (by simp)]
    exact ⟨_, rfl, ⟨by simp [leafPlaces, BTreeIterator.loc, Place.loc], rfl,
      hreverse.symm⟩⟩

theorem Tree.advance_reverse (h : Tree t leaves ups) {p q : List (Place K)} {x : Place K}
    (hplaces : places t.nodeAt leaves = p ++ x :: q) {it : BTreeIterator}
    (hloc : it.loc = some x.loc) (hreverse : it.reverse = true) :
    ∃ it', t.advanceKey it = some it' ∧ Advanced it it' p.getLast? := by
  obtain ⟨a, e, b, es₁, es₂, hsplit, hzip, hxnode, hxpos, rfl, rfl⟩ := places_split hplaces
  obtain ⟨_, hnode, hloc⟩ := Option.map_eq_some_iff.mp hloc
  obtain ⟨rfl, hpos⟩ := Prod.mk.inj hloc
  have he : e ∈ leaves := by simp [hsplit]
  have hchain := h.leaf.chain
  rw [hsplit, Level.ids_append, Level.ids_cons] at hchain
  have hprev : (t.nodeAt e.2).prev = (Level.ids a).getLast? := by
    simpa using (Chain.linked_at hchain).1
  rw [advanceKey, hnode, hxnode]
  simp only [node_eq (h.inArena (.inl (Level.mem_ids he))), Option.bind_eq_bind,
    Option.bind_some, hreverse, if_true, hpos, hxpos]
  rcases List.eq_nil_or_concat es₁ with rfl | ⟨es₁, e', rfl⟩
  · have hlast := h.places_getLast? (a := a) (b := e :: b) hsplit
      fun f hf => h.leaves_ne hsplit f (by simp [hf])
    rw [if_neg (by simp), hprev]
    rcases List.eq_nil_or_concat a with rfl | ⟨a, f, rfl⟩
    · exact ⟨_, rfl, ⟨rfl, rfl, hreverse.symm⟩⟩
    · rw [List.concat_eq_append] at *
      have hne := h.leaves_ne hsplit f (by simp)
      have hids : (Level.ids (a ++ [f])).getLast? = some f.2 := by simp [Level.ids]
      have hf : f ∈ leaves := by simp [hsplit]
      simp only [hids, node_eq (h.inArena (.inl (Level.mem_ids hf))),
        Option.bind_some]
      refine ⟨_, rfl, ⟨?_, rfl, hreverse.symm⟩⟩
      rw [leafPlaces, List.append_nil, hlast, hids, BTreeIterator.loc]
      simp [hne]
  · rw [List.concat_eq_append, List.length_append, List.length_singleton, if_pos (by omega)]
    refine ⟨_, rfl, ⟨?_, rfl, hreverse.symm⟩⟩
    rw [leafPlaces_append]
    simp [leafPlaces, BTreeIterator.loc, Place.loc]

/-- One step to the next place in the direction of the scan. -/
theorem Tree.advance (h : Tree t leaves ups) {p q : List (Place K)} {x : Place K}
    {it : BTreeIterator} (hplaces : directed t leaves it.reverse = p ++ x :: q)
    (hloc : it.loc = some x.loc) :
    ∃ it', t.advanceKey it = some it' ∧ Advanced it it' q.head? := by
  cases hreverse : it.reverse with
  | false =>
    rw [directed, hreverse, if_neg (by simp)] at hplaces
    exact h.advance_forward hplaces hloc hreverse
  | true =>
    rw [directed, hreverse, if_pos rfl] at hplaces
    have hplaces' : places t.nodeAt leaves = q.reverse ++ x :: p.reverse := by
      rw [← List.reverse_reverse (places t.nodeAt leaves), hplaces]
      simp
    obtain ⟨it', hrun, hadv⟩ := h.advance_reverse hplaces' hloc hreverse
    rw [List.getLast?_reverse] at hadv
    exact ⟨it', hrun, hadv⟩

/-- The iterator still has these row ids to yield. -/
def Remains (t : BTreeIndex K) (leaves : Level K) (it : BTreeIterator)
    (items : List (K × RowId)) : Prop :=
  it.loc = none ∧ items = [] ∨
    ∃ p x q, directed t leaves it.reverse = p ++ x :: q ∧ it.loc = some x.loc ∧
      items = (x.values.drop it.valuePos).map (fun id => (x.key, id)) ++ rows q

omit [LinearOrder K] in
theorem place_at {reverse : Bool} {p q : List (Place K)}
    {x : Place K} (hplaces : directed t leaves reverse = p ++ x :: q) :
    ∃ e ∈ leaves, x.node = e.2 ∧ (t.nodeAt e.2).keys[x.pos]? = some x.key ∧
      (t.nodeAt e.2).values[x.pos]? = some x.values := by
  obtain ⟨p', q', hplaces'⟩ : ∃ p' q', places t.nodeAt leaves = p' ++ x :: q' := by
    cases reverse with
    | false => exact ⟨p, q, hplaces⟩
    | true =>
      refine ⟨q.reverse, p.reverse, ?_⟩
      rw [← List.reverse_reverse (places t.nodeAt leaves)]
      rw [directed, if_pos rfl] at hplaces
      simp [hplaces]
  obtain ⟨a, e, b, es₁, es₂, hsplit, hzip, hnode, hpos, _, _⟩ := places_split hplaces'
  have he : e ∈ leaves := by simp [hsplit]
  have hget : ((t.nodeAt e.2).keys.zip (t.nodeAt e.2).values)[x.pos]? =
      some (x.key, x.values) := by
    rw [hzip, hpos]
    simp
  obtain ⟨hk, hv⟩ := List.getElem?_zip_eq_some.mp hget
  exact ⟨e, he, hnode, hk, hv⟩

omit [LinearOrder K] in
theorem Advanced.remains {it it' : BTreeIterator} {p q : List (Place K)} {x : Place K}
    (h : Advanced it it' q.head?) (hplaces : directed t leaves it.reverse = p ++ x :: q) :
    Remains t leaves it' (rows q) := by
  cases q with
  | nil => exact .inl ⟨h.loc, rfl⟩
  | cons y q =>
    refine .inr ⟨p ++ [x], y, q, ?_, h.loc, ?_⟩
    · rw [h.reverse, hplaces]
      simp
    · rw [h.value]
      rfl

theorem Tree.next_eq (h : Tree t leaves ups) {it : BTreeIterator} {items : List (K × RowId)}
    (hit : Remains t leaves it items) (fuel : Nat) :
    ∃ it', t.next (fuel + 2) it = some (items.head?, it') ∧ it'.reverse = it.reverse ∧
      (items ≠ [] → Remains t leaves it' items.tail) := by
  -- an iterator whose row ids are not used up yields the next one
  have hyield : ∀ (fuel : Nat) (it : BTreeIterator) (p q : List (Place K)) (x : Place K)
      (id : RowId) (ids : List RowId), directed t leaves it.reverse = p ++ x :: q →
      it.loc = some x.loc → x.values.drop it.valuePos = id :: ids →
      ∃ it', t.next (fuel + 1) it = some (some (x.key, id), it') ∧ it'.reverse = it.reverse ∧
        Remains t leaves it' (ids.map (fun id => (x.key, id)) ++ rows q) := by
    intro fuel it p q x id ids hplaces hloc hids
    obtain ⟨_, hnode, hloc'⟩ := Option.map_eq_some_iff.mp hloc
    obtain ⟨rfl, hpos⟩ := Prod.mk.inj hloc'
    obtain ⟨e, he, hxnode, hk, hv⟩ := place_at hplaces
    have hlt : x.pos < (t.nodeAt e.2).keys.length := (List.getElem?_eq_some_iff.mp hk).1
    have hget : x.values[it.valuePos]? = some id := by
      rw [← List.head?_drop, hids, List.head?_cons]
    refine ⟨{ it with valuePos := it.valuePos + 1 }, ?_, rfl, .inr ⟨p, x, q, hplaces, hloc, ?_⟩⟩
    · rw [next, hnode, hxnode]
      simp only [node_eq (h.inArena (.inl (Level.mem_ids he))), Option.bind_eq_bind,
        Option.bind_some, hpos]
      rw [if_neg (by simpa using List.ne_nil_of_length_pos (Nat.zero_lt_of_lt hlt)),
        if_neg (not_le.mpr hlt)]
      simp only [hk, hv, Option.bind_some, hget]
    · have hdrop : x.values.drop (it.valuePos + 1) = ids := by
        rw [← List.tail_drop, hids, List.tail_cons]
      rw [hdrop]
  rcases hit with ⟨hloc, rfl⟩ | ⟨p, x, q, hplaces, hloc, rfl⟩
  · have hnode : it.currentNode = none := Option.map_eq_none_iff.mp hloc
    exact ⟨it, by rw [next, hnode]; rfl, rfl, fun hne => absurd rfl hne⟩
  · cases hids : x.values.drop it.valuePos with
    | cons id ids =>
      obtain ⟨it', hrun, hreverse, hrem⟩ := hyield (fuel + 1) it p q x id ids hplaces hloc hids
      exact ⟨it', hrun, hreverse, fun _ => hrem⟩
    | nil =>
      obtain ⟨_, hnode, hloc'⟩ := Option.map_eq_some_iff.mp hloc
      obtain ⟨rfl, hpos⟩ := Prod.mk.inj hloc'
      obtain ⟨e, he, hxnode, hk, hv⟩ := place_at hplaces
      have hlt : x.pos < (t.nodeAt e.2).keys.length := (List.getElem?_eq_some_iff.mp hk).1
      have hget : x.values[it.valuePos]? = none := by
        rw [← List.head?_drop, hids, List.head?_nil]
      obtain ⟨it1, hadvance, hadv⟩ := h.advance hplaces hloc
      have hstep : t.next (fuel + 2) it = t.next (fuel + 1) it1 := by
        rw [next, hnode, hxnode]
        simp only [node_eq (h.inArena (.inl (Level.mem_ids he))), Option.bind_eq_bind,
          Option.bind_some, hpos]
        rw [if_neg (by simpa using List.ne_nil_of_length_pos (Nat.zero_lt_of_lt hlt)),
          if_neg (not_le.mpr hlt)]
        simp only [hk, hv, Option.bind_some, hget, hadvance]
      rw [hstep, List.map_nil, List.nil_append]
      cases q with
      | nil =>
        have hnone : it1.currentNode = none := Option.map_eq_none_iff.mp hadv.loc
        exact ⟨it1, by rw [next, hnone]; rfl, hadv.reverse, fun hne => absurd rfl hne⟩
      | cons y q =>
        have hplaces1 : directed t leaves it1.reverse = (p ++ [x]) ++ y :: q := by
          rw [hadv.reverse, hplaces]
          simp
        obtain ⟨f, hf, _, _, hyv⟩ := place_at hplaces1
        obtain ⟨id, ids, hy⟩ := List.exists_cons_of_ne_nil
          (h.leaf.stored f hf y.values (List.mem_of_getElem? hyv))
        obtain ⟨it', hrun, hreverse, hrem⟩ := hyield fuel it1 (p ++ [x]) q y id ids hplaces1
          hadv.loc (by rw [hadv.value, List.drop_zero, hy])
        refine ⟨it', ?_, hreverse.trans hadv.reverse, fun _ => ?_⟩
        · rw [hrun, rows_cons, hy]
          rfl
        · rw [rows_cons, hy]
          exact hrem

end Iterator

section Loop

variable [LinearOrder K] {t : BTreeIndex K} {leaves : Level K} {ups : List (Level K)} {σ : Type}

/-- What the loop passes on of the row ids in the range. -/
def passOn (skip : Nat) (limit : Option Nat) (ids : List RowId) : List RowId :=
  limit.elim (ids.drop skip) (ids.drop skip).take

theorem KeyRange.scan_eq (range : KeyRange K) (entries : List (K × List RowId)) (reverse : Bool)
    (limit : Option Nat) (skip : Nat) :
    range.scan entries reverse limit skip = passOn skip limit
      (((if reverse then entries.reverse else entries).filter fun e =>
        range.contains e.1).flatMap Prod.snd) := rfl

@[simp] theorem passOn_nil (skip : Nat) (limit : Option Nat) : passOn skip limit [] = [] := by
  cases limit <;> simp [passOn]

theorem passOn_skip {skip skip' : Nat} (h : skip = skip' + 1) (limit : Option Nat) (id : RowId)
    (ids : List RowId) : passOn skip limit (id :: ids) = passOn skip' limit ids := by
  rw [passOn, passOn, h, List.drop_succ_cons]

theorem passOn_limit (skip : Nat) (ids : List RowId) : passOn skip (some 0) ids = [] := by
  simp [passOn]

theorem passOn_take {limit : Option Nat} {emitted : Nat} (h : ∀ l, limit = some l → emitted < l)
    (id : RowId) (ids : List RowId) :
    passOn 0 (limit.map (· - emitted)) (id :: ids) =
      id :: passOn 0 (limit.map (· - (emitted + 1))) ids := by
  cases limit with
  | none => rfl
  | some l =>
    obtain ⟨n, hn⟩ : ∃ n, l - emitted = n + 1 := ⟨l - emitted - 1, by have := h l rfl; omega⟩
    have hn' : l - (emitted + 1) = n := by omega
    simp [passOn, hn, hn']

def past (range : KeyRange K) (reverse : Bool) (key : K) : Bool :=
  !reverse && keyPastForwardRange range key || reverse && keyPastReverseRange range key

theorem Tree.visitLoop_eq (h : Tree t leaves ups) (range : KeyRange K) (limit : Option Nat)
    (skip : Nat) (visitor : σ → RowId → σ × Bool) {items : List (K × RowId)} {it : BTreeIterator}
    (hit : Remains t leaves it items)
    (hpast : items.Pairwise fun x y =>
      past range it.reverse x.1 = true → range.contains y.1 = false)
    {fuel : Nat} (hfuel : items.length < fuel) (skipped emitted : Nat) (hskip : skipped ≤ skip)
    (state : σ) :
    t.visitLoop range limit skip visitor fuel it skipped emitted state =
      some (offer visitor state (passOn (skip - skipped) (limit.map (· - emitted))
        ((items.filter fun x => range.contains x.1).map Prod.snd))) := by
  have hfuel' : t.arena.length + 1 = (t.arena.length - 1) + 2 := by
    have := h.stack.ups_length_lt h.distinct
    omega
  induction items generalizing it fuel skipped emitted state with
  | nil =>
    obtain ⟨fuel, rfl⟩ := Nat.exists_eq_add_of_lt hfuel
    obtain ⟨it', hrun, _⟩ := h.next_eq hit (t.arena.length - 1)
    rw [visitLoop, hfuel', hrun, List.filter_nil, List.map_nil, passOn_nil]
    rfl
  | cons x items ih =>
    obtain ⟨key, id⟩ := x
    obtain ⟨fuel, rfl⟩ : ∃ n, fuel = n + 1 := ⟨fuel - 1, by omega⟩
    obtain ⟨it', hrun, hreverse, hrest⟩ := h.next_eq hit (t.arena.length - 1)
    rw [List.length_cons, Nat.add_lt_add_iff_right] at hfuel
    have ih := fun skipped emitted hskip state => ih (hrest (by simp)) (hreverse ▸ hpast.of_cons)
      hfuel skipped emitted hskip state
    rw [visitLoop, hfuel', hrun]
    simp only [Option.bind_eq_bind, Option.bind_some, List.head?_cons, hreverse]
    by_cases hin : range.contains key = true
    · have hfilter : ((key, id) :: items).filter (fun x => range.contains x.1) =
          (key, id) :: items.filter fun x => range.contains x.1 :=
            List.filter_cons_of_pos (by exact hin)
      rw [if_pos hin, hfilter, List.map_cons]
      by_cases hskipped : skipped < skip
      · rw [if_pos hskipped, ih (skipped + 1) emitted hskipped state, passOn_skip]
        omega
      · obtain rfl : skipped = skip := by omega
        rw [if_neg hskipped, Nat.sub_self]
        by_cases hlimit : limit.any (emitted ≥ ·) = true
        · obtain ⟨l, rfl, hl⟩ := (Option.any_eq_true _ _).mp hlimit
          have hzero : l - emitted = 0 := Nat.sub_eq_zero_of_le (by simpa using hl)
          rw [if_pos hlimit, Option.map_some, hzero, passOn_limit]
          rfl
        · rw [if_neg hlimit, passOn_take (fun l hl => by rw [hl] at hlimit; simpa using hlimit),
            offer]
          rcases hvisit : visitor state id with ⟨state', goOn⟩
          have := ih skipped (emitted + 1) (le_refl _) state'
          rw [Nat.sub_self] at this
          cases goOn with
          | true => exact this
          | false => rfl
    · have hfilter : ((key, id) :: items).filter (fun x => range.contains x.1) =
          items.filter fun x => range.contains x.1 := List.filter_cons_of_neg (by exact hin)
      rw [if_neg hin, hfilter]
      by_cases hend : past range it.reverse key = true
      · have hnone : items.filter (fun x => range.contains x.1) = [] := by
          rw [List.filter_eq_nil_iff]
          intro y hy
          rw [List.rel_of_pairwise_cons hpast hy hend]
          simp
        rw [hnone, List.map_nil, passOn_nil]
        exact if_pos hend
      · exact (if_neg hend).trans (ih skipped emitted hskip state)

end Loop

section Ranges

variable [LinearOrder K]

/-- The key that bounds a range from above. -/
def KeyRange.upperKey? : KeyRange K → Option K
  | .all => none
  | .lowerBound _ _ => none
  | .only key => some key
  | .upperBound key _ => some key
  | .bound _ key _ _ => some key

def KeyRange.lowerKey? : KeyRange K → Option K
  | .all => none
  | .upperBound _ _ => none
  | .only key => some key
  | .lowerBound key _ => some key
  | .bound key _ _ _ => some key

theorem KeyRange.le_of_contains {range : KeyRange K} {key : K} (h : range.contains key = true) :
    (∀ k, range.lowerKey? = some k → k ≤ key) ∧ ∀ k, range.upperKey? = some k → key ≤ k := by
  cases range <;>
    simp only [KeyRange.contains, KeyRange.lowerKey?, KeyRange.upperKey?, keyLt_eq, keyGt_eq,
      keyLe_eq, keyGe_eq] at h ⊢ <;> grind

/-- Behind a key that is past the range there is nothing of it. -/
theorem contains_of_past {range : KeyRange K} {reverse : Bool} {x y : K}
    (hpast : past range reverse x = true) (hle : if reverse then y ≤ x else x ≤ y) :
    range.contains y = false := by
  cases range <;> cases reverse <;>
    simp only [past, keyPastForwardRange, keyPastReverseRange, KeyRange.contains, keyLt_eq,
      keyGt_eq, keyLe_eq, keyGe_eq, Bool.not_true, Bool.not_false, Bool.true_and, Bool.false_and,
      Bool.or_false, Bool.false_or, if_true, if_false, Bool.false_eq_true] at hpast hle ⊢ <;>
    grind

end Ranges

section Start

variable [LinearOrder K] {t : BTreeIndex K} {leaves : Level K} {ups : List (Level K)}

/-- An empty leaf is the only one. -/
theorem Tree.places_of_empty (h : Tree t leaves ups) {e : WithBot K × NodeId} (he : e ∈ leaves)
    (hempty : (t.nodeAt e.2).keys = []) : places t.nodeAt leaves = [] := by
  have hups : ups = [] := by
    by_contra hups
    exact h.noEmpty hups e he hempty
  subst hups
  have hleaves := h.stack.1
  rw [hleaves, List.mem_singleton] at he
  subst he
  simp [hleaves, hempty, leafPlaces]

theorem Tree.nonempty_of_mem (h : Tree t leaves ups) {e : WithBot K × NodeId} (he : e ∈ leaves)
    (hne : (t.nodeAt e.2).keys ≠ []) : ∀ f ∈ leaves, (t.nodeAt f.2).keys ≠ [] := by
  intro f hf
  by_cases hfe : f = e
  · exact hfe ▸ hne
  · exact h.noEmpty_of_ne he hf hfe

theorem Tree.leftmostLeaf_eq (h : Tree t leaves ups) :
    ∃ e, leaves.head? = some e ∧ t.leftmostLeaf = some e.2 ∧
      t.node e.2 = some (t.nodeAt e.2) := by
  obtain ⟨n, hn⟩ := Nat.exists_eq_add_of_lt (h.stack.ups_length_lt h.distinct)
  obtain ⟨e, hhead, hrun⟩ := h.stack.leftmost (fun id hid => h.inArena (.inr hid)) (n + 1)
  have he := List.mem_of_mem_head? hhead
  have hnode := node_eq (h.inArena (.inl (Level.mem_ids he)))
  refine ⟨e, hhead, ?_, hnode⟩
  rw [leftmostLeaf, hn, Nat.add_assoc, hrun, leftmostFrom, hnode]
  simp [h.leaf.isLeaf e he]

theorem Tree.rightmostLeaf_eq (h : Tree t leaves ups) :
    ∃ e, leaves.getLast? = some e ∧ t.rightmostLeaf = some e.2 ∧
      t.node e.2 = some (t.nodeAt e.2) := by
  obtain ⟨n, hn⟩ := Nat.exists_eq_add_of_lt (h.stack.ups_length_lt h.distinct)
  obtain ⟨e, hlast, hrun⟩ := h.stack.rightmost (fun id hid => h.inArena (.inr hid)) (n + 1)
  have he := List.mem_of_getLast? hlast
  have hnode := node_eq (h.inArena (.inl (Level.mem_ids he)))
  refine ⟨e, hlast, ?_, hnode⟩
  rw [rightmostLeaf, hn, Nat.add_assoc, hrun, rightmostFrom, hnode]
  simp [h.leaf.isLeaf e he]

theorem Tree.firstStart_eq (h : Tree t leaves ups) :
    t.firstStart = some ((places t.nodeAt leaves).head?.map Place.loc) := by
  obtain ⟨e, hhead, hleaf, hnode⟩ := h.leftmostLeaf_eq
  have he := List.mem_of_mem_head? hhead
  rw [firstStart, hleaf]
  simp only [Option.bind_eq_bind, Option.bind_some, hnode]
  by_cases hempty : (t.nodeAt e.2).keys = []
  · rw [h.places_of_empty he hempty, if_pos (Node.isEmpty_iff.mpr hempty)]
    rfl
  · rw [h.places_head? (a := []) rfl (h.nonempty_of_mem he hempty), Level.ids, List.head?_map,
      hhead, if_neg (mt Node.isEmpty_iff.mp hempty)]
    rfl

theorem Tree.lastStart_eq (h : Tree t leaves ups) :
    t.lastStart = some ((places t.nodeAt leaves).getLast?.map Place.loc) := by
  obtain ⟨e, hlast, hleaf, hnode⟩ := h.rightmostLeaf_eq
  have he := List.mem_of_getLast? hlast
  rw [lastStart, hleaf]
  simp only [Option.bind_eq_bind, Option.bind_some, hnode]
  by_cases hempty : (t.nodeAt e.2).keys = []
  · rw [h.places_of_empty he hempty, if_pos (Node.isEmpty_iff.mpr hempty)]
    rfl
  · rw [h.places_getLast? (b := []) (by simp) (h.nonempty_of_mem he hempty), Level.ids,
      List.getLast?_map, hlast, if_neg (mt Node.isEmpty_iff.mp hempty)]
    rfl

omit [LinearOrder K] in
theorem mem_leafPlaces {id : NodeId} {pos : Nat} {es : List (K × List RowId)} {x : Place K}
    (h : x ∈ leafPlaces id pos es) : (x.key, x.values) ∈ es := by
  rw [← leafPlaces_entries id pos es]
  exact List.mem_map_of_mem h

omit [LinearOrder K] in
theorem mem_places {N : NodeId → Node K} {level : Level K} {x : Place K}
    (h : x ∈ places N level) : (x.key, x.values) ∈ leafEntries N level := by
  rw [← places_entries]
  exact List.mem_map_of_mem h

/-- The places before a key and those from it on. -/
theorem Tree.starts_at (h : Tree t leaves ups) (key : K) :
    ∃ p q, places t.nodeAt leaves = p ++ q ∧ (∀ x ∈ p, x.key < key) ∧ (∀ x ∈ q, key ≤ x.key) ∧
      t.startFrom key = some (q.head?.map Place.loc) ∧
      t.startBefore key = some (p.getLast?.map Place.loc) := by
  obtain ⟨a, e, b, hc⟩ := h.toShape.exists_covers key
  have he : e ∈ leaves := by simp [hc.split]
  have hnode := node_eq (h.inArena (.inl (Level.mem_ids he)))
  have hlen := h.zip_length he
  have hne := h.leaves_ne hc.split
  -- the cut inside the covering leaf
  obtain ⟨es₁, es₂, hzip, hpos, hlow, hhigh⟩ : ∃ es₁ es₂,
      (t.nodeAt e.2).keys.zip (t.nodeAt e.2).values = es₁ ++ es₂ ∧
      (t.nodeAt e.2).findKeyPosition key = es₁.length ∧ (∀ p ∈ es₁, p.1 < key) ∧
      ∀ p ∈ es₂, key ≤ p.1 := by
    cases (t.nodeAt e.2).finds (h.ordered.sorted e he) (h.leaf.aligned e he) key with
    | found ka kb va vb ids hk hv hva hvb hlt hgt hpos hfind =>
      refine ⟨ka.zip va, (key, ids) :: kb.zip vb, ?_, ?_, ?_, ?_⟩
      · rw [hk, hv, List.zip_append hva.symm, List.zip_cons_cons]
      · rw [hpos, List.length_zip, hva, Nat.min_self]
      · exact fun p hp => hlt p.1 (List.of_mem_zip hp).1
      · intro p hp
        rcases List.mem_cons.mp hp with rfl | hp
        · exact le_refl _
        · exact (hgt p.1 (List.of_mem_zip hp).1).le
    | missing ka kb va vb hk hv hva hvb hlt hgt hpos hfind =>
      refine ⟨ka.zip va, kb.zip vb, ?_, ?_, ?_, ?_⟩
      · rw [hk, hv, List.zip_append hva.symm]
      · rw [hpos, List.length_zip, hva, Nat.min_self]
      · exact fun p hp => hlt p.1 (List.of_mem_zip hp).1
      · exact fun p hp => (hgt p.1 (List.of_mem_zip hp).1).le
  rw [hzip, List.length_append] at hlen
  have hchain := h.leaf.chain
  rw [hc.split, Level.ids_append, Level.ids_cons] at hchain
  obtain ⟨hprev, hnext⟩ := Chain.linked_at hchain
  rw [Option.or_none] at hprev hnext
  refine ⟨places t.nodeAt a ++ leafPlaces e.2 0 es₁,
    leafPlaces e.2 es₁.length es₂ ++ places t.nodeAt b, ?_, ?_, ?_, ?_, ?_⟩
  · rw [hc.split, places_append, places_cons, hzip, leafPlaces_append, Nat.zero_add]
    simp
  · intro x hx
    rcases List.mem_append.mp hx with hx | hx
    · exact h.ordered.before_lt hc _ (mem_places hx)
    · exact hlow _ (mem_leafPlaces hx)
  · intro x hx
    rcases List.mem_append.mp hx with hx | hx
    · exact hhigh _ (mem_leafPlaces hx)
    · exact (h.ordered.lt_after hc _ (mem_places hx)).le
  · rw [startFrom, h.toShape.findLeaf_eq hc]
    simp only [Option.bind_eq_bind, Option.bind_some, hnode, hpos, Node.keyCount, ← hlen, hnext]
    cases es₂ with
    | nil =>
      have hhead := h.places_head? (a := a ++ [e]) (b := b) (by simp [hc.split])
        fun f hf => hne f (by simp [hf])
      rw [if_neg (by simp), leafPlaces, List.nil_append, hhead]
    | cons p es₂ =>
      rw [if_pos (by simp)]
      rfl
  · rw [startBefore, h.toShape.findLeaf_eq hc]
    simp only [Option.bind_eq_bind, Option.bind_some, hnode, hpos, hprev]
    rcases List.eq_nil_or_concat es₁ with rfl | ⟨es₁, p, rfl⟩
    · have hlast := h.places_getLast? (a := a) (b := e :: b) hc.split
        fun f hf => hne f (by simp [hf])
      rw [if_neg (by simp), leafPlaces, List.append_nil, hlast]
      rcases List.eq_nil_or_concat a with rfl | ⟨a, f, rfl⟩
      · rfl
      · rw [List.concat_eq_append] at *
        have hids : (Level.ids (a ++ [f])).getLast? = some f.2 := by simp [Level.ids]
        have hf := hne f (by simp)
        simp only [hids, Option.bind_some, Option.map_some,
          node_eq (h.inArena (.inl (Level.mem_ids (show f ∈ leaves by simp [hc.split]))))]
        rw [if_neg (mt Node.isEmpty_iff.mp hf)]
        rfl
    · rw [List.concat_eq_append, List.length_append, List.length_singleton, if_pos (by omega),
        leafPlaces_append]
      simp [leafPlaces, Place.loc]

end Start

section Scans

variable [LinearOrder K] {t : BTreeIndex K} {leaves : Level K} {ups : List (Level K)} {σ : Type}

theorem rows_filter (range : KeyRange K) (ps : List (Place K)) :
    ((rows ps).filter fun x => range.contains x.1).map Prod.snd =
      ((ps.map Place.entry).filter fun e => range.contains e.1).flatMap Prod.snd := by
  induction ps with
  | nil => rfl
  | cons x ps ih =>
    rw [rows_cons, List.filter_append, List.map_append, ih, List.map_cons]
    by_cases hin : range.contains x.key = true
    · have hfilter : ((x.values.map fun id => (x.key, id)).filter fun y => range.contains y.1) =
          x.values.map fun id => (x.key, id) := by
        rw [List.filter_eq_self]
        simp [hin]
      rw [hfilter, List.filter_cons_of_pos (by exact hin), List.flatMap_cons, List.map_map]
      simp [Place.entry, Function.comp_def]
    · have hfilter : ((x.values.map fun id => (x.key, id)).filter fun y => range.contains y.1) =
          [] := by
        rw [List.filter_eq_nil_iff]
        simp [hin]
      rw [hfilter, List.filter_cons_of_neg (by exact hin)]
      rfl

omit [LinearOrder K] in
theorem rows_length (ps : List (Place K)) :
    (rows ps).length = Multimap.size (ps.map Place.entry) := by
  induction ps with
  | nil => rfl
  | cons x ps ih => simp [ih, Place.entry]

omit [LinearOrder K] in
theorem rows_pairwise {r : K → K → Prop} (hr : ∀ k, r k k) {ps : List (Place K)}
    (h : ps.Pairwise fun x y => r x.key y.key) : (rows ps).Pairwise fun x y => r x.1 y.1 := by
  rw [rows, List.pairwise_flatMap]
  refine ⟨fun x _ => ?_, h.imp fun {x y} hxy a ha b hb => ?_⟩
  · rw [List.pairwise_map]
    exact List.pairwise_of_forall fun _ _ => hr x.key
  · obtain ⟨_, _, rfl⟩ := List.mem_map.mp ha
    obtain ⟨_, _, rfl⟩ := List.mem_map.mp hb
    exact hxy

/-- The places of a scan go up, or down, in their keys. -/
theorem Tree.directed_pairwise (h : Tree t leaves ups) (reverse : Bool) :
    (directed t leaves reverse).Pairwise fun x y =>
      if reverse then y.key ≤ x.key else x.key ≤ y.key := by
  have hsorted : (places t.nodeAt leaves).Pairwise fun x y => x.key ≤ y.key := by
    have := h.ordered.sorted_entries
    rw [← places_entries, Multimap.Sorted, List.pairwise_map] at this
    exact this.imp le_of_lt
  cases reverse with
  | false => exact hsorted
  | true => simpa [directed, List.pairwise_reverse] using hsorted

theorem Tree.visit_from (h : Tree t leaves ups) {reverse : Bool} {p q : List (Place K)}
    (hplaces : directed t leaves reverse = p ++ q) (range : KeyRange K) (limit : Option Nat)
    (skip : Nat) (visitor : σ → RowId → σ × Bool) (state : σ) :
    (match q.head?.map Place.loc with
      | none => some state
      | some (startNode, startPos) => t.visitLoop range limit skip visitor (t.len + 1)
          (newAt startNode startPos reverse) 0 0 state) =
      some (offer visitor state (passOn skip limit
        (((q.map Place.entry).filter fun e => range.contains e.1).flatMap Prod.snd))) := by
  cases q with
  | nil => rw [List.map_nil, List.filter_nil, List.flatMap_nil, passOn_nil]; rfl
  | cons x q =>
    have hrows : (rows (x :: q)).length < t.len + 1 := by
      have hsize : Multimap.size ((directed t leaves reverse).map Place.entry) = t.len := by
        rw [BTreeIndex.len, h.counted, ← places_entries]
        cases reverse with
        | false => rfl
        | true =>
          rw [directed, if_pos rfl, List.map_reverse, Multimap.size, List.map_reverse,
            List.sum_reverse]
          rfl
      rw [hplaces, List.map_append, Multimap.size_append] at hsize
      rw [rows_length]
      omega
    have hpairs := h.directed_pairwise reverse
    rw [hplaces] at hpairs
    have hkeys := rows_pairwise (r := fun a b => if reverse then b ≤ a else a ≤ b)
      (fun k => by cases reverse <;> simp) (List.pairwise_append.mp hpairs).2.1
    have hremains : Remains t leaves (newAt x.node x.pos reverse) (rows (x :: q)) :=
      .inr ⟨p, x, q, hplaces, rfl, rfl⟩
    have hloop := h.visitLoop_eq range limit skip visitor hremains
      (hkeys.imp fun hle hpast => contains_of_past hpast hle) hrows 0 0 (Nat.zero_le skip) state
    rw [List.head?_cons, Option.map_some, ← rows_filter]
    have hlimit : limit.map (· - 0) = limit := by cases limit <;> rfl
    rw [Nat.sub_zero, hlimit] at hloop
    exact hloop

/-- What a forward scan leaves out before its start is not in the range. -/
theorem Tree.findRangeStart_eq (h : Tree t leaves ups) (range : KeyRange K) :
    ∃ p q, places t.nodeAt leaves = p ++ q ∧ (∀ x ∈ p, range.contains x.key = false) ∧
      t.findRangeStart range = some (q.head?.map Place.loc) := by
  have hall : ∃ p q, places t.nodeAt leaves = p ++ q ∧ (∀ x ∈ p, range.contains x.key = false) ∧
      t.firstStart = some (q.head?.map Place.loc) :=
    ⟨[], _, rfl, by simp, h.firstStart_eq⟩
  have hfrom : ∀ key, range.lowerKey? = some key → ∃ p q, places t.nodeAt leaves = p ++ q ∧
      (∀ x ∈ p, range.contains x.key = false) ∧
      t.startFrom key = some (q.head?.map Place.loc) := by
    intro key hkey
    obtain ⟨p, q, hplaces, hp, _, hstart, _⟩ := h.starts_at key
    refine ⟨p, q, hplaces, fun x hx => ?_, hstart⟩
    by_contra hin
    have hle := (KeyRange.le_of_contains (by simpa using hin)).1 key hkey
    exact absurd (hp x hx) (not_lt.mpr hle)
  cases range with
  | all => exact hall
  | only key => exact hfrom key rfl
  | lowerBound key exclusive => exact hfrom key rfl
  | upperBound key exclusive => exact hall
  | bound lower upper lowerExclusive upperExclusive => exact hfrom lower rfl

/-- What a reverse scan leaves out after its start begins with the upper key. -/
theorem Tree.findReverseStart_eq (h : Tree t leaves ups) (range : KeyRange K) :
    ∃ p q, places t.nodeAt leaves = p ++ q ∧
      (∀ x ∈ p, ∀ key, range.upperKey? = some key → x.key < key) ∧
      (∀ x ∈ q, ∃ key, range.upperKey? = some key ∧ key ≤ x.key) ∧
      t.findReverseStart range = some (p.getLast?.map Place.loc) := by
  have hall : range.upperKey? = none → ∃ p q, places t.nodeAt leaves = p ++ q ∧
      (∀ x ∈ p, ∀ key, range.upperKey? = some key → x.key < key) ∧
      (∀ x ∈ q, ∃ key, range.upperKey? = some key ∧ key ≤ x.key) ∧
      t.lastStart = some (p.getLast?.map Place.loc) :=
    fun hnone => ⟨_, [], (List.append_nil _).symm, by simp [hnone], by simp, h.lastStart_eq⟩
  have hbefore : ∀ key, range.upperKey? = some key → ∃ p q, places t.nodeAt leaves = p ++ q ∧
      (∀ x ∈ p, ∀ key, range.upperKey? = some key → x.key < key) ∧
      (∀ x ∈ q, ∃ key, range.upperKey? = some key ∧ key ≤ x.key) ∧
      t.startBefore key = some (p.getLast?.map Place.loc) := by
    intro key hkey
    obtain ⟨p, q, hplaces, hp, hq, _, hstart⟩ := h.starts_at key
    refine ⟨p, q, hplaces, fun x hx key' hkey' => ?_, fun x hx => ⟨key, hkey, hq x hx⟩, hstart⟩
    obtain rfl : key = key' := Option.some.inj (hkey.symm.trans hkey')
    exact hp x hx
  cases range with
  | all => exact hall rfl
  | only key => exact hbefore key rfl
  | lowerBound key exclusive => exact hall rfl
  | upperBound key exclusive => exact hbefore key rfl
  | bound lower upper lowerExclusive upperExclusive => exact hbefore upper rfl

theorem Tree.visitRange_forward (h : Tree t leaves ups) (range : Option (KeyRange K))
    (limit : Option Nat) (skip : Nat) (visitor : σ → RowId → σ × Bool) (state : σ) :
    t.visitRange range false limit skip visitor state = some (offer visitor state
      ((range.getD .all).scan (leafEntries t.nodeAt leaves) false limit skip)) := by
  obtain ⟨p, q, hplaces, hp, hstart⟩ := h.findRangeStart_eq (range.getD .all)
  have hnone : (p.map Place.entry).filter (fun e => (range.getD .all).contains e.1) = [] := by
    rw [List.filter_eq_nil_iff]
    intro e he
    obtain ⟨x, hx, rfl⟩ := List.mem_map.mp he
    simpa [Place.entry] using hp x hx
  rw [visitRange, if_neg (by simp), hstart]
  refine (h.visit_from (show directed t leaves false = p ++ q from hplaces) (range.getD .all) limit
    skip visitor state).trans ?_
  rw [KeyRange.scan_eq, if_neg (by simp), ← places_entries, hplaces, List.map_append,
    List.filter_append, hnone, List.nil_append]

/-- A reverse scan reads the entries below its start; of the others only the one
under the upper key can be in the range. -/
theorem Tree.visitRange_reverse (h : Tree t leaves ups) (range : Option (KeyRange K)) :
    ∃ low high, leafEntries t.nodeAt leaves = low ++ high ∧
      (∀ e ∈ low, ∀ key, (range.getD .all).upperKey? = some key → e.1 < key) ∧
      (∀ e ∈ high, (range.getD .all).contains e.1 = true →
        (range.getD .all).upperKey? = some e.1) ∧
      ∀ (limit : Option Nat) (skip : Nat) (visitor : σ → RowId → σ × Bool) (state : σ),
        t.visitRange range true limit skip visitor state =
          some (offer visitor state ((range.getD .all).scan low true limit skip)) := by
  obtain ⟨p, q, hplaces, hp, hq, hstart⟩ := h.findReverseStart_eq (range.getD .all)
  refine ⟨p.map Place.entry, q.map Place.entry, ?_, ?_, ?_, ?_⟩
  · rw [← places_entries, hplaces, List.map_append]
  · intro e he
    obtain ⟨x, hx, rfl⟩ := List.mem_map.mp he
    exact hp x hx
  · intro e he hin
    obtain ⟨x, hx, rfl⟩ := List.mem_map.mp he
    obtain ⟨key, hkey, hle⟩ := hq x hx
    have heq := le_antisymm hle ((KeyRange.le_of_contains hin).2 key hkey)
    rw [hkey, heq]
    rfl
  · intro limit skip visitor state
    have hdirected : directed t leaves true = q.reverse ++ p.reverse := by
      rw [directed, if_pos rfl, hplaces, List.reverse_append]
    rw [visitRange, if_pos rfl, hstart, ← List.head?_reverse]
    refine (h.visit_from hdirected (range.getD .all) limit skip visitor state).trans ?_
    rw [KeyRange.scan_eq, if_pos rfl, List.map_reverse]

theorem offer_push (result ids : List RowId) :
    offer (fun result id => (result ++ [id], true)) result ids = result ++ ids := by
  induction ids generalizing result with
  | nil => simp [offer]
  | cons id ids ih => simp [offer, ih]

/-- Whether a reverse scan leaves out a stored key that bounds its range. -/
def BTreeIndex.dropsUpperKey (t : BTreeIndex K) (range : Option (KeyRange K))
    (reverse : Bool) : Bool :=
  reverse && (range.getD .all).upperKey?.any fun key =>
    (range.getD .all).contains key && (t.containsKey key).getD false

theorem Tree.dropsUpperKey_iff (h : Tree t leaves ups) (range : Option (KeyRange K)) :
    t.dropsUpperKey range true = true ↔ ∃ e ∈ leafEntries t.nodeAt leaves,
      (range.getD .all).upperKey? = some e.1 ∧ (range.getD .all).contains e.1 = true := by
  rw [dropsUpperKey, Bool.true_and, Option.any_eq_true]
  simp only [h.toShape.containsKey_eq, Option.getD_some, Bool.and_eq_true]
  constructor
  · rintro ⟨key, hkey, hin, hstored⟩
    have hne : Multimap.values (leafEntries t.nodeAt leaves) key ≠ [] := by simpa using hstored
    exact ⟨_, Multimap.mem_of_values hne, hkey, hin⟩
  · rintro ⟨e, he, hkey, hin⟩
    refine ⟨e.1, hkey, hin, ?_⟩
    rw [Multimap.values_of_mem h.ordered.sorted_entries he]
    obtain ⟨f, hf, _, hv⟩ := mem_leafEntries he
    simpa using h.leaf.stored f hf e.2 hv

theorem Tree.entries_ne_nil (h : Tree t leaves ups) :
    ∀ e ∈ leafEntries t.nodeAt leaves, e.2 ≠ [] := by
  intro e he
  obtain ⟨f, hf, _, hv⟩ := mem_leafEntries he
  exact h.leaf.stored f hf e.2 hv

theorem Tree.getRange_forward (h : Tree t leaves ups) (range : Option (KeyRange K))
    (limit : Option Nat) (skip : Nat) :
    t.getRange range false limit skip =
      some ((range.getD .all).scan (leafEntries t.nodeAt leaves) false limit skip) := by
  rw [getRange, h.visitRange_forward, offer_push, List.nil_append]

/-- Where no stored upper key is dropped, a reverse scan reads all it should. -/
theorem Tree.visitRange_all (h : Tree t leaves ups) (range : Option (KeyRange K))
    (hdrop : t.dropsUpperKey range true = false) (limit : Option Nat) (skip : Nat)
    (visitor : σ → RowId → σ × Bool) (state : σ) :
    t.visitRange range true limit skip visitor state = some (offer visitor state
      ((range.getD .all).scan (leafEntries t.nodeAt leaves) true limit skip)) := by
  have hnone := mt (h.dropsUpperKey_iff range).mpr (by simp [hdrop])
  obtain ⟨low, high, hentries, _, hhigh, hscan⟩ := h.visitRange_reverse (σ := σ) range
  have hnil : (high.reverse.filter fun e => (range.getD .all).contains e.1) = [] := by
    rw [List.filter_eq_nil_iff]
    intro e he hin
    have hmem := List.mem_reverse.mp he
    exact hnone ⟨e, by simp [hentries, hmem], hhigh e hmem hin, hin⟩
  rw [hscan, KeyRange.scan_eq, KeyRange.scan_eq, if_pos rfl, if_pos rfl, hentries,
    List.reverse_append, List.filter_append, hnil, List.nil_append]

/-- The whole reverse scan of a range misses the upper key that is dropped. -/
theorem Tree.getRange_ne_scan (h : Tree t leaves ups) (range : Option (KeyRange K))
    (hdrop : t.dropsUpperKey range true = true) :
    t.getRange range true none 0 ≠
      some ((range.getD .all).scan (leafEntries t.nodeAt leaves) true none 0) := by
  obtain ⟨e, he, hkey, hin⟩ := (h.dropsUpperKey_iff range).mp hdrop
  obtain ⟨low, high, hentries, hlow, _, hscan⟩ := h.visitRange_reverse (σ := List RowId) range
  have hhigh : e ∈ high := by
    rw [hentries] at he
    exact (List.mem_append.mp he).resolve_left fun hmem => (hlow e hmem e.1 hkey).false
  intro hrows
  rw [getRange, hscan, offer_push, List.nil_append, Option.some.injEq, KeyRange.scan_eq,
    KeyRange.scan_eq, if_pos rfl, if_pos rfl, hentries, List.reverse_append,
    List.filter_append, List.flatMap_append] at hrows
  have hnil : (high.reverse.filter fun e => (range.getD .all).contains e.1).flatMap Prod.snd =
      [] := List.self_eq_append_left.mp hrows
  exact h.entries_ne_nil e (by simp [hentries, hhigh]) (List.flatMap_eq_nil_iff.mp hnil e
    (List.mem_filter.mpr ⟨List.mem_reverse.mpr hhigh, hin⟩))

theorem Tree.getRange_reverse_iff (h : Tree t leaves ups) (range : Option (KeyRange K)) :
    (∀ limit skip, t.getRange range true limit skip =
      some ((range.getD .all).scan (leafEntries t.nodeAt leaves) true limit skip)) ↔
        t.dropsUpperKey range true = false := by
  rw [← Bool.not_eq_true]
  refine ⟨fun hall hdrop => h.getRange_ne_scan range hdrop (hall none 0),
    fun hnone limit skip => ?_⟩
  rw [getRange, h.visitRange_all range (Bool.not_eq_true _ ▸ hnone), offer_push, List.nil_append]

end Scans

end Cynos.Index
