import Cynos.Index.Descent
import Mathlib.Data.List.Nodup
import Mathlib.Data.List.Range

/-! The representation invariant of the tree, and lookups under it. -/
namespace Cynos.Index

variable {K : Type}

structure LeafLevel (N : NodeId → Node K) (order : Nat) (heavy : Option NodeId)
    (leaves : Level K) : Prop where
  isLeaf : ∀ e ∈ leaves, (N e.2).isLeaf = true
  aligned : ∀ e ∈ leaves, (N e.2).values.length = (N e.2).keys.length
  upper : ∀ e ∈ leaves, (N e.2).keys.length < maxKeysOf order heavy e.2
  stored : ∀ e ∈ leaves, ∀ ids ∈ (N e.2).values, ids ≠ []
  chain : Chain.Linked (fun id => (N id).next) (fun id => (N id).prev) none leaves.ids none

def leafEntries (N : NodeId → Node K) (leaves : Level K) : List (K × List RowId) :=
  leaves.flatMap fun e => (N e.2).keys.zip (N e.2).values

@[simp] theorem leafEntries_nil (N : NodeId → Node K) : leafEntries N [] = [] := rfl
@[simp] theorem leafEntries_cons (N : NodeId → Node K) (e : WithBot K × NodeId) (l : Level K) :
    leafEntries N (e :: l) = (N e.2).keys.zip (N e.2).values ++ leafEntries N l := rfl
@[simp] theorem leafEntries_append (N : NodeId → Node K) (a b : Level K) :
    leafEntries N (a ++ b) = leafEntries N a ++ leafEntries N b := by simp [leafEntries]

theorem leafEntries_congr {N N' : NodeId → Node K} {leaves : Level K}
    (h : ∀ e ∈ leaves, (N' e.2).keys = (N e.2).keys ∧ (N' e.2).values = (N e.2).values) :
    leafEntries N' leaves = leafEntries N leaves := by
  induction leaves with
  | nil => rfl
  | cons e leaves ih =>
    rw [leafEntries_cons, leafEntries_cons, (h e (by simp)).1, (h e (by simp)).2,
      ih fun f hf => h f (by simp [hf])]

variable [LinearOrder K]

/-- Every separator lies between the keys of the leaves on its two sides. -/
structure Ordered (N : NodeId → Node K) (leaves : Level K) : Prop where
  increasing : leaves.Increasing
  sorted : ∀ e ∈ leaves, (N e.2).keys.Pairwise (· < ·)
  above : ∀ e ∈ leaves, ∀ k ∈ (N e.2).keys, e.1 ≤ k
  below : leaves.Pairwise fun e f => ∀ k ∈ (N e.2).keys, (k : WithBot K) < f.1

theorem Ordered.congr {N N' : NodeId → Node K} {leaves : Level K} (h : Ordered N leaves)
    (hkeys : ∀ e ∈ leaves, (N' e.2).keys = (N e.2).keys) : Ordered N' leaves := by
  refine ⟨h.increasing, ?_, ?_, ?_⟩
  · intro e he
    rw [hkeys e he]
    exact h.sorted e he
  · intro e he
    rw [hkeys e he]
    exact h.above e he
  · refine h.below.imp_of_mem ?_
    intro e f he _ hef
    rw [hkeys e he]
    exact hef

/-- The tree `t` has these leaves and these levels above them. -/
structure Shape (t : BTreeIndex K) (heavy : Option NodeId) (leaves : Level K)
    (ups : List (Level K)) : Prop where
  stack : Stack t.nodeAt t.order none t.root leaves ups
  distinct : Distinct t.arena.length (leaves :: ups)
  leaf : LeafLevel t.nodeAt t.order heavy leaves
  ordered : Ordered t.nodeAt leaves
  asc : t.comparator = .asc
  order : 3 ≤ t.order

/-- A tree between two operations: only a root may be an empty leaf, and the
stored row ids are counted. -/
structure Tree (t : BTreeIndex K) (leaves : Level K) (ups : List (Level K)) : Prop extends
    Shape t none leaves ups where
  noEmpty : ups ≠ [] → ∀ e ∈ leaves, (t.nodeAt e.2).keys ≠ []
  counted : t.stats.totalRows = Multimap.size (leafEntries t.nodeAt leaves)

/-- A key between the separator `low` of a leaf other than the first and its keys. -/
def Gap (N : NodeId → Node K) (leaves : Level K) (low : WithBot K) (key : K) : Prop :=
  ∃ e ∈ leaves.tail, e.1 = low ∧ low ≤ (key : WithBot K) ∧
    ∃ first, (N e.2).keys.head? = some first ∧ key < first

section Stack

variable {N : NodeId → Node K} {order : Nat} {light : Option NodeId} {root : NodeId}

omit [LinearOrder K] in
theorem Stack.head?_eq {down : Level K} {ups : List (Level K)}
    (h : Stack N order light root down ups) : ∃ id, down.head? = some (⊥, id) := by
  induction ups generalizing down with
  | nil => exact ⟨root, by simp [h.1]⟩
  | cons up ups ih =>
    obtain ⟨id, hid⟩ := ih h.2
    obtain ⟨rest, rfl⟩ := List.head?_eq_some_iff.mp hid
    obtain ⟨c, cs, hc⟩ := List.exists_cons_of_ne_nil (h.1.children_ne_nil (⊥, id) (by simp))
    exact ⟨c, by rw [h.1.expands, expand_cons, slots, hc]; rfl⟩

omit [LinearOrder K] in
theorem Stack.length_le {down : Level K} {ups : List (Level K)}
    (h : Stack N order light root down ups) : ups.length + 1 ≤ (levelIds (down :: ups)).length := by
  induction ups generalizing down with
  | nil => simp [h.1]
  | cons up ups ih =>
    have hdown : 1 ≤ down.ids.length := by
      obtain ⟨id, hid⟩ := Stack.head?_eq (show Stack N order light root down (up :: ups) from h)
      obtain ⟨rest, rfl⟩ := List.head?_eq_some_iff.mp hid
      simp
    have := ih h.2
    rw [levelIds_cons, List.length_append, List.length_cons]
    omega

omit [LinearOrder K] in
theorem Distinct.length_le {size : Nat} {levels : List (Level K)} (h : Distinct size levels) :
    (levelIds levels).length ≤ size := by
  have hsub : (levelIds levels).Subperm (List.range size) :=
    List.subperm_of_subset h.nodup fun id hid => List.mem_range.mpr (h.inArena id hid)
  simpa using hsub.length_le

omit [LinearOrder K] in
theorem Stack.ups_length_lt {down : Level K} {ups : List (Level K)} {size : Nat}
    (h : Stack N order light root down ups) (hd : Distinct size (down :: ups)) :
    ups.length < size := by
  have := h.length_le
  have := hd.length_le
  omega

end Stack

section Shape

variable {t : BTreeIndex K} {heavy : Option NodeId} {leaves : Level K} {ups : List (Level K)}

theorem Shape.inArena (h : Shape t heavy leaves ups) {id : NodeId}
    (hid : id ∈ leaves.ids ∨ id ∈ levelIds ups) : id < t.arena.length :=
  h.distinct.inArena id (by simpa using hid)

theorem Shape.exists_covers (h : Shape t heavy leaves ups) (key : K) :
    ∃ before e after, Covers leaves key before e after := by
  obtain ⟨id, hid⟩ := h.stack.head?_eq
  exact Index.exists_covers h.ordered.increasing key hid rfl

theorem Shape.findLeaf_eq (h : Shape t heavy leaves ups) {key : K} {a b : Level K}
    {e : WithBot K × NodeId} (hc : Covers leaves key a e b) : t.findLeaf key = some e.2 := by
  have hlen := h.stack.ups_length_lt h.distinct
  obtain ⟨fuel, hfuel⟩ : ∃ fuel, t.arena.length = ups.length + (fuel + 1) :=
    ⟨t.arena.length - ups.length - 1, by omega⟩
  have he : e ∈ leaves := by simp [hc.split]
  have hstep := h.stack.descend h.asc (fun id hid => h.inArena (.inr hid)) h.ordered.increasing
    hc (fuel + 1)
  rw [BTreeIndex.findLeaf, hfuel, hstep, BTreeIndex.findLeafFrom,
    BTreeIndex.node_eq (h.inArena (.inl (Level.mem_ids he)))]
  simp [h.leaf.isLeaf e he]

end Shape

section Entries

variable {N : NodeId → Node K} {leaves : Level K}

omit [LinearOrder K] in
theorem mem_leafEntries {p : K × List RowId} (h : p ∈ leafEntries N leaves) :
    ∃ e ∈ leaves, p.1 ∈ (N e.2).keys ∧ p.2 ∈ (N e.2).values := by
  obtain ⟨e, he, hp⟩ := List.mem_flatMap.mp h
  exact ⟨e, he, (List.of_mem_zip hp).1, (List.of_mem_zip hp).2⟩

/-- Keys left of a covering leaf are smaller, keys right of it are greater. -/
theorem Ordered.before_lt (h : Ordered N leaves) {key : K} {a b : Level K}
    {e : WithBot K × NodeId} (hc : Covers leaves key a e b) :
    ∀ p ∈ leafEntries N a, p.1 < key := by
  intro p hp
  obtain ⟨f, hf, hk, _⟩ := mem_leafEntries hp
  have hbelow := h.below
  rw [hc.split] at hbelow
  exact WithBot.coe_lt_coe.mp
    (((List.pairwise_append.mp hbelow).2.2 f hf e (by simp) p.1 hk).trans_le hc.low)

theorem Ordered.lt_after (h : Ordered N leaves) {key : K} {a b : Level K}
    {e : WithBot K × NodeId} (hc : Covers leaves key a e b) :
    ∀ p ∈ leafEntries N b, key < p.1 := by
  intro p hp
  obtain ⟨f, hf, hk, _⟩ := mem_leafEntries hp
  exact WithBot.coe_lt_coe.mp
    ((hc.high f hf).trans_le (h.above f (by simp [hc.split, hf]) p.1 hk))

theorem sorted_zip {keys : List K} {vals : List (List RowId)} (h : keys.Pairwise (· < ·)) :
    Multimap.Sorted (keys.zip vals) := by
  induction keys generalizing vals with
  | nil => simp [Multimap.Sorted]
  | cons k keys ih =>
    cases vals with
    | nil => simp [Multimap.Sorted]
    | cons v vals =>
      rw [List.zip_cons_cons]
      refine List.pairwise_cons.mpr ⟨?_, ih h.of_cons⟩
      intro p hp
      exact List.rel_of_pairwise_cons h (List.of_mem_zip hp).1

theorem Ordered.sorted_entries (h : Ordered N leaves) :
    Multimap.Sorted (leafEntries N leaves) := by
  induction leaves with
  | nil => simp [Multimap.Sorted]
  | cons e leaves ih =>
    have htail : Ordered N leaves :=
      ⟨h.increasing.of_cons, fun f hf => h.sorted f (by simp [hf]),
        fun f hf => h.above f (by simp [hf]), h.below.of_cons⟩
    rw [leafEntries_cons]
    refine List.pairwise_append.mpr ⟨sorted_zip (h.sorted e (by simp)), ih htail, ?_⟩
    intro p hp q hq
    obtain ⟨f, hf, hk, _⟩ := mem_leafEntries hq
    exact WithBot.coe_lt_coe.mp
      ((List.rel_of_pairwise_cons h.below hf p.1 (List.of_mem_zip hp).1).trans_le
        (h.above f (by simp [hf]) q.1 hk))

end Entries

/-- Where a key stands in a sorted leaf: the entry itself, or the gap for it. -/
inductive Node.Finds (node : Node K) (key : K) : Prop where
  | found (ka kb : List K) (va vb : List (List RowId)) (ids : List RowId)
    (keys : node.keys = ka ++ key :: kb) (values : node.values = va ++ ids :: vb)
    (before : va.length = ka.length) (after : vb.length = kb.length)
    (lt : ∀ x ∈ ka, x < key) (gt : ∀ y ∈ kb, key < y)
    (position : node.findKeyPosition key = ka.length)
    (find : node.findKey key = some ka.length)
  | missing (ka kb : List K) (va vb : List (List RowId))
    (keys : node.keys = ka ++ kb) (values : node.values = va ++ vb)
    (before : va.length = ka.length) (after : vb.length = kb.length)
    (lt : ∀ x ∈ ka, x < key) (gt : ∀ y ∈ kb, key < y)
    (position : node.findKeyPosition key = ka.length)
    (find : node.findKey key = none)

theorem Node.finds {node : Node K} (hs : node.keys.Pairwise (· < ·))
    (hlen : node.values.length = node.keys.length) (key : K) : node.Finds key := by
  obtain ⟨ka, kb, hk, hlt, hge⟩ := Vec.split_sorted_lt hs key
  have hpos : node.findKeyPosition key = ka.length := by
    rw [Node.findKeyPosition, hk]
    apply Vec.partitionPoint_append
    · intro x hx
      simp [hlt x hx]
    · intro y hy
      simp [hge y hy]
  have hva : (node.values.take ka.length).length = ka.length := by
    rw [List.length_take, hlen, hk, List.length_append]
    omega
  have hget : node.keys[ka.length]? = kb.head? := by
    rw [hk, List.getElem?_append_right (le_refl _), Nat.sub_self, List.head?_eq_getElem?]
  by_cases hhead : kb.head? = some key
  · obtain ⟨kb', rfl⟩ := List.head?_eq_some_iff.mp hhead
    have hdrop : (node.values.drop ka.length).length = kb'.length + 1 := by
      rw [List.length_drop, hlen, hk, List.length_append, List.length_cons]
      omega
    obtain ⟨ids, vb, hvb⟩ : ∃ ids vb, node.values.drop ka.length = ids :: vb :=
      List.exists_cons_of_length_eq_add_one hdrop
    rw [hk] at hs
    refine .found ka kb' (node.values.take ka.length) vb ids hk ?_ hva ?_ hlt ?_ hpos ?_
    · rw [← hvb, List.take_append_drop]
    · rw [hvb, List.length_cons] at hdrop
      omega
    · intro y hy
      exact List.rel_of_pairwise_cons (List.pairwise_append.mp hs).2.1 hy
    · simp [Node.findKey, hpos, hget]
  · refine .missing ka kb (node.values.take ka.length) (node.values.drop ka.length) hk ?_ hva ?_
      hlt ?_ hpos ?_
    · rw [List.take_append_drop]
    · rw [List.length_drop, hlen, hk, List.length_append]
      omega
    · intro y hy
      refine lt_of_le_of_ne (hge y hy) ?_
      rintro rfl
      cases kb with
      | nil => simp at hy
      | cons z zs =>
        rw [hk] at hs
        have hz : z ≠ key := by simpa using hhead
        rcases List.mem_cons.mp hy with rfl | hy
        · exact hz rfl
        · have hzk := List.rel_of_pairwise_cons (List.pairwise_append.mp hs).2.1 hy
          exact absurd (hge z (by simp)) (not_le.mpr hzk)
    · rw [Node.findKey, hpos, hget]
      cases kb with
      | nil => rfl
      | cons z zs =>
        have hz : z ≠ key := by simpa using hhead
        simp [hz]

section Lookup

variable {t : BTreeIndex K} {heavy : Option NodeId} {leaves : Level K} {ups : List (Level K)}

/-- Where a key stands in the whole tree. -/
theorem Shape.values_of_found (h : Shape t heavy leaves ups) {key : K} {a b : Level K}
    {e : WithBot K × NodeId} (hc : Covers leaves key a e b) {ka kb : List K}
    {va vb : List (List RowId)} {ids : List RowId}
    (hk : (t.nodeAt e.2).keys = ka ++ key :: kb) (hv : (t.nodeAt e.2).values = va ++ ids :: vb)
    (hlen : va.length = ka.length) :
    Multimap.values (leafEntries t.nodeAt leaves) key = ids := by
  refine Multimap.values_of_mem h.ordered.sorted_entries (List.mem_flatMap.mpr ⟨e, ?_, ?_⟩)
  · simp [hc.split]
  · rw [hk, hv, List.zip_append hlen.symm]
    simp

theorem Shape.values_of_missing (h : Shape t heavy leaves ups) {key : K} {a b : Level K}
    {e : WithBot K × NodeId} (hc : Covers leaves key a e b)
    (hk : key ∉ (t.nodeAt e.2).keys) :
    Multimap.values (leafEntries t.nodeAt leaves) key = [] := by
  refine Multimap.values_eq_nil fun p hp => ?_
  rw [hc.split, leafEntries_append, leafEntries_cons] at hp
  rcases List.mem_append.mp hp with hp | hp
  · exact (h.ordered.before_lt hc p hp).ne
  · rcases List.mem_append.mp hp with hp | hp
    · rintro rfl
      exact hk (List.of_mem_zip hp).1
    · exact (h.ordered.lt_after hc p hp).ne'

theorem Shape.get_eq (h : Shape t heavy leaves ups) (key : K) :
    t.get key = some (Multimap.values (leafEntries t.nodeAt leaves) key) := by
  obtain ⟨a, e, b, hc⟩ := h.exists_covers key
  have he : e ∈ leaves := by simp [hc.split]
  have hnode := BTreeIndex.node_eq (h.inArena (.inl (Level.mem_ids he)))
  rw [BTreeIndex.get, h.findLeaf_eq hc]
  simp only [Option.bind_eq_bind, Option.bind_some, hnode]
  cases (t.nodeAt e.2).finds (h.ordered.sorted e he) (h.leaf.aligned e he) key with
  | found ka kb va vb ids hk hv hva hvb hlt hgt hpos hfind =>
    rw [h.values_of_found hc hk hv hva, hfind, hv]
    simp [← hva]
  | missing ka kb va vb hk hv hva hvb hlt hgt hpos hfind =>
    rw [h.values_of_missing hc, hfind]
    rw [hk, List.mem_append]
    rintro (hmem | hmem)
    · exact (hlt key hmem).false
    · exact (hgt key hmem).false

theorem Shape.containsKey_eq (h : Shape t heavy leaves ups) (key : K) :
    t.containsKey key =
      some (!(Multimap.values (leafEntries t.nodeAt leaves) key).isEmpty) := by
  obtain ⟨a, e, b, hc⟩ := h.exists_covers key
  have he : e ∈ leaves := by simp [hc.split]
  have hnode := BTreeIndex.node_eq (h.inArena (.inl (Level.mem_ids he)))
  rw [BTreeIndex.containsKey, h.findLeaf_eq hc]
  simp only [Option.bind_eq_bind, Option.bind_some, hnode]
  cases (t.nodeAt e.2).finds (h.ordered.sorted e he) (h.leaf.aligned e he) key with
  | found ka kb va vb ids hk hv hva hvb hlt hgt hpos hfind =>
    have hne : ids ≠ [] := h.leaf.stored e he ids (by simp [hv])
    rw [h.values_of_found hc hk hv hva, hfind]
    simp [hne]
  | missing ka kb va vb hk hv hva hvb hlt hgt hpos hfind =>
    rw [h.values_of_missing hc, hfind]
    · simp
    · rw [hk, List.mem_append]
      rintro (hmem | hmem)
      · exact (hlt key hmem).false
      · exact (hgt key hmem).false

end Lookup

end Cynos.Index
