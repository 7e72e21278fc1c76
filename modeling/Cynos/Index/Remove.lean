import Cynos.Index.Delete
import Cynos.Index.Groups
import Mathlib.Data.List.Count

/-! Removal of single pairs and of batches. -/
namespace Cynos.Index

open BTreeIndex

variable {K : Type} [LinearOrder K]

/-- `node'` is the leaf `node` with `kept` left under the key. -/
inductive Node.Take (node : Node K) (key : K) (kept : List RowId) : Node K → Prop where
  | keep (ka kb : List K) (va vb : List (List RowId)) (old : List RowId)
    (keys : node.keys = ka ++ key :: kb) (values : node.values = va ++ old :: vb)
    (before : va.length = ka.length) (kept_ne : kept ≠ []) :
    Take node key kept { node with values := va ++ kept :: vb }
  | drop (ka kb : List K) (va vb : List (List RowId)) (old : List RowId)
    (keys : node.keys = ka ++ key :: kb) (values : node.values = va ++ old :: vb)
    (before : va.length = ka.length) (kept_eq : kept = []) :
    Take node key kept { node with keys := ka ++ kb, values := va ++ vb }

section Take

variable {t : BTreeIndex K} {leaves : Level K} {ups : List (Level K)} {a b : Level K}
  {e : WithBot K × NodeId} {key : K} {kept : List RowId} {node' : Node K}

/-- Taking row ids out of the covering leaf. -/
theorem Shape.take (h : Shape t none leaves ups) (hc : Covers leaves key a e b)
    (htake : (t.nodeAt e.2).Take key kept node') :
    Shape (t.setNode e.2 node') none leaves ups ∧
      Multimap.values (leafEntries (t.setNode e.2 node').nodeAt leaves) =
        Function.update (Multimap.values (leafEntries t.nodeAt leaves)) key kept ∧
      Multimap.size (leafEntries (t.setNode e.2 node').nodeAt leaves) +
          (Multimap.values (leafEntries t.nodeAt leaves) key).length =
        Multimap.size (leafEntries t.nodeAt leaves) + kept.length := by
  have he : e ∈ leaves := by simp [hc.split]
  have hsorted := h.ordered.sorted e he
  have habove := h.ordered.above e he
  have hal := h.leaf.aligned e he
  have hstored := h.leaf.stored e he
  have hup := h.leaf.upper e he
  rw [maxKeysOf_none] at hup
  have hbelow : ∀ f ∈ b, ∀ k ∈ (t.nodeAt e.2).keys, (k : WithBot K) < f.1 := by
    have := h.ordered.below
    rw [hc.split] at this
    exact fun f hf => List.rel_of_pairwise_cons (List.pairwise_append.mp this).2.1 hf
  have hentries : leafEntries t.nodeAt leaves = leafEntries t.nodeAt a ++
      (t.nodeAt e.2).keys.zip (t.nodeAt e.2).values ++ leafEntries t.nodeAt b := by
    rw [hc.split, leafEntries_append, leafEntries_cons, List.append_assoc]
  have hbefore := h.ordered.before_lt hc
  have hafter := h.ordered.lt_after hc
  have hneFirst : ∀ (ka kb : List K) (va : List (List RowId)),
      (t.nodeAt e.2).keys = ka ++ key :: kb →
      ∀ p ∈ leafEntries t.nodeAt a ++ ka.zip va, p.1 ≠ key := by
    intro ka kb va hk p hp
    rw [hk] at hsorted
    rcases List.mem_append.mp hp with hp | hp
    · exact (hbefore p hp).ne
    · exact ((List.pairwise_append.mp hsorted).2.2 p.1 (List.of_mem_zip hp).1 key (by simp)).ne
  cases htake with
  | keep ka kb va vb old hk hv hlen hkept =>
    have hold := h.values_of_found hc hk hv hlen
    rw [hv] at hal hstored
    have hstored' : ∀ vs ∈ va ++ kept :: vb, vs ≠ [] := by
      intro vs hvs
      rcases List.mem_append.mp hvs with hvs | hvs
      · exact hstored vs (by simp [hvs])
      · rcases List.mem_cons.mp hvs with rfl | hvs
        · exact hkept
        · exact hstored vs (by simp [hvs])
    obtain ⟨hshape, hnew⟩ := h.setLeaf hc.split none
      (t.nodeAt e.2).keys (va ++ kept :: vb) hsorted (by simpa using hal)
      hstored' (by simpa using hup) (fun _ _ => le_refl _) habove hbelow
    refine ⟨hshape, ?_, ?_⟩
    · rw [hnew, hentries, hk, hv, List.zip_append hlen.symm, List.zip_append hlen.symm,
        List.zip_cons_cons, List.zip_cons_cons]
      simp only [List.append_assoc, List.cons_append]
      rw [← List.append_assoc, ← List.append_assoc]
      exact Multimap.values_replace old _ (hneFirst ka kb va hk)
    · rw [hold, hnew, hentries, hk, hv, List.zip_append hlen.symm, List.zip_append hlen.symm,
        List.zip_cons_cons, List.zip_cons_cons]
      simp only [Multimap.size_append, Multimap.size_cons]
      omega
  | drop ka kb va vb old hk hv hlen hkept =>
    subst hkept
    have hold := h.values_of_found hc hk hv hlen
    have hne := hneFirst ka kb va hk
    have hmem : ∀ k ∈ ka ++ kb, k ∈ (t.nodeAt e.2).keys := by
      intro k hkk
      rw [hk]
      simp only [List.mem_append, List.mem_cons] at hkk ⊢
      tauto
    have hsorted' : (ka ++ kb).Pairwise (· < ·) := by
      rw [hk] at hsorted
      exact hsorted.sublist (List.Sublist.append_left (List.sublist_cons_self _ _) _)
    have hgt : ∀ p ∈ kb.zip vb ++ leafEntries t.nodeAt b, p.1 ≠ key := by
      intro p hp
      rw [hk] at hsorted
      rcases List.mem_append.mp hp with hp | hp
      · exact (List.rel_of_pairwise_cons (List.pairwise_append.mp hsorted).2.1
          (List.of_mem_zip hp).1).ne'
      · exact (hafter p hp).ne'
    rw [hk, List.length_append, List.length_cons] at hup
    rw [hk, hv, List.length_append, List.length_append, List.length_cons, List.length_cons] at hal
    rw [hv] at hstored
    have hstored' : ∀ vs ∈ va ++ vb, vs ≠ [] := by
      intro vs hvs
      refine hstored vs ?_
      simp only [List.mem_append, List.mem_cons] at hvs ⊢
      tauto
    obtain ⟨hshape, hnew⟩ := h.setLeaf hc.split none (ka ++ kb)
      (va ++ vb) hsorted' (by simp; omega) hstored' (by simp; omega)
      (fun _ _ => le_refl _) (fun k hkk => habove k (hmem k hkk))
      fun f hf k hkk => hbelow f hf k (hmem k hkk)
    refine ⟨hshape, ?_, ?_⟩
    · rw [hnew, hentries, hk, hv, List.zip_append hlen.symm, List.zip_append hlen.symm,
        List.zip_cons_cons]
      have herase := Multimap.values_erase old hne hgt
      simpa only [List.append_assoc, List.cons_append] using herase
    · rw [hold, hnew, hentries, hk, hv, List.zip_append hlen.symm, List.zip_append hlen.symm,
        List.zip_cons_cons]
      simp only [Multimap.size_append, Multimap.size_cons, List.length_nil]
      omega

theorem Shape.removeRows {heavy : Option NodeId} (h : Shape t heavy leaves ups) (count : Nat) :
    Shape (t.removeRows count) heavy leaves ups :=
  ⟨h.stack, h.distinct, h.leaf, h.ordered, h.asc, h.order⟩

end Take

section Delete

variable {t : BTreeIndex K} {leaves : Level K} {ups : List (Level K)} {a b : Level K}
  {e : WithBot K × NodeId}

/-- The row ids that `remove` leaves under a key. -/
def remaining (ids : List RowId) : Option RowId → List RowId
  | some value => ids.filter (· != value)
  | none => []

theorem remaining_length_le (ids : List RowId) (value : Option RowId) :
    (remaining ids value).length ≤ ids.length := by
  cases value with
  | none => exact Nat.zero_le _
  | some value => exact List.length_filter_le _ _

omit [LinearOrder K] in
theorem Node.take_removeAt {node : Node K} {key : K} {ka kb : List K}
    {va vb : List (List RowId)} {old : List RowId} (hk : node.keys = ka ++ key :: kb)
    (hv : node.values = va ++ old :: vb) (hlen : va.length = ka.length) (value : Option RowId) :
    ∃ node', node.removeAt ka.length value =
        some (node', old.length - (remaining old value).length) ∧
      node.Take key (remaining old value) node' := by
  have hget : (va ++ old :: vb)[ka.length]? = some old := by simp [← hlen]
  have hset : ∀ ids, Vec.setAt (va ++ old :: vb) ka.length ids = some (va ++ ids :: vb) := by
    intro ids
    rw [← hlen, Vec.setAt_append]
  have hkeys : Vec.removeAt (ka ++ key :: kb) ka.length = some (ka ++ kb) := Vec.removeAt_append ..
  have hvalues : Vec.removeAt (va ++ old :: vb) ka.length = some (va ++ vb) :=
    Vec.removeAt_append_of_eq hlen.symm _
  cases value with
  | none =>
    refine ⟨{ node with keys := ka ++ kb, values := va ++ vb }, ?_,
      .drop ka kb va vb old hk hv hlen rfl⟩
    rw [Node.removeAt, hk, hv]
    simp only [Option.bind_eq_bind, hget, Option.bind_some, hkeys, hvalues]
    rfl
  | some w =>
    by_cases hkept : remaining old (some w) = []
    · refine ⟨{ node with keys := ka ++ kb, values := va ++ vb }, ?_,
        .drop ka kb va vb old hk hv hlen hkept⟩
      rw [Node.removeAt, hk, hv]
      simp only [Option.bind_eq_bind, hget, Option.bind_some, hkeys, hvalues]
      rw [remaining] at hkept ⊢
      simp [hkept]
    · refine ⟨{ node with values := va ++ remaining old (some w) :: vb }, ?_,
        .keep ka kb va vb old hk hv hlen hkept⟩
      rw [Node.removeAt, hv]
      simp only [Option.bind_eq_bind, hget, Option.bind_some, hset]
      rw [remaining] at hkept ⊢
      rw [if_neg (by simpa using hkept)]

theorem Shape.ne_root {heavy : Option NodeId} (h : Shape t heavy leaves ups) (he : e ∈ leaves) :
    e.2 ≠ t.root ↔ ups ≠ [] := by
  cases ups with
  | nil =>
    have := h.stack.1
    rw [this, List.mem_singleton] at he
    simp [he]
  | cons up ups =>
    have hroot := h.stack.root_mem
    simp only [ne_eq, reduceCtorEq, not_false_eq_true, iff_true]
    exact fun heq => h.distinct.notMem_above (Level.mem_ids he) (heq ▸ hroot)

theorem Tree.delete (h : Tree t leaves ups) (key : K) (value : Option RowId) :
    ∃ t' leaves' ups', t.delete key value = some t' ∧ Tree t' leaves' ups' ∧
      t'.order = t.order ∧ t'.unique = t.unique ∧
      Multimap.values (leafEntries t'.nodeAt leaves') =
        Function.update (Multimap.values (leafEntries t.nodeAt leaves)) key
          (remaining (Multimap.values (leafEntries t.nodeAt leaves) key) value) := by
  obtain ⟨a, e, b, hc⟩ := h.toShape.exists_covers key
  have he : e ∈ leaves := by simp [hc.split]
  have hlt : e.2 < t.arena.length := h.inArena (.inl (Level.mem_ids he))
  rw [BTreeIndex.delete, h.toShape.findLeaf_eq hc]
  simp only [Option.bind_eq_bind, Option.bind_some, node_eq hlt]
  cases (t.nodeAt e.2).finds (h.ordered.sorted e he) (h.leaf.aligned e he) key with
  | missing ka kb va vb hk hv hva hvb hklt hkgt hpos hfind =>
    refine ⟨t, leaves, ups, by rw [hfind], h, rfl, rfl, ?_⟩
    rw [h.toShape.values_of_missing hc]
    · have hnil : remaining [] value = [] := by cases value <;> rfl
      rw [hnil, eq_comm, Function.update_eq_self_iff, h.toShape.values_of_missing hc]
      rw [hk, List.mem_append]
      rintro (hm | hm)
      · exact (hklt key hm).false
      · exact (hkgt key hm).false
    · rw [hk, List.mem_append]
      rintro (hm | hm)
      · exact (hklt key hm).false
      · exact (hkgt key hm).false
  | found ka kb va vb old hk hv hva hvb hklt hkgt hpos hfind =>
    obtain ⟨node', hremove, htake⟩ := Node.take_removeAt hk hv hva value
    obtain ⟨hshape, hvalues, hsize⟩ := h.toShape.take hc htake
    have hold := h.toShape.values_of_found hc hk hv hva
    have hle := remaining_length_le old value
    rw [hold] at hsize ⊢
    have hself : (t.setNode e.2 node').nodeAt e.2 = node' := by
      rw [nodeAt_setNode hlt, Function.update_self]
    have hother : ∀ id, id ≠ e.2 → (t.setNode e.2 node').nodeAt id = t.nodeAt id := by
      intro id hid
      rw [nodeAt_setNode hlt, Function.update_of_ne hid]
    have hdist := h.distinct
    rw [hc.split] at hdist
    obtain ⟨hne, _⟩ := hdist.middle_notMem
    rw [hfind]
    simp only [hremove, Option.bind_some]
    let t1 := (t.setNode e.2 node').removeRows (old.length - (remaining old value).length)
    have hcounted : t1.stats.totalRows = Multimap.size (leafEntries t1.nodeAt leaves) := by
      change t.stats.totalRows - (old.length - (remaining old value).length) =
        Multimap.size (leafEntries (t.setNode e.2 node').nodeAt leaves)
      rw [h.counted]
      omega
    have hshape1 : Shape t1 none leaves ups := hshape.removeRows _
    split_ifs with hempty
    · have hups := (h.toShape.ne_root he).mp hempty.2
      obtain ⟨t', leaves', a', b', ups', hrun, hrep⟩ := handleUnderflow_leaf hshape1 hc.split hups
        (by
          change ((t.setNode e.2 node').nodeAt e.2).keys = []
          rw [hself]
          simpa [Node.isEmpty] using hempty.1)
        (fun f hf => by
          change ((t.setNode e.2 node').nodeAt f.2).keys ≠ []
          rw [hother f.2 (hne f (by simp [hf]))]
          exact h.noEmpty hups f (by simp [hc.split, hf]))
        t1.arena.length (hshape1.stack.ups_length_lt hshape1.distinct).le
      refine ⟨t', leaves', ups', hrun, ⟨hrep.shape, fun _ f hf hnil => ?_, ?_⟩,
        hrep.header.order, hrep.header.unique, ?_⟩
      · rw [hrep.split, List.mem_append] at hf
        rcases hf with hf | hf
        · have hfa : f.2 ∈ a.ids := hrep.ids ▸ Level.mem_ids hf
          obtain ⟨g, hg, hgf⟩ := List.mem_map.mp hfa
          have hold := hrep.empty f hf hnil
          rw [← hgf] at hold
          change ((t.setNode e.2 node').nodeAt g.2).keys = [] at hold
          rw [hother g.2 (hne g (by simp [hg]))] at hold
          exact h.noEmpty hups g (by simp [hc.split, hg]) hold
        · exact hrep.nonempty f hf hnil
      · rw [hrep.header.stats, hrep.entries]
        exact hcounted
      · rw [hrep.entries]
        exact hvalues
    · refine ⟨t1, leaves, ups, rfl, ⟨hshape1, fun hups f hf => ?_, hcounted⟩, rfl, rfl, hvalues⟩
      change ((t.setNode e.2 node').nodeAt f.2).keys ≠ []
      by_cases hfe : f.2 = e.2
      · rw [hfe, hself]
        exact fun hnil => hempty ⟨by simp [Node.isEmpty, hnil], (h.toShape.ne_root he).mpr hups⟩
      · rw [hother f.2 hfe]
        exact h.noEmpty hups f hf

end Delete

section RemoveRowIds

theorem removeRowIds_length_le (values ids : List RowId) :
    (removeRowIds values ids).length ≤ values.length := by
  unfold removeRowIds
  split
  · exact List.length_filter_le _ _
  · rename_i hlen
    clear hlen
    induction ids generalizing values with
    | nil => exact le_refl _
    | cons id ids ih =>
      rw [List.foldl_cons]
      refine (ih _).trans ?_
      cases hidx : values.idxOf? id with
      | none => exact le_refl _
      | some idx =>
        obtain ⟨hlt, _⟩ := List.idxOf?_eq_some_iff.mp hidx
        obtain ⟨ys, hswap, hperm⟩ := Vec.swapRemove_perm hlt
        have := hperm.length_eq
        rw [List.length_cons] at this
        simp only [hswap, Option.getD_some]
        omega

/-- What is left of `values` when every listed id takes one copy with it. -/
theorem removeRowIds_perm {values ids : List RowId} (hlen : ¬ ids.length > 4) :
    (removeRowIds values ids).Perm (values.diff ids) := by
  rw [removeRowIds, if_neg hlen]
  clear hlen
  induction ids generalizing values with
  | nil => exact .refl _
  | cons id ids ih =>
    rw [List.foldl_cons, List.diff_cons]
    refine ih.trans (List.Perm.diff_right _ ?_)
    cases hidx : values.idxOf? id with
    | none =>
      rw [List.idxOf?_eq_none_iff] at hidx
      simp [List.erase_of_not_mem hidx]
    | some idx =>
      obtain ⟨hlt, hget, _⟩ := List.idxOf?_eq_some_iff.mp hidx
      obtain ⟨ys, hswap, hperm⟩ := Vec.swapRemove_perm hlt
      simp only [hswap, Option.getD_some]
      rw [hget] at hperm
      have := hperm.erase id
      rwa [List.erase_cons_head] at this

/-- A listed id that is stored more often than it is listed outlives a short list. -/
theorem removeRowIds_perm_filter {values ids : List RowId} :
    (removeRowIds values ids).Perm (values.filter (· ∉ ids)) ↔
      ids.length > 4 ∨ ∀ id ∈ ids, values.count id ≤ ids.count id := by
  by_cases hlen : ids.length > 4
  · simp only [hlen, true_or, iff_true, removeRowIds, if_true]
    simp
  · have hcount : ∀ id, (values.filter (· ∉ ids)).count id =
        if id ∈ ids then 0 else values.count id := by
      intro id
      by_cases hid : id ∈ ids
      · rw [if_pos hid, List.count_eq_zero]
        simp [hid]
      · rw [if_neg hid, List.count_filter (by simpa using hid)]
    rw [or_iff_right hlen, (removeRowIds_perm hlen).congr_left, List.perm_iff_count]
    simp only [List.count_diff, hcount]
    constructor
    · intro h id hid
      have := h id
      rw [if_pos hid] at this
      omega
    · intro h id
      by_cases hid : id ∈ ids
      · rw [if_pos hid]
        exact Nat.sub_eq_zero_of_le (h id hid)
      · rw [if_neg hid, List.count_eq_zero.mpr hid, Nat.sub_zero]

theorem removeRowIds_perm_congr {values values' ids : List RowId} (h : values.Perm values') :
    (removeRowIds values ids).Perm (removeRowIds values' ids) := by
  by_cases hlen : ids.length > 4
  · rw [removeRowIds, removeRowIds, if_pos hlen, if_pos hlen]
    exact h.filter _
  · exact (removeRowIds_perm hlen).trans
      ((h.diff_right ids).trans (removeRowIds_perm hlen).symm)

end RemoveRowIds

section Groups

variable {t : BTreeIndex K} {leaves : Level K} {ups : List (Level K)} {a b : Level K}

/-- The first pass of a batch: leaves `a` were visited, and `pending` lists the empty ones. -/
structure Draining (t : BTreeIndex K) (leaves : Level K) (ups : List (Level K))
    (pending : List NodeId) (a b : Level K) (last : WithBot K) : Prop where
  shape : Shape t none leaves ups
  counted : t.stats.totalRows = Multimap.size (leafEntries t.nodeAt leaves)
  split : leaves = a ++ b
  reached : ∀ f ∈ a, f.1 ≤ last
  listed : pending.Sublist a.ids
  empty : ups ≠ [] → ∀ f ∈ leaves, (t.nodeAt f.2).keys = [] → f.2 ∈ pending
  drained : ∀ f ∈ leaves, f.2 ∈ pending → (t.nodeAt f.2).keys = []

/-- The visited leaves end at or before the leaf that covers a later key. -/
theorem Draining.visited {pending : List NodeId} {last : WithBot K} {key : K}
    {before after : Level K} {e : WithBot K × NodeId}
    (h : Draining t leaves ups pending a b last) (hlast : last ≤ key)
    (hc : Covers leaves key before e after) : ∃ rest, before ++ [e] = a ++ rest := by
  have hcut : (before ++ [e]) ++ after = a ++ b := by
    rw [← h.split, hc.split]
    simp
  rcases List.append_eq_append_iff.mp hcut with ⟨rest, ha, hafter⟩ | ⟨rest, hbefore, _⟩
  · cases rest with
    | nil => exact ⟨[], by simpa using ha.symm⟩
    | cons f rest =>
      have hle := (h.reached f (by simp [ha])).trans hlast
      exact absurd hle (not_le.mpr (hc.high f (by simp [hafter])))
  · exact ⟨rest, hbefore⟩

theorem Draining.removeGroup {pending : List NodeId} {last : WithBot K} {key : K}
    (h : Draining t leaves ups pending a b last) (ids : List RowId) (hlast : last ≤ key) :
    ∃ t' pending' a' b', BTreeIndex.removeGroup (t, pending) (key, ids) = some (t', pending') ∧
      Draining t' leaves ups pending' a' b' key ∧ t'.order = t.order ∧ t'.unique = t.unique ∧
      Multimap.values (leafEntries t'.nodeAt leaves) =
        Function.update (Multimap.values (leafEntries t.nodeAt leaves)) key
          (removeRowIds (Multimap.values (leafEntries t.nodeAt leaves) key) ids) := by
  obtain ⟨before, e, after, hc⟩ := h.shape.exists_covers key
  have he : e ∈ leaves := by simp [hc.split]
  have hlt : e.2 < t.arena.length := h.shape.inArena (.inl (Level.mem_ids he))
  obtain ⟨rest, hvisited⟩ := h.visited hlast hc
  have hsub : pending.Sublist (before ++ [e]).ids := by
    rw [hvisited, Level.ids_append]
    exact h.listed.trans (List.sublist_append_left _ _)
  have hreached : ∀ f ∈ before ++ [e], f.1 ≤ (key : WithBot K) := by
    intro f hf
    rcases List.mem_append.mp hf with hf | hf
    · have hinc := h.shape.ordered.increasing
      rw [hc.split] at hinc
      exact ((List.pairwise_append.mp hinc).2.2 f hf e (by simp)).le.trans hc.low
    · rw [List.mem_singleton.mp hf]
      exact hc.low
  have hsplit : leaves = (before ++ [e]) ++ after := by
    rw [hc.split]
    simp
  rw [BTreeIndex.removeGroup, h.shape.findLeaf_eq hc]
  simp only [Option.bind_eq_bind, Option.bind_some, node_eq hlt]
  cases (t.nodeAt e.2).finds (h.shape.ordered.sorted e he) (h.shape.leaf.aligned e he) key with
  | missing ka kb va vb hk hv hva hvb hklt hkgt hpos hfind =>
    have hnot : key ∉ (t.nodeAt e.2).keys := by
      rw [hk, List.mem_append]
      rintro (hm | hm)
      · exact (hklt key hm).false
      · exact (hkgt key hm).false
    refine ⟨t, pending, before ++ [e], after, by rw [hfind], ⟨h.shape, h.counted, hsplit, hreached,
      hsub, h.empty, h.drained⟩, rfl, rfl, ?_⟩
    have hnil : removeRowIds [] ids = [] :=
      List.length_eq_zero_iff.mp (Nat.le_zero.mp (removeRowIds_length_le [] ids))
    rw [h.shape.values_of_missing hc hnot, hnil, eq_comm, Function.update_eq_self_iff,
      h.shape.values_of_missing hc hnot]
  | found ka kb va vb old hk hv hva hvb hklt hkgt hpos hfind =>
    have hold := h.shape.values_of_found hc hk hv hva
    have hle := removeRowIds_length_le old ids
    have hnotPending : e.2 ∉ pending := by
      intro hmem
      have := h.drained e he hmem
      rw [hk] at this
      simp at this
    have hget : (va ++ old :: vb)[ka.length]? = some old := by simp [← hva]
    have hother : ∀ node' : Node K, ∀ id, id ≠ e.2 →
        (t.setNode e.2 node').nodeAt id = t.nodeAt id := by
      intro node' id hid
      rw [nodeAt_setNode hlt, Function.update_of_ne hid]
    have hself : ∀ node' : Node K, (t.setNode e.2 node').nodeAt e.2 = node' := by
      intro node'
      rw [nodeAt_setNode hlt, Function.update_self]
    have hunique : ∀ f ∈ leaves, f.2 = e.2 → f = e := by
      intro f hf hfe
      have hdist := h.shape.distinct
      rw [hc.split] at hdist hf
      by_contra hne
      refine hdist.middle_notMem.1 f ?_ hfe
      simp only [List.mem_append, List.mem_cons] at hf ⊢
      tauto
    -- what taking the rest out of the leaf does to the tree
    have hstep : ∀ node', (t.nodeAt e.2).Take key (removeRowIds old ids) node' →
        let t1 := (t.removeRows (old.length - (removeRowIds old ids).length)).setNode e.2 node'
        Shape t1 none leaves ups ∧
          t1.stats.totalRows = Multimap.size (leafEntries t1.nodeAt leaves) ∧
          Multimap.values (leafEntries t1.nodeAt leaves) =
            Function.update (Multimap.values (leafEntries t.nodeAt leaves)) key
              (removeRowIds old ids) := by
      intro node' htake
      obtain ⟨hshape, hvalues, hsize⟩ := h.shape.take hc htake
      rw [hold] at hsize
      refine ⟨hshape.removeRows _, ?_, hvalues⟩
      change t.stats.totalRows - (old.length - (removeRowIds old ids).length) =
        Multimap.size (leafEntries (t.setNode e.2 node').nodeAt leaves)
      rw [h.counted]
      omega
    rw [hfind, hold]
    simp only [hv, hget, Option.bind_some]
    by_cases hkept : removeRowIds old ids = []
    · obtain ⟨hshape, hcounted, hvalues⟩ := hstep _ (.drop ka kb va vb old hk hv hva hkept)
      have hkeys : Vec.removeAt (t.nodeAt e.2).keys ka.length = some (ka ++ kb) := by
        rw [hk, Vec.removeAt_append]
      rw [if_pos (by simp [hkept]), hkeys, Vec.removeAt_append_of_eq hva.symm]
      simp only [Option.bind_some]
      have hself' := hself { t.nodeAt e.2 with keys := ka ++ kb, values := va ++ vb }
      have hother' := hother { t.nodeAt e.2 with keys := ka ++ kb, values := va ++ vb }
      split_ifs with hempty
      · refine ⟨_, pending ++ [e.2], before ++ [e], after, rfl, ⟨hshape, hcounted, hsplit, hreached,
          ?_, fun hups f hf hnil => ?_, fun f hf hmem => ?_⟩, rfl, rfl, hvalues⟩
        · rw [Level.ids_append] at hsub ⊢
          refine List.Sublist.append ?_ (List.Sublist.refl _)
          obtain ⟨l₁, l₂, hl, hl₁, hl₂⟩ := List.sublist_append_iff.mp hsub
          have hnil : l₂ = [] := by
            cases l₂ with
            | nil => rfl
            | cons x xs =>
              have hx : x = e.2 := by simpa using hl₂.subset (List.mem_cons_self ..)
              exact absurd (by rw [hl, hx]; simp) hnotPending
          rw [hl, hnil, List.append_nil]
          exact hl₁
        · by_cases hfe : f.2 = e.2
          · simp [hfe]
          · refine List.mem_append_left _ (h.empty hups f hf ?_)
            rw [← hother' f.2 hfe]
            exact hnil
        · rcases List.mem_append.mp hmem with hmem | hmem
          · have hfe : f.2 ≠ e.2 := ne_of_mem_of_not_mem hmem hnotPending
            exact (congrArg Node.keys (hother' f.2 hfe)).trans (h.drained f hf hmem)
          · rw [List.mem_singleton] at hmem
            rw [hmem]
            refine (congrArg Node.keys hself').trans ?_
            simpa using hempty.1
      · refine ⟨_, pending, before ++ [e], after, rfl, ⟨hshape, hcounted, hsplit, hreached,
          hsub, fun hups f hf hnil => ?_, fun f hf hmem => ?_⟩, rfl, rfl, hvalues⟩
        · by_cases hfe : f.2 = e.2
          · rw [hfe] at hnil
            have hnil' := (congrArg Node.keys hself').symm.trans hnil
            have hnil' : ka ++ kb = [] := hnil'
            exact absurd ⟨by simp [hnil'], (h.shape.ne_root he).mpr hups, hnotPending⟩ hempty
          · refine h.empty hups f hf ?_
            rw [← hother' f.2 hfe]
            exact hnil
        · have hfe : f.2 ≠ e.2 := ne_of_mem_of_not_mem hmem hnotPending
          exact (congrArg Node.keys (hother' f.2 hfe)).trans (h.drained f hf hmem)
    · obtain ⟨hshape, hcounted, hvalues⟩ := hstep _ (.keep ka kb va vb old hk hv hva hkept)
      have hkeys : ∀ id, ((t.setNode e.2 { t.nodeAt e.2 with
          values := va ++ removeRowIds old ids :: vb }).nodeAt id).keys = (t.nodeAt id).keys := by
        intro id
        by_cases hid : id = e.2
        · rw [hid, hself]
        · rw [hother _ id hid]
      rw [if_neg (by simpa using hkept), ← hva, Vec.setAt_append]
      exact ⟨_, pending, before ++ [e], after, rfl, ⟨hshape, hcounted, hsplit, hreached, hsub,
        fun hups f hf hnil => h.empty hups f hf ((hkeys f.2).symm.trans hnil),
        fun f hf hmem => (hkeys f.2).trans (h.drained f hf hmem)⟩, rfl, rfl, hvalues⟩

end Groups

section Batch

variable {t : BTreeIndex K} {leaves a b : Level K} {ups : List (Level K)}

theorem Draining.removeGroups {groups : List (K × List RowId)} {pending : List NodeId}
    {last : WithBot K} (h : Draining t leaves ups pending a b last)
    (hs : Multimap.Sorted groups) (hlast : ∀ g ∈ groups, last ≤ g.1) :
    ∃ t' pending' a' b' last',
      groups.foldlM BTreeIndex.removeGroup (t, pending) = some (t', pending') ∧
      Draining t' leaves ups pending' a' b' last' ∧ t'.order = t.order ∧ t'.unique = t.unique ∧
      Multimap.values (leafEntries t'.nodeAt leaves) =
        groups.foldl (fun m g => Function.update m g.1 (removeRowIds (m g.1) g.2))
          (Multimap.values (leafEntries t.nodeAt leaves)) := by
  induction groups generalizing t pending a b last with
  | nil => exact ⟨t, pending, a, b, last, rfl, h, rfl, rfl, rfl⟩
  | cons g groups ih =>
    obtain ⟨t1, pending1, a1, b1, hrun1, h1, horder1, hunique1, hvalues1⟩ :=
      h.removeGroup g.2 (hlast g (by simp))
    obtain ⟨t', pending', a', b', last', hrun, h', horder, hunique, hvalues⟩ :=
      ih h1 hs.of_cons fun g' hg' =>
        WithBot.coe_le_coe.mpr (List.rel_of_pairwise_cons hs hg').le
    refine ⟨t', pending', a', b', last', ?_, h', horder.trans horder1, hunique.trans hunique1, ?_⟩
    · rw [List.foldlM_cons, hrun1]
      exact hrun
    · rw [hvalues, List.foldl_cons, hvalues1]

/-- The second pass of a batch: the leaves `pending` may be empty, from left to right. -/
structure Repairing (t : BTreeIndex K) (leaves : Level K) (ups : List (Level K))
    (pending : List NodeId) (a b : Level K) : Prop where
  shape : Shape t none leaves ups
  counted : t.stats.totalRows = Multimap.size (leafEntries t.nodeAt leaves)
  split : leaves = a ++ b
  listed : pending.Sublist a.ids
  empty : ups ≠ [] → ∀ f ∈ a, (t.nodeAt f.2).keys = [] → f.2 ∈ pending
  nonempty : ups ≠ [] → ∀ f ∈ b, (t.nodeAt f.2).keys ≠ []

/-- What the repair of one leaf changes: nodes of the tree, and neither entries nor header. -/
structure RepairFrame (t t' : BTreeIndex K) (leaves : Level K) (ups : List (Level K))
    (leaves' : Level K) (ups' : List (Level K)) : Prop where
  header : SameHeader t t'
  entries : leafEntries t'.nodeAt leaves' = leafEntries t.nodeAt leaves
  outside : ∀ id < t.arena.length, id ∉ levelIds (leaves :: ups) → t'.nodeAt id = t.nodeAt id
  sub : ∀ id ∈ levelIds (leaves' :: ups'), id ∈ levelIds (leaves :: ups)

omit [LinearOrder K] in
theorem RepairFrame.refl (t : BTreeIndex K) (leaves : Level K) (ups : List (Level K)) :
    RepairFrame t t leaves ups leaves ups :=
  ⟨.refl t, rfl, fun _ _ _ => rfl, fun _ hid => hid⟩

/-- The last pending leaf is one of the tree, and its repair leaves the others pending. -/
theorem Repairing.repairLeaf {pending : List NodeId} {id : NodeId}
    (h : Repairing t leaves ups (pending ++ [id]) a b) :
    id ∈ leaves.ids ∧ ∃ t' leaves' ups' a' b', BTreeIndex.repairLeaf t id = some t' ∧
      Repairing t' leaves' ups' pending a' b' ∧ RepairFrame t t' leaves ups leaves' ups' := by
  obtain ⟨x, y, hxy, hx, hy⟩ := List.append_sublist_iff.mp h.listed
  obtain ⟨y1, y2, hy12⟩ := List.append_of_mem (hy.subset (List.mem_singleton_self id))
  obtain ⟨a1, rest, rfl, ha1, hrest⟩ : ∃ a1 rest, a = a1 ++ rest ∧ a1.ids = x ++ y1 ∧
      rest.ids = id :: y2 := by
    have hids : a.ids = (x ++ y1) ++ id :: y2 := by rw [hxy, hy12, List.append_assoc]
    obtain ⟨a1, rest, rfl, h1, h2⟩ := List.map_eq_append_iff.mp hids
    exact ⟨a1, rest, rfl, h1, h2⟩
  obtain ⟨e, a2, rfl, rfl⟩ : ∃ e a2, rest = e :: a2 ∧ e.2 = id := by
    cases rest with
    | nil => simp at hrest
    | cons e a2 => exact ⟨e, a2, rfl, (List.cons.inj hrest).1⟩
  have hsplit : leaves = a1 ++ e :: (a2 ++ b) := by rw [h.split]; simp
  have he : e ∈ leaves := by simp [hsplit]
  have hlt : e.2 < t.arena.length := h.shape.inArena (.inl (Level.mem_ids he))
  have hdist := h.shape.distinct
  rw [hsplit] at hdist
  have hne : ∀ f ∈ a1 ++ a2, f.2 ≠ e.2 := fun f hf => hdist.middle_notMem.1 f (by
    simp only [List.mem_append] at hf ⊢
    tauto)
  have hsub : pending.Sublist a1.ids := ha1 ▸ hx.trans (List.sublist_append_left _ _)
  have hearlier : ups ≠ [] → ∀ f ∈ a1 ++ a2, (t.nodeAt f.2).keys = [] → f.2 ∈ pending := by
    intro hups f hf hnil
    have hmem := h.empty hups f (by
      simp only [List.mem_append, List.mem_cons] at hf ⊢
      tauto) hnil
    rcases List.mem_append.mp hmem with hmem | hmem
    · exact hmem
    · exact absurd (List.mem_singleton.mp hmem) (hne f hf)
  have hlater : ups ≠ [] → ∀ f ∈ a2 ++ b, (t.nodeAt f.2).keys ≠ [] := by
    intro hups f hf hnil
    rcases List.mem_append.mp hf with hf | hf
    · have hmem := hsub.subset (hearlier hups f (List.mem_append_right _ hf) hnil)
      have hnodup := hdist.nodup
      rw [levelIds_cons, Level.ids_append, Level.ids_cons, Level.ids_append] at hnodup
      exact (List.nodup_append.mp hnodup.of_append_left).2.2 f.2 hmem f.2
        (List.mem_cons_of_mem _ (List.mem_append_left _ (Level.mem_ids hf))) rfl
    · exact h.nonempty hups f hf hnil
  refine ⟨Level.mem_ids he, ?_⟩
  by_cases hkeys : (t.nodeAt e.2).keys = []
  · by_cases hroot : e.2 = t.root
    · have hups : ups = [] := by
        by_contra hups
        exact (h.shape.ne_root he).mpr hups hroot
      refine ⟨t, leaves, ups, a1, e :: (a2 ++ b), ?_, ⟨h.shape, h.counted, hsplit, hsub,
        fun hne => absurd hups hne, fun hne => absurd hups hne⟩, .refl t leaves ups⟩
      rw [BTreeIndex.repairLeaf, node_eq hlt]
      simp [Node.isEmpty, hroot]
    · have hups := (h.shape.ne_root he).mp hroot
      obtain ⟨t1, leaves1, a1', b1', ups1, hrun1, hrep⟩ := handleUnderflow_leaf h.shape hsplit
        hups hkeys (hlater hups) t.arena.length
        (h.shape.stack.ups_length_lt h.shape.distinct).le
      refine ⟨t1, leaves1, ups1, a1', b1', ?_, ⟨hrep.shape, by rw [hrep.header.stats, hrep.entries,
        h.counted], hrep.split, by rw [hrep.ids]; exact hsub, fun _ f hf hnil => ?_,
        fun _ => hrep.nonempty⟩, ⟨hrep.header, hrep.entries, hrep.outside, hrep.sub⟩⟩
      · rw [BTreeIndex.repairLeaf, node_eq hlt]
        simp only [Option.bind_eq_bind, Option.bind_some, Node.isEmpty, hkeys, List.isEmpty_nil,
          Bool.not_true, Bool.false_eq_true, if_false, if_neg hroot, hrun1]
      · have hfa : f.2 ∈ a1.ids := hrep.ids ▸ Level.mem_ids hf
        obtain ⟨g, hg, hgf⟩ := List.mem_map.mp hfa
        have hold := hrep.empty f hf hnil
        rw [← hgf] at hold ⊢
        exact hearlier hups g (List.mem_append_left _ hg) hold
  · refine ⟨t, leaves, ups, a1, e :: (a2 ++ b), ?_, ⟨h.shape, h.counted, hsplit, hsub,
      fun hups f hf => hearlier hups f (List.mem_append_left _ hf), fun hups f hf => ?_⟩,
      .refl t leaves ups⟩
    · have hfull : (!(t.nodeAt e.2).isEmpty) = true := by simpa [Node.isEmpty] using hkeys
      rw [BTreeIndex.repairLeaf, node_eq hlt]
      simp only [Option.bind_eq_bind, Option.bind_some, hfull, if_true]
    · rcases List.mem_cons.mp hf with rfl | hf
      · exact hkeys
      · exact hlater hups f hf

theorem Repairing.repairLeaves {pending : List NodeId} (h : Repairing t leaves ups pending a b) :
    ∃ t' leaves' ups', pending.reverse.foldlM BTreeIndex.repairLeaf t = some t' ∧
      Tree t' leaves' ups' ∧ t'.order = t.order ∧ t'.unique = t.unique ∧
      leafEntries t'.nodeAt leaves' = leafEntries t.nodeAt leaves := by
  induction pending using List.reverseRecOn generalizing t leaves ups a b with
  | nil =>
    refine ⟨t, leaves, ups, rfl, ⟨h.shape, fun hups f hf hnil => ?_, h.counted⟩, rfl, rfl, rfl⟩
    rw [h.split, List.mem_append] at hf
    rcases hf with hf | hf
    · have := h.empty hups f hf hnil
      simp at this
    · exact h.nonempty hups f hf hnil
  | append_singleton pending id ih =>
    obtain ⟨_, t1, leaves1, ups1, a1, b1, hrun1, h1, hstep⟩ := h.repairLeaf
    obtain ⟨t', leaves', ups', hrun, htree, horder, hunique, hentries⟩ := ih h1
    refine ⟨t', leaves', ups', ?_, htree, horder.trans hstep.header.order,
      hunique.trans hstep.header.unique, hentries.trans hstep.entries⟩
    rw [List.reverse_append, List.reverse_singleton, List.singleton_append, List.foldlM_cons, hrun1]
    exact hrun

/-- Behind the first pass of a batch only the leaves it noted may be empty. -/
theorem Tree.drain (h : Tree t leaves ups) (entries : List (K × RowId)) :
    ∃ t1 pending a b,
      (groupEntries (sortEntries entries)).foldlM BTreeIndex.removeGroup (t, []) =
        some (t1, pending) ∧
      Repairing t1 leaves ups pending a b ∧ t1.order = t.order ∧ t1.unique = t.unique ∧
      Multimap.values (leafEntries t1.nodeAt leaves) = fun key =>
        removeRowIds (Multimap.values (leafEntries t.nodeAt leaves) key)
          (listed entries key) := by
  obtain ⟨hsorted, _⟩ := groupEntries_spec (sortEntries_sorted entries)
  have hstart : Draining t leaves ups [] [] leaves ⊥ :=
    ⟨h.toShape, h.counted, rfl, by simp, List.Sublist.refl _,
      fun hups f hf hnil => absurd hnil (h.noEmpty hups f hf), by simp⟩
  obtain ⟨t1, pending, a, b, last, hrun1, h1, horder1, hunique1, hvalues1⟩ :=
    hstart.removeGroups hsorted fun _ _ => bot_le
  have hpending : ∀ f ∈ a ++ b, f.2 ∈ pending → f ∈ a := by
    intro f hf hmem
    rcases List.mem_append.mp hf with hf | hf
    · exact hf
    · have hnodup := h1.shape.distinct.nodup
      rw [levelIds_cons, h1.split, Level.ids_append] at hnodup
      exact absurd rfl ((List.nodup_append.mp hnodup.of_append_left).2.2 f.2
        (h1.listed.subset hmem) f.2 (Level.mem_ids hf))
  refine ⟨t1, pending, a, b, hrun1, ⟨h1.shape, h1.counted, h1.split, h1.listed,
    fun hups f hf => ?_, fun hups f hf hnil => ?_⟩, horder1, hunique1, ?_⟩
  · exact h1.empty hups f (by rw [h1.split]; exact List.mem_append_left _ hf)
  · have hmem := h1.empty hups f (by rw [h1.split]; exact List.mem_append_right _ hf) hnil
    have hfa := hpending f (List.mem_append_right _ hf) hmem
    have hnodup := h1.shape.distinct.nodup
    rw [levelIds_cons, h1.split, Level.ids_append] at hnodup
    exact (List.nodup_append.mp hnodup.of_append_left).2.2 f.2 (Level.mem_ids hfa) f.2
      (Level.mem_ids hf) rfl
  · rw [hvalues1]
    exact foldl_groups (f := removeRowIds) (fun ids => by simp [removeRowIds]) entries _

theorem Tree.removeBatch (h : Tree t leaves ups) (entries : List (K × RowId)) :
    ∃ t' leaves' ups', t.removeBatch entries = some t' ∧ Tree t' leaves' ups' ∧
      t'.order = t.order ∧ t'.unique = t.unique ∧
      Multimap.values (leafEntries t'.nodeAt leaves') = fun key =>
        removeRowIds (Multimap.values (leafEntries t.nodeAt leaves) key)
          (listed entries key) := by
  obtain ⟨t1, pending, a, b, hrun1, hrepairing, horder1, hunique1, hvalues1⟩ := h.drain entries
  obtain ⟨t', leaves', ups', hrun, htree, horder, hunique, hentries⟩ := hrepairing.repairLeaves
  refine ⟨t', leaves', ups', ?_, htree, horder.trans horder1, hunique.trans hunique1, ?_⟩
  · rw [BTreeIndex.removeBatch, hrun1]
    exact hrun
  · rw [hentries, hvalues1]

end Batch

end Cynos.Index
