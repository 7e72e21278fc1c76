import Cynos.Index.Groups
import Cynos.Index.Insert

/-! Batches of additions. The walk along the leaf links compares with the first
key of the next leaf, a descent with the separator before it; the two part on
keys that lie between. -/
namespace Cynos.Index

open BTreeIndex

variable {K : Type}

namespace BTreeIndex

/-- Whether the leaf for `key` has a leaf before it and only greater keys. -/
def inGap [LinearOrder K] (t : BTreeIndex K) (key : K) : Bool :=
  (t.findLeaf key).any fun id =>
    (t.nodeAt id).prev.isSome && (t.nodeAt id).keys.head?.any fun first => key < first

/-- No key of the batch lies in such a gap of another leaf than the key before it. -/
def hintsMeet [LinearOrder K] (t : BTreeIndex K) (entries : List (K × RowId)) : Bool :=
  let keys := (groupEntries (sortEntries entries)).map Prod.fst
  (keys.zip keys.tail).all fun (key, key') =>
    !t.inGap key' || t.findLeaf key == t.findLeaf key'

end BTreeIndex

/-- Whether one of the additions to a unique index finds its key taken. -/
def Clashes (unique : Bool) (m : K → List RowId) (entries : List (K × RowId)) : Prop :=
  unique ∧ ((∃ e ∈ entries, m e.1 ≠ []) ∨ ¬ (entries.map Prod.fst).Nodup)

instance [DecidableEq K] (unique : Bool) (m : K → List RowId) (entries : List (K × RowId)) :
    Decidable (Clashes unique m entries) := inferInstanceAs (Decidable (_ ∧ _))

variable [LinearOrder K] {t : BTreeIndex K} {leaves : Level K} {ups : List (Level K)}
  {a b : Level K} {e : WithBot K × NodeId} {key : K}

section Hint

theorem Shape.inGap_iff {heavy : Option NodeId} (h : Shape t heavy leaves ups) (key : K) :
    t.inGap key = true ↔ ∃ low, Gap t.nodeAt leaves low key := by
  obtain ⟨a, e, b, hc⟩ := h.exists_covers key
  have hchain := h.leaf.chain
  rw [hc.split, Level.ids_append, Level.ids_cons] at hchain
  obtain ⟨hprev, _⟩ := Chain.linked_at hchain
  have htail : (t.nodeAt e.2).prev.isSome = true ↔ a ≠ [] := by
    rw [hprev]
    cases a using List.reverseRecOn <;> simp [Level.ids]
  rw [BTreeIndex.inGap, h.findLeaf_eq hc, Option.any_some, Bool.and_eq_true, htail,
    Option.any_eq_true]
  constructor
  · rintro ⟨ha, first, hfirst, hlt⟩
    refine ⟨e.1, e, ?_, rfl, hc.low, first, hfirst, by simpa using hlt⟩
    rw [hc.split]
    cases a with
    | nil => exact absurd rfl ha
    | cons f a => simp
  · rintro ⟨_, f, hf, rfl, hlow, first, hfirst, hlt⟩
    have hfe : f = e ∧ a ≠ [] := by
      have hmem := List.mem_of_mem_tail hf
      rw [hc.split] at hmem hf
      rcases List.mem_append.mp hmem with hfa | hfb
      · -- the keys of an earlier leaf stay below the separator of the covering one
        have hbelow := h.ordered.below
        rw [hc.split] at hbelow
        have := (List.pairwise_append.mp hbelow).2.2 f hfa e (by simp) first
          (List.mem_of_mem_head? hfirst)
        exact absurd (WithBot.coe_lt_coe.mp (this.trans_le hc.low)) hlt.not_gt
      · rcases List.mem_cons.mp hfb with rfl | hfb
        · refine ⟨rfl, ?_⟩
          rintro rfl
          have hinc := h.ordered.increasing
          rw [hc.split] at hinc
          exact (List.rel_of_pairwise_cons hinc hf).false
        · exact absurd hlow (not_le.mpr (hc.high f hfb))
    obtain ⟨rfl, ha⟩ := hfe
    exact ⟨ha, first, hfirst, by simpa using hlt⟩

/-- From a leaf that does not start behind `key`, the walk ends where a descent
would. -/
theorem Tree.walkLeaves_eq (h : Tree t leaves ups)
    (hgap : ∀ low, ¬ Gap t.nodeAt leaves low key) (hsplit : leaves = a ++ e :: b)
    (hlow : e.1 ≤ (key : WithBot K)) {fuel : Nat} (hfuel : b.length < fuel) :
    t.walkLeaves key fuel e.2 = t.findLeaf key := by
  induction b generalizing a e fuel with
  | nil =>
    obtain ⟨fuel, rfl⟩ := Nat.exists_eq_add_of_lt hfuel
    have hlt : e.2 < t.arena.length := h.inArena (.inl (by simp [hsplit]))
    have hchain := h.leaf.chain
    rw [hsplit, Level.ids_append, Level.ids_cons] at hchain
    have hnext : (t.nodeAt e.2).next = none := (Chain.linked_at hchain).2
    have hc : Covers leaves key a e [] := ⟨hsplit, hlow, by simp⟩
    rw [h.findLeaf_eq hc, List.length_nil, Nat.zero_add, walkLeaves, node_eq hlt]
    simp only [Option.bind_eq_bind, Option.bind_some, hnext]
    cases (t.nodeAt e.2).keys.getLast? <;> simp
  | cons f b ih =>
    obtain ⟨fuel, rfl⟩ := Nat.exists_eq_add_of_lt hfuel
    have he : e ∈ leaves := by simp [hsplit]
    have hf : f ∈ leaves := by simp [hsplit]
    have hups : ups ≠ [] := by
      rintro rfl
      have hlen := congrArg List.length (hsplit.symm.trans h.stack.1)
      simp only [List.length_append, List.length_cons, List.length_nil] at hlen
      omega
    have hlt : e.2 < t.arena.length := h.inArena (.inl (Level.mem_ids he))
    have hltf : f.2 < t.arena.length := h.inArena (.inl (Level.mem_ids hf))
    have hchain := h.leaf.chain
    rw [hsplit, Level.ids_append, Level.ids_cons] at hchain
    have hnext : (t.nodeAt e.2).next = some f.2 := (Chain.linked_at hchain).2
    have hinc := h.ordered.increasing
    rw [hsplit] at hinc
    have hlater : ∀ g ∈ b, f.1 < g.1 := fun g hg =>
      List.rel_of_pairwise_cons ((List.pairwise_append.mp hinc).2.1.of_cons) hg
    have hstay : (key : WithBot K) < f.1 → some e.2 = t.findLeaf key := by
      intro hkey
      refine (h.findLeaf_eq (a := a) (b := f :: b) ⟨hsplit, hlow, fun g hg => ?_⟩).symm
      rcases List.mem_cons.mp hg with rfl | hg
      · exact hkey
      · exact hkey.trans (hlater g hg)
    have hlast := List.getLast?_eq_some_getLast (h.noEmpty hups e he)
    have hfirst := List.head?_eq_some_head (h.noEmpty hups f hf)
    rw [walkLeaves, node_eq hlt]
    simp only [Option.bind_eq_bind, Option.bind_some, hlast, hnext, node_eq hltf, hfirst, h.asc,
      SimpleComparator.asc_isLess, Bool.not_eq_eq_eq_not, Bool.not_true, decide_eq_false_iff_not,
      not_lt]
    split_ifs with hend hmove
    · refine hstay (lt_of_le_of_lt (WithBot.coe_le_coe.mpr hend) ?_)
      have hbelow := h.ordered.below
      rw [hsplit] at hbelow
      exact List.rel_of_pairwise_cons (List.pairwise_append.mp hbelow).2.1 (by simp) _
        (List.getLast_mem _)
    · have habove := h.ordered.above f hf _ (List.head_mem (h.noEmpty hups f hf))
      refine ih (a := a ++ [e]) (by simp [hsplit])
        (habove.trans (WithBot.coe_le_coe.mpr hmove)) ?_
      rw [List.length_cons] at hfuel ⊢
      omega
    · refine hstay (not_le.mp fun hle => hgap f.1 ⟨f, ?_, rfl, hle, _, hfirst, not_le.mp hmove⟩)
      rw [hsplit]
      cases a <;> simp

end Hint

section Groups

/-- The leaf of a hint does not start behind `key`. -/
def HintBelow (leaves : Level K) (key : K) (hint : Option NodeId) : Prop :=
  ∀ id, hint = some id → ∃ a e b, leaves = a ++ e :: b ∧ e.2 = id ∧ e.1 ≤ (key : WithBot K)

theorem HintBelow.mono {key' : K} {hint : Option NodeId} (h : HintBelow leaves key hint)
    (hle : key ≤ key') : HintBelow leaves key' hint := by
  intro id hid
  obtain ⟨a, e, b, hsplit, he, hlow⟩ := h id hid
  exact ⟨a, e, b, hsplit, he, hlow.trans (WithBot.coe_le_coe.mpr hle)⟩

theorem Tree.findLeafFromHint_eq (h : Tree t leaves ups) (hint : Option NodeId)
    (hhint : HintBelow leaves key hint)
    (hgap : hint ≠ none → ∀ low, ¬ Gap t.nodeAt leaves low key) :
    t.findLeafFromHint key hint = t.findLeaf key := by
  cases hint with
  | none => rfl
  | some id =>
    obtain ⟨a, e, b, hsplit, rfl, hlow⟩ := hhint id rfl
    refine h.walkLeaves_eq (hgap (by simp)) hsplit hlow ?_
    have hsize := h.distinct.length_le
    have hlen : leaves.length = a.length + (b.length + 1) := by rw [hsplit]; simp
    rw [levelIds_cons, List.length_append, Level.ids, List.length_map] at hsize
    omega

theorem Tree.addGroup (h : Tree t leaves ups) {hint : Option NodeId} {ids : List RowId}
    (hids : ids ≠ []) (hhint : HintBelow leaves key hint)
    (hgap : hint ≠ none → ∀ low, ¬ Gap t.nodeAt leaves low key)
    (hfree : t.unique = true → Multimap.values (leafEntries t.nodeAt leaves) key = []) :
    ∃ t' hint' leaves' ups', t.addGroup hint (key, ids) = some (.continues t' hint') ∧
      Tree t' leaves' ups' ∧ t'.unique = t.unique ∧ HintBelow leaves' key hint' ∧
      Multimap.values (leafEntries t'.nodeAt leaves') =
        Function.update (Multimap.values (leafEntries t.nodeAt leaves)) key
          (Multimap.values (leafEntries t.nodeAt leaves) key ++ ids) ∧
      ∀ low k, Gap t'.nodeAt leaves' low k → Gap t.nodeAt leaves low k := by
  obtain ⟨a, e, b, hc⟩ := h.toShape.exists_covers key
  have he : e ∈ leaves := by simp [hc.split]
  have hnode := node_eq (h.inArena (.inl (Level.mem_ids he)))
  -- the end of a step, once the leaf is written
  have hfinish : ∀ node', (t.nodeAt e.2).Put key ids node' →
      ∃ t' hint' leaves' ups', addGroup.finish (key, ids) (t.setNode e.2 node') e.2
          node'.keyCount = some (.continues t' hint') ∧
        Tree t' leaves' ups' ∧ t'.unique = t.unique ∧ HintBelow leaves' key hint' ∧
        Multimap.values (leafEntries t'.nodeAt leaves') =
          Function.update (Multimap.values (leafEntries t.nodeAt leaves)) key
            (Multimap.values (leafEntries t.nodeAt leaves) key ++ ids) ∧
        ∀ low k, Gap t'.nodeAt leaves' low k → Gap t.nodeAt leaves low k := by
    intro node' hput
    obtain ⟨t', leaves', ups', hrun, htree, _, hunique, hvalues, hsame, hgaps⟩ :=
      h.put hc hput hids
    by_cases hfull : node'.keyCount ≥ t.order
    · rw [if_pos hfull] at hrun
      refine ⟨t', none, leaves', ups', ?_, htree, hunique, by simp [HintBelow], hvalues, hgaps⟩
      rw [addGroup.finish, if_pos (by exact hfull), hrun]
      rfl
    · rw [if_neg hfull, Option.some.injEq] at hrun
      obtain rfl := hsame (not_le.mp hfull)
      refine ⟨t', some e.2, leaves', ups', ?_, htree, hunique, ?_, hvalues, hgaps⟩
      · rw [addGroup.finish, if_neg (by exact hfull), hrun]
      · rintro id ⟨⟩
        exact ⟨a, e, b, hc.split, rfl, hc.low⟩
  rw [BTreeIndex.addGroup, h.findLeafFromHint_eq hint hhint hgap, h.toShape.findLeaf_eq hc]
  simp only [Option.bind_eq_bind, Option.bind_some, hnode]
  cases (t.nodeAt e.2).finds (h.ordered.sorted e he) (h.leaf.aligned e he) key with
  | found ka kb va vb old hk hv hva hvb hlt hgt hpos hfind =>
    have hold := h.toShape.values_of_found hc hk hv hva
    have hmulti : t.unique = false := by
      by_contra hunique
      have hnil := hfree (by simpa using hunique)
      rw [hold] at hnil
      exact h.leaf.stored e he old (by simp [hv]) hnil
    obtain ⟨t', hint', leaves', ups', hrun, hrest⟩ := hfinish _ (.found ka kb va vb old hk hv hva)
    refine ⟨t', hint', leaves', ups', ?_, hrest⟩
    have hhere : ((t.nodeAt e.2).keys[ka.length]?).any (· == key) = true := by
      rw [hk]
      simp
    have hget : (va ++ old :: vb)[ka.length]? = some old := by simp [← hva]
    have hset : Vec.setAt (va ++ old :: vb) ka.length (old ++ ids) =
        some (va ++ (old ++ ids) :: vb) := by rw [← hva, Vec.setAt_append]
    rw [hpos, if_pos hhere, hv, hget]
    simp only [hmulti, Bool.false_eq_true, if_false, Option.bind_some, hset]
    rw [← hrun, Node.keyCount, Node.keyCount, hk]
  | missing ka kb va vb hk hv hva hvb hlt hgt hpos hfind =>
    obtain ⟨t', hint', leaves', ups', hrun, hrest⟩ := hfinish _ (.missing ka kb va vb hk hv hva hlt hgt)
    have hhere : ((t.nodeAt e.2).keys[ka.length]?).any (· == key) = false := by
      rw [hk, List.getElem?_append_right (le_refl _), Nat.sub_self]
      cases kb with
      | nil => rfl
      | cons y kb => simpa using (hgt y (by simp)).ne'
    refine ⟨t', hint', leaves', ups', ?_, hrest⟩
    rw [hpos, if_neg (by simp [hhere]), hk, hv, Vec.insertAt_append,
      Vec.insertAt_append_of_eq hva.symm]
    exact hrun

theorem Gap.covers (hordered : Ordered t.nodeAt leaves) {low : WithBot K}
    (h : Gap t.nodeAt leaves low key) :
    ∃ a e b, Covers leaves key a e b ∧ e.1 = low ∧ ∀ k ∈ (t.nodeAt e.2).keys, key < k := by
  obtain ⟨e, he, rfl, hlow, first, hfirst, hlt⟩ := h
  have he := List.mem_of_mem_tail he
  obtain ⟨a, b, hsplit⟩ := List.append_of_mem he
  refine ⟨a, e, b, ⟨hsplit, hlow, fun f hf => ?_⟩, rfl, fun k hk => ?_⟩
  · have hbelow := hordered.below
    rw [hsplit] at hbelow
    exact (WithBot.coe_lt_coe.mpr hlt).trans (List.rel_of_pairwise_cons
      (List.pairwise_append.mp hbelow).2.1 hf first (List.mem_of_mem_head? hfirst))
  · obtain ⟨rest, hkeys⟩ := List.head?_eq_some_iff.mp hfirst
    rw [hkeys] at hk
    rcases List.mem_cons.mp hk with rfl | hk
    · exact hlt
    · have hsorted := hordered.sorted e he
      rw [hkeys] at hsorted
      exact hlt.trans (List.rel_of_pairwise_cons hsorted hk)

/-- No key is stored between the separator of a gap and a key in it. -/
theorem Gap.not_stored (hordered : Ordered t.nodeAt leaves) {low : WithBot K} {key' : K}
    (h : Gap t.nodeAt leaves low key') (hle : key ≤ key') (hlow : low ≤ (key : WithBot K)) :
    Multimap.values (leafEntries t.nodeAt leaves) key = [] := by
  obtain ⟨a, e, b, hc, rfl, hkeys⟩ := h.covers hordered
  have hc' : Covers leaves key a e b :=
    ⟨hc.split, hlow, fun f hf => (WithBot.coe_le_coe.mpr hle).trans_lt (hc.high f hf)⟩
  by_contra hstored
  obtain ⟨f, hf, hmem, -⟩ := mem_leafEntries (Multimap.mem_of_values hstored)
  have habove := hordered.above f hf key hmem
  have hbelow := hordered.below
  rw [hc.split] at hf hbelow
  rcases List.mem_append.mp hf with hf | hf
  · exact (hlow.trans_lt ((List.pairwise_append.mp hbelow).2.2 f hf e (by simp) key hmem)).false
  · rcases List.mem_cons.mp hf with rfl | hf
    · exact (hkeys key hmem).not_ge hle
    · exact (hc'.high f hf).not_ge habove

theorem Tree.hintsMeet_chain (h : Tree t leaves ups) {entries : List (K × RowId)}
    (hmeet : t.hintsMeet entries = true) :
    (groupEntries (sortEntries entries)).IsChain fun g g' =>
      ∀ low, (g.1 : WithBot K) < low → ¬ Gap t.nodeAt leaves low g'.1 := by
  suffices hkeys : ((groupEntries (sortEntries entries)).map Prod.fst).IsChain fun (key key' : K) =>
      ∀ low, (key : WithBot K) < low → ¬ Gap t.nodeAt leaves low key' from
    (List.isChain_map _).mp hkeys
  refine Vec.isChain_of_zip_tail fun p hp low hlow hgap => ?_
  have hpair := List.all_eq_true.mp hmeet p hp
  rw [Bool.or_eq_true, (h.toShape.inGap_iff p.2).mpr ⟨low, hgap⟩, beq_iff_eq] at hpair
  obtain ⟨a, e, b, hc, rfl, -⟩ := hgap.covers h.ordered
  obtain ⟨a', e', b', hc'⟩ := h.toShape.exists_covers p.1
  have hsame : e'.2 = e.2 := by
    simpa [h.toShape.findLeaf_eq hc, h.toShape.findLeaf_eq hc'] using hpair
  have hnodup := h.distinct.nodup
  rw [levelIds_cons] at hnodup
  obtain rfl : e' = e := List.inj_on_of_nodup_map hnodup.of_append_left
    (by simp [hc'.split]) (by simp [hc.split]) hsame
  exact hlow.not_ge hc'.low

/-- The loop over the groups, under a hint that meets the descent for all of them. -/
theorem Tree.addGroups {groups : List (K × List RowId)} (hsorted : Multimap.Sorted groups)
    (hne : ∀ g ∈ groups, g.2 ≠ []) (h : Tree t leaves ups) (hint : Option NodeId)
    (hhint : ∀ g ∈ groups, HintBelow leaves g.1 hint)
    (hgap : ∀ g, groups.head? = some g → hint ≠ none → ∀ low, ¬ Gap t.nodeAt leaves low g.1)
    (hrest : groups.IsChain fun g g' =>
      ∀ low, (g.1 : WithBot K) < low → ¬ Gap t.nodeAt leaves low g'.1)
    (hfree : t.unique = true → ∀ g ∈ groups,
      Multimap.values (leafEntries t.nodeAt leaves) g.1 = []) :
    ∃ t' leaves' ups', t.addGroups hint groups = some (t', .ok ()) ∧ Tree t' leaves' ups' ∧
      t'.unique = t.unique ∧ Multimap.values (leafEntries t'.nodeAt leaves') =
        fun key => Multimap.values (leafEntries t.nodeAt leaves) key ++
          Multimap.values groups key := by
  induction groups generalizing t leaves ups hint with
  | nil => exact ⟨t, leaves, ups, rfl, h, rfl, by simp⟩
  | cons g groups ih =>
    obtain ⟨key, ids⟩ := g
    have hlater : ∀ g ∈ groups, key < g.1 := fun g hg => List.rel_of_pairwise_cons hsorted hg
    obtain ⟨t1, hint1, leaves1, ups1, hrun1, h1, hunique1, hhint1, hvalues1, hgaps1⟩ :=
      h.addGroup (hne (key, ids) (by simp)) (hhint (key, ids) (by simp))
        (hgap (key, ids) rfl) fun hu => hfree hu (key, ids) (by simp)
    have hclear : ∀ g, groups.head? = some g → ∀ low, ¬ Gap t1.nodeAt leaves1 low g.1 := by
      intro g hg low hin
      have hpair := hrest.rel_head? hg
      have hnil := hin.not_stored h1.ordered (hlater g (List.mem_of_mem_head? hg)).le
        (not_lt.mp fun hlow => hpair low hlow (hgaps1 low g.1 hin))
      rw [hvalues1, Function.update_self] at hnil
      exact hne (key, ids) (by simp) (List.append_eq_nil_iff.mp hnil).2
    have hfree1 : t1.unique = true → ∀ g ∈ groups,
        Multimap.values (leafEntries t1.nodeAt leaves1) g.1 = [] := by
      intro hu g hg
      rw [hvalues1, Function.update_of_ne (hlater g hg).ne']
      exact hfree (hunique1 ▸ hu) g (by simp [hg])
    obtain ⟨t', leaves', ups', hrun, htree, hunique, hvalues⟩ :=
      ih hsorted.of_cons (fun g hg => hne g (by simp [hg])) h1 hint1
        (fun g hg => hhint1.mono (hlater g hg).le) (fun g hg _ => hclear g hg)
        (hrest.tail.imp fun g g' hgg low hlow hin => hgg low hlow (hgaps1 low g'.1 hin)) hfree1
    refine ⟨t', leaves', ups', ?_, htree, hunique.trans hunique1, ?_⟩
    · rw [BTreeIndex.addGroups, hrun1]
      exact hrun
    · funext k
      rw [hvalues, hvalues1, Multimap.values_cons]
      by_cases hk : k = key
      · subst hk
        have hnil : Multimap.values groups k = [] :=
          Multimap.values_eq_nil fun g hg => (hlater g hg).ne'
        simp [hnil]
      · simp [hk]

end Groups

section Entries

theorem sortEntries_perm (entries : List (K × RowId)) : (sortEntries entries).Perm entries :=
  List.perm_insertionSort _ _

omit [LinearOrder K] in
theorem clashes_perm {unique : Bool} {m : K → List RowId} {entries entries' : List (K × RowId)}
    (h : entries.Perm entries') : Clashes unique m entries ↔ Clashes unique m entries' := by
  have hmem : (∃ e ∈ entries, m e.1 ≠ []) ↔ ∃ e ∈ entries', m e.1 ≠ [] := by
    simp only [h.mem_iff]
  rw [Clashes, Clashes, hmem, (h.map Prod.fst).nodup_iff]

theorem clashes_cons {unique : Bool} {m : K → List RowId} {key : K} {id : RowId}
    {rest : List (K × RowId)} :
    Clashes unique m ((key, id) :: rest) ↔ unique ∧ m key ≠ [] ∨
      Clashes unique (Function.update m key (m key ++ [id])) rest := by
  have hupdate : (∃ e ∈ rest, Function.update m key (m key ++ [id]) e.1 ≠ []) ↔
      key ∈ rest.map Prod.fst ∨ ∃ e ∈ rest, m e.1 ≠ [] := by
    constructor
    · rintro ⟨e, he, hne⟩
      by_cases hk : e.1 = key
      · exact .inl (hk ▸ List.mem_map_of_mem he)
      · rw [Function.update_of_ne hk] at hne
        exact .inr ⟨e, he, hne⟩
    · rintro (hmem | ⟨e, he, hne⟩)
      · obtain ⟨e, he, hk⟩ := List.mem_map.mp hmem
        exact ⟨e, he, by simp [hk]⟩
      · by_cases hk : e.1 = key
        · exact ⟨e, he, by simp [hk]⟩
        · exact ⟨e, he, by rwa [Function.update_of_ne hk]⟩
  rw [Clashes, Clashes, hupdate]
  simp only [List.mem_cons, exists_eq_or_imp, List.map_cons, List.nodup_cons]
  grind

theorem Tree.findDuplicate_eq (h : Tree t leaves ups) {entries : List (K × RowId)}
    (hsorted : entries.Pairwise fun a b => a.1 ≤ b.1) (last : Option K)
    (hlast : ∀ k, last = some k → ∀ e ∈ entries, k ≤ e.1) :
    ∃ found, t.findDuplicate last entries = some found ∧ (found = true ↔
      (∃ e ∈ entries, Multimap.values (leafEntries t.nodeAt leaves) e.1 ≠ []) ∨
        ¬ (last.toList ++ entries.map Prod.fst).Nodup) := by
  induction entries generalizing last with
  | nil => exact ⟨false, rfl, by cases last <;> simp⟩
  | cons x rest ih =>
    obtain ⟨key, id⟩ := x
    have hrest : ∀ e ∈ rest, key ≤ e.1 := fun e he => List.rel_of_pairwise_cons hsorted he
    obtain ⟨a, e, b, hc⟩ := h.toShape.exists_covers key
    have he : e ∈ leaves := by simp [hc.split]
    have hfind := h.toShape.findKey_isSome hc
    rw [findDuplicate, h.toShape.findLeaf_eq hc]
    simp only [Option.bind_eq_bind, Option.bind_some,
      node_eq (h.inArena (.inl (Level.mem_ids he)))]
    split_ifs with hdup
    · refine ⟨true, rfl, iff_of_true rfl ?_⟩
      rcases Bool.or_eq_true_iff.mp hdup with hin | hsame
      · exact .inl ⟨(key, id), by simp, hfind.mp hin⟩
      · obtain ⟨k, rfl, hk⟩ := (Option.any_eq_true _ _).mp hsame
        obtain rfl : k = key := by simpa using hk
        simp
    · obtain ⟨found, hrun, hfound⟩ := ih hsorted.of_cons (some key) fun k hk e he => by
        obtain rfl : key = k := by simpa using hk
        exact hrest e he
      refine ⟨found, hrun, hfound.trans ?_⟩
      rw [Bool.or_eq_true, not_or] at hdup
      obtain ⟨hnot, hother⟩ := hdup
      have hnil : Multimap.values (leafEntries t.nodeAt leaves) key = [] := by
        by_contra hne
        exact hnot (hfind.mpr hne)
      have hnodup : (last.toList ++ ((key, id) :: rest).map Prod.fst).Nodup ↔
          ((some key).toList ++ rest.map Prod.fst).Nodup := by
        cases last with
        | none => rfl
        | some k =>
          have hk : k ≠ key := by simpa using hother
          have hlt : k < key := lt_of_le_of_ne (hlast k rfl (key, id) (by simp)) hk
          have hnotMem : k ∉ ((key, id) :: rest).map Prod.fst := by
            intro hmem
            obtain ⟨x, hx, rfl⟩ := List.mem_map.mp hmem
            rcases List.mem_cons.mp hx with rfl | hx
            · exact hlt.false
            · exact (hlt.trans_le (hrest x hx)).false
          rw [Option.toList_some, List.singleton_append, List.nodup_cons,
            and_iff_right hnotMem]
          rfl
      rw [hnodup]
      simp [hnil]

end Entries

section Batch

theorem Tree.addBatch (h : Tree t leaves ups) {entries : List (K × RowId)}
    (hhints : t.hintsMeet entries = true) :
    ∃ t' r leaves' ups', t.addBatch entries = some (t', r) ∧ Tree t' leaves' ups' ∧
      t'.unique = t.unique ∧
      (Clashes t.unique (Multimap.values (leafEntries t.nodeAt leaves)) entries →
        r = .error .duplicateKey ∧ t' = t) ∧
      (¬ Clashes t.unique (Multimap.values (leafEntries t.nodeAt leaves)) entries → r = .ok () ∧
        Multimap.values (leafEntries t'.nodeAt leaves') = fun key =>
          Multimap.values (leafEntries t.nodeAt leaves) key ++ listed entries key) := by
  have hsort := sortEntries_sorted entries
  obtain ⟨hgroups, hvaluesOf⟩ := groupEntries_spec hsort
  -- the check before the loop
  have hcheck : ∃ found : Bool, t.addBatch entries =
      (if found then some (t, .error .duplicateKey)
        else t.addGroups none (groupEntries (sortEntries entries))) ∧
      (found = true ↔
        Clashes t.unique (Multimap.values (leafEntries t.nodeAt leaves)) entries) := by
    obtain ⟨found, hrun, hfound⟩ := h.findDuplicate_eq hsort none (by simp)
    rw [← clashes_perm (sortEntries_perm entries), Clashes, BTreeIndex.addBatch]
    by_cases hunique : t.unique = true
    · exact ⟨found, by simp [hunique, hrun], by simpa [hunique] using hfound⟩
    · exact ⟨false, by simp [hunique], by simp [hunique]⟩
  obtain ⟨found, hrun, hfound⟩ := hcheck
  rw [hrun]
  by_cases hclash : Clashes t.unique (Multimap.values (leafEntries t.nodeAt leaves)) entries
  · rw [if_pos (hfound.mpr hclash)]
    exact ⟨t, _, leaves, ups, rfl, h, rfl, fun _ => ⟨rfl, rfl⟩, fun hnot => absurd hclash hnot⟩
  · rw [if_neg (mt hfound.mp hclash)]
    have hmem : ∀ g ∈ groupEntries (sortEntries entries),
        g.2 ≠ [] ∧ ∃ e ∈ entries, e.1 = g.1 := by
      intro g hg
      have hids := groupEntries_ne_nil g hg
      have hlisted : listed (sortEntries entries) g.1 = g.2 := by
        rw [← hvaluesOf, Multimap.values_of_mem hgroups hg]
      rw [sortEntries_listed] at hlisted
      refine ⟨hids, ?_⟩
      by_contra hnone
      push Not at hnone
      exact hids (hlisted ▸ listed_eq_nil hnone)
    obtain ⟨t', leaves', ups', hrun', htree, hunique, hvalues⟩ := Tree.addGroups hgroups
      (fun g hg => (hmem g hg).1) h none (fun g _ => by simp [HintBelow]) (by simp)
      (h.hintsMeet_chain hhints) (by
        intro hunique g hg
        obtain ⟨e, he, hkey⟩ := (hmem g hg).2
        by_contra hne
        exact hclash ⟨hunique, .inl ⟨e, he, hkey ▸ hne⟩⟩)
    refine ⟨t', _, leaves', ups', hrun', htree, hunique, fun hc => absurd hc hclash,
      fun _ => ⟨rfl, ?_⟩⟩
    rw [hvalues, hvaluesOf]
    funext key
    rw [sortEntries_listed]

theorem Tree.addEach (h : Tree t leaves ups) (entries : List (K × RowId)) :
    ∃ t' r leaves' ups', t.addEach entries = some (t', r) ∧ Tree t' leaves' ups' ∧
      t'.unique = t.unique ∧
      (Clashes t.unique (Multimap.values (leafEntries t.nodeAt leaves)) entries →
        r = .error .duplicateKey) ∧
      (¬ Clashes t.unique (Multimap.values (leafEntries t.nodeAt leaves)) entries → r = .ok () ∧
        Multimap.values (leafEntries t'.nodeAt leaves') = fun key =>
          Multimap.values (leafEntries t.nodeAt leaves) key ++ listed entries key) := by
  induction entries generalizing t leaves ups with
  | nil =>
    refine ⟨t, .ok (), leaves, ups, rfl, h, rfl, fun hc => ?_, fun _ => ⟨rfl, by simp⟩⟩
    simp [Clashes] at hc
  | cons x rest ih =>
    obtain ⟨key, id⟩ := x
    obtain ⟨t1, r1, leaves1, ups1, hrun1, h1, _, hunique1, hstep, _⟩ := h.insert key id
    rw [BTreeIndex.addEach, hrun1, clashes_cons]
    split_ifs at hstep with hdup
    · obtain ⟨rfl, rfl⟩ := hstep
      exact ⟨t1, _, leaves, ups, rfl, h, rfl, fun _ => rfl, fun hnot => absurd (.inl hdup) hnot⟩
    · obtain ⟨rfl, hvalues1⟩ := hstep
      obtain ⟨t', r, leaves', ups', hrun, htree, hunique, hfail, hok⟩ := ih h1
      rw [hunique1, hvalues1] at hfail hok
      refine ⟨t', r, leaves', ups', hrun, htree, hunique.trans hunique1, ?_, ?_⟩
      · rintro (hc | hc)
        · exact absurd hc hdup
        · exact hfail hc
      · intro hnot
        obtain ⟨rfl, hvalues⟩ := hok fun hc => hnot (.inr hc)
        refine ⟨rfl, ?_⟩
        rw [hvalues]
        funext k
        rw [listed_cons]
        by_cases hk : key = k
        · subst hk
          simp
        · simp [hk, Ne.symm hk]

end Batch

end Cynos.Index
