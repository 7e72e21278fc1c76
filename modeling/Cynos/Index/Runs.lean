import Cynos.Index.Batch
import Cynos.Index.Remove
import Cynos.Index.WellFormed
import Cynos.Lib.Run

/-! Runs of index operations against a plain map. -/
namespace Cynos.Index

open BTreeIndex

inductive Op (K : Type) where
  | add (key : K) (value : RowId)
  | addBatch (entries : List (K × RowId))
  | set (key : K) (value : RowId)
  | remove (key : K) (value : Option RowId)
  | removeBatch (entries : List (K × RowId))
  | clear

def Op.isAddBatch {K : Type} : Op K → Bool
  | .addBatch _ => true
  | _ => false

variable {K : Type}

/-- The calls that change an index one key at a time. -/
inductive Call (K : Type) where
  | add (key : K) (value : RowId)
  | set (key : K) (value : RowId)
  | remove (key : K) (value : Option RowId)
  | clear

def Call.op : Call K → Op K
  | .add key value => .add key value
  | .set key value => .set key value
  | .remove key value => .remove key value
  | .clear => .clear

namespace BTreeIndex

def call [Ord K] [BEq K] (t : BTreeIndex K) : Op K → Option (BTreeIndex K)
  | .add key value => (t.insert key value).map Prod.fst
  | .addBatch entries => (t.addBatch entries).map Prod.fst
  | .set key value => t.set key value
  | .remove key value => t.delete key value
  | .removeBatch entries => t.removeBatch entries
  | .clear => some t.clear

def run [Ord K] [BEq K] (t : BTreeIndex K) (ops : List (Op K)) : Option (BTreeIndex K) :=
  Run.run call t ops

variable [LinearOrder K]

/-- Batches of additions stay clear of the gaps between leaves. -/
def meetsHints (t : BTreeIndex K) : Op K → Prop
  | .addBatch entries => t.hintsMeet entries = true
  | _ => True

/-- No id is stored more often than a short removal batch lists it. -/
def removesAll (t : BTreeIndex K) : Op K → Prop
  | .removeBatch entries => ∀ e ∈ entries,
    (listed entries e.1).length > 4 ∨
      ((t.get e.1).getD []).count e.2 ≤ (listed entries e.1).count e.2
  | _ => True

instance (t : BTreeIndex K) : ∀ op, Decidable (t.meetsHints op)
  | .addBatch entries => inferInstanceAs (Decidable (t.hintsMeet entries = true))
  | .add .. | .set .. | .remove .. | .removeBatch _ | .clear => .isTrue trivial

instance (t : BTreeIndex K) : ∀ op, Decidable (t.removesAll op)
  | .removeBatch entries => inferInstanceAs (Decidable (∀ e ∈ entries, _ ∨ _))
  | .add .. | .set .. | .remove .. | .addBatch _ | .clear => .isTrue trivial

end BTreeIndex

/-- The same calls on a map with a list of row ids under each key. -/
structure PlainMap (K : Type) where
  unique : Bool
  ids : K → List RowId

namespace PlainMap

def empty (unique : Bool) : PlainMap K := ⟨unique, fun _ => []⟩

section

variable [DecidableEq K]

def put (m : PlainMap K) (key : K) (ids : List RowId) : PlainMap K :=
  { m with ids := Function.update m.ids key ids }

def add (m : PlainMap K) (key : K) (value : RowId) : PlainMap K :=
  if m.unique && !(m.ids key).isEmpty then m else m.put key (m.ids key ++ [value])

def remove (m : PlainMap K) (key : K) : Option RowId → PlainMap K
  | some value => m.put key ((m.ids key).filter (· != value))
  | none => m.put key []

end

variable [LinearOrder K]

def call (m : PlainMap K) : Op K → PlainMap K
  | .add key value => m.add key value
  | .addBatch entries =>
    if Clashes m.unique m.ids entries then m
    else { m with ids := fun key => m.ids key ++ listed entries key }
  | .set key value => m.put key [value]
  | .remove key value => m.remove key value
  | .removeBatch entries => entries.foldl (fun m e => m.remove e.1 (some e.2)) m
  | .clear => { m with ids := fun _ => [] }

def run (m : PlainMap K) (ops : List (Op K)) : PlainMap K := ops.foldl call m

@[simp] theorem put_unique (m : PlainMap K) (key : K) (ids : List RowId) :
    (m.put key ids).unique = m.unique := rfl
@[simp] theorem put_ids (m : PlainMap K) (key : K) (ids : List RowId) :
    (m.put key ids).ids = Function.update m.ids key ids := rfl

theorem removeBatch_ids (entries : List (K × RowId)) (m : PlainMap K) :
    (entries.foldl (fun m e => m.remove e.1 (some e.2)) m).unique = m.unique ∧
      (entries.foldl (fun m e => m.remove e.1 (some e.2)) m).ids =
        fun key => (m.ids key).filter (· ∉ listed entries key) := by
  induction entries generalizing m with
  | nil => simp
  | cons e entries ih =>
    obtain ⟨k, id⟩ := e
    obtain ⟨hunique, hids⟩ := ih (m.remove k (some id))
    refine ⟨hunique, ?_⟩
    rw [List.foldl_cons, hids]
    funext key
    rw [listed_cons]
    by_cases hk : k = key
    · subst hk
      rw [if_pos rfl, remove, put_ids, Function.update_self, List.filter_filter]
      refine List.filter_congr fun v _ => ?_
      rw [Bool.eq_iff_iff]
      simp [and_comm]
    · rw [if_neg hk, remove, put_ids, Function.update_of_ne (Ne.symm hk)]

end PlainMap

section Calls

variable [LinearOrder K] {t : BTreeIndex K} {leaves : Level K} {ups : List (Level K)}

theorem tree_of_empty {t : BTreeIndex K} (harena : t.arena = [Node.newLeaf]) (hroot : t.root = 0)
    (hasc : t.comparator = .asc) (horder : 3 ≤ t.order) (hrows : t.stats.totalRows = 0) :
    Tree t [(⊥, 0)] [] := by
  have hnode : t.nodeAt 0 = Node.newLeaf := by simp [nodeAt, node, harena]
  refine ⟨⟨⟨by rw [hroot], by rw [hroot, hnode]; rfl⟩, ⟨by simp [levelIds], by simp [levelIds, harena]⟩,
    ⟨?_, ?_, ?_, ?_, ?_⟩, ⟨by simp [Level.Increasing], ?_, ?_, by simp⟩, hasc, horder⟩, by simp, ?_⟩
  · simp [hnode, Node.newLeaf]
  · simp [hnode, Node.newLeaf]
  · simp only [List.mem_singleton, forall_eq, hnode, maxKeysOf_none]
    exact Nat.lt_of_lt_of_le (by simp [Node.newLeaf]) horder
  · simp [hnode, Node.newLeaf]
  · simp [Chain.Linked, hnode, Node.newLeaf]
  · simp [hnode, Node.newLeaf]
  · simp [hnode, Node.newLeaf]
  · simp [hrows, hnode, Node.newLeaf]

theorem tree_new {order : Nat} (h : 3 ≤ order) (unique : Bool) :
    Tree (BTreeIndex.new order unique : BTreeIndex K) [(⊥, 0)] [] :=
  tree_of_empty rfl rfl rfl h rfl

theorem Tree.clear (h : Tree t leaves ups) : Tree t.clear [(⊥, 0)] [] :=
  tree_of_empty rfl rfl h.asc h.order rfl

theorem Tree.set (h : Tree t leaves ups) (key : K) (value : RowId) :
    ∃ t' leaves' ups', t.set key value = some t' ∧ Tree t' leaves' ups' ∧
      t'.unique = t.unique ∧ Multimap.values (leafEntries t'.nodeAt leaves') =
        Function.update (Multimap.values (leafEntries t.nodeAt leaves)) key [value] := by
  obtain ⟨t1, leaves1, ups1, hrun1, h1, _, hunique1, hvalues1⟩ := h.delete key none
  obtain ⟨t2, r, leaves2, ups2, hrun2, h2, _, hunique2, hstep, _⟩ := h1.insert key value
  rw [if_neg (by simp [hvalues1, remaining])] at hstep
  refine ⟨t2, leaves2, ups2, by simp [BTreeIndex.set, hrun1, hrun2], h2,
    hunique2.trans hunique1, ?_⟩
  rw [hstep.2, hvalues1]
  simp [remaining]

theorem mem_listed {entries : List (K × RowId)} {key : K} {id : RowId} :
    id ∈ listed entries key ↔ (key, id) ∈ entries := by
  simp [listed]

/-- The tree holds what the plain map holds, up to the order under a key. -/
def Holds (t : BTreeIndex K) (m : PlainMap K) : Prop :=
  t.unique = m.unique ∧ ∀ key, ∃ ids, t.get key = some ids ∧ ids.Perm (m.ids key)

theorem Shape.holds_iff {heavy : Option NodeId} (h : Shape t heavy leaves ups) {m : PlainMap K} :
    Holds t m ↔ t.unique = m.unique ∧
      ∀ key, (Multimap.values (leafEntries t.nodeAt leaves) key).Perm (m.ids key) := by
  simp only [Holds, h.get_eq, Option.some.injEq, exists_eq_left']

theorem Shape.clashes_iff {heavy : Option NodeId} (h : Shape t heavy leaves ups) {m : PlainMap K}
    (hm : Holds t m) (entries : List (K × RowId)) :
    Clashes t.unique (Multimap.values (leafEntries t.nodeAt leaves)) entries ↔
      Clashes m.unique m.ids entries := by
  obtain ⟨hunique, hids⟩ := h.holds_iff.mp hm
  have hnil : ∀ key, Multimap.values (leafEntries t.nodeAt leaves) key = [] ↔ m.ids key = [] :=
    fun key => ⟨fun hn => (hn ▸ hids key).nil_eq.symm, fun hn => (hn ▸ hids key).eq_nil⟩
  simp only [Clashes, hunique, ne_eq, hnil]

theorem Shape.holds_put {heavy : Option NodeId} (h : Shape t heavy leaves ups) {m : PlainMap K}
    (hm : Holds t m) {t' : BTreeIndex K} {leaves' : Level K} {ups' : List (Level K)}
    (h' : Shape t' heavy leaves' ups') {key : K} {ids ids' : List RowId}
    (hunique : t'.unique = t.unique)
    (hvalues : Multimap.values (leafEntries t'.nodeAt leaves') =
      Function.update (Multimap.values (leafEntries t.nodeAt leaves)) key ids)
    (hperm : ids.Perm ids') : Holds t' (m.put key ids') := by
  obtain ⟨hu, hids⟩ := h.holds_iff.mp hm
  refine h'.holds_iff.mpr ⟨hunique.trans hu, fun k => ?_⟩
  rw [hvalues, PlainMap.put_ids]
  by_cases hk : k = key
  · subst hk
    simpa using hperm
  · simpa [Function.update_of_ne hk] using hids k

/-- One call keeps the tree and, where a batch removes all it lists, its contents. -/
theorem Tree.call (h : Tree t leaves ups) (op : Op K) (hhints : t.meetsHints op) :
    ∃ t' leaves' ups', t.call op = some t' ∧ Tree t' leaves' ups' ∧
      ∀ m, Holds t m → t.removesAll op → Holds t' (m.call op) := by
  cases op with
  | add key value =>
    obtain ⟨t', r, leaves', ups', hrun, htree, _, hunique, hstep, _⟩ := h.insert key value
    refine ⟨t', leaves', ups', by simp [BTreeIndex.call, hrun], htree, fun m hm _ => ?_⟩
    obtain ⟨hu, hids⟩ := h.toShape.holds_iff.mp hm
    have hnil : Multimap.values (leafEntries t.nodeAt leaves) key = [] ↔ m.ids key = [] :=
      ⟨fun hn => (hn ▸ hids key).nil_eq.symm, fun hn => (hn ▸ hids key).eq_nil⟩
    rw [PlainMap.call, PlainMap.add]
    split_ifs at hstep with hdup
    · rw [if_pos (by simpa [← hu, ← hnil] using hdup), hstep.1]
      exact hm
    · rw [if_neg (by simpa [← hu, ← hnil] using hdup)]
      exact h.holds_put hm htree.toShape hunique hstep.2 ((hids key).append_right _)
  | addBatch entries =>
    obtain ⟨t', r, leaves', ups', hrun, htree, hunique, hfail, hok⟩ := h.addBatch hhints
    refine ⟨t', leaves', ups', by simp [BTreeIndex.call, hrun], htree, fun m hm _ => ?_⟩
    obtain ⟨hu, hids⟩ := h.toShape.holds_iff.mp hm
    rw [h.toShape.clashes_iff hm] at hfail hok
    rw [PlainMap.call]
    split_ifs with hclash
    · rw [(hfail hclash).2]
      exact hm
    · refine htree.toShape.holds_iff.mpr ⟨hunique.trans hu, fun key => ?_⟩
      rw [(hok hclash).2]
      exact (hids key).append_right _
  | set key value =>
    obtain ⟨t', leaves', ups', hrun, htree, hunique, hvalues⟩ := h.set key value
    exact ⟨t', leaves', ups', hrun, htree,
      fun m hm _ => h.holds_put hm htree.toShape hunique hvalues (.refl _)⟩
  | remove key value =>
    obtain ⟨t', leaves', ups', hrun, htree, _, hunique, hvalues⟩ := h.delete key value
    refine ⟨t', leaves', ups', hrun, htree, fun m hm _ => ?_⟩
    have hids := (h.toShape.holds_iff.mp hm).2 key
    cases value with
    | none => exact h.holds_put hm htree.toShape hunique hvalues (.refl _)
    | some value => exact h.holds_put hm htree.toShape hunique hvalues (hids.filter _)
  | removeBatch entries =>
    obtain ⟨t', leaves', ups', hrun, htree, _, hunique, hvalues⟩ := h.removeBatch entries
    refine ⟨t', leaves', ups', hrun, htree, fun m hm hall => ?_⟩
    obtain ⟨hu, hids⟩ := h.toShape.holds_iff.mp hm
    obtain ⟨hu', hids'⟩ := PlainMap.removeBatch_ids entries m
    refine htree.toShape.holds_iff.mpr ⟨(hunique.trans hu).trans hu'.symm, fun key => ?_⟩
    rw [PlainMap.call, hids', hvalues]
    refine (removeRowIds_perm_filter.mpr ?_).trans ((hids key).filter _)
    by_cases hlen : (listed entries key).length > 4
    · exact .inl hlen
    · refine .inr fun id hid => ?_
      have := hall (key, id) (mem_listed.mp hid)
      rw [h.toShape.get_eq] at this
      exact this.resolve_left hlen
  | clear =>
    refine ⟨t.clear, _, _, rfl, h.clear, fun m hm _ => ⟨hm.1, fun key => ⟨[], ?_, .refl _⟩⟩⟩
    rw [h.clear.toShape.get_eq]
    simp [leafEntries, BTreeIndex.clear, nodeAt, node, Node.newLeaf]

/-- The plain map that a tree holds. -/
def BTreeIndex.plain (t : BTreeIndex K) (leaves : Level K) : PlainMap K :=
  ⟨t.unique, Multimap.values (leafEntries t.nodeAt leaves)⟩

theorem Tree.call_plain (h : Tree t leaves ups) (c : Call K) :
    ∃ t' leaves' ups', t.call c.op = some t' ∧ Tree t' leaves' ups' ∧
      t'.plain leaves' = (t.plain leaves).call c.op := by
  cases c with
  | add key value =>
    obtain ⟨t', r, leaves', ups', hrun, htree, _, hunique, hstep, _⟩ := h.insert key value
    have hcall : t.call (Call.add key value).op = some t' := by
      simp [Call.op, BTreeIndex.call, hrun]
    rw [Call.op, PlainMap.call, PlainMap.add]
    split_ifs at hstep with hdup
    · obtain ⟨rfl, _⟩ := hstep
      exact ⟨t', leaves, ups, hcall, h, by rw [if_pos (by simpa [BTreeIndex.plain] using hdup)]⟩
    · refine ⟨t', leaves', ups', hcall, htree, ?_⟩
      rw [if_neg (by simpa [BTreeIndex.plain] using hdup), BTreeIndex.plain, hunique, hstep.2]
      rfl
  | set key value =>
    obtain ⟨t', leaves', ups', hrun, htree, hunique, hvalues⟩ := h.set key value
    exact ⟨t', leaves', ups', hrun, htree, by rw [BTreeIndex.plain, hunique, hvalues]; rfl⟩
  | remove key value =>
    obtain ⟨t', leaves', ups', hrun, htree, _, hunique, hvalues⟩ := h.delete key value
    refine ⟨t', leaves', ups', hrun, htree, ?_⟩
    rw [BTreeIndex.plain, hunique, hvalues]
    cases value <;> rfl
  | clear =>
    refine ⟨t.clear, _, _, rfl, h.clear, ?_⟩
    simp [BTreeIndex.plain, Call.op, PlainMap.call, leafEntries, BTreeIndex.clear, nodeAt, node,
      Node.newLeaf]
    rfl

end Calls

section Runs

variable [LinearOrder K]

theorem holds_new {order : Nat} (h : 3 ≤ order) (unique : Bool) :
    Holds (BTreeIndex.new order unique : BTreeIndex K) (.empty unique) := by
  refine ⟨rfl, fun key => ⟨[], ?_, .refl _⟩⟩
  rw [(tree_new h unique).toShape.get_eq]
  simp [leafEntries, BTreeIndex.new, withComparator, nodeAt, node, Node.newLeaf]

/-- Runs return a tree, whatever their removals leave behind. -/
theorem exists_run {order : Nat} (h : 3 ≤ order) (unique : Bool) {ops : List (Op K)}
    (hhints : Run.Along call meetsHints (BTreeIndex.new order unique) ops) :
    ∃ t leaves ups, (BTreeIndex.new order unique).run ops = some t ∧ Tree t leaves ups := by
  obtain ⟨t, hrun, leaves, ups, ht⟩ := Run.preserves
    (I := fun t : BTreeIndex K => ∃ leaves ups, Tree t leaves ups)
    (fun t op ⟨leaves, ups, ht⟩ hop => by
      obtain ⟨t', leaves', ups', hrun, htree, _⟩ := ht.call op hop
      exact ⟨t', hrun, leaves', ups', htree⟩) ⟨_, _, tree_new h unique⟩ hhints
  exact ⟨t, leaves, ups, hrun, ht⟩

theorem run_holds {order : Nat} (h : 3 ≤ order) (unique : Bool) {ops : List (Op K)}
    (hhints : Run.Along call meetsHints (BTreeIndex.new order unique) ops)
    (hall : Run.Along call removesAll (BTreeIndex.new order unique) ops) :
    ∃ t, (BTreeIndex.new order unique).run ops = some t ∧
      Holds t ((PlainMap.empty unique).run ops) := by
  obtain ⟨t, hrun, _, ht⟩ := Run.simulates PlainMap.call
    (R := fun (t : BTreeIndex K) m => (∃ leaves ups, Tree t leaves ups) ∧ Holds t m)
    (p := fun t op => t.meetsHints op ∧ t.removesAll op)
    (fun t m op ⟨⟨leaves, ups, ht⟩, hm⟩ hop => by
      obtain ⟨t', leaves', ups', hrun, htree, hholds⟩ := ht.call op hop.1
      exact ⟨t', hrun, ⟨leaves', ups', htree⟩, hholds m hm hop.2⟩)
    ⟨⟨_, _, tree_new h unique⟩, holds_new h unique⟩ (hhints.and hall)
  exact ⟨t, hrun, ht⟩

theorem multimap_of_run {order : Nat} (h : 3 ≤ order) (unique : Bool) {ops : List (Op K)}
    (hcalls : ∀ op ∈ ops, op.isAddBatch = false) :
    ∃ t, (BTreeIndex.new order unique).run ops = some t ∧ t.WellFormed ∧
      (Run.Along call removesAll (BTreeIndex.new order unique) ops → ∀ key,
        (∃ ids, t.get key = some ids ∧ ids.Perm (((PlainMap.empty unique).run ops).ids key)) ∧
        t.containsKey key = some (!(((PlainMap.empty unique).run ops).ids key).isEmpty)) := by
  have hhints : Run.Along call meetsHints (BTreeIndex.new order unique) ops := by
    refine Run.along_of_forall fun t op hop => ?_
    have := hcalls op hop
    cases op <;> simp_all [Op.isAddBatch, meetsHints]
  obtain ⟨t, leaves, ups, hrun, ht⟩ := exists_run h unique hhints
  refine ⟨t, hrun, ht.wellFormed, fun hall key => ?_⟩
  obtain ⟨t', hrun', hm⟩ := run_holds h unique hhints hall
  obtain rfl : t' = t := Option.some.inj (hrun'.symm.trans hrun)
  refine ⟨hm.2 key, ?_⟩
  have hids := (ht.toShape.holds_iff.mp hm).2 key
  rw [ht.toShape.containsKey_eq, hids.isEmpty_eq]

def sampleOps : List (Op Nat) :=
  [.add 1 7, .add 2 7, .set 2 8, .removeBatch [(1, 7)], .remove 3 none]

def sampleCalls : List (Call Nat) := [.add 5 1, .add 5 2, .set 3 1, .remove 5 (some 1)]

theorem multimap_of_run_sample :
    ∃ t, (BTreeIndex.new 3 false).run sampleOps = some t ∧ t.WellFormed ∧ ∀ key,
      (∃ ids, t.get key = some ids ∧ ids.Perm (((PlainMap.empty false).run sampleOps).ids key)) ∧
      t.containsKey key = some (!(((PlainMap.empty false).run sampleOps).ids key).isEmpty) := by
  obtain ⟨t, hrun, hwell, hmap⟩ := multimap_of_run (show 3 ≤ 3 by decide) false
    (show ∀ op ∈ sampleOps, op.isAddBatch = false by decide)
  exact ⟨t, hrun, hwell, hmap (by decide)⟩

/-- One copy of a pair stored twice outlives the batch that removes the pair. -/
theorem removeBatch_keeps_copy :
    ((BTreeIndex.new 3 false : BTreeIndex Nat).run
        [.add 1 7, .add 1 7, .removeBatch [(1, 7)]]).bind (·.get 1) = some [7] ∧
      ((PlainMap.empty false).run [.add 1 7, .add 1 7, .removeBatch [(1, 7)]]).ids 1 = [] := by
  decide

end Runs

section Batches

variable [LinearOrder K] {t : BTreeIndex K} {leaves : Level K} {ups : List (Level K)}

/-- Trees with the same map answer alike. -/
theorem Tree.eq_of_values {s : BTreeIndex K} {leaves' : Level K} {ups' : List (Level K)}
    (ht : Tree t leaves ups) (hs : Tree s leaves' ups') (hunique : t.unique = s.unique)
    (h : Multimap.values (leafEntries t.nodeAt leaves) =
      Multimap.values (leafEntries s.nodeAt leaves')) :
    (∀ key, t.get key = s.get key) ∧ t.len = s.len ∧
      ∀ key id, (t.insert key id).map Prod.snd = (s.insert key id).map Prod.snd := by
  have hne : ∀ {t : BTreeIndex K} {leaves : Level K} {ups : List (Level K)},
      Tree t leaves ups → ∀ p ∈ leafEntries t.nodeAt leaves, p.2 ≠ [] := by
    intro t leaves ups ht p hp
    obtain ⟨e, he, _, hv⟩ := mem_leafEntries hp
    exact ht.leaf.stored e he p.2 hv
  refine ⟨fun key => ?_, ?_, fun key id => ?_⟩
  · rw [ht.toShape.get_eq, hs.toShape.get_eq, h]
  · rw [BTreeIndex.len, BTreeIndex.len, ht.counted, hs.counted, Multimap.eq_of_values
      ht.ordered.sorted_entries hs.ordered.sorted_entries (hne ht) (hne hs) h]
  · obtain ⟨t', r, _, _, hrun, _, _, _, hstep, _⟩ := ht.insert key id
    obtain ⟨s', r', _, _, hrun', _, _, _, hstep', _⟩ := hs.insert key id
    rw [hunique, h] at hstep
    rw [hrun, hrun', Option.map_some, Option.map_some]
    split_ifs at hstep hstep' with hdup
    · rw [hstep.2, hstep'.2]
    · rw [hstep.1, hstep'.1]

/-- Behind the removal of 5 its leaf starts at 6, but the separator before it is
still 5: the hint leaves 5 in the leaf of 3, where no descent looks for it. -/
example :
    ((BTreeIndex.new 4 false : BTreeIndex Nat).run [.add 1 1, .add 2 2, .add 5 5, .add 6 6,
      .remove 5 none, .addBatch [(3, 3), (5, 7)]]).bind (·.get 5) = some [] := by
  decide

end Batches

end Cynos.Index
