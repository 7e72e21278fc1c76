import Cynos.Index.Runs
import Cynos.Index.Scan

/-! Trees under the descending comparator against trees under the ascending one.
Only the way down from the root asks the comparator; inside nodes and in ranges keys
stand in their natural order. -/
namespace Cynos.Index

open BTreeIndex

variable {K : Type}

namespace BTreeIndex

/-- The number of distinct keys currently stored in the tree. -/
def distinctKeyCount (t : BTreeIndex K) : Nat :=
  ((t.arena.filter (·.isLeaf)).map Node.keyCount).sum

/-- The same nodes under another comparator. -/
def reorder (t : BTreeIndex K) (comparator : SimpleComparator) : BTreeIndex K :=
  { t with comparator }

@[simp] theorem reorder_node (t : BTreeIndex K) (comparator : SimpleComparator) (id : NodeId) :
    (t.reorder comparator).node id = t.node id := rfl

@[simp] theorem reorder_root (t : BTreeIndex K) (comparator : SimpleComparator) :
    (t.reorder comparator).root = t.root := rfl

@[simp] theorem reorder_unique (t : BTreeIndex K) (comparator : SimpleComparator) :
    (t.reorder comparator).unique = t.unique := rfl

@[simp] theorem reorder_order (t : BTreeIndex K) (comparator : SimpleComparator) :
    (t.reorder comparator).order = t.order := rfl

/-- A tree that is one leaf. -/
structure Single (t : BTreeIndex K) (leaf : Node K) : Prop where
  arena : t.arena = [leaf]
  root : t.root = 0
  isLeaf : leaf.isLeaf = true
  parent : leaf.parent = none
  next : leaf.next = none

/-- No leaf grows to the order: the key is stored, or there is room for one more. -/
def keepsRoom [Ord K] [BEq K] (t : BTreeIndex K) : Call K → Prop
  | .add key _ | .set key _ =>
    t.containsKey key = some true ∨ t.distinctKeyCount + 1 < t.order
  | .remove _ _ | .clear => True

instance [Ord K] [BEq K] (t : BTreeIndex K) : ∀ c, Decidable (t.keepsRoom c)
  | .add .. | .set .. => inferInstanceAs (Decidable (_ ∨ _))
  | .remove .. | .clear => .isTrue trivial

end BTreeIndex

section Queries

variable {t : BTreeIndex K} {comparator : SimpleComparator}

theorem reorder_leftmostFrom (fuel : Nat) (id : NodeId) :
    (t.reorder comparator).leftmostFrom fuel id = t.leftmostFrom fuel id := by
  induction fuel generalizing id with
  | zero => rfl
  | succ fuel ih => simp only [leftmostFrom, reorder_node, ih]

theorem reorder_rightmostFrom (fuel : Nat) (id : NodeId) :
    (t.reorder comparator).rightmostFrom fuel id = t.rightmostFrom fuel id := by
  induction fuel generalizing id with
  | zero => rfl
  | succ fuel ih => simp only [rightmostFrom, reorder_node, ih]

theorem reorder_next (fuel : Nat) (it : BTreeIterator) :
    (t.reorder comparator).next fuel it = t.next fuel it := by
  induction fuel generalizing it with
  | zero => rfl
  | succ fuel ih =>
    have hadvance : (t.reorder comparator).advanceKey = t.advanceKey := rfl
    simp only [BTreeIndex.next, reorder_node, hadvance, ih]

variable [Ord K] [BEq K]

theorem reorder_visitLoop {σ : Type} (range : KeyRange K) (limit : Option Nat) (skip : Nat)
    (visitor : σ → RowId → σ × Bool) (fuel : Nat) (it : BTreeIterator) (skipped emitted : Nat)
    (state : σ) :
    (t.reorder comparator).visitLoop range limit skip visitor fuel it skipped emitted state =
      t.visitLoop range limit skip visitor fuel it skipped emitted state := by
  induction fuel generalizing it skipped emitted state with
  | zero => rfl
  | succ fuel ih =>
    have harena : (t.reorder comparator).arena = t.arena := rfl
    simp only [visitLoop, reorder_next, harena, ih]

/-- Where the comparator does not change the way down, it changes no answer. -/
theorem reorder_getRange (hfind : ∀ key, (t.reorder comparator).findLeaf key = t.findLeaf key)
    (range : Option (KeyRange K)) (reverse : Bool) (limit : Option Nat) (skip : Nat) :
    (t.reorder comparator).getRange range reverse limit skip =
      t.getRange range reverse limit skip := by
  have harena : (t.reorder comparator).arena = t.arena := rfl
  have hlen : (t.reorder comparator).len = t.len := rfl
  have hfirst : (t.reorder comparator).firstStart = t.firstStart := by
    simp only [firstStart, leftmostLeaf, reorder_leftmostFrom, reorder_node, reorder_root, harena]
  have hlast : (t.reorder comparator).lastStart = t.lastStart := by
    simp only [lastStart, rightmostLeaf, reorder_rightmostFrom, reorder_node, reorder_root, harena]
  have hforward (range : KeyRange K) :
      (t.reorder comparator).findRangeStart range = t.findRangeStart range := by
    cases range <;> simp only [findRangeStart, startFrom, hfirst, hfind, reorder_node]
  have hreverse (range : KeyRange K) :
      (t.reorder comparator).findReverseStart range = t.findReverseStart range := by
    cases range <;> simp only [findReverseStart, startBefore, hlast, hfind, reorder_node]
  simp only [getRange, visitRange, hforward, hreverse, hlen, reorder_visitLoop]

theorem reorder_get {key : K}
    (hfind : (t.reorder comparator).findLeaf key = t.findLeaf key) :
    (t.reorder comparator).get key = t.get key := by
  simp only [BTreeIndex.get, hfind, reorder_node]

theorem reorder_containsKey {key : K}
    (hfind : (t.reorder comparator).findLeaf key = t.findLeaf key) :
    (t.reorder comparator).containsKey key = t.containsKey key := by
  simp only [BTreeIndex.containsKey, hfind, reorder_node]

end Queries

section Calls

variable {t : BTreeIndex K} {leaf : Node K} {comparator : SimpleComparator}

theorem BTreeIndex.Single.reorder (h : Single t leaf) (comparator : SimpleComparator) :
    Single (t.reorder comparator) leaf :=
  ⟨h.arena, h.root, h.isLeaf, h.parent, h.next⟩

theorem BTreeIndex.Single.node_eq (h : Single t leaf) : t.node 0 = some leaf := by
  rw [BTreeIndex.node, h.arena, List.getElem?_cons_zero]

theorem BTreeIndex.Single.distinctKeyCount_eq (h : Single t leaf) :
    t.distinctKeyCount = leaf.keyCount := by
  simp [distinctKeyCount, h.arena, h.isLeaf]

theorem Node.removeAt_keeps {node node' : Node K} {pos removed : Nat} {value : Option RowId}
    (h : node.removeAt pos value = some (node', removed)) :
    node'.isLeaf = node.isLeaf ∧ node'.parent = node.parent ∧ node'.next = node.next ∧
      node'.keyCount ≤ node.keyCount ∧ (value = none → node'.keyCount < node.keyCount) := by
  have herase {keys : List K} (hkeys : Vec.removeAt node.keys pos = some keys) :
      keys.length < node.keys.length := by
    rw [Vec.removeAt, Option.ite_none_right_eq_some] at hkeys
    cases hkeys.2
    simp only [List.length_append, List.length_take, List.length_drop]
    omega
  rw [Node.removeAt, Option.bind_eq_bind, Option.bind_eq_some_iff] at h
  obtain ⟨ids, _, h⟩ := h
  cases value with
  | none =>
    simp only [Option.bind_eq_bind, Option.bind_eq_some_iff, Option.some.injEq,
      Prod.mk.injEq] at h
    obtain ⟨keys, hkeys, _, _, rfl, _⟩ := h
    exact ⟨rfl, rfl, rfl, (herase hkeys).le, fun _ => herase hkeys⟩
  | some v =>
    simp only [Option.bind_eq_bind] at h
    split_ifs at h
    · simp only [Option.bind_eq_some_iff, Option.some.injEq, Prod.mk.injEq] at h
      obtain ⟨keys, hkeys, _, _, rfl, _⟩ := h
      exact ⟨rfl, rfl, rfl, (herase hkeys).le, by simp⟩
    · simp only [Option.bind_eq_some_iff, Option.some.injEq, Prod.mk.injEq] at h
      obtain ⟨_, _, rfl, _⟩ := h
      exact ⟨rfl, rfl, rfl, le_rfl, by simp⟩

variable [Ord K]

theorem BTreeIndex.Single.findLeaf_eq (h : Single t leaf) (key : K) : t.findLeaf key = some 0 := by
  rw [findLeaf, h.arena, List.length_singleton, h.root, findLeafFrom, h.node_eq]
  simp [h.isLeaf]

theorem BTreeIndex.Single.reorder_findLeaf (h : Single t leaf) (comparator : SimpleComparator)
    (key : K) :
    (t.reorder comparator).findLeaf key = t.findLeaf key := by
  rw [h.findLeaf_eq, (h.reorder comparator).findLeaf_eq]

omit [Ord K] in
theorem BTreeIndex.Single.setLeaf (h : Single t leaf) {leaf' : Node K}
    (hisLeaf : leaf'.isLeaf = leaf.isLeaf) (hparent : leaf'.parent = leaf.parent) (hnext : leaf'.next = leaf.next) :
    Single (t.setNode 0 leaf') leaf' where
  arena := by rw [setNode, h.arena, List.set_cons_zero]
  root := h.root
  isLeaf := hisLeaf.trans h.isLeaf
  parent := hparent.trans h.parent
  next := hnext.trans h.next

/-- The first split makes a root over two leaves; it does not compare keys. -/
theorem BTreeIndex.Single.splitLeaf (h : Single t leaf) :
    (t.reorder comparator).splitLeaf 0 = (t.splitLeaf 0).map (·.reorder comparator) := by
  obtain ⟨arena, root, order, unique, _, stats⟩ := t
  obtain ⟨keys, values, children, next, prev, isLeaf, parent⟩ := leaf
  obtain rfl : arena = [⟨keys, values, children, next, prev, isLeaf, parent⟩] := h.arena
  obtain rfl : parent = none := h.parent
  obtain rfl : next = none := h.next
  rw [BTreeIndex.splitLeaf, BTreeIndex.splitLeaf, h.node_eq, (h.reorder comparator).node_eq]
  simp only [Option.bind_eq_bind, Option.bind_some]
  cases Vec.splitOff keys _ with
  | none => rfl
  | some halves =>
    cases Vec.splitOff values _ with
    | none => rfl
    | some halvesOfValues =>
      obtain ⟨left, right⟩ := halves
      cases right with
      | nil => rfl
      | cons key right => rfl

variable [BEq K]

/-- The key count grows when the key is new to the node. -/
theorem Node.insertAt_keeps {node node' : Node K} {key : K} {id : RowId}
    (h : node.insertAt (node.findKeyPosition key) key id = some node') :
    node'.isLeaf = node.isLeaf ∧ node'.parent = node.parent ∧ node'.next = node.next ∧
      node'.keyCount = if (node.findKey key).isSome then node.keyCount else node.keyCount + 1 := by
  have hfound : (node.findKey key).isSome =
      (node.keys[node.findKeyPosition key]?).any (· == key) := by
    rw [findKey]
    cases node.keys[node.findKeyPosition key]? with
    | none => rfl
    | some k => cases hk : k == key <;> simp [hk]
  rw [hfound]
  rw [Node.insertAt] at h
  split_ifs at h with hany
  · simp only [Option.bind_eq_bind, Option.bind_eq_some_iff, Option.some.injEq] at h
    obtain ⟨_, _, _, _, rfl⟩ := h
    exact ⟨rfl, rfl, rfl, by rw [if_pos hany]; rfl⟩
  · simp only [Option.bind_eq_bind, Option.bind_eq_some_iff, Option.some.injEq] at h
    obtain ⟨keys, hkeys, _, _, rfl⟩ := h
    refine ⟨rfl, rfl, rfl, ?_⟩
    rw [Vec.insertAt, Option.ite_none_right_eq_some] at hkeys
    cases hkeys.2
    rw [if_neg hany, keyCount, keyCount]
    simp only [List.length_append, List.length_cons, List.length_take, List.length_drop]
    omega

theorem BTreeIndex.Single.containsKey_eq (h : Single t leaf) (key : K) :
    t.containsKey key = some (leaf.findKey key).isSome := by
  rw [BTreeIndex.containsKey, h.findLeaf_eq, Option.bind_eq_bind, Option.bind_some, h.node_eq,
    Option.bind_eq_bind, Option.bind_some]

/-- An addition has one outcome under both comparators, also when it splits the leaf. -/
theorem BTreeIndex.Single.insert (h : Single t leaf) {key : K} {id : RowId} {t' : BTreeIndex K}
    {r : Except IndexError Unit} (hrun : t.insert key id = some (t', r))
    (comparator : SimpleComparator) :
    (t.reorder comparator).insert key id = some (t'.reorder comparator, r) ∧
      (leaf.keyCount < t.order →
        t.containsKey key = some true ∨ t.distinctKeyCount + 1 < t.order →
          ∃ leaf', Single t' leaf' ∧ leaf'.keyCount < t'.order) := by
  rw [h.containsKey_eq, h.distinctKeyCount_eq, Option.some.injEq]
  rw [BTreeIndex.insert, (h.reorder comparator).findLeaf_eq]
  rw [BTreeIndex.insert, h.findLeaf_eq] at hrun
  simp only [Option.bind_eq_bind, Option.bind_some, reorder_node, h.node_eq,
    reorder_unique] at hrun ⊢
  split_ifs at hrun ⊢ with hdup
  · cases hrun
    exact ⟨rfl, fun hroom _ => ⟨leaf, h, hroom⟩⟩
  · obtain ⟨leaf', hleaf, hrun⟩ := Option.bind_eq_some_iff.mp hrun
    obtain ⟨hisLeaf, hparent, hnext, hcount⟩ := Node.insertAt_keeps hleaf
    have hset : Single ((t.setNode 0 leaf').addRows 1) leaf' :=
      have hset := h.setLeaf hisLeaf hparent hnext
      ⟨hset.arena, hset.root, hset.isLeaf, hset.parent, hset.next⟩
    have hreorder : ((t.reorder comparator).setNode 0 leaf').addRows 1 =
        ((t.setNode 0 leaf').addRows 1).reorder comparator := rfl
    rw [hleaf, Option.bind_some, hreorder]
    by_cases hfull : leaf'.keyCount ≥ ((t.setNode 0 leaf').addRows 1).order
    · rw [if_pos hfull] at hrun
      rw [if_pos (show leaf'.keyCount ≥ (((t.setNode 0 leaf').addRows 1).reorder comparator).order
        from hfull), hset.splitLeaf]
      obtain ⟨split, hsplit, hrun⟩ := Option.bind_eq_some_iff.mp hrun
      cases hrun
      refine ⟨by rw [hsplit]; rfl, fun hlt hroom => ?_⟩
      have horder : t.order ≤ leaf'.keyCount := hfull
      rw [hcount] at horder
      split_ifs at horder <;> grind
    · rw [if_neg hfull] at hrun
      rw [if_neg (show ¬leaf'.keyCount ≥
        (((t.setNode 0 leaf').addRows 1).reorder comparator).order from hfull)]
      cases hrun
      exact ⟨rfl, fun _ _ => ⟨leaf', hset, not_le.mp hfull⟩⟩

theorem BTreeIndex.Single.delete (h : Single t leaf) {key : K} {value : Option RowId}
    {t' : BTreeIndex K} (hrun : t.delete key value = some t') (comparator : SimpleComparator) :
    (t.reorder comparator).delete key value = some (t'.reorder comparator) ∧
      ∃ leaf', Single t' leaf' ∧ t'.order = t.order ∧ leaf'.keyCount ≤ leaf.keyCount ∧
        (value = none → t.containsKey key = some true → leaf'.keyCount < leaf.keyCount) := by
  rw [h.containsKey_eq, Option.some.injEq]
  rw [BTreeIndex.delete, (h.reorder comparator).findLeaf_eq]
  rw [BTreeIndex.delete, h.findLeaf_eq] at hrun
  simp only [Option.bind_eq_bind, Option.bind_some, reorder_node, h.node_eq] at hrun ⊢
  cases hfind : leaf.findKey key with
  | none =>
    rw [hfind] at hrun
    cases hrun
    exact ⟨rfl, leaf, h, rfl, le_rfl, by simp⟩
  | some pos =>
    simp only [hfind] at hrun ⊢
    obtain ⟨⟨leaf', removed⟩, hleaf, hrun⟩ := Option.bind_eq_some_iff.mp hrun
    obtain ⟨hisLeaf, hparent, hnext, hcount, hless⟩ := Node.removeAt_keeps hleaf
    have hset : Single ((t.setNode 0 leaf').removeRows removed) leaf' :=
      have hset := h.setLeaf hisLeaf hparent hnext
      ⟨hset.arena, hset.root, hset.isLeaf, hset.parent, hset.next⟩
    have hroot : ((t.setNode 0 leaf').removeRows removed).root = 0 := hset.root
    rw [if_neg (by rw [hroot]; simp)] at hrun
    rw [hleaf, Option.bind_some, if_neg (by
      rw [show (((t.reorder comparator).setNode 0 leaf').removeRows removed).root = 0 from hroot]
      simp)]
    cases hrun
    exact ⟨rfl, leaf', hset, rfl, hcount, fun hvalue _ => hless hvalue⟩

end Calls

section Runs

variable [LinearOrder K] {t : BTreeIndex K} {leaf : Node K} {leaves : Level K}
  {ups : List (Level K)}

/-- A call with room keeps the tree one leaf, and does the same under both comparators. -/
theorem BTreeIndex.Single.call (h : Single t leaf) (hlt : leaf.keyCount < t.order) {c : Call K}
    (hroom : t.keepsRoom c) {t' : BTreeIndex K} (hrun : t.call c.op = some t')
    (comparator : SimpleComparator) :
    (t.reorder comparator).call c.op = some (t'.reorder comparator) ∧
      ∃ leaf', Single t' leaf' ∧ leaf'.keyCount < t'.order := by
  cases c with
  | add key id =>
    obtain ⟨⟨t1, r⟩, hinsert, rfl⟩ := Option.map_eq_some_iff.mp hrun
    obtain ⟨hsame, hsingle⟩ := h.insert hinsert comparator
    exact ⟨by rw [Call.op, BTreeIndex.call, hsame]; rfl, hsingle hlt hroom⟩
  | set key id =>
    obtain ⟨t1, hdelete, hrun⟩ := Option.bind_eq_some_iff.mp hrun
    obtain ⟨⟨t2, r⟩, hinsert, hrun⟩ := Option.bind_eq_some_iff.mp hrun
    cases hrun
    obtain ⟨hsame1, leaf1, h1, horder, hle, hless⟩ := h.delete hdelete comparator
    obtain ⟨hsame2, hsingle⟩ := h1.insert hinsert comparator
    refine ⟨?_, hsingle (by omega) (.inr ?_)⟩
    · rw [Call.op, BTreeIndex.call, BTreeIndex.set, hsame1, Option.bind_eq_bind, Option.bind_some,
        hsame2]
      rfl
    · rw [h1.distinctKeyCount_eq, horder]
      rcases hroom with hstored | hroom
      · have := hless rfl hstored
        omega
      · rw [h.distinctKeyCount_eq] at hroom
        omega
  | remove key value =>
    obtain ⟨hsame, leaf', h', horder, hle, _⟩ := h.delete hrun comparator
    exact ⟨hsame, leaf', h', by omega⟩
  | clear =>
    cases hrun
    exact ⟨rfl, Node.newLeaf, ⟨rfl, rfl, rfl, rfl, rfl⟩, Nat.zero_lt_of_lt hlt⟩

end Runs

section Mirror

variable [LinearOrder K] {t : BTreeIndex K} {leaves : Level K} {ups : List (Level K)}

namespace BTreeIndex

/-- Each row id is stored under one key. -/
def RowsApart (t : BTreeIndex K) : Prop :=
  ∀ key key' id, id ∈ (t.get key).getD [] → id ∈ (t.get key').getD [] → key = key'

/-- At most one stored key lies in the range. -/
def HoldsOne (t : BTreeIndex K) (range : Option (KeyRange K)) : Prop :=
  ∀ key key', (range.getD .all).contains key = true → (range.getD .all).contains key' = true →
    t.containsKey key = some true → t.containsKey key' = some true → key = key'

end BTreeIndex

/-- Both scans of a range list the same rows where the reverse one drops no upper key. -/
theorem Tree.getRange_perm_iff (h : Tree t leaves ups) (range : Option (KeyRange K)) :
    (∃ rows rows', t.getRange range false none 0 = some rows ∧
      t.getRange range true none 0 = some rows' ∧ rows.Perm rows') ↔
        t.dropsUpperKey range true = false := by
  constructor
  · rintro ⟨rows, rows', hforward, hreverse, hperm⟩
    rw [← Bool.not_eq_true, h.dropsUpperKey_iff]
    rintro ⟨e, he, hkey, hin⟩
    obtain ⟨low, high, hentries, hlow, _, hscan⟩ := h.visitRange_reverse (σ := List RowId) range
    have hhigh : e ∈ high := by
      rw [hentries] at he
      exact (List.mem_append.mp he).resolve_left fun hmem => (hlow e hmem e.1 hkey).false
    rw [h.getRange_forward, hentries, KeyRange.scan_eq, if_neg (by simp)] at hforward
    rw [getRange, hscan, offer_push, KeyRange.scan_eq, if_pos rfl] at hreverse
    cases hforward
    cases hreverse
    have hlengths := hperm.length_eq
    have hsame := ((List.reverse_perm low).filter
      (fun e => (range.getD .all).contains e.1)).flatMap_right Prod.snd |>.length_eq
    simp only [passOn, Option.elim_none, List.drop_zero, List.nil_append, List.filter_append,
      List.flatMap_append, List.length_append] at hlengths
    have hnil : (high.filter fun e => (range.getD .all).contains e.1).flatMap Prod.snd = [] :=
      List.length_eq_zero_iff.mp (by omega)
    exact h.entries_ne_nil e (by simp [hentries, hhigh])
      (List.flatMap_eq_nil_iff.mp hnil e (List.mem_filter.mpr ⟨hhigh, hin⟩))
  · intro hdrop
    refine ⟨_, _, h.getRange_forward range none 0,
      (h.getRange_reverse_iff range).mpr hdrop none 0, ?_⟩
    exact ((List.reverse_perm _).symm.filter _).flatMap_right Prod.snd

omit [LinearOrder K] in
/-- Lists of nonempty blocks without common elements read alike in both directions when there is
at most one. -/
theorem flatMap_reverse_iff {es : List (K × List RowId)} (hne : ∀ e ∈ es, e.2 ≠ [])
    (hapart : ∀ e ∈ es, ∀ e' ∈ es, ∀ id ∈ e.2, id ∈ e'.2 → e.1 = e'.1)
    (hnodup : (es.map Prod.fst).Nodup) :
    es.flatMap Prod.snd = es.reverse.flatMap Prod.snd ↔ es.length ≤ 1 := by
  constructor
  · intro hsame
    cases es with
    | nil => simp
    | cons first rest =>
      cases hrest : rest.reverse with
      | nil => simp [List.reverse_eq_nil_iff.mp hrest]
      | cons last middle =>
        have hlast : last ∈ rest := List.mem_reverse.mp (by simp [hrest])
        obtain ⟨id, ids, hids⟩ := List.exists_cons_of_ne_nil (hne first (by simp))
        obtain ⟨id', ids', hids'⟩ := List.exists_cons_of_ne_nil (hne last (by simp [hlast]))
        rw [List.reverse_cons, hrest, List.flatMap_cons, List.cons_append, List.flatMap_cons, hids,
          hids'] at hsame
        have hid : id = id' := (List.cons.inj hsame).1
        have hkey := hapart first (by simp) last (by simp [hlast]) id (by simp [hids])
          (by simp [hids', hid])
        rw [List.map_cons, List.nodup_cons] at hnodup
        exact absurd (List.mem_map.mpr ⟨last, hlast, hkey.symm⟩) hnodup.1
  · intro hlen
    cases es with
    | nil => rfl
    | cons e es =>
      obtain rfl : es = [] :=
        List.eq_nil_of_length_eq_zero (Nat.le_zero.mp (Nat.le_of_succ_le_succ hlen))
      rfl

/-- The two scans list the same rows in the same order where they list those of one key. -/
theorem Tree.getRange_mirror_iff (h : Tree t leaves ups) (hapart : t.RowsApart)
    (range : Option (KeyRange K)) :
    t.getRange range false none 0 = t.getRange range true none 0 ↔
      t.dropsUpperKey range true = false ∧ t.HoldsOne range := by
  have hsorted := h.ordered.sorted_entries
  set es := (leafEntries t.nodeAt leaves).filter fun e => (range.getD .all).contains e.1 with hes
  have hmem {e : K × List RowId} : e ∈ es ↔
      e ∈ leafEntries t.nodeAt leaves ∧ (range.getD .all).contains e.1 = true := by
    rw [hes, List.mem_filter]
  have hget {e : K × List RowId} (he : e ∈ es) : t.get e.1 = some e.2 := by
    rw [h.toShape.get_eq, Multimap.values_of_mem hsorted (hmem.mp he).1]
  have hkeys : (es.map Prod.fst).Nodup :=
    List.pairwise_map.mpr ((hsorted.filter _).imp fun hlt => hlt.ne)
  have hstored {key : K} : t.containsKey key = some true ∧ (range.getD .all).contains key = true ↔
      ∃ ids, (key, ids) ∈ es := by
    rw [h.toShape.containsKey_eq]
    constructor
    · rintro ⟨hkey, hin⟩
      have hne : Multimap.values (leafEntries t.nodeAt leaves) key ≠ [] := by simpa using hkey
      exact ⟨_, hmem.mpr ⟨Multimap.mem_of_values hne, hin⟩⟩
    · rintro ⟨ids, he⟩
      have hne := h.entries_ne_nil _ (hmem.mp he).1
      rw [Multimap.values_of_mem hsorted (hmem.mp he).1]
      exact ⟨by simpa using hne, (hmem.mp he).2⟩
  have hone : t.HoldsOne range ↔ es.length ≤ 1 := by
    constructor
    · intro hone
      cases hes' : es with
      | nil => simp
      | cons e rest =>
        cases hrest : rest with
        | nil => simp
        | cons e' rest' =>
          obtain ⟨hkey, hin⟩ := hstored.mpr ⟨e.2, show (e.1, e.2) ∈ es by simp [hes']⟩
          obtain ⟨hkey', hin'⟩ := hstored.mpr ⟨e'.2, show (e'.1, e'.2) ∈ es by simp [hes', hrest]⟩
          rw [hes', hrest, List.map_cons, List.map_cons, List.nodup_cons] at hkeys
          exact absurd (by simp [hone _ _ hin hin' hkey hkey']) hkeys.1
    · intro hlen key key' hin hin' hkey hkey'
      obtain ⟨ids, he⟩ := hstored.mp ⟨hkey, hin⟩
      obtain ⟨ids', he'⟩ := hstored.mp ⟨hkey', hin'⟩
      obtain ⟨i, hi, hat⟩ := List.getElem_of_mem he
      obtain ⟨j, hj, hat'⟩ := List.getElem_of_mem he'
      obtain rfl : i = j := by omega
      exact (Prod.mk.inj (hat.symm.trans hat')).1
  rw [hone, ← flatMap_reverse_iff (fun e he => h.entries_ne_nil e (hmem.mp he).1)
    (fun e he e' he' id hid hid' => hapart e.1 e'.1 id (by rwa [hget he]) (by rwa [hget he']))
    hkeys]
  have hforward : t.getRange range false none 0 = some (es.flatMap Prod.snd) :=
    h.getRange_forward range none 0
  have hreverse (hdrop : t.dropsUpperKey range true = false) :
      t.getRange range true none 0 = some (es.reverse.flatMap Prod.snd) := by
    rw [(h.getRange_reverse_iff range).mpr hdrop none 0, hes, ← List.filter_reverse]
    rfl
  constructor
  · intro hsame
    have hdrop := (h.getRange_perm_iff range).mp
      ⟨_, _, hforward, hsame ▸ hforward, List.Perm.refl _⟩
    rw [hforward, hreverse hdrop, Option.some.injEq] at hsame
    exact ⟨hdrop, hsame⟩
  · rintro ⟨hdrop, hsame⟩
    rw [hforward, hreverse hdrop, hsame]

/-- A run that never fills a leaf leaves the same nodes under both comparators. -/
theorem exists_mirror {order : Nat} (horder : 3 ≤ order) (unique : Bool) {calls : List (Call K)}
    (hroom : Run.Along (fun (t : BTreeIndex K) c => t.call c.op) keepsRoom
      (BTreeIndex.new order unique) calls) (comparator : SimpleComparator) :
    ∃ t leaves ups leaf, (BTreeIndex.new order unique).run (calls.map Call.op) = some t ∧
      (BTreeIndex.withComparator order unique comparator).run (calls.map Call.op) =
        some (t.reorder comparator) ∧
      Tree t leaves ups ∧ Single t leaf := by
  have hboth := Run.lockstep (f := fun (t : BTreeIndex K) c => t.call c.op)
    (R := fun t s => s = t.reorder comparator ∧ (∃ leaves ups, Tree t leaves ups) ∧
      ∃ leaf, Single t leaf ∧ leaf.keyCount < t.order)
    (fun t s c ⟨hs, ⟨leaves, ups, h⟩, leaf, hsingle, hlt⟩ hroom => by
      obtain ⟨t', leaves', ups', hrun, h', _⟩ := h.call_plain c
      obtain ⟨hsame, hsingle'⟩ := hsingle.call hlt hroom hrun comparator
      exact ⟨t', _, hrun, hs ▸ hsame, rfl, ⟨leaves', ups', h'⟩, hsingle'⟩)
    (m := BTreeIndex.withComparator order unique comparator)
    ⟨rfl, ⟨_, _, tree_new horder unique⟩, Node.newLeaf, ⟨rfl, rfl, rfl, rfl, rfl⟩,
      Nat.lt_of_lt_of_le (show 0 < 3 by decide) horder⟩ hroom
  obtain ⟨t, s, hrun, hrun', rfl, ⟨leaves, ups, h⟩, leaf, hsingle, _⟩ := hboth
  refine ⟨t, leaves, ups, leaf, ?_, ?_, h, hsingle⟩
  · rw [BTreeIndex.run, Run.run, List.foldlM_map]
    exact hrun
  · rw [BTreeIndex.run, Run.run, List.foldlM_map]
    exact hrun'

/-- What the descending tree `s` and the ascending tree `t` answer: the same, and in a range the
same rows, which stand in the same order and not the opposite one. -/
structure Mirrors (s t : BTreeIndex K) : Prop where
  add : ∀ key id, ∃ r, (t.insert key id).map Prod.snd = some r ∧
    (s.insert key id).map Prod.snd = some r
  get : ∀ key, s.get key = t.get key
  containsKey : ∀ key, s.containsKey key = t.containsKey key
  len : s.len = t.len
  rows : ∀ range reverse, (∃ rows rows', s.getRange range reverse none 0 = some rows ∧
    t.getRange range (!reverse) none 0 = some rows' ∧ rows.Perm rows') ↔
      t.dropsUpperKey range true = false
  order : t.RowsApart → ∀ range reverse,
    s.getRange range reverse none 0 = t.getRange range (!reverse) none 0 ↔
      t.dropsUpperKey range true = false ∧ t.HoldsOne range

theorem Tree.mirrors (h : Tree t leaves ups) {leaf : Node K} (hsingle : Single t leaf)
    (comparator : SimpleComparator) : Mirrors (t.reorder comparator) t := by
  have hfind (key : K) := hsingle.reorder_findLeaf comparator key
  refine ⟨fun key id => ?_, fun key => reorder_get (hfind key),
    fun key => reorder_containsKey (hfind key), rfl, fun range reverse => ?_,
    fun hapart range reverse => ?_⟩
  · obtain ⟨t', r, _, _, hinsert, _⟩ := h.insert key id
    refine ⟨r, by rw [hinsert, Option.map_some], ?_⟩
    rw [(hsingle.insert hinsert comparator).1, Option.map_some]
  · rw [reorder_getRange hfind, ← h.getRange_perm_iff range]
    cases reverse with
    | false => rfl
    | true =>
      constructor <;>
      · rintro ⟨rows, rows', hrows, hrows', hperm⟩
        exact ⟨rows', rows, hrows', hrows, hperm.symm⟩
  · rw [reorder_getRange hfind, ← h.getRange_mirror_iff hapart range]
    cases reverse with
    | false => rfl
    | true => exact eq_comm

theorem descending_of_run {order : Nat} (horder : 3 ≤ order) (unique : Bool)
    {calls : List (Call K)}
    (hroom : Run.Along (fun (t : BTreeIndex K) c => t.call c.op) keepsRoom
      (BTreeIndex.new order unique) calls) :
    ∃ t s, (BTreeIndex.new order unique).run (calls.map Call.op) = some t ∧
      (BTreeIndex.withComparator order unique .desc).run (calls.map Call.op) = some s ∧
      Mirrors s t := by
  obtain ⟨t, leaves, ups, leaf, hrun, hrun', h, hsingle⟩ := exists_mirror horder unique hroom .desc
  exact ⟨t, t.reorder .desc, hrun, hrun', h.mirrors hsingle .desc⟩

theorem descending_of_run_sample :
    ∃ t s : BTreeIndex Nat, (BTreeIndex.new 5 false).run (sampleCalls.map Call.op) = some t ∧
      (BTreeIndex.withComparator 5 false .desc).run (sampleCalls.map Call.op) = some s ∧
      Mirrors s t :=
  descending_of_run (show 3 ≤ 5 by decide) false
    (show Run.Along _ keepsRoom (BTreeIndex.new 5 false) sampleCalls by decide)

/-- Three additions split the leaf; under the descending comparator 1 is sought in the wrong
half. -/
theorem descending_loses_key :
    ((BTreeIndex.new 3 true : BTreeIndex Nat).run [.add 1 10, .add 2 20, .add 3 30]).bind
        (·.get 1) = some [10] ∧
      ((BTreeIndex.withComparator 3 true .desc : BTreeIndex Nat).run
        [.add 1 10, .add 2 20, .add 3 30]).bind (·.get 1) = some [] := by
  decide

end Mirror

end Cynos.Index
