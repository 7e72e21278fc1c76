import Cynos.Index.Hash
import Cynos.Index.Scan
import Mathlib.Order.MinMax

/-! The hash index and the B+tree index answer alike. -/
namespace Cynos.Index

open BTreeIndex

variable {K : Type}

namespace HashIndex

variable [DecidableEq K]

def call (h : HashIndex K) : Call K → HashIndex K
  | .add key value => (h.add key value).1
  | .set key value => h.set key value
  | .remove key value => h.remove key value
  | .clear => h.clear

def run (h : HashIndex K) (calls : List (Call K)) : HashIndex K := calls.foldl call h

/-- The plain map that the index holds. -/
def plain (h : HashIndex K) : PlainMap K := ⟨h.unique, h.get⟩

variable {h : HashIndex K}

theorem get_of_insert {h' : HashIndex K} {key : K} {ids : List RowId}
    (hmap : h'.map = h.map.insert key ids) : h'.get = Function.update h.get key ids := by
  funext k
  rw [get, hmap, HashMap.get_insert]
  by_cases hk : k = key
  · rw [if_pos hk, hk, Function.update_self, Option.getD_some]
  · rw [if_neg hk, Function.update_of_ne hk, get]

theorem get_of_remove {h' : HashIndex K} {key : K} (hmap : h'.map = h.map.remove key) :
    h'.get = Function.update h.get key [] := by
  funext k
  rw [get, hmap, HashMap.get_remove]
  by_cases hk : k = key
  · rw [if_pos hk, hk, Function.update_self, Option.getD_none]
  · rw [if_neg hk, Function.update_of_ne hk, get]

theorem Sound.length_le (hs : h.Sound) (key : K) : (h.get key).length ≤ h.stats.totalRows := by
  rw [get, hs.counted]
  cases hget : h.map.get key with
  | none => exact Nat.zero_le _
  | some ids => exact le_of_le_of_eq (Nat.le_add_left ..) (size_iter_remove hget)

theorem Sound.add (hs : h.Sound) (key : K) (value : RowId) :
    (h.add key value).1.Sound ∧ (h.add key value).1.plain = h.plain.add key value ∧
      (h.add key value).2 =
        if h.unique && !(h.get key).isEmpty then .error .duplicateKey else .ok () := by
  rw [HashIndex.add, PlainMap.add, containsKey_eq hs]
  by_cases hdup : (h.unique && !(h.get key).isEmpty) = true
  · rw [if_pos hdup, if_pos hdup]
    exact ⟨hs, (if_pos hdup).symm, rfl⟩
  · rw [if_neg hdup, if_neg hdup]
    refine ⟨hs.insert (by simp) ?_, ?_, rfl⟩
    swap
    · exact (congrArg (PlainMap.mk h.unique) (get_of_insert rfl)).trans (if_neg hdup).symm
    rw [IndexStats.addRows_totalRows, get, List.length_append, List.length_singleton]
    omega

theorem Sound.set (hs : h.Sound) (key : K) (value : RowId) :
    (h.set key value).Sound ∧ (h.set key value).plain = h.plain.put key [value] := by
  have hcount : ((h.map.get key).map List.length).getD 0 = (h.get key).length := by
    rw [get]
    cases h.map.get key <;> rfl
  have hle := hs.length_le key
  refine ⟨hs.insert (by simp) ?_, congrArg (PlainMap.mk h.unique) (get_of_insert rfl)⟩
  rw [hcount, IndexStats.addRows_totalRows, List.length_singleton]
  split_ifs with hpos
  · rw [IndexStats.removeRows_totalRows]
    omega
  · omega

theorem Sound.remove (hs : h.Sound) (key : K) (value : Option RowId) :
    (h.remove key value).Sound ∧ (h.remove key value).plain = h.plain.remove key value := by
  have hle := hs.length_le key
  cases hget : h.map.get key with
  | none =>
    have hnil : h.get key = [] := by rw [get, hget, Option.getD_none]
    have hsame : Function.update h.get key [] = h.get := by rw [← hnil, Function.update_eq_self]
    cases value with
    | none =>
      refine ⟨by rwa [HashIndex.remove, hget], ?_⟩
      rw [HashIndex.remove, hget]
      exact congrArg (PlainMap.mk h.unique) hsame.symm
    | some value =>
      refine ⟨by rwa [HashIndex.remove, hget], ?_⟩
      rw [HashIndex.remove, hget, PlainMap.remove, show h.plain.ids key = [] from hnil]
      exact congrArg (PlainMap.mk h.unique) hsame.symm
  | some values =>
    have hvalues : h.get key = values := by rw [get, hget, Option.getD_some]
    rw [hvalues] at hle
    cases value with
    | none =>
      rw [HashIndex.remove, hget]
      refine ⟨hs.erase hget ?_, congrArg (PlainMap.mk h.unique) (get_of_remove rfl)⟩
      rw [IndexStats.removeRows_totalRows]
      omega
    | some value =>
      have hkept := List.length_filter_le (· != value) values
      rw [HashIndex.remove, hget, PlainMap.remove, show h.plain.ids key = values from hvalues]
      have hstats : ∀ removed, removed ≤ values.length → (if removed > 0 then
          h.stats.removeRows removed else h.stats).totalRows + removed = h.stats.totalRows := by
        intro removed hremoved
        split_ifs with hpos
        · rw [IndexStats.removeRows_totalRows]
          omega
        · omega
      by_cases hempty : (values.filter (· != value)).isEmpty = true
      · have hnil := List.isEmpty_iff.mp hempty
        simp only [hempty, if_true]
        refine ⟨hs.erase hget ?_, ?_⟩
        · rw [hnil]
          exact hstats _ (Nat.sub_le ..)
        · rw [hnil]
          exact congrArg (PlainMap.mk h.unique) (get_of_remove rfl)
      · simp only [hempty]
        refine ⟨hs.insert (fun hnil => hempty (List.isEmpty_iff.mpr hnil)) ?_,
          congrArg (PlainMap.mk h.unique) (get_of_insert rfl)⟩
        have := hstats _ (Nat.sub_le values.length (values.filter (· != value)).length)
        rw [hvalues]
        omega

/-- One call keeps the index sound and does to its contents what it does to a plain map. -/
theorem Sound.call {K : Type} [LinearOrder K] {h : HashIndex K} (hs : h.Sound) (c : Call K) :
    (h.call c).Sound ∧ (h.call c).plain = h.plain.call c.op := by
  cases c with
  | add key value => exact ⟨(hs.add key value).1, (hs.add key value).2.1⟩
  | set key value => exact hs.set key value
  | remove key value => exact hs.remove key value
  | clear => exact ⟨sound_clear h, rfl⟩

end HashIndex

section Extremes

variable [LinearOrder K]

theorem min?_eq {l : List K} {a : K} (hmem : a ∈ l) (hle : ∀ b ∈ l, a ≤ b) : l.min? = some a := by
  have : Std.LawfulOrderMin K :=
    { min_eq_or := min_choice, le_min_iff := fun _ _ _ => le_min_iff }
  exact List.min?_eq_some_iff.mpr ⟨hmem, hle⟩

theorem max?_eq {l : List K} {a : K} (hmem : a ∈ l) (hle : ∀ b ∈ l, b ≤ a) : l.max? = some a := by
  have : Std.LawfulOrderMax K :=
    { max_eq_or := max_choice, max_le_iff := fun _ _ _ => max_le_iff }
  exact List.max?_eq_some_iff.mpr ⟨hmem, hle⟩

end Extremes

section Answers

variable [LinearOrder K] {h : HashIndex K} {es : List (K × List RowId)}

namespace HashIndex

/-- The entries of a sound index, in the order of their keys. -/
structure Lists (h : HashIndex K) (es : List (K × List RowId)) : Prop where
  sorted : Multimap.Sorted es
  perm : h.map.iter.Perm es

theorem Sound.lists (hs : h.Sound) (hsorted : Multimap.Sorted es) (hne : ∀ e ∈ es, e.2 ≠ [])
    (hvalues : Multimap.values es = h.get) : h.Lists es := by
  refine ⟨hsorted, HashMap.iter_perm hsorted.nodup fun k v => ⟨fun hmem => ?_, fun hget => ?_⟩⟩
  · rw [get_eq_some (hne _ hmem), ← hvalues]
    exact Multimap.values_of_mem hsorted hmem
  · have hv := hs.ne_nil hget
    rw [get_eq_some hv, ← hvalues] at hget
    exact hget ▸ Multimap.mem_of_values (hget.symm ▸ hv)

theorem Lists.get_of_mem (hl : h.Lists es) {e : K × List RowId} (he : e ∈ es) :
    h.map.get e.1 = some e.2 :=
  HashMap.mem_iter.mp (hl.perm.mem_iff.mpr he)

theorem Lists.mem_keys (hl : h.Lists es) {k : K} :
    k ∈ h.map.iter.map Prod.fst ↔ k ∈ es.map Prod.fst :=
  (hl.perm.map Prod.fst).mem_iff

theorem Lists.min_eq (hl : h.Lists es) : h.min = some es.head? := by
  rw [HashIndex.min]
  cases es with
  | nil => rw [hl.perm.eq_nil, List.map_nil, List.min?_nil, List.head?_nil]
  | cons e es =>
    have hmin : (h.map.iter.map Prod.fst).min? = some e.1 := by
      refine min?_eq (hl.mem_keys.mpr (by simp)) fun k hk => ?_
      obtain ⟨f, hf, rfl⟩ := List.mem_map.mp (hl.mem_keys.mp hk)
      rcases List.mem_cons.mp hf with rfl | hf
      · exact le_rfl
      · exact le_of_lt (List.rel_of_pairwise_cons hl.sorted hf)
    simp only [hmin, hl.get_of_mem (List.mem_cons_self (a := e)), Option.map_some, List.head?_cons]

theorem Lists.max_eq (hl : h.Lists es) : h.max = some es.getLast? := by
  rw [HashIndex.max]
  rcases List.eq_nil_or_concat es with rfl | ⟨es, e, rfl⟩
  · rw [hl.perm.eq_nil, List.map_nil, List.max?_nil, List.getLast?_nil]
  · rw [List.concat_eq_append] at *
    have hlast : e ∈ es ++ [e] := by simp
    have hmax : (h.map.iter.map Prod.fst).max? = some e.1 := by
      refine max?_eq (hl.mem_keys.mpr (List.mem_map_of_mem hlast)) fun k hk => ?_
      obtain ⟨f, hf, rfl⟩ := List.mem_map.mp (hl.mem_keys.mp hk)
      rcases List.mem_append.mp hf with hf | hf
      · exact le_of_lt ((List.pairwise_append.mp hl.sorted).2.2 f hf e (by simp))
      · exact (List.mem_singleton.mp hf) ▸ le_rfl
    simp only [hmax, hl.get_of_mem hlast, Option.map_some, List.getLast?_append_cons,
      List.getLast?_singleton]

/-- A range of the index is the scan of its entries in key order. -/
theorem Lists.getRange_eq (hl : h.Lists es) (range : Option (KeyRange K)) (reverse : Bool)
    (limit : Option Nat) (skip : Nat) :
    h.getRange range reverse limit skip = (range.getD .all).scan es reverse limit skip := by
  have hrange : (fun e : K × List RowId => range.elim true (·.contains e.1)) =
      fun e => (range.getD .all).contains e.1 := by
    cases range <;> rfl
  have hsort : (h.map.iter.filter fun e => (range.getD .all).contains e.1).insertionSort
      (fun left right => keyLe left.1 right.1) =
        es.filter fun e => (range.getD .all).contains e.1 :=
    Multimap.Sorted.eq_insertionSort (hl.sorted.sublist List.filter_sublist) (hl.perm.filter _)
      (by simp)
  rw [getRange, hrange]
  simp only [hsort]
  rw [KeyRange.scan]
  cases reverse with
  | false => rfl
  | true => simp only [if_true, List.filter_reverse]

end HashIndex

variable {t : BTreeIndex K} {leaves : Level K} {ups : List (Level K)}

theorem Tree.min_eq (h : Tree t leaves ups) :
    t.min = some (leafEntries t.nodeAt leaves).head? := by
  obtain ⟨e, hhead, hleaf, hnode⟩ := h.leftmostLeaf_eq
  have he := List.mem_of_mem_head? hhead
  obtain ⟨rest, rfl⟩ := List.head?_eq_some_iff.mp hhead
  have haligned := h.leaf.aligned e he
  rw [BTreeIndex.min, hleaf]
  simp only [Option.bind_eq_bind, Option.bind_some, hnode]
  cases hkeys : (t.nodeAt e.2).keys with
  | nil =>
    rw [if_pos (Node.isEmpty_iff.mpr hkeys), ← places_entries, h.places_of_empty he hkeys]
    rfl
  | cons key keys =>
    rw [hkeys] at haligned
    obtain ⟨values, rest', hvalues⟩ := List.exists_cons_of_length_eq_add_one haligned
    rw [if_neg (by simp [Node.isEmpty, hkeys]), leafEntries_cons, hkeys, hvalues]
    rfl

theorem Tree.max_eq (h : Tree t leaves ups) :
    t.max = some (leafEntries t.nodeAt leaves).getLast? := by
  obtain ⟨e, hlast, hleaf, hnode⟩ := h.rightmostLeaf_eq
  have he := List.mem_of_getLast? hlast
  obtain ⟨front, rfl⟩ := List.getLast?_eq_some_iff.mp hlast
  have haligned := h.leaf.aligned e he
  rw [BTreeIndex.max, hleaf]
  simp only [Option.bind_eq_bind, Option.bind_some, hnode]
  rcases List.eq_nil_or_concat (t.nodeAt e.2).keys with hkeys | ⟨keys, key, hkeys⟩
  · rw [if_pos (Node.isEmpty_iff.mpr hkeys), ← places_entries, h.places_of_empty he hkeys]
    rfl
  · rw [List.concat_eq_append] at hkeys
    rw [hkeys, List.length_append, List.length_singleton] at haligned
    obtain ⟨vals, ids, hvalues⟩ := Vec.exists_concat
      (show 0 < (t.nodeAt e.2).values.length by omega)
    have hlen : vals.length = keys.length := by
      rw [hvalues, List.length_append, List.length_singleton] at haligned
      omega
    rw [if_neg (by simp [Node.isEmpty, hkeys]), leafEntries_append, leafEntries_cons, hkeys,
      hvalues, List.zip_append hlen.symm]
    simp [Node.keyCount, hkeys, hlen]

/-- What the two indexes are asked, apart from ranges. -/
structure Alike (t : BTreeIndex K) (h : HashIndex K) : Prop where
  add : ∀ key value, (t.insert key value).map Prod.snd = some (h.add key value).2
  get : ∀ key, t.get key = some (h.get key)
  containsKey : ∀ key, t.containsKey key = some (h.containsKey key)
  len : t.len = h.len
  min : ∃ e, t.min = some e ∧ h.min = some e
  max : ∃ e, t.max = some e ∧ h.max = some e
  cost : ∀ range, t.cost range = some (h.cost range)

theorem Tree.alike (ht : Tree t leaves ups) (hs : h.Sound) (hplain : t.plain leaves = h.plain) :
    Alike t h := by
  obtain ⟨hunique, hvalues⟩ := PlainMap.mk.injEq .. ▸ hplain
  have hl := hs.lists ht.ordered.sorted_entries ht.entries_ne_nil hvalues
  have hget : ∀ key, t.get key = some (h.get key) := fun key => by
    rw [ht.toShape.get_eq, hvalues]
  have hlen : t.stats.totalRows = h.stats.totalRows := by
    rw [ht.counted, hs.counted, Multimap.size_perm hl.perm]
  refine ⟨fun key value => ?_, hget, fun key => ?_, hlen, ⟨_, ht.min_eq, hl.min_eq⟩,
    ⟨_, ht.max_eq, hl.max_eq⟩, fun range => ?_⟩
  · obtain ⟨t', r, _, _, hrun, _, _, _, hstep, _⟩ := ht.insert key value
    rw [hunique, hvalues] at hstep
    rw [(hs.add key value).2.2, hrun, Option.map_some]
    split_ifs at hstep with hdup
    · rw [if_pos (by simpa using hdup), hstep.2]
    · rw [if_neg (by simpa using hdup), hstep.1]
  · rw [ht.toShape.containsKey_eq, hvalues, HashIndex.containsKey_eq hs]
  · cases range with
    | only key =>
      rw [BTreeIndex.cost, hget, Option.map_some, HashIndex.cost, HashIndex.get]
      cases h.map.get key <;> rfl
    | all => exact congrArg some hlen
    | lowerBound value exclusive => exact congrArg some hlen
    | upperBound value exclusive => exact congrArg some hlen
    | bound lower upper lowerExclusive upperExclusive => exact congrArg some hlen

/-- Runs of the same calls leave a tree and a hash index that hold the same map. -/
theorem exists_calls {order : Nat} (horder : 3 ≤ order) (unique : Bool) (calls : List (Call K)) :
    ∃ t leaves ups, (BTreeIndex.new order unique).run (calls.map Call.op) = some t ∧
      Tree t leaves ups ∧ ((HashIndex.new unique).run calls).Sound ∧
      t.plain leaves = ((HashIndex.new unique).run calls).plain := by
  have hsim : ∃ t, Run.run (fun (t : BTreeIndex K) c => t.call c.op) (BTreeIndex.new order unique)
      calls = some t ∧ ∃ leaves ups, Tree t leaves ups ∧
        ((HashIndex.new unique).run calls).Sound ∧
        t.plain leaves = ((HashIndex.new unique).run calls).plain :=
    Run.simulates (p := fun _ _ => True) (R := fun (t : BTreeIndex K) (h : HashIndex K) =>
        ∃ leaves ups, Tree t leaves ups ∧ h.Sound ∧ t.plain leaves = h.plain)
      HashIndex.call (fun t h c hheld _ => by
        obtain ⟨leaves, ups, ht, hs, hplain⟩ := hheld
        obtain ⟨t', leaves', ups', hstep, ht', hplain'⟩ := ht.call_plain c
        obtain ⟨hs', hplain''⟩ := hs.call c
        exact ⟨t', hstep, leaves', ups', ht', hs', by rw [hplain', hplain'', hplain]⟩)
      ⟨_, _, tree_new horder unique, HashIndex.sound_new unique, rfl⟩
      (Run.along_of_forall fun _ _ _ => trivial)
  obtain ⟨t, hrun, leaves, ups, ht⟩ := hsim
  refine ⟨t, leaves, ups, ?_, ht⟩
  rw [BTreeIndex.run, Run.run, List.foldlM_map]
  exact hrun

theorem hash_refines_iff {order : Nat} (horder : 3 ≤ order) (unique : Bool)
    (calls : List (Call K)) :
    ∃ t, (BTreeIndex.new order unique).run (calls.map Call.op) = some t ∧
      Alike t ((HashIndex.new unique).run calls) ∧
      ∀ range reverse, (∀ limit skip, t.getRange range reverse limit skip =
          some (((HashIndex.new unique).run calls).getRange range reverse limit skip)) ↔
        t.dropsUpperKey range reverse = false := by
  obtain ⟨t, leaves, ups, hrun, ht, hs, hplain⟩ := exists_calls horder unique calls
  have hvalues := (PlainMap.mk.injEq .. ▸ hplain).2
  have hl := hs.lists ht.ordered.sorted_entries ht.entries_ne_nil hvalues
  refine ⟨t, hrun, ht.alike hs hplain, fun range reverse => ?_⟩
  simp only [hl.getRange_eq]
  cases reverse with
  | false => exact iff_of_true (ht.getRange_forward range) rfl
  | true => exact ht.getRange_reverse_iff range

theorem hash_refines_sample :
    ∃ t, (BTreeIndex.new 3 false).run (sampleCalls.map Call.op) = some t ∧
      Alike t ((HashIndex.new false).run sampleCalls) ∧
      ∀ range reverse, (∀ limit skip, t.getRange range reverse limit skip =
          some (((HashIndex.new false).run sampleCalls).getRange range reverse limit skip)) ↔
        t.dropsUpperKey range reverse = false :=
  hash_refines_iff (show 3 ≤ 3 by decide) false sampleCalls

/-- The tree's reverse scan up to 5 stops before 5, the sorted map's does not. -/
theorem reverse_ranges_differ :
    ((BTreeIndex.new 5 true).run ([.add 3 30, .add 5 50].map Call.op)).bind
        (fun t : BTreeIndex Nat => t.getRange (some (.upperBound 5 false)) true none 0) =
          some [30] ∧
      ((HashIndex.new true : HashIndex Nat).run [.add 3 30, .add 5 50]).getRange
        (some (.upperBound 5 false)) true none 0 = [50, 30] := by
  decide

end Answers

end Cynos.Index
