import Cynos.Index.Runs

/-! Plain maps under whose keys no row id stands twice, and what calls do to the pairs of a key
and a row id. -/
namespace Cynos.Index.PlainMap

variable {K : Type} [LinearOrder K] {m m' : PlainMap K}

/-- The same map up to the order under a key. -/
structure Same (m m' : PlainMap K) : Prop where
  unique : m.unique = m'.unique
  ids : ∀ key, (m.ids key).Perm (m'.ids key)

structure Distinct (m : PlainMap K) : Prop where
  nodup : ∀ key, (m.ids key).Nodup
  single : m.unique = true → ∀ key, (m.ids key).length ≤ 1

omit [LinearOrder K] in
theorem Same.distinct (h : Same m m') (hm : m'.Distinct) : m.Distinct where
  nodup key := (h.ids key).nodup_iff.mpr (hm.nodup key)
  single hunique key := (h.ids key).length_eq.trans_le (hm.single (h.unique ▸ hunique) key)

omit [LinearOrder K] in
theorem Same.mem_iff (h : Same m m') (key : K) (id : RowId) : id ∈ m.ids key ↔ id ∈ m'.ids key :=
  (h.ids key).mem_iff

omit [LinearOrder K] in
/-- Lists that are parts of distinct lists. -/
theorem Distinct.of_sublist (h : m.Distinct) (hunique : m'.unique = m.unique)
    (hsub : ∀ key, (m'.ids key).Sublist (m.ids key)) : m'.Distinct where
  nodup key := (h.nodup key).sublist (hsub key)
  single hsingle key := (hsub key).length_le.trans (h.single (hunique ▸ hsingle) key)

omit [LinearOrder K] in
theorem Distinct.unique (h : m.Distinct) (hsingle : m.unique = true) {key : K} {id id' : RowId}
    (hid : id ∈ m.ids key) (hid' : id' ∈ m.ids key) : id = id' := by
  obtain ⟨a, ha⟩ := List.length_eq_one_iff.mp (Nat.le_antisymm (h.single hsingle key)
    (List.length_pos_of_mem hid))
  rw [ha, List.mem_singleton] at hid hid'
  rw [hid, hid']

/-- A key with an id more, which a unique map takes in when it has none for the key. -/
theorem Distinct.add (h : m.Distinct) {key : K} {id : RowId} (hfresh : id ∉ m.ids key) :
    (m.add key id).Distinct ∧ (m.add key id).unique = m.unique ∧
      ∀ k r, r ∈ (m.add key id).ids k ↔
        r ∈ m.ids k ∨ (!(m.unique && !(m.ids key).isEmpty)) = true ∧ k = key ∧ r = id := by
  rw [PlainMap.add]
  by_cases hdup : (m.unique && !(m.ids key).isEmpty) = true
  · rw [if_pos hdup]
    exact ⟨h, rfl, fun k r => by simp [hdup]⟩
  · rw [if_neg hdup]
    refine ⟨⟨fun k => ?_, fun hsingle k => ?_⟩, rfl, fun k r => ?_⟩
    · rw [put_ids, Function.update_apply]
      split
      · exact List.nodup_append.mpr ⟨h.nodup key, List.nodup_singleton id, fun a ha b hb => by
          rw [List.mem_singleton.mp hb]
          exact fun heq => hfresh (heq ▸ ha)⟩
      · exact h.nodup k
    · rw [put_ids, Function.update_apply]
      split
      · have hempty : m.ids key = [] := by
          rw [put_unique] at hsingle
          simpa [hsingle] using hdup
        rw [hempty]
        exact Nat.le_refl 1
      · exact h.single hsingle k
    · rw [put_ids, Function.update_apply]
      by_cases hk : k = key
      · simp [hk, hdup]
      · simp [hk]

theorem mem_remove (key : K) (id : RowId) (k : K) (r : RowId) :
    r ∈ (m.remove key (some id)).ids k ↔ r ∈ m.ids k ∧ ¬(k = key ∧ r = id) := by
  rw [remove, put_ids, Function.update_apply]
  by_cases hk : k = key
  · simp [hk]
  · simp [hk]

theorem Distinct.remove (h : m.Distinct) (key : K) (id : RowId) :
    (m.remove key (some id)).Distinct := by
  refine h.of_sublist rfl fun k => ?_
  rw [PlainMap.remove, put_ids, Function.update_apply]
  split
  next hk => exact hk ▸ List.filter_sublist
  next => exact List.Sublist.refl _

theorem mem_removeBatch (entries : List (K × RowId)) (k : K) (r : RowId) :
    r ∈ (m.call (.removeBatch entries)).ids k ↔ r ∈ m.ids k ∧ (k, r) ∉ entries := by
  rw [PlainMap.call, (removeBatch_ids entries m).2, List.mem_filter, decide_eq_true_eq, mem_listed]

theorem Distinct.removeBatch (h : m.Distinct) (entries : List (K × RowId)) :
    (m.call (.removeBatch entries)).Distinct := by
  rw [PlainMap.call]
  refine h.of_sublist (removeBatch_ids entries m).1 fun k => ?_
  rw [(removeBatch_ids entries m).2]
  exact List.filter_sublist

theorem distinct_clear : (m.call .clear).Distinct :=
  ⟨fun _ => List.nodup_nil, fun _ _ => Nat.zero_le 1⟩

omit [LinearOrder K] in
theorem distinct_empty (unique : Bool) : (empty unique : PlainMap K).Distinct :=
  ⟨fun _ => List.nodup_nil, fun _ _ => Nat.zero_le 1⟩

theorem length_listed_le_one {entries : List (K × RowId)} (hkeys : (entries.map Prod.fst).Nodup)
    (key : K) : (listed entries key).length ≤ 1 := by
  have hcount := List.nodup_iff_count_le_one.mp hkeys key
  rwa [List.count, List.countP_map, List.countP_eq_length_filter,
    ← List.length_map (f := Prod.snd)] at hcount

theorem nodup_listed {entries : List (K × RowId)} (hnodup : entries.Nodup) (key : K) :
    (listed entries key).Nodup := by
  refine (hnodup.filter _).map_on fun a ha b hb heq => ?_
  simp only [List.mem_filter, decide_eq_true_eq] at ha hb
  exact Prod.ext (ha.2.trans hb.2.symm) heq

/-- Pairs that are not in the map yet and are listed once, in a batch that does not clash. -/
theorem Distinct.addBatch (h : m.Distinct) {entries : List (K × RowId)} (hnodup : entries.Nodup)
    (hfresh : ∀ entry ∈ entries, entry.2 ∉ m.ids entry.1) :
    (m.call (.addBatch entries)).Distinct ∧ (m.call (.addBatch entries)).unique = m.unique ∧
      ∀ k r, r ∈ (m.call (.addBatch entries)).ids k ↔
        r ∈ m.ids k ∨ ¬Clashes m.unique m.ids entries ∧ (k, r) ∈ entries := by
  rw [PlainMap.call]
  by_cases hclash : Clashes m.unique m.ids entries
  · rw [if_pos hclash]
    exact ⟨h, rfl, fun k r => by simp [hclash]⟩
  · rw [if_neg hclash]
    refine ⟨⟨fun key => ?_, fun hsingle key => ?_⟩, rfl, fun k r => ?_⟩
    · refine List.nodup_append.mpr ⟨h.nodup key, nodup_listed hnodup key, fun a ha b hb heq => ?_⟩
      exact hfresh _ (mem_listed.mp hb) (heq ▸ ha)
    · change (m.ids key ++ listed entries key).length ≤ 1
      by_cases hempty : m.ids key = []
      · have hkeys : (entries.map Prod.fst).Nodup := by
          by_contra hrepeats
          exact hclash ⟨hsingle, .inr hrepeats⟩
        rw [hempty, List.nil_append]
        exact length_listed_le_one hkeys key
      · have hnone : ∀ entry ∈ entries, entry.1 ≠ key := by
          rintro entry hentry rfl
          exact hclash ⟨hsingle, .inl ⟨entry, hentry, hempty⟩⟩
        rw [listed_eq_nil hnone, List.append_nil]
        exact h.single hsingle key
    · change r ∈ m.ids k ++ listed entries k ↔ _
      rw [List.mem_append, mem_listed]
      simp [hclash]

end Cynos.Index.PlainMap
