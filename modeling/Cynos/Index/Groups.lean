import Cynos.Index.BTree
import Cynos.Lib.Multimap

/-! What sorting and grouping a batch does to its entries. -/
namespace Cynos.Index

open BTreeIndex

variable {K : Type} [LinearOrder K]

/-- The row ids that a batch lists for a key, in their order. -/
def listed (entries : List (K × RowId)) (key : K) : List RowId :=
  (entries.filter (·.1 = key)).map Prod.snd

@[simp] theorem listed_nil (key : K) : listed ([] : List (K × RowId)) key = [] := rfl

theorem listed_cons (k : K) (id : RowId) (rest : List (K × RowId)) (key : K) :
    listed ((k, id) :: rest) key = if k = key then id :: listed rest key else listed rest key := by
  by_cases h : k = key <;> simp [listed, h]

theorem listed_eq_nil {entries : List (K × RowId)} {key : K} (h : ∀ e ∈ entries, e.1 ≠ key) :
    listed entries key = [] := by
  have : entries.filter (fun e => decide (e.1 = key)) = [] := by
    rw [List.filter_eq_nil_iff]
    intro e he
    simpa using h e he
  rw [listed, this, List.map_nil]

section Sorting

theorem sortEntries_sorted (entries : List (K × RowId)) :
    (sortEntries entries).Pairwise fun a b => a.1 ≤ b.1 := by
  have : Std.Total fun a b : K × RowId => keyLe a.1 b.1 = true :=
    ⟨fun a b => by simpa using le_total a.1 b.1⟩
  have : IsTrans (K × RowId) fun a b => keyLe a.1 b.1 = true :=
    ⟨fun a b c hab hbc => by
      rw [keyLe_eq, decide_eq_true_eq] at hab hbc ⊢
      exact hab.trans hbc⟩
  have hsorted := List.pairwise_insertionSort (fun a b : K × RowId => keyLe a.1 b.1 = true) entries
  exact hsorted.imp fun h => by simpa using h

/-- The sort is stable. -/
theorem sortEntries_listed (entries : List (K × RowId)) (key : K) :
    listed (sortEntries entries) key = listed entries key := by
  have hsub : (entries.filter (·.1 = key)).Sublist (sortEntries entries) := by
    refine List.sublist_insertionSort ?_ List.filter_sublist
    refine List.pairwise_of_forall_mem_list fun a ha b hb => ?_
    simp only [List.mem_filter, decide_eq_true_eq] at ha hb
    simp [ha.2, hb.2]
  have hsub' := hsub.filter (fun e : K × RowId => decide (e.1 = key))
  rw [List.filter_filter] at hsub'
  simp only [Bool.and_self] at hsub'
  have hlen := ((List.perm_insertionSort (fun a b : K × RowId => keyLe a.1 b.1) entries).filter
    (fun e : K × RowId => decide (e.1 = key))).length_eq
  rw [listed, listed, hsub'.eq_of_length_le hlen.le]

end Sorting

section Group

theorem groupEntries_go {key : K} (ids : List RowId) {rest : List (K × RowId)}
    (hs : rest.Pairwise fun a b => a.1 ≤ b.1) (hkey : ∀ e ∈ rest, key ≤ e.1) :
    Multimap.Sorted (groupEntries.go key ids rest) ∧
      (∀ g ∈ groupEntries.go key ids rest, key ≤ g.1) ∧
      ∀ k, Multimap.values (groupEntries.go key ids rest) k =
        (if k = key then ids else []) ++ listed rest k := by
  induction rest generalizing key ids with
  | nil => simp [groupEntries.go, Multimap.Sorted, Multimap.values_cons]
  | cons e rest ih =>
    obtain ⟨k', id⟩ := e
    have hle : key ≤ k' := hkey (k', id) (by simp)
    have hrest : ∀ e ∈ rest, k' ≤ e.1 := fun e he => List.rel_of_pairwise_cons hs he
    rw [groupEntries.go]
    by_cases heq : k' = key
    · subst heq
      rw [if_pos (by simp)]
      obtain ⟨hsorted, hge, hvalues⟩ := ih (ids ++ [id]) hs.of_cons hrest
      refine ⟨hsorted, hge, fun k => ?_⟩
      rw [hvalues, listed_cons]
      by_cases hk : k = k'
      · simp [hk]
      · simp [hk, Ne.symm hk]
    · rw [if_neg (by simpa using heq)]
      have hlt : key < k' := lt_of_le_of_ne hle (Ne.symm heq)
      obtain ⟨hsorted, hge, hvalues⟩ := ih [id] hs.of_cons hrest
      refine ⟨List.pairwise_cons.mpr ⟨fun g hg => hlt.trans_le (hge g hg), hsorted⟩, ?_, fun k => ?_⟩
      · intro g hg
        rcases List.mem_cons.mp hg with rfl | hg
        · exact le_refl _
        · exact hlt.le.trans (hge g hg)
      · rw [Multimap.values_cons, hvalues, listed_cons]
        by_cases hk : k = key
        · subst hk
          have hnil : listed rest k = [] :=
            listed_eq_nil fun e he => (hlt.trans_le (hrest e he)).ne'
          simp [hnil, hlt.ne']
        · by_cases hk' : k = k'
          · subst hk'
            simp [hk]
          · simp [hk, hk', Ne.symm hk']

theorem groupEntries_spec {entries : List (K × RowId)}
    (hs : entries.Pairwise fun a b => a.1 ≤ b.1) :
    Multimap.Sorted (groupEntries entries) ∧
      Multimap.values (groupEntries entries) = listed entries := by
  cases entries with
  | nil => exact ⟨List.Pairwise.nil, rfl⟩
  | cons e rest =>
    obtain ⟨key, id⟩ := e
    obtain ⟨hsorted, _, hvalues⟩ := groupEntries_go [id] hs.of_cons
      fun e he => List.rel_of_pairwise_cons hs he
    refine ⟨hsorted, funext fun k => ?_⟩
    rw [groupEntries, hvalues, listed_cons]
    by_cases hk : k = key
    · simp [hk]
    · simp [hk, Ne.symm hk]

theorem groupEntries_ne_nil {entries : List (K × RowId)} :
    ∀ g ∈ groupEntries entries, g.2 ≠ [] := by
  have hgo : ∀ (rest : List (K × RowId)) (key : K) (ids : List RowId), ids ≠ [] →
      ∀ g ∈ groupEntries.go key ids rest, g.2 ≠ [] := by
    intro rest
    induction rest with
    | nil => simp [groupEntries.go]
    | cons e rest ih =>
      intro key ids hids
      rw [groupEntries.go]
      split_ifs
      · exact ih key _ (by simp)
      · intro g hg
        rcases List.mem_cons.mp hg with rfl | hg
        · exact hids
        · exact ih e.1 _ (by simp) g hg
  cases entries with
  | nil => simp [groupEntries]
  | cons e rest => exact hgo rest e.1 [e.2] (by simp)

/-- A whole batch, group by group. -/
theorem foldl_groups {f : List RowId → List RowId → List RowId} (hf : ∀ ids, f ids [] = ids)
    (entries : List (K × RowId)) (m : K → List RowId) :
    (groupEntries (sortEntries entries)).foldl
        (fun m g => Function.update m g.1 (f (m g.1) g.2)) m =
      fun key => f (m key) (listed entries key) := by
  obtain ⟨hsorted, hvalues⟩ := groupEntries_spec (sortEntries_sorted entries)
  rw [Multimap.foldl_update hf hsorted, hvalues]
  funext key
  rw [sortEntries_listed]

end Group

end Cynos.Index
