import Cynos.Index.Runs

/-! A batch of removals against the removals one by one. -/
namespace Cynos.Index

open BTreeIndex

variable {K : Type} [LinearOrder K] {t : BTreeIndex K} {leaves a b : Level K}
  {ups : List (Level K)}

namespace BTreeIndex

/-- The provided `remove_batch` of the `Index` trait: one `remove` after the other. -/
def removeEach (t : BTreeIndex K) (entries : List (K × RowId)) : Option (BTreeIndex K) :=
  entries.foldlM (fun t e => t.delete e.1 (some e.2)) t

/-- Each leaf still belongs to the tree when its turn comes, and its repair leaves the nodes
that do not as they are, and outside. -/
def RepairsLive (t : BTreeIndex K) : List NodeId → Prop
  | [] => True
  | id :: rest => t.Live id ∧ ∃ t', t.repairLeaf id = some t' ∧
      (∀ dead < t.arena.length, ¬ t.Live dead →
        t'.nodeAt dead = t.nodeAt dead ∧ ¬ t'.Live dead) ∧
      RepairsLive t' rest

end BTreeIndex

theorem Repairing.repairsLive {pending : List NodeId}
    (h : Repairing t leaves ups pending a b) : t.RepairsLive pending.reverse := by
  induction pending using List.reverseRecOn generalizing t leaves ups a b with
  | nil => trivial
  | append_singleton pending id ih =>
    obtain ⟨hmem, t', leaves', ups', a', b', hrun, h', hframe⟩ := h.repairLeaf
    rw [List.reverse_append, List.reverse_singleton, List.singleton_append]
    refine ⟨(h.shape.live_iff id).mpr (mem_levelIds_cons.mpr (.inl hmem)), t', hrun,
      fun dead hlt hdead => ?_, ih h'⟩
    rw [h.shape.live_iff] at hdead
    refine ⟨hframe.outside dead hlt hdead, fun hlive => hdead (hframe.sub dead ?_)⟩
    exact (h'.shape.live_iff dead).mp hlive

/-- One by one, the removals take every copy of every pair. -/
theorem Tree.removeEach (h : Tree t leaves ups) (entries : List (K × RowId)) :
    ∃ s leaves' ups', t.removeEach entries = some s ∧ Tree s leaves' ups' ∧
      Multimap.values (leafEntries s.nodeAt leaves') = fun key =>
        (Multimap.values (leafEntries t.nodeAt leaves) key).filter (· ∉ listed entries key) := by
  have hfold : ∃ s leaves' ups', t.removeEach entries = some s ∧ Tree s leaves' ups' ∧
      s.plain leaves' = entries.foldl (fun m e => m.remove e.1 (some e.2)) (t.plain leaves) := by
    induction entries generalizing t leaves ups with
    | nil => exact ⟨t, leaves, ups, rfl, h, rfl⟩
    | cons e entries ih =>
      obtain ⟨t1, leaves1, ups1, hrun1, h1, hplain1⟩ := h.call_plain (.remove e.1 (some e.2))
      obtain ⟨s, leaves', ups', hrun, hs, hplain⟩ := ih h1
      refine ⟨s, leaves', ups', ?_, hs, by rw [hplain, hplain1]; rfl⟩
      rw [BTreeIndex.removeEach, List.foldlM_cons]
      exact (congrArg (Option.bind · _) hrun1).trans hrun
  obtain ⟨s, leaves', ups', hrun, hs, hplain⟩ := hfold
  refine ⟨s, leaves', ups', hrun, hs, ?_⟩
  have hids := (PlainMap.removeBatch_ids entries (t.plain leaves)).2
  rw [← hplain] at hids
  exact hids

/-- Distinct pairs list an id once under its key. -/
theorem count_listed {entries : List (K × RowId)} (hdistinct : entries.Nodup) {key : K}
    {id : RowId} (hid : id ∈ listed entries key) : (listed entries key).count id = 1 := by
  refine List.count_eq_one_of_mem ?_ hid
  refine (hdistinct.filter _).map_on ?_
  rintro ⟨k, v⟩ he ⟨k', v'⟩ he' (rfl : v = v')
  simp only [List.mem_filter, decide_eq_true_eq] at he he'
  rw [he.2, he'.2]

end Cynos.Index
