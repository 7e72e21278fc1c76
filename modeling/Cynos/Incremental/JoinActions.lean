import Cynos.Incremental.JoinNormalize

/-! What a join side makes of the normalized deltas: what it would make of the deltas as they
came. -/
namespace Cynos.Incremental

open Core
open Index (RowId)

variable {V : Type}

section Normalizes

variable {deltas : List (Delta (TraceTupleHandle V))} {keySpec : JoinKeySpec V}

/-- The actions are the deltas in order, but that a delete and the next insert of its row, with
the same join key, may be one update at the place of the delete. -/
inductive Normalizes (keySpec : JoinKeySpec V) :
    List (Delta (TraceTupleHandle V)) → List (NormalizedJoinSideAction V) → Prop
  | nil : Normalizes keySpec [] []
  | keep (delta : Delta (TraceTupleHandle V)) {rest : List (Delta (TraceTupleHandle V))}
      {actions : List (NormalizedJoinSideAction V)} (h : Normalizes keySpec rest actions) :
      Normalizes keySpec (delta :: rest) (.delta delta :: actions)
  | pair {old new : Delta (TraceTupleHandle V)} (hdelete : old.isDelete) (hinsert : new.isInsert)
      (hid : new.data.rowId = old.data.rowId)
      (hkey : extractJoinKeyHandle keySpec old.data = extractJoinKeyHandle keySpec new.data)
      {pre post : List (Delta (TraceTupleHandle V))}
      (hpre : ∀ delta ∈ pre, delta.data.rowId = old.data.rowId →
        delta.isDelete = false ∧ delta.isInsert = false)
      {actions : List (NormalizedJoinSideAction V)}
      (h : Normalizes keySpec (pre ++ post) actions) :
      Normalizes keySpec (old :: (pre ++ new :: post))
        (.sameKeyUpdate ⟨old.data, new.data, extractJoinKeyHandle keySpec old.data⟩ :: actions)

namespace JoinNormalizeScratch

variable {updates : List (Option (SameKeyTraceUpdate V))} {skips : List Nat}

theorem Recorded.not_mem_skips {n d : Nat} {update : SameKeyTraceUpdate V}
    (h : Recorded deltas keySpec n updates skips) (hd : updates[d]?.join = some update) :
    d ∉ skips := fun hmem => by
  obtain ⟨-, d', update', hother⟩ := (h.mem_skips d).mp hmem
  obtain ⟨i, -, hpair⟩ := (h.update_iff d update).mp hd
  obtain ⟨_, new, _, hnew, hinsert, -⟩ := hother
  obtain ⟨_, _, _, _, _, hpending, -⟩ := hpair
  obtain ⟨x, hx, hdelete, -⟩ := hpending.delete
  obtain rfl : new = x := by rw [hnew] at hx; exact Option.some.inj hx
  simp [Delta.not_isInsert_of_isDelete hdelete] at hinsert

/-- A part of the batch that has of each pair both or neither. -/
theorem Recorded.normalizes_part (h : Recorded deltas keySpec deltas.length updates skips)
    (entries : List (Delta (TraceTupleHandle V) × Nat))
    (hentries : ∀ entry ∈ entries, deltas[entry.2]? = some entry.1)
    (hascending : (entries.map Prod.snd).Pairwise (· < ·))
    (hwhole : ∀ d i update, Pairs deltas keySpec d i update →
      (d ∈ entries.map Prod.snd ↔ i ∈ entries.map Prod.snd)) :
    Normalizes keySpec (entries.map Prod.fst) (entries.filterMap (emitted updates skips)) := by
  induction hsize : entries.length using Nat.strongRecOn generalizing entries with
  | ind size ih =>
  cases entries with
  | nil => exact .nil
  | cons entry rest =>
    obtain ⟨delta, a⟩ := entry
    have ha : deltas[a]? = some delta := hentries (delta, a) (by simp)
    have hlt : ∀ j ∈ rest.map Prod.snd, a < j := fun j hj => List.rel_of_pairwise_cons hascending hj
    have hmemCons (j : Nat) : j ∈ ((delta, a) :: rest).map Prod.snd ↔
        j = a ∨ j ∈ rest.map Prod.snd := by rw [List.map_cons, List.mem_cons]
    -- Of a pair that ends here the delete would be missing.
    have hnotInsert (d : Nat) (update : SameKeyTraceUpdate V) :
        ¬Pairs deltas keySpec d a update := fun hpair => by
      have hd := (hmemCons d).mp ((hwhole d a update hpair).mpr ((hmemCons a).mpr (.inl rfl)))
      obtain ⟨_, _, _, _, _, hpending, -⟩ := hpair
      have hda := hpending.lt
      rcases hd with rfl | hd
      · omega
      · have := hlt d hd
        omega
    cases hupdate : updates[a]?.join with
    | none =>
      have hskip : a ∉ skips := fun hmem => by
        obtain ⟨-, d, update, hpair⟩ := (h.mem_skips a).mp hmem
        exact hnotInsert d update hpair
      have hemitted : emitted updates skips (delta, a) = some (.delta delta) := by
        simp [emitted, hupdate, hskip]
      rw [List.filterMap_cons_some hemitted]
      refine .keep delta (ih rest.length (by simp [← hsize]) rest
        (fun entry hentry => hentries entry (List.mem_cons_of_mem _ hentry))
        (List.Pairwise.of_cons hascending) (fun d i update hpair => ?_) rfl)
      have hwhole' := hwhole d i update hpair
      have hi : i ≠ a := by
        rintro rfl
        exact hnotInsert d update hpair
      have hd : d ≠ a := by
        rintro rfl
        have hlength : i < deltas.length := by
          obtain ⟨_, _, _, hi, -⟩ := hpair
          exact (List.getElem?_eq_some_iff.mp hi).1
        have := (h.update_iff d update).mpr ⟨i, hlength, hpair⟩
        simp [hupdate] at this
      rw [hmemCons, hmemCons] at hwhole'
      simpa [hd, hi] using hwhole'
    | some update =>
      obtain ⟨i, hilt, hpair⟩ := (h.update_iff a update).mp hupdate
      have hmem := (hmemCons i).mp ((hwhole a i update hpair).mp ((hmemCons a).mpr (.inl rfl)))
      have hwhole' (d j : Nat) (other : SameKeyTraceUpdate V)
          (hother : Pairs deltas keySpec d j other) : j ≠ a ∧ (d = a ↔ j = i) := by
        refine ⟨?_, ?_, ?_⟩
        · rintro rfl
          exact hnotInsert d other hother
        · rintro rfl
          exact hother.eq_of_delete hpair
        · rintro rfl
          exact (hother.eq_of_insert hpair).1
      have hskip : i ∈ skips := (h.mem_skips i).mpr ⟨hilt, a, update, hpair⟩
      obtain ⟨old, new, hold, hnew, hinsert, hpending, hkey, hupdateEq⟩ := hpair
      obtain rfl : delta = old := by rw [ha] at hold; exact Option.some.inj hold
      have hai := hpending.lt
      obtain ⟨⟨new', i'⟩, hrest, hi'⟩ := List.mem_map.mp (hmem.resolve_left (by omega))
      obtain rfl : i' = i := hi'
      obtain rfl : new' = new := by
        have := hentries (new', i') (List.mem_cons_of_mem _ hrest)
        rw [hnew] at this
        exact (Option.some.inj this).symm
      obtain ⟨pre, post, rfl⟩ := List.append_of_mem hrest
      have hgone : emitted updates skips (new', i') = none := by
        cases hnone : updates[i']?.join with
        | none => simp [emitted, hnone, hskip]
        | some other => exact absurd hskip (h.not_mem_skips hnone)
      have hfirst : emitted updates skips (delta, a) = some (.sameKeyUpdate update) := by
        simp [emitted, hupdate]
      obtain ⟨x, hx, hdelete, hid⟩ := hpending.delete
      obtain rfl : delta = x := by rw [ha] at hx; exact Option.some.inj hx
      rw [List.filterMap_cons_some hfirst, List.filterMap_append, List.filterMap_cons_none hgone,
        ← List.filterMap_append, hupdateEq, List.map_cons, List.map_append, List.map_cons]
      rw [List.map_cons, List.pairwise_cons, List.map_append, List.map_cons,
        List.pairwise_append, List.pairwise_cons] at hascending
      obtain ⟨-, hpre, ⟨hpost, hpostAscending⟩, hcross⟩ := hascending
      refine .pair hdelete hinsert hid.symm hkey (fun other hother hotherId => ?_) ?_
      · obtain ⟨entry, hentry, rfl⟩ := List.mem_map.mp hother
        have hlabel := List.mem_map_of_mem (f := Prod.snd) hentry
        have hafter := hlt entry.2 (by rw [List.map_append]; exact List.mem_append_left _ hlabel)
        have hbefore := hcross entry.2 hlabel i' (List.mem_cons_self ..)
        exact hpending.last entry.2 entry.1 hafter hbefore
          (hentries entry (by simp [hentry])) (hotherId.trans hid)
      · rw [← List.map_append]
        have hshort : (pre ++ post).length < size := by
          rw [← hsize]
          simp only [List.length_append, List.length_cons]
          omega
        refine ih (pre ++ post).length hshort (pre ++ post)
          (fun entry hentry => hentries entry ?_) ?_ (fun d j other hother => ?_) rfl
        · rcases List.mem_append.mp hentry with hentry | hentry <;> simp [hentry]
        · rw [List.map_append, List.pairwise_append]
          exact ⟨hpre, hpostAscending, fun x hx y hy => hcross x hx y (List.mem_cons_of_mem _ hy)⟩
        · have hd : d ≠ i' := by
            rintro rfl
            obtain ⟨_, _, _, hj, -⟩ := id hother
            exact h.not_mem_skips ((h.update_iff _ other).mpr
              ⟨j, (List.getElem?_eq_some_iff.mp hj).1, hother⟩) hskip
          have hhere : i' ∉ (pre ++ post).map Prod.snd := fun hmem => by
            rw [List.map_append] at hmem
            rcases List.mem_append.mp hmem with hmem | hmem
            · exact Nat.lt_irrefl _ (hcross i' hmem i' (List.mem_cons_self ..))
            · exact Nat.lt_irrefl _ (hpost i' hmem)
          have hpart (x : Nat) : x ∈ ((delta, a) :: (pre ++ (new', i') :: post)).map Prod.snd ↔
              x = a ∨ x = i' ∨ x ∈ (pre ++ post).map Prod.snd := by
            simp only [List.map_cons, List.map_append, List.mem_cons, List.mem_append]
            tauto
          have hstart : a ∉ (pre ++ post).map Prod.snd := fun hmem => by
            have := hlt a (by simp at hmem ⊢; tauto)
            omega
          have hboth := hwhole d j other hother
          obtain ⟨hja, hdj⟩ := hwhole' d j other hother
          rw [hpart, hpart] at hboth
          grind

theorem Recorded.normalizes (h : Recorded deltas keySpec deltas.length updates skips) :
    Normalizes keySpec deltas (deltas.zipIdx.filterMap (emitted updates skips)) := by
  have hentries : ∀ entry ∈ deltas.zipIdx, deltas[entry.2]? = some entry.1 := fun entry hentry => by
    simpa using List.mem_zipIdx_iff_getElem?.mp hentry
  have hlabels : deltas.zipIdx.map Prod.snd = List.range deltas.length := by
    rw [List.zipIdx_map_snd, List.range_eq_range']
  have hpart := h.normalizes_part deltas.zipIdx hentries
    (hlabels ▸ List.pairwise_lt_range) fun d i update hpair => by
      obtain ⟨_, _, hd, hi, -⟩ := hpair
      rw [hlabels, List.mem_range, List.mem_range]
      exact iff_of_true (List.getElem?_eq_some_iff.mp hd).1 (List.getElem?_eq_some_iff.mp hi).1
  rwa [List.zipIdx_map_fst] at hpart

/-- The pairs determine what is emitted. -/
theorem Recorded.emitted_eq {n : Nat} {updates' : List (Option (SameKeyTraceUpdate V))}
    {skips' : List Nat} (h : Recorded deltas keySpec n updates skips)
    (h' : Recorded deltas keySpec n updates' skips') :
    emitted updates skips = emitted updates' skips' := by
  funext entry
  have hupdate : updates[entry.2]?.join = updates'[entry.2]?.join := by
    refine Option.ext fun update => ?_
    rw [h.update_iff, h'.update_iff]
  have hskip : entry.2 ∈ skips ↔ entry.2 ∈ skips' := by rw [h.mem_skips, h'.mem_skips]
  simp only [emitted, hupdate, hskip]

theorem Recorded.filterMap_emitted_nil
    (h : Recorded deltas keySpec deltas.length updates []) :
    deltas.zipIdx.filterMap (emitted updates []) = deltas.map .delta := by
  have hnone (d : Nat) : updates[d]?.join = none := by
    by_contra hne
    obtain ⟨update, hupdate⟩ := Option.ne_none_iff_exists'.mp hne
    obtain ⟨i, hi, hpair⟩ := (h.update_iff d update).mp hupdate
    exact List.not_mem_nil ((h.mem_skips i).mpr ⟨hi, d, update, hpair⟩)
  have hemitted : emitted updates [] = some ∘ NormalizedJoinSideAction.delta ∘ Prod.fst := by
    funext entry
    simp [emitted, hnone]
  rw [hemitted, List.filterMap_eq_map, ← List.map_map, List.zipIdx_map_fst]

/-- What both variants have to make of the batch. -/
def Emits (deltas : List (Delta (TraceTupleHandle V))) (keySpec : JoinKeySpec V)
    (actions : List (NormalizedJoinSideAction V)) : Prop :=
  ∃ updates skips, Recorded deltas keySpec deltas.length updates skips ∧
    actions = deltas.zipIdx.filterMap (emitted updates skips)

theorem Emits.unique {actions actions' : List (NormalizedJoinSideAction V)}
    (h : Emits deltas keySpec actions) (h' : Emits deltas keySpec actions') :
    actions = actions' := by
  obtain ⟨updates, skips, hrecorded, rfl⟩ := h
  obtain ⟨updates', skips', hrecorded', rfl⟩ := h'
  rw [hrecorded.emitted_eq hrecorded']

theorem Emits.normalizes {actions : List (NormalizedJoinSideAction V)}
    (h : Emits deltas keySpec actions) : Normalizes keySpec deltas actions := by
  obtain ⟨updates, skips, hrecorded, rfl⟩ := h
  exact hrecorded.normalizes

/-- A batch that cannot have a pair is passed on as it is. -/
theorem emits_of_forall_not_pairs
    (h : ∀ d i update, ¬Pairs deltas keySpec d i update) :
    Emits deltas keySpec (deltas.map .delta) := by
  have hrecorded : Recorded deltas keySpec deltas.length [] [] := by
    refine ⟨fun d update => ?_, fun i => ?_, .nil, by simp, by simp⟩
    · simp [h]
    · simp [h]
  exact ⟨[], [], hrecorded, hrecorded.filterMap_emitted_nil.symm⟩

variable [DecidableEq V] (deltas) (keySpec)

theorem normalizeJoinSideDeltasHashed_emits (scratch : JoinNormalizeScratch V) :
    ∃ next, normalizeJoinSideDeltasHashed deltas keySpec scratch.clearWorkingSets = some next ∧
      Emits deltas keySpec next.actions := by
  have hstart : HashedPass deltas keySpec 0 scratch.clearWorkingSets :=
    ⟨recorded_zero, fun rowId d => iff_of_false (by simp [clearWorkingSets])
      fun h => Nat.not_lt_zero d h.lt, rfl, .inl rfl⟩
  obtain ⟨paired, hpaired, hpass⟩ := Run.run_zipIdx
    (I := fun n scratch => HashedPass deltas keySpec n scratch)
    (fun i x s hx h => h.pairHashed hx) hstart
  unfold normalizeJoinSideDeltasHashed
  rw [hpaired, Option.bind_eq_bind, Option.bind_some]
  have hrecorded := hpass.recorded
  by_cases hskips : paired.skipIndices = []
  · rw [if_pos (by simp [hskips])]
    refine ⟨_, rfl, _, _, hrecorded, ?_⟩
    rw [hskips] at hrecorded ⊢
    rw [hrecorded.filterMap_emitted_nil]
    simp [pushDeltas, hpass.actions]
  · rw [if_neg (by simpa using hskips)]
    have hlength := hrecorded.length_eq hskips
    have hsorted : (if paired.skipIndices.length > 1 then paired.skipIndices.mergeSort
        else paired.skipIndices) = paired.skipIndices := by
      split
      · refine List.mergeSort_of_pairwise (hrecorded.ascending.imp fun h => ?_)
        simpa using h.le
      · rfl
    obtain ⟨done, hdone, hemitting, -⟩ := Run.run_zipIdx
      (I := fun n (state : JoinNormalizeScratch V × Nat) =>
        Emitting deltas paired.updatesByDelete paired.skipIndices n state.1 ∧
          SkipOffset paired.skipIndices n state.2)
      (fun i x s hx h => h.1.emitHashed h.2 hrecorded.ascending
        (fun i hi => by
          by_contra hne
          obtain ⟨update, hupdate⟩ := Option.ne_none_iff_exists'.mp hne
          exact hrecorded.not_mem_skips hupdate hi) hlength hx)
      (s := (paired, 0)) ⟨⟨rfl, fun j _ => rfl, by simpa using hpass.actions⟩,
        [], paired.skipIndices, rfl, rfl, by simp, by simp⟩
    simp only [hsorted]
    refine ⟨_, by rw [hdone]; rfl, _, _, hrecorded, ?_⟩
    rw [hemitting.actions, List.take_of_length_le (by simp)]

theorem normalizeJoinSideDeltasLinear_emits (scratch : JoinNormalizeScratch V) :
    ∃ next, normalizeJoinSideDeltasLinear deltas keySpec scratch.clearWorkingSets = some next ∧
      Emits deltas keySpec next.actions := by
  have hstart : LinearPass deltas keySpec 0 { scratch.clearWorkingSets with
      updatesByDelete := Vec.resize [] deltas.length none } := by
    refine ⟨⟨fun d update => ?_, by simp [clearWorkingSets], .nil, by simp [Vec.resize],
      by simp [clearWorkingSets]⟩, .nil, fun pending => iff_of_false (by simp [clearWorkingSets])
      fun h => Nat.not_lt_zero _ h.lt, rfl, by simp [Vec.resize]⟩
    simp [Vec.resize, List.getElem?_replicate]
    split <;> simp
  obtain ⟨paired, hpaired, hpass⟩ := Run.run_zipIdx
    (I := fun n scratch => LinearPass deltas keySpec n scratch)
    (fun i x s hx h => h.pairLinear hx) hstart
  unfold normalizeJoinSideDeltasLinear
  have hclear : scratch.clearWorkingSets.updatesByDelete = [] := rfl
  simp only [hclear]
  rw [hpaired, Option.bind_eq_bind, Option.bind_some]
  have hrecorded := hpass.recorded
  by_cases hskips : paired.skipIndices = []
  · rw [if_pos (by simp [hskips])]
    refine ⟨_, rfl, _, _, hrecorded, ?_⟩
    rw [hskips] at hrecorded ⊢
    rw [hrecorded.filterMap_emitted_nil]
    simp [pushDeltas, hpass.actions]
  · rw [if_neg (by simpa using hskips)]
    obtain ⟨done, hdone, hemitting⟩ := Run.run_zipIdx
      (I := fun n scratch => Emitting deltas paired.updatesByDelete paired.skipIndices n scratch)
      (fun i x s hx h => h.emitLinear hpass.grown hx)
      (s := paired) ⟨rfl, fun j _ => rfl, by simpa using hpass.actions⟩
    refine ⟨_, by rw [hdone]; rfl, _, _, hrecorded, ?_⟩
    rw [hemitting.actions, List.take_of_length_le (by simp)]

theorem normalizeJoinSideDeltasInto_emits (scratch : JoinNormalizeScratch V) :
    ∃ next, normalizeJoinSideDeltasInto deltas keySpec scratch = some next ∧
      Emits deltas keySpec next.actions := by
  have hactive {d i : Nat} {update : SameKeyTraceUpdate V}
      (hpair : Pairs deltas keySpec d i update) :
      2 ≤ deltas.length ∧ deltas.any Delta.isDelete ∧ deltas.any Delta.isInsert := by
    obtain ⟨old, new, hd, hi, hinsert, hpending, -⟩ := hpair
    obtain ⟨x, hx, hdelete, -⟩ := hpending.delete
    have hdi := hpending.lt
    obtain ⟨hlt, -⟩ := List.getElem?_eq_some_iff.mp hi
    refine ⟨by omega, List.any_eq_true.mpr ⟨x, List.mem_of_getElem? hx, hdelete⟩,
      List.any_eq_true.mpr ⟨new, List.mem_of_getElem? hi, hinsert⟩⟩
  have hplain (h : ∀ d i update, ¬Pairs deltas keySpec d i update) :
      Emits deltas keySpec (scratch.clearWorkingSets.pushDeltas deltas).actions := by
    simpa [pushDeltas, clearWorkingSets] using emits_of_forall_not_pairs h
  unfold normalizeJoinSideDeltasInto
  dsimp only
  split
  next hshort =>
    exact ⟨_, rfl, hplain fun d i update hpair => by have := (hactive hpair).1; omega⟩
  next =>
    split
    next hkinds =>
      refine ⟨_, rfl, hplain fun d i update hpair => ?_⟩
      obtain ⟨-, hdelete, hinsert⟩ := hactive hpair
      simp [hdelete, hinsert] at hkinds
    next =>
      split
      · exact normalizeJoinSideDeltasLinear_emits deltas keySpec scratch
      · exact normalizeJoinSideDeltasHashed_emits deltas keySpec scratch

/-- All ways through the normalization make the same actions. -/
theorem normalize_agree (scratch : JoinNormalizeScratch V) : ∃ actions,
    (normalizeJoinSideDeltasInto deltas keySpec scratch).map (·.actions) = some actions ∧
    (normalizeJoinSideDeltasLinear deltas keySpec scratch.clearWorkingSets).map (·.actions) =
      some actions ∧
    (normalizeJoinSideDeltasHashed deltas keySpec scratch.clearWorkingSets).map (·.actions) =
      some actions ∧
    Normalizes keySpec deltas actions := by
  obtain ⟨next, hnext, hemits⟩ := normalizeJoinSideDeltasInto_emits deltas keySpec scratch
  obtain ⟨linear, hlinear, hemitsLinear⟩ :=
    normalizeJoinSideDeltasLinear_emits deltas keySpec scratch
  obtain ⟨hashed, hhashed, hemitsHashed⟩ :=
    normalizeJoinSideDeltasHashed_emits deltas keySpec scratch
  refine ⟨next.actions, by rw [hnext]; rfl, ?_, ?_, hemits.normalizes⟩
  · rw [hlinear, hemits.unique hemitsLinear]
    rfl
  · rw [hhashed, hemits.unique hemitsHashed]
    rfl

end JoinNormalizeScratch

end Normalizes

section Contents

/-- The rows of a join side by id, each with its join key. -/
abbrev JoinContents (V : Type) := RowId → Option (TraceTupleHandle V × JoinKey V)

namespace JoinContents

variable (keySpec : JoinKeySpec V) (contents : JoinContents V)

def applyDelta (delta : Delta (TraceTupleHandle V)) : JoinContents V :=
  if delta.isInsert then
    Function.update contents delta.data.rowId
      (some (delta.data, extractJoinKeyHandle keySpec delta.data))
  else if delta.isDelete then Function.update contents delta.data.rowId none
  else contents

def applyAction : NormalizedJoinSideAction V → JoinContents V
  | .sameKeyUpdate update =>
    let key := ((contents update.oldRow.rowId).map Prod.snd).getD update.key
    Function.update contents update.oldRow.rowId (some (update.newRow, key))
  | .delta delta => contents.applyDelta keySpec delta

/-- A row is inserted when it is absent and deleted when it is present. -/
structure Alternates (delta : Delta (TraceTupleHandle V)) : Prop where
  insert : delta.isInsert → contents delta.data.rowId = none
  delete : delta.isDelete → contents delta.data.rowId ≠ none

/-- A delete has the join key of the row that it takes away. -/
def DeletesUnderKey (delta : Delta (TraceTupleHandle V)) : Prop :=
  delta.isDelete → ∀ entry, contents delta.data.rowId = some entry →
    entry.2 = extractJoinKeyHandle keySpec delta.data

/-- Every delta of the batch satisfies `p` in the contents before it. -/
def Throughout (p : JoinContents V → Delta (TraceTupleHandle V) → Prop)
    (deltas : List (Delta (TraceTupleHandle V))) : Prop :=
  Run.Along (fun contents delta => some (applyDelta keySpec contents delta)) p contents deltas

variable {keySpec contents}

/-- An update keeps the row id, a delta finds its row as `Alternates` says. -/
def Allows (contents : JoinContents V) : NormalizedJoinSideAction V → Prop
  | .sameKeyUpdate update => update.newRow.rowId = update.oldRow.rowId
  | .delta delta => contents.Alternates delta

variable {rowId : RowId} {entry : Option (TraceTupleHandle V × JoinKey V)}
  {delta : Delta (TraceTupleHandle V)}

theorem applyDelta_update (hid : delta.data.rowId = rowId →
      delta.isDelete = false ∧ delta.isInsert = false) :
    applyDelta keySpec (Function.update contents rowId entry) delta =
      Function.update (contents.applyDelta keySpec delta) rowId entry := by
  unfold applyDelta
  by_cases heq : delta.data.rowId = rowId
  · rw [(hid heq).1, (hid heq).2]
    rfl
  · split
    · exact (Function.update_comm (Ne.symm heq) ..)
    · split
      · exact (Function.update_comm (Ne.symm heq) ..)
      · rfl

theorem foldl_applyDelta_update {pre : List (Delta (TraceTupleHandle V))}
    (hpre : ∀ delta ∈ pre, delta.data.rowId = rowId →
      delta.isDelete = false ∧ delta.isInsert = false) (contents : JoinContents V) :
    pre.foldl (applyDelta keySpec) (Function.update contents rowId entry) =
      Function.update (pre.foldl (applyDelta keySpec) contents) rowId entry := by
  induction pre generalizing contents with
  | nil => rfl
  | cons delta pre ih =>
    rw [List.foldl_cons, List.foldl_cons, applyDelta_update (hpre delta (by simp))]
    exact ih (fun other hother => hpre other (by simp [hother])) _

/-- Deltas of other rows do not see what one row has. -/
theorem throughout_update {p : JoinContents V → Delta (TraceTupleHandle V) → Prop}
    (hp : ∀ (contents : JoinContents V) (delta : Delta (TraceTupleHandle V)),
      (delta.data.rowId = rowId → delta.isDelete = false ∧ delta.isInsert = false) →
      p contents delta → p (Function.update contents rowId entry) delta)
    {pre : List (Delta (TraceTupleHandle V))}
    (hpre : ∀ delta ∈ pre, delta.data.rowId = rowId →
      delta.isDelete = false ∧ delta.isInsert = false)
    (h : contents.Throughout keySpec p pre) :
    Throughout keySpec (Function.update contents rowId entry) p pre := by
  induction pre generalizing contents with
  | nil => trivial
  | cons delta pre ih =>
    refine ⟨hp contents delta (hpre delta (by simp)) h.1, ?_⟩
    have hrest := ih (fun other hother => hpre other (by simp [hother])) h.2
    rw [← applyDelta_update (hpre delta (by simp))] at hrest
    exact hrest

def WellFormed (keySpec : JoinKeySpec V) (contents : JoinContents V)
    (delta : Delta (TraceTupleHandle V)) : Prop :=
  contents.Alternates delta ∧ contents.DeletesUnderKey keySpec delta

theorem WellFormed.update
    (hid : delta.data.rowId = rowId → delta.isDelete = false ∧ delta.isInsert = false)
    (h : WellFormed keySpec contents delta) :
    WellFormed keySpec (Function.update contents rowId entry) delta := by
  by_cases heq : delta.data.rowId = rowId
  · obtain ⟨hdelete, hinsert⟩ := hid heq
    exact ⟨⟨by simp [hinsert], by simp [hdelete]⟩, by simp [DeletesUnderKey, hdelete]⟩
  · have hsame : Function.update contents rowId entry delta.data.rowId =
        contents delta.data.rowId := Function.update_of_ne heq ..
    refine ⟨⟨?_, ?_⟩, ?_⟩
    · rw [hsame]; exact h.1.insert
    · rw [hsame]; exact h.1.delete
    · unfold DeletesUnderKey
      rw [hsame]
      exact h.2

/-- The actions make of the contents what the deltas make of them. -/
theorem foldl_applyAction {deltas : List (Delta (TraceTupleHandle V))}
    {actions : List (NormalizedJoinSideAction V)} (h : Normalizes keySpec deltas actions)
    {contents : JoinContents V} (hwf : contents.Throughout keySpec (WellFormed keySpec) deltas) :
    actions.foldl (applyAction keySpec) contents = deltas.foldl (applyDelta keySpec) contents ∧
      Run.Along (fun contents action => some (applyAction keySpec contents action)) Allows
        contents actions := by
  induction h generalizing contents with
  | nil => exact ⟨rfl, trivial⟩
  | keep delta h ih =>
    obtain ⟨hfold, halong⟩ := ih hwf.2
    exact ⟨hfold, hwf.1.1, halong⟩
  | @pair old new hdelete hinsert hid hkey pre post hpre actions h ih =>
    let entry := some (new.data, extractJoinKeyHandle keySpec new.data)
    let updated : JoinContents V := Function.update contents old.data.rowId entry
    let before : JoinContents V := pre.foldl (applyDelta keySpec) contents
    have hgone : contents.applyDelta keySpec old =
        Function.update contents old.data.rowId none := by
      rw [applyDelta, Delta.not_isInsert_of_isDelete hdelete, if_neg (by simp), if_pos hdelete]
    have hwfRest := hwf.2
    change Run.Along _ _ (contents.applyDelta keySpec old) _ at hwfRest
    rw [hgone, Run.along_total_append, foldl_applyDelta_update hpre] at hwfRest
    obtain ⟨hwfPre, -, hwfPost⟩ := hwfRest
    have hback : applyDelta keySpec (Function.update before old.data.rowId none) new =
        Function.update before old.data.rowId entry := by
      rw [applyDelta, if_pos hinsert, hid, Function.update_idem]
    have hmoved : pre.foldl (applyDelta keySpec) updated =
        Function.update before old.data.rowId entry := foldl_applyDelta_update hpre contents
    have hfirst : contents.applyAction keySpec
        (.sameKeyUpdate ⟨old.data, new.data, extractJoinKeyHandle keySpec old.data⟩) = updated := by
      obtain ⟨present, hpresent⟩ := Option.ne_none_iff_exists'.mp (hwf.1.1.delete hdelete)
      have hold := hwf.1.2 hdelete present hpresent
      simp only [applyAction, hpresent, Option.map_some, Option.getD_some, hold, hkey]
      rfl
    have hwfUpdated : updated.Throughout keySpec (WellFormed keySpec) (pre ++ post) := by
      refine Run.along_total_append.mpr ⟨?_, ?_⟩
      · have hboth : Throughout keySpec
            (Function.update (Function.update contents old.data.rowId none) old.data.rowId entry)
            (WellFormed keySpec) pre :=
          throughout_update (fun _ _ hid h => h.update hid) hpre hwfPre
        rwa [Function.update_idem] at hboth
      · rw [hmoved, ← hback]
        exact hwfPost
    obtain ⟨hfold, halong⟩ := ih hwfUpdated
    refine ⟨?_, hid, ?_⟩
    · rw [List.foldl_cons, hfirst, hfold, List.foldl_append, hmoved, List.foldl_cons, hgone,
        List.foldl_append, foldl_applyDelta_update hpre, List.foldl_cons, hback]
    · change Run.Along _ _ (contents.applyAction keySpec _) actions
      rwa [hfirst]

end JoinContents

end Contents

namespace JoinSideState

def contents (state : JoinSideState V) : JoinContents V := fun rowId =>
  (state.entries rowId).map fun entry => (entry.1, entry.2.1)

/-- Every row counts the matches of its key. -/
def Counts (state : JoinSideState V) (matchesOf : JoinKey V → Nat) : Prop :=
  ∀ rowId row key matchCount, state.entries rowId = some (row, key, matchCount) →
    matchCount = matchesOf key

theorem Counts.entries_eq {state : JoinSideState V} {matchesOf : JoinKey V → Nat}
    (h : state.Counts matchesOf) (rowId : RowId) : state.entries rowId =
      (state.contents rowId).map fun entry => (entry.1, entry.2, matchesOf entry.2) := by
  unfold contents
  cases hentry : state.entries rowId with
  | none => rfl
  | some entry =>
    obtain ⟨row, key, matchCount⟩ := entry
    rw [h rowId row key matchCount hentry]
    rfl

variable [DecidableEq V] (keySpec : JoinKeySpec V) (matchesOf : JoinKey V → Nat)

/-- What a delta does to its side; the other side has `matchesOf` rows of a key. -/
def applyDelta (state : JoinSideState V) (delta : Delta (TraceTupleHandle V)) :
    Option (JoinSideState V) :=
  let key := extractJoinKeyHandle keySpec delta.data
  if delta.isInsert then (state.insert delta.data key (matchesOf key)).map Prod.fst
  else if delta.isDelete then (state.removeByRowId delta.data.rowId).map Prod.fst
  else some state

/-- The side's part of the loop of `process_left_join_trace_deltas`. -/
def applyAction (state : JoinSideState V) :
    NormalizedJoinSideAction V → Option (JoinSideState V)
  | .sameKeyUpdate update => state.updateSameKey update (matchesOf update.key)
  | .delta delta => state.applyDelta keySpec matchesOf delta

variable {keySpec matchesOf} {state : JoinSideState V}

omit [DecidableEq V] in
theorem Consistent.rowToSlot_eq_none (h : state.Consistent) {rowId : RowId}
    (hnone : state.contents rowId = none) : state.rowToSlot rowId = none :=
  h.table.lookup_eq_none.mp (Option.map_eq_none_iff.mp (Option.map_eq_none_iff.mp hnone))

theorem Consistent.applyDelta (h : state.Consistent) {delta : Delta (TraceTupleHandle V)}
    (halternates : JoinContents.Alternates state.contents delta) :
    ∃ next, state.applyDelta keySpec matchesOf delta = some next ∧ next.Consistent ∧
      next.contents = JoinContents.applyDelta keySpec state.contents delta ∧
      (state.Counts matchesOf → next.Counts matchesOf) := by
  unfold JoinSideState.applyDelta JoinContents.applyDelta
  dsimp only
  by_cases hinsert : delta.isInsert
  · have hfresh := h.rowToSlot_eq_none (halternates.insert hinsert)
    obtain ⟨next, slotId, hnext, hconsistent, hentries⟩ :=
      h.insert hfresh (extractJoinKeyHandle keySpec delta.data)
        (matchesOf (extractJoinKeyHandle keySpec delta.data))
    rw [if_pos hinsert, if_pos hinsert, hnext]
    refine ⟨next, rfl, hconsistent, funext fun id => ?_, fun hcounts id row key count hid => ?_⟩
    · rw [contents, hentries, Function.update_apply]
      split <;> rfl
    · rw [hentries] at hid
      split at hid
      next =>
        simp only [Option.some.injEq, Prod.mk.injEq] at hid
        rw [← hid.2.2, ← hid.2.1]
      next => exact hcounts id row key count hid
  · rw [if_neg hinsert, if_neg hinsert]
    by_cases hdelete : delta.isDelete
    · obtain ⟨next, removed, hnext, hconsistent, hentries⟩ := h.removeByRowId delta.data.rowId
      rw [if_pos hdelete, if_pos hdelete, hnext]
      refine ⟨next, rfl, hconsistent, funext fun id => ?_, fun hcounts id row key count hid => ?_⟩
      · rw [contents, hentries, Function.update_apply]
        split <;> rfl
      · rw [hentries] at hid
        split at hid
        next => cases hid
        next => exact hcounts id row key count hid
    · rw [if_neg hdelete, if_neg hdelete]
      exact ⟨state, rfl, h, rfl, id⟩

theorem Consistent.applyAction (h : state.Consistent) {action : NormalizedJoinSideAction V}
    (hallows : JoinContents.Allows state.contents action) :
    ∃ next, state.applyAction keySpec matchesOf action = some next ∧ next.Consistent ∧
      next.contents = JoinContents.applyAction keySpec state.contents action ∧
      (state.Counts matchesOf → next.Counts matchesOf) := by
  cases action with
  | sameKeyUpdate update =>
    obtain ⟨next, hnext, hconsistent, hentries⟩ :=
      h.updateSameKey hallows (matchesOf update.key)
    refine ⟨next, hnext, hconsistent, funext fun id => ?_, fun hcounts id row key count hid => ?_⟩
    · rw [contents, hentries, JoinContents.applyAction, Function.update_apply]
      split
      next hid =>
        rw [contents, ← hid]
        cases state.entries id <;> rfl
      next => rfl
    · rw [hentries] at hid
      split at hid
      next =>
        cases hentry : state.entries id with
        | none =>
          simp only [hentry, Option.map_none, Option.getD_none, Option.some.injEq,
            Prod.mk.injEq] at hid
          rw [← hid.2.2, ← hid.2.1]
        | some entry =>
          obtain ⟨oldRow, oldKey, oldCount⟩ := entry
          simp only [hentry, Option.map_some, Option.getD_some, Option.some.injEq,
            Prod.mk.injEq] at hid
          rw [← hid.2.2, ← hid.2.1]
          exact hcounts id oldRow oldKey oldCount hentry
      next => exact hcounts id row key count hid
  | delta delta => exact h.applyDelta hallows

/-- A row that comes with the key `first`, goes and comes again with the key `second`. -/
def comingBack (first second : Nat) : List (Delta (TraceTupleHandle Nat)) :=
  [.insert (.owned (.new 1 [some first, some 1])), .delete (.owned (.new 1 [some second, some 1])),
    .insert (.owned (.new 1 [some second, some 2]))]

theorem comingBack_alternates (first second : Nat) :
    JoinContents.Throughout (.columns [0]) (withColCount 2).contents JoinContents.Alternates
      (comingBack first second) := by
  refine ⟨⟨fun _ => rfl, fun h => absurd h Bool.false_ne_true⟩,
    ⟨fun h => absurd h Bool.false_ne_true, fun _ h => ?_⟩,
    ⟨fun _ => rfl, fun h => absurd h Bool.false_ne_true⟩, trivial⟩
  cases h

end JoinSideState

end Cynos.Incremental
