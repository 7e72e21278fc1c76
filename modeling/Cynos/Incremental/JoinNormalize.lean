import Cynos.Incremental.Dataflow
import Cynos.Incremental.JoinSide
import Cynos.Incremental.TraceLayout
import Cynos.Incremental.View

/-! The deltas of one join input before they reach its side: a delete and the next insert of its
row become one update where the join key stays the same. -/
namespace Cynos.Incremental

open Core
open Index (RowId)

variable {V : Type}

def extractJoinKeyHandle (spec : JoinKeySpec V) (handle : TraceTupleHandle V) : JoinKey V :=
  match spec with
  | .columns [] => .empty
  | .columns [index] => .one ((handle.valueAt index).getD .null)
  | .columns indices => .many (indices.map fun index => (handle.valueAt index).getD .null)
  | .constant values => .fromVec values
  | .dynamic extractor => .fromVec (extractor handle.materializeRc)

inductive NormalizedJoinSideAction (V : Type) where
  | sameKeyUpdate (update : SameKeyTraceUpdate V)
  | delta (delta : Delta (TraceTupleHandle V))

theorem Delta.not_isInsert_of_isDelete {delta : Delta (TraceTupleHandle V)}
    (h : delta.isDelete) : delta.isInsert = false := by
  simp only [Delta.isDelete, Delta.isInsert, decide_eq_true_eq, decide_eq_false_iff_not] at h ⊢
  omega

structure JoinNormalizeScratch (V : Type) where
  pendingDeletes : RowId → Option Nat
  updatesByDelete : List (Option (SameKeyTraceUpdate V))
  skipIndices : List Nat
  pendingDeletePairs : List (RowId × Nat)
  actions : List (NormalizedJoinSideAction V)

def joinNormalizeLinearScanLimit : Nat := 16

namespace JoinNormalizeScratch

section Normalize

def clearWorkingSets (_scratch : JoinNormalizeScratch V) : JoinNormalizeScratch V :=
  ⟨fun _ => none, [], [], [], []⟩

def pushDeltas (scratch : JoinNormalizeScratch V) (deltas : List (Delta (TraceTupleHandle V))) :
    JoinNormalizeScratch V :=
  { scratch with actions := scratch.actions ++ deltas.map .delta }

variable [DecidableEq V] (deltas : List (Delta (TraceTupleHandle V))) (keySpec : JoinKeySpec V)

/-- An insert meets the delete of its row; `grow` makes room for the updates. -/
def pairWithDelete
    (grow : List (Option (SameKeyTraceUpdate V)) → List (Option (SameKeyTraceUpdate V)))
    (scratch : JoinNormalizeScratch V) (deleteIndex index : Nat)
    (delta : Delta (TraceTupleHandle V)) : Option (JoinNormalizeScratch V) := do
  let oldDelta ← deltas[deleteIndex]?
  let oldKey := extractJoinKeyHandle keySpec oldDelta.data
  let newKey := extractJoinKeyHandle keySpec delta.data
  if oldKey ≠ newKey then some scratch
  else
    let updatesByDelete ← Vec.setAt (grow scratch.updatesByDelete) deleteIndex
      (some ⟨oldDelta.data, delta.data, oldKey⟩)
    some { scratch with updatesByDelete, skipIndices := scratch.skipIndices ++ [index] }

def growUpdates (updates : List (Option (SameKeyTraceUpdate V))) :
    List (Option (SameKeyTraceUpdate V)) :=
  if updates.length < deltas.length then Vec.resize updates deltas.length none else updates

/-- The first loop of `normalize_join_side_deltas_into`. -/
def pairHashed (scratch : JoinNormalizeScratch V) (entry : Delta (TraceTupleHandle V) × Nat) :
    Option (JoinNormalizeScratch V) :=
  let (delta, index) := entry
  let rowId := delta.data.rowId
  if delta.isDelete then
    some { scratch with
      pendingDeletes := Function.update scratch.pendingDeletes rowId (some index) }
  else if !delta.isInsert then some scratch
  else match scratch.pendingDeletes rowId with
    | none => some scratch
    | some deleteIndex =>
      pairWithDelete deltas keySpec (growUpdates deltas)
        { scratch with pendingDeletes := Function.update scratch.pendingDeletes rowId none }
        deleteIndex index delta

/-- The first loop of `normalize_join_side_deltas_linear`. -/
def pairLinear (scratch : JoinNormalizeScratch V) (entry : Delta (TraceTupleHandle V) × Nat) :
    Option (JoinNormalizeScratch V) :=
  let (delta, index) := entry
  let rowId := delta.data.rowId
  let pairs := scratch.pendingDeletePairs
  let position := pairs.findIdx? fun pending => pending.1 = rowId
  if delta.isDelete then
    match position with
    | some position =>
      some { scratch with
        pendingDeletePairs := pairs.modify position fun pending => (pending.1, index) }
    | none => some { scratch with pendingDeletePairs := pairs ++ [(rowId, index)] }
  else if !delta.isInsert then some scratch
  else match position with
    | none => some scratch
    | some pendingIndex => do
      let pending ← pairs[pendingIndex]?
      let pendingDeletePairs ← Vec.swapRemove pairs pendingIndex
      pairWithDelete deltas keySpec id { scratch with pendingDeletePairs } pending.2 index delta

def emitUpdate (scratch : JoinNormalizeScratch V) (index : Nat) (update : SameKeyTraceUpdate V) :
    JoinNormalizeScratch V :=
  { scratch with
    updatesByDelete := scratch.updatesByDelete.set index none
    actions := scratch.actions ++ [.sameKeyUpdate update] }

/-- The second loop of `normalize_join_side_deltas_into`; the skipped indices are met in order. -/
def emitHashed (state : JoinNormalizeScratch V × Nat)
    (entry : Delta (TraceTupleHandle V) × Nat) : Option (JoinNormalizeScratch V × Nat) := do
  let (scratch, skipOffset) := state
  let (delta, index) := entry
  match ← scratch.updatesByDelete[index]? with
  | some update => some (scratch.emitUpdate index update, skipOffset)
  | none =>
    if scratch.skipIndices[skipOffset]? = some index then some (scratch, skipOffset + 1)
    else some (scratch.pushDeltas [delta], skipOffset)

/-- The second loop of `normalize_join_side_deltas_linear`. -/
def emitLinear (scratch : JoinNormalizeScratch V) (entry : Delta (TraceTupleHandle V) × Nat) :
    Option (JoinNormalizeScratch V) := do
  let (delta, index) := entry
  match ← scratch.updatesByDelete[index]? with
  | some update => some (scratch.emitUpdate index update)
  | none =>
    if scratch.skipIndices.contains index then some scratch
    else some (scratch.pushDeltas [delta])

/-- `normalize_join_side_deltas_into` from its loop on, where the batch is a long one. -/
def normalizeJoinSideDeltasHashed (scratch : JoinNormalizeScratch V) :
    Option (JoinNormalizeScratch V) := do
  let scratch ← Run.run (pairHashed deltas keySpec) scratch deltas.zipIdx
  if scratch.skipIndices.isEmpty then
    some { scratch.pushDeltas deltas with
      pendingDeletes := fun _ => none
      updatesByDelete := [] }
  else
    let skipIndices :=
      if scratch.skipIndices.length > 1 then scratch.skipIndices.mergeSort
      else scratch.skipIndices
    let (scratch, _) ← Run.run emitHashed ({ scratch with skipIndices }, 0) deltas.zipIdx
    some { scratch with
      pendingDeletes := fun _ => none
      updatesByDelete := []
      skipIndices := [] }

def normalizeJoinSideDeltasLinear (scratch : JoinNormalizeScratch V) :
    Option (JoinNormalizeScratch V) := do
  let scratch := { scratch with
    updatesByDelete := Vec.resize scratch.updatesByDelete deltas.length none }
  let scratch ← Run.run (pairLinear deltas keySpec) scratch deltas.zipIdx
  if scratch.skipIndices.isEmpty then
    some { scratch.pushDeltas deltas with
      updatesByDelete := []
      pendingDeletePairs := [] }
  else
    let scratch ← Run.run emitLinear scratch deltas.zipIdx
    some { scratch with
      updatesByDelete := []
      skipIndices := []
      pendingDeletePairs := [] }

def normalizeJoinSideDeltasInto (scratch : JoinNormalizeScratch V) :
    Option (JoinNormalizeScratch V) :=
  let scratch := scratch.clearWorkingSets
  if deltas.length < 2 then some (scratch.pushDeltas deltas)
  else if !deltas.any Delta.isDelete || !deltas.any Delta.isInsert then
    some (scratch.pushDeltas deltas)
  else if deltas.length ≤ joinNormalizeLinearScanLimit then
    normalizeJoinSideDeltasLinear deltas keySpec scratch
  else normalizeJoinSideDeltasHashed deltas keySpec scratch

end Normalize

section Pairing

variable (deltas : List (Delta (TraceTupleHandle V)))

/-- Before index `n`, the last delta that deletes or inserts the row is the delete at `d`. -/
structure PendingDelete (n : Nat) (rowId : RowId) (d : Nat) : Prop where
  lt : d < n
  delete : ∃ delta, deltas[d]? = some delta ∧ delta.isDelete ∧ delta.data.rowId = rowId
  last : ∀ j delta, d < j → j < n → deltas[j]? = some delta → delta.data.rowId = rowId →
    delta.isDelete = false ∧ delta.isInsert = false

/-- The delete at `d` and the insert at `i` become one update. -/
def Pairs (keySpec : JoinKeySpec V) (d i : Nat) (update : SameKeyTraceUpdate V) : Prop :=
  ∃ old new, deltas[d]? = some old ∧ deltas[i]? = some new ∧ new.isInsert ∧
    PendingDelete deltas i new.data.rowId d ∧
    extractJoinKeyHandle keySpec old.data = extractJoinKeyHandle keySpec new.data ∧
    update = ⟨old.data, new.data, extractJoinKeyHandle keySpec old.data⟩

variable {deltas} {n d i : Nat} {rowId : RowId} {delta : Delta (TraceTupleHandle V)}
  {keySpec : JoinKeySpec V} {update : SameKeyTraceUpdate V}

theorem PendingDelete.unique {d' : Nat} (h : PendingDelete deltas n rowId d)
    (h' : PendingDelete deltas n rowId d') : d = d' := by
  obtain ⟨delta, hd, hdelete, hid⟩ := h.delete
  obtain ⟨delta', hd', hdelete', hid'⟩ := h'.delete
  rcases Nat.lt_trichotomy d d' with hlt | heq | hlt
  · have := (h.last d' delta' hlt h'.lt hd' hid').1
    simp [hdelete'] at this
  · exact heq
  · have := (h'.last d delta hlt h.lt hd hid).1
    simp [hdelete] at this

/-- What the delta at `n` changes. -/
theorem pendingDelete_succ (hn : deltas[n]? = some delta) :
    PendingDelete deltas (n + 1) rowId d ↔
      if delta.data.rowId = rowId ∧ (delta.isDelete ∨ delta.isInsert)
      then delta.isDelete ∧ d = n else PendingDelete deltas n rowId d := by
  constructor
  · intro h
    obtain ⟨deleted, hd, hdelete, hid⟩ := h.delete
    split
    next hactive =>
      have hdn : d = n := by
        by_contra hne
        have := h.last n delta (by have := h.lt; omega) (by omega) hn hactive.1
        simp [this] at hactive
      subst hdn
      rw [hn, Option.some.injEq] at hd
      exact ⟨hd ▸ hdelete, rfl⟩
    next hactive =>
      have hne : d ≠ n := by
        rintro rfl
        rw [hn, Option.some.injEq] at hd
        subst hd
        exact hactive ⟨hid, .inl hdelete⟩
      exact ⟨by have := h.lt; omega, h.delete, fun j x hdj hj => h.last j x hdj (by omega)⟩
  · split
    next hactive =>
      rintro ⟨hdelete, rfl⟩
      exact ⟨by omega, ⟨delta, hn, hdelete, hactive.1⟩, fun j x hdj hj => by omega⟩
    next hactive =>
      intro h
      refine ⟨by have := h.lt; omega, h.delete, fun j x hdj hj hx hid => ?_⟩
      rcases Nat.lt_succ_iff_lt_or_eq.mp hj with hlt | rfl
      · exact h.last j x hdj hlt hx hid
      · rw [hn, Option.some.injEq] at hx
        subst hx
        simpa [hid] using hactive

theorem Pairs.eq_of_delete {i' : Nat} {update' : SameKeyTraceUpdate V}
    (h : Pairs deltas keySpec d i update) (h' : Pairs deltas keySpec d i' update') : i = i' := by
  obtain ⟨old, new, hd, hi, hinsert, hpending, -⟩ := h
  obtain ⟨old', new', hd', hi', hinsert', hpending', -⟩ := h'
  obtain ⟨x, hx, -, hid⟩ := hpending.delete
  obtain ⟨x', hx', -, hid'⟩ := hpending'.delete
  obtain rfl : x = x' := by rw [hx] at hx'; exact Option.some.inj hx'
  rcases Nat.lt_trichotomy i i' with hlt | heq | hlt
  · have := (hpending'.last i new hpending.lt hlt hi (hid.symm.trans hid')).2
    simp [hinsert] at this
  · exact heq
  · have := (hpending.last i' new' hpending'.lt hlt hi' (hid'.symm.trans hid)).2
    simp [hinsert'] at this

theorem Pairs.eq_of_insert {d' : Nat} {update' : SameKeyTraceUpdate V}
    (h : Pairs deltas keySpec d i update) (h' : Pairs deltas keySpec d' i update') :
    d = d' ∧ update = update' := by
  obtain ⟨old, new, hd, hi, hinsert, hpending, -, rfl⟩ := h
  obtain ⟨old', new', hd', hi', hinsert', hpending', -, rfl⟩ := h'
  obtain rfl : new = new' := by rw [hi] at hi'; exact Option.some.inj hi'
  obtain rfl := hpending.unique hpending'
  obtain rfl : old = old' := by rw [hd] at hd'; exact Option.some.inj hd'
  exact ⟨rfl, rfl⟩

/-- The updates and the skipped indices of the pairs whose insert comes before `n`. -/
structure Recorded (deltas : List (Delta (TraceTupleHandle V))) (keySpec : JoinKeySpec V) (n : Nat)
    (updates : List (Option (SameKeyTraceUpdate V))) (skips : List Nat) : Prop where
  update_iff : ∀ d update, updates[d]?.join = some update ↔ ∃ i < n, Pairs deltas keySpec d i update
  mem_skips : ∀ i, i ∈ skips ↔ i < n ∧ ∃ d update, Pairs deltas keySpec d i update
  ascending : skips.Pairwise (· < ·)
  length_le : updates.length ≤ deltas.length
  length_eq : skips ≠ [] → updates.length = deltas.length

variable {updates : List (Option (SameKeyTraceUpdate V))} {skips : List Nat}

theorem Recorded.keep (h : Recorded deltas keySpec n updates skips)
    (hnone : ∀ d update, ¬Pairs deltas keySpec d n update) :
    Recorded deltas keySpec (n + 1) updates skips where
  update_iff d update := by
    rw [h.update_iff]
    constructor
    · rintro ⟨i, hi, hpair⟩
      exact ⟨i, by omega, hpair⟩
    · rintro ⟨i, hi, hpair⟩
      rcases Nat.lt_succ_iff_lt_or_eq.mp hi with hlt | rfl
      · exact ⟨i, hlt, hpair⟩
      · exact absurd hpair (hnone d update)
  mem_skips i := by
    rw [h.mem_skips]
    refine and_congr_left fun ⟨d, update, hpair⟩ => ?_
    have hne : i ≠ n := by
      rintro rfl
      exact hnone d update hpair
    omega
  ascending := h.ascending
  length_le := h.length_le
  length_eq := h.length_eq

/-- The pair of the insert at `n` is recorded, in updates that were grown to the full length. -/
theorem Recorded.record (h : Recorded deltas keySpec n updates skips)
    {grown : List (Option (SameKeyTraceUpdate V))} (hlength : grown.length = deltas.length)
    (hgrown : ∀ d : Nat, grown[d]?.join = updates[d]?.join)
    (hpair : Pairs deltas keySpec d n update) :
    Recorded deltas keySpec (n + 1) (grown.set d (some update)) (skips ++ [n]) where
  update_iff e other := by
    have hlt : d < grown.length := by
      obtain ⟨old, -, hd, -⟩ := hpair
      exact hlength ▸ (List.getElem?_eq_some_iff.mp hd).1
    by_cases heq : d = e
    · subst heq
      rw [List.getElem?_set_self hlt, Option.join_some, Option.some.injEq]
      constructor
      · rintro rfl
        exact ⟨n, by omega, hpair⟩
      · rintro ⟨i, -, hother⟩
        obtain rfl := hpair.eq_of_delete hother
        exact (hpair.eq_of_insert hother).2
    · rw [List.getElem?_set_ne heq, hgrown, h.update_iff]
      constructor
      · rintro ⟨i, hi, hother⟩
        exact ⟨i, by omega, hother⟩
      · rintro ⟨i, hi, hother⟩
        rcases Nat.lt_succ_iff_lt_or_eq.mp hi with hlt | rfl
        · exact ⟨i, hlt, hother⟩
        · exact absurd (hpair.eq_of_insert hother).1 heq
  mem_skips i := by
    rw [List.mem_append, List.mem_singleton, h.mem_skips]
    constructor
    · rintro (⟨hi, hother⟩ | rfl)
      · exact ⟨by omega, hother⟩
      · exact ⟨by omega, d, update, hpair⟩
    · rintro ⟨hi, hother⟩
      rcases Nat.lt_succ_iff_lt_or_eq.mp hi with hlt | rfl
      · exact .inl ⟨hlt, hother⟩
      · exact .inr rfl
  ascending := by
    refine List.pairwise_append.mpr ⟨h.ascending, List.pairwise_singleton _ _, fun i hi j hj => ?_⟩
    rw [List.mem_singleton] at hj
    exact hj ▸ ((h.mem_skips i).mp hi).1
  length_le := by rw [List.length_set, hlength]
  length_eq _ := by rw [List.length_set, hlength]

theorem recorded_zero : Recorded deltas keySpec 0 [] [] where
  update_iff d update := by simp
  mem_skips i := by simp
  ascending := .nil
  length_le := by simp
  length_eq := by simp

theorem pairs_iff (hi : deltas[i]? = some delta) :
    Pairs deltas keySpec d i update ↔ delta.isInsert ∧
      PendingDelete deltas i delta.data.rowId d ∧ ∃ old, deltas[d]? = some old ∧
        extractJoinKeyHandle keySpec old.data = extractJoinKeyHandle keySpec delta.data ∧
        update = ⟨old.data, delta.data, extractJoinKeyHandle keySpec old.data⟩ := by
  constructor
  · rintro ⟨old, new, hd, hnew, hinsert, hpending, hkey, rfl⟩
    obtain rfl : delta = new := by rw [hi] at hnew; exact Option.some.inj hnew
    exact ⟨hinsert, hpending, old, hd, hkey, rfl⟩
  · rintro ⟨hinsert, hpending, old, hd, hkey, rfl⟩
    exact ⟨old, delta, hd, hi, hinsert, hpending, hkey, rfl⟩

section Passes

variable [DecidableEq V] {scratch : JoinNormalizeScratch V}

/-- The keys of an insert and of its pending delete are compared. -/
theorem Recorded.pairWithDelete (scratch : JoinNormalizeScratch V)
    (grow : List (Option (SameKeyTraceUpdate V)) → List (Option (SameKeyTraceUpdate V)))
    (h : Recorded deltas keySpec n scratch.updatesByDelete scratch.skipIndices)
    (hn : deltas[n]? = some delta) (hinsert : delta.isInsert)
    (hpending : PendingDelete deltas n delta.data.rowId d)
    (hlength : (grow scratch.updatesByDelete).length = deltas.length)
    (hgrow : ∀ d : Nat,
      (grow scratch.updatesByDelete)[d]?.join = scratch.updatesByDelete[d]?.join) :
    ∃ updates skips, pairWithDelete deltas keySpec grow scratch d n delta =
        some { scratch with updatesByDelete := updates, skipIndices := skips } ∧
      Recorded deltas keySpec (n + 1) updates skips ∧
      (updates = scratch.updatesByDelete ∨ updates.length = deltas.length) := by
  obtain ⟨old, hold, -⟩ := hpending.delete
  obtain ⟨hdlt, -⟩ := List.getElem?_eq_some_iff.mp hold
  unfold JoinNormalizeScratch.pairWithDelete
  rw [hold, Option.bind_eq_bind, Option.bind_some]
  by_cases hkey : extractJoinKeyHandle keySpec old.data = extractJoinKeyHandle keySpec delta.data
  · rw [if_neg (not_not.mpr hkey), Vec.setAt, if_pos (hlength ▸ hdlt)]
    refine ⟨_, _, rfl, h.record hlength hgrow ((pairs_iff hn).mpr ?_), .inr (by simp [hlength])⟩
    exact ⟨hinsert, hpending, old, hold, hkey, rfl⟩
  · rw [if_pos hkey]
    refine ⟨_, _, rfl, h.keep fun e update hpair => ?_, .inl rfl⟩
    obtain ⟨-, hother, old', hold', hkey', -⟩ := (pairs_iff hn).mp hpair
    obtain rfl := hpending.unique hother
    obtain rfl : old = old' := by rw [hold] at hold'; exact Option.some.inj hold'
    exact hkey hkey'

/-- What the first loop has recorded before index `n`, with the pending deletes in the map. -/
structure HashedPass (deltas : List (Delta (TraceTupleHandle V))) (keySpec : JoinKeySpec V)
    (n : Nat) (scratch : JoinNormalizeScratch V) : Prop where
  recorded : Recorded deltas keySpec n scratch.updatesByDelete scratch.skipIndices
  pending : ∀ rowId d,
    scratch.pendingDeletes rowId = some d ↔ PendingDelete deltas n rowId d
  actions : scratch.actions = []
  grown : scratch.updatesByDelete = [] ∨ scratch.updatesByDelete.length = deltas.length

theorem HashedPass.pairHashed (h : HashedPass deltas keySpec n scratch)
    (hn : deltas[n]? = some delta) :
    ∃ next, scratch.pairHashed deltas keySpec (delta, n) = some next ∧
      HashedPass deltas keySpec (n + 1) next := by
  unfold JoinNormalizeScratch.pairHashed
  dsimp only
  by_cases hdelete : delta.isDelete
  · have hinsert := Delta.not_isInsert_of_isDelete hdelete
    rw [if_pos hdelete]
    refine ⟨_, rfl, h.recorded.keep fun d update hpair => ?_, fun rowId d => ?_, h.actions, h.grown⟩
    · simp [((pairs_iff hn).mp hpair).1] at hinsert
    · have := h.pending rowId d
      rw [pendingDelete_succ hn]
      simp only [Function.update_apply]
      grind
  rw [if_neg hdelete]
  by_cases hinsert : delta.isInsert
  · rw [if_neg (by simp [hinsert])]
    cases hd : scratch.pendingDeletes delta.data.rowId with
    | none =>
      refine ⟨_, rfl, h.recorded.keep fun d update hpair => ?_, fun rowId d => ?_, h.actions,
        h.grown⟩
      · have := (h.pending _ _).mpr ((pairs_iff hn).mp hpair).2.1
        simp [hd] at this
      · have := h.pending rowId d
        rw [pendingDelete_succ hn]
        grind
    | some d =>
      have hpending := (h.pending _ _).mp hd
      have hgrow : (growUpdates deltas scratch.updatesByDelete).length = deltas.length ∧
          ∀ d : Nat, (growUpdates deltas scratch.updatesByDelete)[d]?.join =
            scratch.updatesByDelete[d]?.join := by
        unfold growUpdates
        rcases h.grown with hempty | hfull
        · rw [hempty]
          split <;> simp [Vec.resize, List.getElem?_replicate] <;> grind
        · rw [if_neg (by omega)]
          exact ⟨hfull, fun d => rfl⟩
      obtain ⟨updates, skips, hpair, hrecorded, hgrown⟩ := Recorded.pairWithDelete
        { scratch with
          pendingDeletes := Function.update scratch.pendingDeletes delta.data.rowId none }
        (growUpdates deltas) h.recorded hn hinsert hpending hgrow.1 hgrow.2
      refine ⟨_, hpair, hrecorded, fun rowId e => ?_, h.actions, ?_⟩
      · have := h.pending rowId e
        rw [pendingDelete_succ hn]
        simp only [Function.update_apply]
        grind
      · rcases hgrown with rfl | hfull
        · exact h.grown
        · exact .inr hfull
  · rw [if_pos (by simpa using hinsert)]
    refine ⟨_, rfl, h.recorded.keep fun d update hpair => ?_, fun rowId d => ?_, h.actions, h.grown⟩
    · exact hinsert ((pairs_iff hn).mp hpair).1
    · rw [pendingDelete_succ hn, if_neg (by simp [hdelete, hinsert])]
      exact h.pending rowId d

/-- What the first loop has recorded before index `n`, with the pending deletes in a list. -/
structure LinearPass (deltas : List (Delta (TraceTupleHandle V))) (keySpec : JoinKeySpec V)
    (n : Nat) (scratch : JoinNormalizeScratch V) : Prop where
  recorded : Recorded deltas keySpec n scratch.updatesByDelete scratch.skipIndices
  nodup : (scratch.pendingDeletePairs.map Prod.fst).Nodup
  pending : ∀ pending,
    pending ∈ scratch.pendingDeletePairs ↔ PendingDelete deltas n pending.1 pending.2
  actions : scratch.actions = []
  grown : scratch.updatesByDelete.length = deltas.length

theorem LinearPass.pairLinear (h : LinearPass deltas keySpec n scratch)
    (hn : deltas[n]? = some delta) :
    ∃ next, scratch.pairLinear deltas keySpec (delta, n) = some next ∧
      LinearPass deltas keySpec (n + 1) next := by
  have hfound {position : Nat} (hposition : scratch.pendingDeletePairs.findIdx?
      (fun pending => decide (pending.1 = delta.data.rowId)) = some position) :
      ∃ d, scratch.pendingDeletePairs[position]? = some (delta.data.rowId, d) := by
    obtain ⟨hlt, hid, -⟩ := List.findIdx?_eq_some_iff_getElem.mp hposition
    rw [decide_eq_true_eq] at hid
    exact ⟨_, (List.getElem?_eq_getElem hlt).trans (congrArg some (Prod.ext hid rfl))⟩
  unfold JoinNormalizeScratch.pairLinear
  dsimp only
  by_cases hdelete : delta.isDelete
  · have hinsert := Delta.not_isInsert_of_isDelete hdelete
    have hkeep := h.recorded.keep fun d update hpair => by
      simp [((pairs_iff hn).mp hpair).1] at hinsert
    rw [if_pos hdelete]
    cases hposition : scratch.pendingDeletePairs.findIdx?
        (fun pending => decide (pending.1 = delta.data.rowId)) with
    | some position =>
      obtain ⟨d, hd⟩ := hfound hposition
      refine ⟨_, rfl, hkeep, ?_, fun pending => ?_, h.actions, h.grown⟩
      · rw [Vec.map_fst_modify]
        exact h.nodup
      · have := h.pending pending
        rw [Vec.mem_modify_entry h.nodup hd, pendingDelete_succ hn]
        grind
    | none =>
      have hfresh : ∀ pending ∈ scratch.pendingDeletePairs, pending.1 ≠ delta.data.rowId := by
        simpa using List.findIdx?_eq_none_iff.mp hposition
      refine ⟨_, rfl, hkeep, ?_, fun pending => ?_, h.actions, h.grown⟩
      · rw [List.map_append, List.nodup_append]
        refine ⟨h.nodup, by simp, fun rowId hrow other hother => ?_⟩
        obtain ⟨pending, hmem, rfl⟩ := List.mem_map.mp hrow
        obtain rfl : other = delta.data.rowId := by simpa using hother
        exact hfresh pending hmem
      · have := h.pending pending
        have := hfresh pending
        rw [pendingDelete_succ hn, List.mem_append, List.mem_singleton]
        grind
  rw [if_neg hdelete]
  by_cases hinsert : delta.isInsert
  · rw [if_neg (by simp [hinsert])]
    cases hposition : scratch.pendingDeletePairs.findIdx?
        (fun pending => decide (pending.1 = delta.data.rowId)) with
    | none =>
      have hfresh : ∀ pending ∈ scratch.pendingDeletePairs, pending.1 ≠ delta.data.rowId := by
        simpa using List.findIdx?_eq_none_iff.mp hposition
      have hnone (d : Nat) : ¬PendingDelete deltas n delta.data.rowId d := fun hpending =>
        hfresh (delta.data.rowId, d) ((h.pending _).mpr hpending) rfl
      refine ⟨_, rfl, h.recorded.keep fun d update hpair => ?_, h.nodup, fun pending => ?_,
        h.actions, h.grown⟩
      · exact hnone d ((pairs_iff hn).mp hpair).2.1
      · have := h.pending pending
        have := hnone pending.2
        rw [pendingDelete_succ hn]
        grind
    | some position =>
      obtain ⟨d, hd⟩ := hfound hposition
      have hpending := (h.pending _).mp (List.mem_of_getElem? hd)
      obtain ⟨left, hleft, hnodup, hmem⟩ := Vec.swapRemove_entry h.nodup hd
      obtain ⟨updates, skips, hpair, hrecorded, hgrown⟩ := Recorded.pairWithDelete
        { scratch with pendingDeletePairs := left } id h.recorded hn hinsert hpending h.grown (fun d => rfl)
      refine ⟨⟨scratch.pendingDeletes, updates, skips, left, scratch.actions⟩, ?_, hrecorded,
        hnodup, fun pending => ?_, h.actions, ?_⟩
      · simp only [hd, hleft, Option.bind_eq_bind, Option.bind_some]
        exact hpair
      · have := h.pending pending
        rw [hmem, pendingDelete_succ hn]
        grind
      · rcases hgrown with rfl | hfull
        · exact h.grown
        · exact hfull
  · rw [if_pos (by simpa using hinsert)]
    refine ⟨_, rfl, h.recorded.keep fun d update hpair => ?_, h.nodup, fun pending => ?_,
      h.actions, h.grown⟩
    · exact hinsert ((pairs_iff hn).mp hpair).1
    · rw [pendingDelete_succ hn, if_neg (by simp [hdelete, hinsert])]
      exact h.pending pending

end Passes

section Emission

/-- What the second loop makes of a delta. -/
def emitted (updates : List (Option (SameKeyTraceUpdate V))) (skips : List Nat)
    (entry : Delta (TraceTupleHandle V) × Nat) : Option (NormalizedJoinSideAction V) :=
  match updates[entry.2]?.join with
  | some update => some (.sameKeyUpdate update)
  | none => if entry.2 ∈ skips then none else some (.delta entry.1)

/-- The second loop at index `n`. -/
structure Emitting (deltas : List (Delta (TraceTupleHandle V)))
    (updates : List (Option (SameKeyTraceUpdate V))) (skips : List Nat) (n : Nat)
    (scratch : JoinNormalizeScratch V) : Prop where
  skipIndices : scratch.skipIndices = skips
  rest : ∀ j, n ≤ j → scratch.updatesByDelete[j]? = updates[j]?
  actions : scratch.actions = (deltas.zipIdx.take n).filterMap (emitted updates skips)

variable {scratch : JoinNormalizeScratch V}

theorem filterMap_take_succ {A : Type} (f : Delta (TraceTupleHandle V) × Nat → Option A)
    (hn : deltas[n]? = some delta) : (deltas.zipIdx.take (n + 1)).filterMap f =
      (deltas.zipIdx.take n).filterMap f ++ (f (delta, n)).toList := by
  rw [List.take_add_one, List.filterMap_append, List.getElem?_zipIdx, hn]
  cases hf : f (delta, n) <;> simp [hf]

theorem Emitting.emit (h : Emitting deltas updates skips n scratch)
    (hn : deltas[n]? = some delta) (hslot : updates[n]? = some (some update)) :
    Emitting deltas updates skips (n + 1) (scratch.emitUpdate n update) where
  skipIndices := h.skipIndices
  rest j hj := by
    rw [← h.rest j (by omega)]
    exact List.getElem?_set_ne (by omega)
  actions := by
    rw [filterMap_take_succ _ hn, ← h.actions, emitted, hslot]
    rfl

theorem Emitting.skip (h : Emitting deltas updates skips n scratch)
    (hn : deltas[n]? = some delta) (hslot : updates[n]? = some none) (hskip : n ∈ skips) :
    Emitting deltas updates skips (n + 1) scratch where
  skipIndices := h.skipIndices
  rest j hj := h.rest j (by omega)
  actions := by
    rw [filterMap_take_succ _ hn, ← h.actions, emitted, hslot, Option.join_some, if_pos hskip]
    simp

theorem Emitting.push (h : Emitting deltas updates skips n scratch)
    (hn : deltas[n]? = some delta) (hslot : updates[n]? = some none) (hskip : n ∉ skips) :
    Emitting deltas updates skips (n + 1) (scratch.pushDeltas [delta]) where
  skipIndices := h.skipIndices
  rest j hj := h.rest j (by omega)
  actions := by
    rw [filterMap_take_succ _ hn, ← h.actions, emitted, hslot, Option.join_some, if_neg hskip]
    rfl

theorem Emitting.emitLinear (h : Emitting deltas updates skips n scratch)
    (hlength : updates.length = deltas.length) (hn : deltas[n]? = some delta) :
    ∃ next, scratch.emitLinear (delta, n) = some next ∧
      Emitting deltas updates skips (n + 1) next := by
  have hlt : n < updates.length := hlength ▸ (List.getElem?_eq_some_iff.mp hn).1
  have hget : updates[n]? = some updates[n] := List.getElem?_eq_getElem hlt
  unfold JoinNormalizeScratch.emitLinear
  simp only [h.rest n le_rfl, hget, Option.bind_eq_bind, Option.bind_some, h.skipIndices]
  cases hslot : updates[n] with
  | some update => exact ⟨_, rfl, h.emit hn (hget.trans (congrArg some hslot))⟩
  | none =>
    have hnone : updates[n]? = some none := hget.trans (congrArg some hslot)
    by_cases hskip : n ∈ skips
    · exact ⟨_, if_pos (by simpa using hskip), h.skip hn hnone hskip⟩
    · exact ⟨_, if_neg (by simpa using hskip), h.push hn hnone hskip⟩

/-- The offset stands at the first skipped index that was not met yet. -/
def SkipOffset (skips : List Nat) (n offset : Nat) : Prop :=
  ∃ met rest, skips = met ++ rest ∧ met.length = offset ∧ (∀ i ∈ met, i < n) ∧ ∀ i ∈ rest, n ≤ i

theorem SkipOffset.getElem?_eq (hascending : skips.Pairwise (· < ·)) {offset : Nat}
    (h : SkipOffset skips n offset) : skips[offset]? = some n ↔ n ∈ skips := by
  refine ⟨List.mem_of_getElem?, fun hmem => ?_⟩
  obtain ⟨met, rest, rfl, rfl, hmet, hrest⟩ := h
  rcases List.mem_append.mp hmem with hmem | hmem
  · exact absurd (hmet n hmem) (Nat.lt_irrefl n)
  · cases rest with
    | nil => simp at hmem
    | cons first rest =>
      have hfirst := hrest first (by simp)
      rcases List.mem_cons.mp hmem with rfl | hlater
      · simp
      · have := List.rel_of_pairwise_cons (List.pairwise_append.mp hascending).2.1 hlater
        omega

theorem SkipOffset.succ (hascending : skips.Pairwise (· < ·)) {offset : Nat}
    (h : SkipOffset skips n offset) :
    SkipOffset skips (n + 1) (if n ∈ skips then offset + 1 else offset) := by
  have hat := h.getElem?_eq hascending
  obtain ⟨met, rest, rfl, rfl, hmet, hrest⟩ := h
  by_cases hmem : n ∈ met ++ rest
  · rw [if_pos hmem]
    have hfirst := hat.mpr hmem
    cases rest with
    | nil => simp at hfirst
    | cons first rest =>
      obtain rfl : first = n := by simpa using hfirst
      refine ⟨met ++ [first], rest, by simp, by simp, fun i hi => ?_, fun i hi => ?_⟩
      · rcases List.mem_append.mp hi with hi | hi
        · exact Nat.lt_succ_of_lt (hmet i hi)
        · obtain rfl : i = first := by simpa using hi
          exact Nat.lt_succ_self i
      · exact List.rel_of_pairwise_cons (List.pairwise_append.mp hascending).2.1 hi
  · rw [if_neg hmem]
    refine ⟨met, rest, rfl, rfl, fun i hi => Nat.lt_succ_of_lt (hmet i hi), fun i hi => ?_⟩
    have := hrest i hi
    have : i ≠ n := by
      rintro rfl
      exact hmem (List.mem_append.mpr (.inr hi))
    omega

theorem Emitting.emitHashed (h : Emitting deltas updates skips n scratch) {offset : Nat}
    (hoffset : SkipOffset skips n offset) (hascending : skips.Pairwise (· < ·))
    (hnone : ∀ i ∈ skips, updates[i]?.join = none)
    (hlength : updates.length = deltas.length) (hn : deltas[n]? = some delta) :
    ∃ next, JoinNormalizeScratch.emitHashed (scratch, offset) (delta, n) = some next ∧
      Emitting deltas updates skips (n + 1) next.1 ∧ SkipOffset skips (n + 1) next.2 := by
  have hlt : n < updates.length := hlength ▸ (List.getElem?_eq_some_iff.mp hn).1
  have hget : updates[n]? = some updates[n] := List.getElem?_eq_getElem hlt
  have hnext := hoffset.succ hascending
  unfold JoinNormalizeScratch.emitHashed
  simp only [h.rest n le_rfl, hget, Option.bind_eq_bind, Option.bind_some, h.skipIndices,
    hoffset.getElem?_eq hascending]
  cases hslot : updates[n] with
  | some update =>
    have hskip : n ∉ skips := fun hskip => by
      have := hnone n hskip
      simp [hget, hslot] at this
    rw [if_neg hskip] at hnext
    exact ⟨_, rfl, h.emit hn (hget.trans (congrArg some hslot)), hnext⟩
  | none =>
    have hempty : updates[n]? = some none := hget.trans (congrArg some hslot)
    by_cases hskip : n ∈ skips
    · rw [if_pos hskip] at hnext
      exact ⟨_, if_pos hskip, h.skip hn hempty hskip, hnext⟩
    · rw [if_neg hskip] at hnext
      exact ⟨_, if_neg hskip, h.push hn hempty hskip, hnext⟩

end Emission

end Pairing

end JoinNormalizeScratch

end Cynos.Incremental
