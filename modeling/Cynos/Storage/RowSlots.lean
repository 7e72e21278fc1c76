import Cynos.Core.Row
import Cynos.Lib.Keyed
import Cynos.Storage.RowMap
import Mathlib.Data.List.Nodup

/-! Where a row store keeps its rows: a dense vector of slots, a map from row ids to slot
numbers, and the slot numbers in the order of the row ids, which scans follow. Removing a
row moves the last slot into its place. -/
namespace Cynos.Storage

open Core
open Index (RowId)

variable {V : Type}

structure RowSlot (V : Type) where
  rowId : RowId
  row : Row V

structure RowSlots (V : Type) where
  rows : RowMap Nat
  rowSlots : List (RowSlot V)
  scanOrder : List Nat

namespace RowSlots

def empty : RowSlots V := ⟨∅, [], []⟩

/-- The row id of a slot. Slots out of range are never asked for. -/
def idAt (slots : RowSlots V) (slotIdx : Nat) : RowId :=
  (slots.rowSlots[slotIdx]?.map RowSlot.rowId).getD 0

def scanPosition (slots : RowSlots V) (rowId : RowId) : Except Nat Nat :=
  Keyed.search slots.idAt slots.scanOrder rowId

def rowRefById (slots : RowSlots V) (rowId : RowId) : Option (Row V) :=
  slots.rows[rowId]?.bind fun slotIdx => slots.rowSlots[slotIdx]?.map RowSlot.row

def rowRefs (slots : RowSlots V) : List (Row V) :=
  slots.scanOrder.filterMap fun slotIdx => slots.rowSlots[slotIdx]?.map RowSlot.row

/-- The slot is added at the end, the scan order does not know it yet. -/
def pushed (slots : RowSlots V) (rowId : RowId) (row : Row V) : RowSlots V :=
  { slots with
    rowSlots := slots.rowSlots ++ [⟨rowId, row⟩]
    rows := slots.rows.insert rowId slots.rowSlots.length }

def appendOnly (slots : RowSlots V) (rowId : RowId) : Bool :=
  match slots.scanOrder.getLast? with
  | some last => slots.idAt last < rowId
  | none => true

def insertRowSlot (slots : RowSlots V) (rowId : RowId) (row : Row V) : RowSlots V :=
  let slotIdx := slots.rowSlots.length
  let slots := slots.pushed rowId row
  if slots.appendOnly rowId then { slots with scanOrder := slots.scanOrder ++ [slotIdx] }
  else
    let scanPos := match slots.scanPosition rowId with
      | .ok pos | .error pos => pos
    { slots with scanOrder := slots.scanOrder.insertIdx scanPos slotIdx }

def replaceRowSlot (slots : RowSlots V) (rowId : RowId) (row : Row V) : RowSlots V :=
  match slots.rows[rowId]? with
  | some slotIdx =>
    { slots with rowSlots := slots.rowSlots.modify slotIdx fun slot => { slot with row := row } }
  | none => slots

/-- The last slot, unless it is the one to be removed, with its position in the scan order. -/
def movedSlotMeta (slots : RowSlots V) (slotIdx : Nat) : Option (RowId × Option Nat) :=
  if slotIdx + 1 < slots.rowSlots.length then
    slots.rowSlots.getLast?.map fun moved =>
      (moved.rowId, (slots.scanPosition moved.rowId).toOption)
  else none

def removeScanPos (scanOrder : List Nat) : Option Nat → Option (List Nat)
  | some scanPos => Vec.removeAt scanOrder scanPos
  | none => some scanOrder

/-- The moved slot gets its new number in the scan order. -/
def moveScanPos (scanOrder : List Nat) (removedScanPos : Option Nat) (slotIdx : Nat) :
    Option (RowId × Option Nat) → Option (List Nat)
  | some (_, some movedPos) =>
    let adjustedPos := match removedScanPos with
      | some removedPos => if removedPos < movedPos then movedPos - 1 else movedPos
      | none => movedPos
    Vec.setAt scanOrder adjustedPos slotIdx
  | _ => some scanOrder

def removeSlot (slots : RowSlots V) (rowId : RowId) (slotIdx : Nat) :
    Option (RowSlots V × Option (Row V)) := do
  let removedScanPos := (slots.scanPosition rowId).toOption
  let scanOrder ← removeScanPos slots.scanOrder removedScanPos
  let removed ← slots.rowSlots[slotIdx]?
  let rowSlots ← Vec.swapRemove slots.rowSlots slotIdx
  let rows := slots.rows.erase rowId
  match rowSlots[slotIdx]? with
  | none => return (⟨rows, rowSlots, scanOrder⟩, some removed.row)
  | some moved =>
    let scanOrder ← moveScanPos scanOrder removedScanPos slotIdx (slots.movedSlotMeta slotIdx)
    return (⟨rows.insert moved.rowId slotIdx, rowSlots, scanOrder⟩, some removed.row)

/-- `none` where an index is out of range. -/
def removeRowSlot (slots : RowSlots V) (rowId : RowId) : Option (RowSlots V × Option (Row V)) :=
  match slots.rows[rowId]? with
  | none => some (slots, none)
  | some slotIdx => slots.removeSlot rowId slotIdx

/-- The map and the slots name each other, and the scan order lists every slot, in strictly
increasing order of the row ids. -/
structure Valid (slots : RowSlots V) : Prop where
  rows_iff : ∀ rowId slotIdx, slots.rows[rowId]? = some slotIdx ↔
    slotIdx < slots.rowSlots.length ∧ slots.idAt slotIdx = rowId
  scan_sorted : Keyed.Sorted slots.idAt slots.scanOrder
  mem_scan : ∀ slotIdx, slotIdx ∈ slots.scanOrder ↔ slotIdx < slots.rowSlots.length

theorem valid_empty : (empty : RowSlots V).Valid := by
  constructor
  · intro rowId slotIdx
    simp [empty]
  · exact List.Pairwise.nil
  · intro slotIdx
    simp [empty]

namespace Valid

variable {slots : RowSlots V} (h : slots.Valid)

include h

theorem lt_of_rows {rowId : RowId} {slotIdx : Nat} (hrow : slots.rows[rowId]? = some slotIdx) :
    slotIdx < slots.rowSlots.length :=
  ((h.rows_iff rowId slotIdx).mp hrow).1

theorem rows_idAt {slotIdx : Nat} (hlt : slotIdx < slots.rowSlots.length) :
    slots.rows[slots.idAt slotIdx]? = some slotIdx :=
  (h.rows_iff _ _).mpr ⟨hlt, rfl⟩

theorem idAt_of_rows {rowId : RowId} {slotIdx : Nat} (hrow : slots.rows[rowId]? = some slotIdx) :
    slots.idAt slotIdx = rowId :=
  ((h.rows_iff rowId slotIdx).mp hrow).2

theorem idAt_inj {i j : Nat} (hi : i < slots.rowSlots.length) (hj : j < slots.rowSlots.length)
    (hij : slots.idAt i = slots.idAt j) : i = j := by
  have hrow := h.rows_idAt hi
  rw [hij, h.rows_idAt hj] at hrow
  exact (Option.some.inj hrow).symm

theorem nodup_rowIds : (slots.rowSlots.map RowSlot.rowId).Nodup := by
  apply List.pairwise_iff_getElem.mpr
  intro i j hi hj hij heq
  rw [List.length_map] at hi hj
  have hidAt : slots.idAt i = slots.idAt j := by
    rw [List.getElem_map, List.getElem_map] at heq
    unfold idAt
    rw [List.getElem?_eq_getElem hi, List.getElem?_eq_getElem hj]
    exact heq
  exact hij.ne (h.idAt_inj hi hj hidAt)

/-- The rows are found by their ids. -/
theorem rowRefById_iff {rowId : RowId} {row : Row V} :
    slots.rowRefById rowId = some row ↔ ⟨rowId, row⟩ ∈ slots.rowSlots := by
  unfold rowRefById
  rw [Option.bind_eq_some_iff]
  constructor
  · rintro ⟨slotIdx, hrow, hslot⟩
    obtain ⟨slot, hfound, rfl⟩ := Option.map_eq_some_iff.mp hslot
    have hid := h.idAt_of_rows hrow
    rw [idAt, hfound] at hid
    rw [← show slot.rowId = rowId from hid]
    exact List.mem_of_getElem? hfound
  · intro hmem
    obtain ⟨slotIdx, hlt, hslot⟩ := List.getElem_of_mem hmem
    have hslot' : slots.rowSlots[slotIdx]? = some ⟨rowId, row⟩ := by
      rw [List.getElem?_eq_getElem hlt, hslot]
    refine ⟨slotIdx, (h.rows_iff _ _).mpr ⟨hlt, ?_⟩, by rw [hslot']; rfl⟩
    rw [idAt, hslot']
    rfl

theorem rowRefById_eq_none {rowId : RowId} :
    slots.rowRefById rowId = none ↔ slots.rows[rowId]? = none := by
  unfold rowRefById
  cases hrow : slots.rows[rowId]? with
  | none => simp
  | some slotIdx => simp [List.getElem?_eq_getElem (h.lt_of_rows hrow)]

end Valid

section Insert

variable {slots : RowSlots V} {rowId : RowId}

theorem idAt_pushed {slotIdx : Nat} (hlt : slotIdx < slots.rowSlots.length) (row : Row V) :
    (slots.pushed rowId row).idAt slotIdx = slots.idAt slotIdx := by
  unfold idAt pushed
  rw [List.getElem?_append_left hlt]

theorem idAt_pushed_last (slots : RowSlots V) (rowId : RowId) (row : Row V) :
    (slots.pushed rowId row).idAt slots.rowSlots.length = rowId := by
  unfold idAt pushed
  rw [List.getElem?_concat_length]
  rfl

theorem sorted_pushed (h : slots.Valid) (rowId : RowId) (row : Row V) :
    Keyed.Sorted (slots.pushed rowId row).idAt slots.scanOrder := by
  apply List.Pairwise.imp_of_mem _ h.scan_sorted
  intro i j hi hj hij
  rwa [idAt_pushed ((h.mem_scan i).mp hi), idAt_pushed ((h.mem_scan j).mp hj)]

/-- Whichever way is taken, the new slot goes between the smaller and the larger ids. -/
theorem insertRowSlot_eq (h : slots.Valid) (hfresh : slots.rows[rowId]? = none) (row : Row V) :
    ∃ lo hi, slots.scanOrder = lo ++ hi ∧
      (∀ i ∈ lo, (slots.pushed rowId row).idAt i < rowId) ∧
      (∀ i ∈ hi, rowId < (slots.pushed rowId row).idAt i) ∧
      slots.insertRowSlot rowId row =
        { slots.pushed rowId row with scanOrder := lo ++ slots.rowSlots.length :: hi } := by
  have hsorted := sorted_pushed h rowId row
  by_cases happend : (slots.pushed rowId row).appendOnly rowId = true
  · refine ⟨slots.scanOrder, [], by simp, ?_, by simp, if_pos happend⟩
    rcases List.eq_nil_or_concat slots.scanOrder with hnil | ⟨init, last, hlast⟩
    · simp [hnil]
    · have hlt : (slots.pushed rowId row).idAt last < rowId := by
        have hscan : (slots.pushed rowId row).scanOrder = init ++ [last] := by
          rw [← List.concat_eq_append, ← hlast]
          rfl
        simpa [appendOnly, hscan] using happend
      intro i hi
      rw [hlast, List.concat_eq_append] at hi hsorted
      rcases List.mem_append.mp hi with hi | hi
      · exact ((List.pairwise_append.mp hsorted).2.2 i hi last (by simp)).trans hlt
      · obtain rfl := List.mem_singleton.mp hi
        exact hlt
  · rcases hsorted.search_cases rowId with ⟨lo, x, hi, hscan, hx, -⟩ |
      ⟨lo, hi, hscan, hlo, hhi, hsearch⟩
    · -- the id would have a slot already
      have hmem : x < slots.rowSlots.length := (h.mem_scan x).mp (by simp [hscan])
      rw [idAt_pushed hmem] at hx
      rw [← hx, h.rows_idAt hmem] at hfresh
      cases hfresh
    · refine ⟨lo, hi, hscan, hlo, hhi, ?_⟩
      unfold insertRowSlot
      rw [if_neg happend]
      have hpos : (slots.pushed rowId row).scanPosition rowId = .error lo.length := hsearch
      rw [hpos]
      have hscan' : (slots.pushed rowId row).scanOrder = lo ++ hi := hscan
      simp only [hscan', Vec.insertIdx_append]

theorem Valid.insertRowSlot (h : slots.Valid) (hfresh : slots.rows[rowId]? = none) (row : Row V) :
    (slots.insertRowSlot rowId row).Valid := by
  obtain ⟨lo, hi, hscan, hlo, hhi, heq⟩ := insertRowSlot_eq h hfresh row
  have hlength : (slots.pushed rowId row).rowSlots.length = slots.rowSlots.length + 1 :=
    List.length_append
  rw [heq]
  constructor
  · intro id slotIdx
    change (slots.rows.insert rowId slots.rowSlots.length)[id]? = some slotIdx ↔
      slotIdx < (slots.pushed rowId row).rowSlots.length ∧
        (slots.pushed rowId row).idAt slotIdx = id
    rw [getElem?_insert, hlength, Nat.lt_succ_iff_lt_or_eq]
    by_cases hlast : slotIdx = slots.rowSlots.length
    · rw [hlast, idAt_pushed_last]
      by_cases hid : id = rowId
      · simp [hid]
      · rw [if_neg hid, h.rows_iff]
        simp [Ne.symm hid]
    · by_cases hlt : slotIdx < slots.rowSlots.length
      · rw [idAt_pushed hlt]
        by_cases hid : id = rowId
        · rw [if_pos hid, hid]
          have hother : slots.idAt slotIdx ≠ rowId := fun hid => by
            rw [← hid, h.rows_idAt hlt] at hfresh
            cases hfresh
          simp [hother, Ne.symm hlast]
        · rw [if_neg hid, h.rows_iff]
          simp [hlt]
      · by_cases hid : id = rowId
        · simp [hid, hlt, hlast, Ne.symm hlast]
        · rw [if_neg hid, h.rows_iff]
          simp [hlt, hlast]
  · have hsorted : Keyed.Sorted (slots.pushed rowId row).idAt (lo ++ hi) := by
      rw [← hscan]
      exact sorted_pushed h rowId row
    have hlast := idAt_pushed_last slots rowId row
    change Keyed.Sorted (slots.pushed rowId row).idAt (lo ++ slots.rowSlots.length :: hi)
    exact Keyed.sorted_middle.mpr ⟨hsorted, fun i hi => (hlo i hi).trans_eq hlast.symm,
      fun i hi => hlast.trans_lt (hhi i hi)⟩
  · intro slotIdx
    have hmem := h.mem_scan slotIdx
    rw [hscan, List.mem_append] at hmem
    change slotIdx ∈ lo ++ slots.rowSlots.length :: hi ↔
      slotIdx < (slots.pushed rowId row).rowSlots.length
    rw [hlength, Nat.lt_succ_iff_lt_or_eq, ← hmem, List.mem_append, List.mem_cons]
    tauto

theorem rowRefById_insertRowSlot (h : slots.Valid) (hfresh : slots.rows[rowId]? = none)
    (row : Row V) (id : RowId) :
    (slots.insertRowSlot rowId row).rowRefById id =
      if id = rowId then some row else slots.rowRefById id := by
  have hvalid := h.insertRowSlot hfresh row
  have hmem : ∀ slot, slot ∈ (slots.insertRowSlot rowId row).rowSlots ↔
      slot ∈ slots.rowSlots ∨ slot = ⟨rowId, row⟩ := by
    intro slot
    obtain ⟨lo, hi, -, -, -, heq⟩ := insertRowSlot_eq h hfresh row
    rw [heq]
    simp [pushed]
  split
  next hid => exact hvalid.rowRefById_iff.mpr ((hmem _).mpr (Or.inr (by rw [hid])))
  next hid =>
    apply Option.ext
    intro other
    rw [hvalid.rowRefById_iff, h.rowRefById_iff, hmem]
    simp [hid]

end Insert

section Replace

variable {slots : RowSlots V} {rowId : RowId}

theorem idAt_replaceRowSlot (slots : RowSlots V) (rowId : RowId) (row : Row V) (slotIdx : Nat) :
    (slots.replaceRowSlot rowId row).idAt slotIdx = slots.idAt slotIdx := by
  unfold replaceRowSlot
  split
  next i _ =>
    unfold idAt
    rw [List.getElem?_modify]
    cases slots.rowSlots[slotIdx]? with
    | none => rfl
    | some slot => by_cases hi : i = slotIdx <;> simp [hi]
  next => rfl

theorem length_replaceRowSlot (slots : RowSlots V) (rowId : RowId) (row : Row V) :
    (slots.replaceRowSlot rowId row).rowSlots.length = slots.rowSlots.length := by
  unfold replaceRowSlot
  split
  · exact List.length_modify _ _ _
  · rfl

theorem rows_replaceRowSlot (slots : RowSlots V) (rowId : RowId) (row : Row V) :
    (slots.replaceRowSlot rowId row).rows = slots.rows ∧
      (slots.replaceRowSlot rowId row).scanOrder = slots.scanOrder := by
  unfold replaceRowSlot
  split
  · exact ⟨rfl, rfl⟩
  · exact ⟨rfl, rfl⟩

theorem Valid.replaceRowSlot (h : slots.Valid) (row : Row V) :
    (slots.replaceRowSlot rowId row).Valid := by
  obtain ⟨hrows, hscan⟩ := rows_replaceRowSlot slots rowId row
  have hidAt : (slots.replaceRowSlot rowId row).idAt = slots.idAt :=
    funext (idAt_replaceRowSlot slots rowId row)
  constructor
  · rw [hrows, length_replaceRowSlot, hidAt]
    exact h.rows_iff
  · rw [hscan, hidAt]
    exact h.scan_sorted
  · rw [hscan, length_replaceRowSlot]
    exact h.mem_scan

theorem rowRefById_replaceRowSlot (h : slots.Valid) (row : Row V) (id : RowId) :
    (slots.replaceRowSlot rowId row).rowRefById id =
      if id = rowId then (slots.rowRefById rowId).map fun _ => row else slots.rowRefById id := by
  cases hrow : slots.rows[rowId]? with
  | none =>
    have hsame : slots.replaceRowSlot rowId row = slots := by
      unfold replaceRowSlot
      rw [hrow]
    rw [hsame]
    split
    next hid => rw [hid, h.rowRefById_eq_none.mpr hrow, Option.map_none]
    next => rfl
  | some slotIdx =>
    have hlt := h.lt_of_rows hrow
    have hmodified : slots.replaceRowSlot rowId row =
        { slots with
          rowSlots := slots.rowSlots.modify slotIdx fun slot => { slot with row := row } } := by
      unfold replaceRowSlot
      rw [hrow]
    rw [hmodified]
    by_cases hid : id = rowId
    · simp [rowRefById, hrow, hid, hlt]
    · rw [if_neg hid]
      unfold rowRefById
      cases hother : slots.rows[id]? with
      | none => rfl
      | some i =>
        have hi : slotIdx ≠ i := fun heq =>
          hid (by rw [← h.idAt_of_rows hother, ← heq, h.idAt_of_rows hrow])
        simp [List.getElem?_modify, hi, Function.comp_def]

/-- Putting a row where it stands already changes nothing. -/
theorem replaceRowSlot_self {row : Row V} (hrow : slots.rowRefById rowId = some row) :
    slots.replaceRowSlot rowId row = slots := by
  unfold rowRefById at hrow
  obtain ⟨slotIdx, hslotIdx, hslot⟩ := Option.bind_eq_some_iff.mp hrow
  obtain ⟨slot, hfound, rfl⟩ := Option.map_eq_some_iff.mp hslot
  have hsame : slots.rowSlots.modify slotIdx (fun old => { old with row := slot.row }) =
      slots.rowSlots := by
    apply List.ext_getElem?
    intro i
    rw [List.getElem?_modify]
    by_cases hi : slotIdx = i
    · rw [← hi, hfound]
      simp
    · simp [hi]
  unfold replaceRowSlot
  rw [hslotIdx]
  simp only [hsame]

end Replace

section Remove

variable {slots : RowSlots V} {rowId : RowId}

/-- The scan order once slot `slotIdx` is gone and slot `lastIdx` has its number. -/
def relabel (slotIdx lastIdx : Nat) (scanOrder : List Nat) : List Nat :=
  (scanOrder.filter (· ≠ slotIdx)).map fun i => if i = lastIdx then slotIdx else i

theorem relabel_append (slotIdx lastIdx : Nat) (xs ys : List Nat) :
    relabel slotIdx lastIdx (xs ++ ys) =
      relabel slotIdx lastIdx xs ++ relabel slotIdx lastIdx ys := by
  simp [relabel]

theorem relabel_of_not_mem {slotIdx lastIdx : Nat} {xs : List Nat} (hslot : slotIdx ∉ xs)
    (hlast : lastIdx ∉ xs) : relabel slotIdx lastIdx xs = xs := by
  unfold relabel
  rw [List.filter_eq_self.mpr fun i hi => by
    simpa using fun h : i = slotIdx => hslot (h ▸ hi)]
  conv_rhs => rw [← List.map_id xs]
  apply List.map_congr_left
  intro i hi
  exact if_neg fun h : i = lastIdx => hlast (h ▸ hi)

theorem nodup_of_sorted {idAt : Nat → RowId} {xs : List Nat} (h : Keyed.Sorted idAt xs) :
    xs.Nodup :=
  h.imp fun hij heq => by
    rw [heq] at hij
    exact lt_irrefl _ hij

theorem not_mem_of_nodup {xs ys : List Nat} {x : Nat} (h : (xs ++ x :: ys).Nodup) :
    x ∉ xs ∧ x ∉ ys := by
  simpa using (List.nodup_cons.mp (List.nodup_middle.mp h)).1

theorem relabel_slot {slotIdx lastIdx : Nat} {lo hi : List Nat} (hslot : slotIdx ∉ lo ++ hi)
    (hlast : lastIdx ∉ lo ++ hi) : relabel slotIdx lastIdx (lo ++ slotIdx :: hi) = lo ++ hi := by
  have hgone : relabel slotIdx lastIdx [slotIdx] = [] := by simp [relabel]
  rw [← List.singleton_append, relabel_append, relabel_append, hgone, List.nil_append,
    ← relabel_append, relabel_of_not_mem hslot hlast]

theorem relabel_last {slotIdx lastIdx : Nat} {lo hi : List Nat} (hne : lastIdx ≠ slotIdx) :
    relabel slotIdx lastIdx (lo ++ lastIdx :: hi) =
      relabel slotIdx lastIdx lo ++ slotIdx :: relabel slotIdx lastIdx hi := by
  have hnew : relabel slotIdx lastIdx [lastIdx] = [slotIdx] := by simp [relabel, hne]
  rw [← List.singleton_append, relabel_append, relabel_append, hnew, List.singleton_append]

variable {init : List (RowSlot V)} {last : RowSlot V}

/-- The last slot is removed. -/
theorem removeRowSlot_last (h : slots.Valid) (hslots : slots.rowSlots = init ++ [last])
    (hrow : slots.rows[rowId]? = some init.length) :
    slots.removeRowSlot rowId =
      some (⟨slots.rows.erase rowId, init, relabel init.length init.length slots.scanOrder⟩,
        some last.row) := by
  have hmem : init.length ∈ slots.scanOrder := (h.mem_scan _).mpr (h.lt_of_rows hrow)
  obtain ⟨lo, hi, hscan⟩ := List.append_of_mem hmem
  have hsorted : Keyed.Sorted slots.idAt (lo ++ init.length :: hi) := hscan ▸ h.scan_sorted
  obtain ⟨hlo, hhi⟩ := not_mem_of_nodup (nodup_of_sorted hsorted)
  have hpos : slots.scanPosition rowId = .ok lo.length := by
    unfold scanPosition
    rw [hscan, ← h.idAt_of_rows hrow]
    exact hsorted.search_middle
  have hrelabel : relabel init.length init.length slots.scanOrder = lo ++ hi := by
    have hrest : init.length ∉ lo ++ hi := by simp [hlo, hhi]
    rw [hscan, relabel_slot hrest hrest]
  unfold removeRowSlot removeSlot
  rw [hrow, hrelabel]
  simp only [hpos, hslots, hscan, Except.toOption, removeScanPos, Vec.removeAt_append,
    Vec.swapRemove_last, List.getElem?_concat_length, Option.bind_eq_bind, Option.bind_some]
  rw [List.getElem?_eq_none le_rfl]
  rfl

/-- The position of the last slot is found before the removed one leaves the scan order and is
corrected by one where the removed one stood before it. -/
theorem setAt_relabel {idAt : Nat → RowId} {lo hi : List Nat} {slotIdx lastIdx : Nat}
    (hsorted : Keyed.Sorted idAt (lo ++ slotIdx :: hi)) (hne : lastIdx ≠ slotIdx)
    (hmem : lastIdx ∈ lo ++ slotIdx :: hi) :
    ∃ movedPos, Keyed.search idAt (lo ++ slotIdx :: hi) (idAt lastIdx) = .ok movedPos ∧
      Vec.setAt (lo ++ hi) (if lo.length < movedPos then movedPos - 1 else movedPos) slotIdx =
        some (relabel slotIdx lastIdx (lo ++ slotIdx :: hi)) := by
  obtain ⟨hlo, hhi⟩ := not_mem_of_nodup (nodup_of_sorted hsorted)
  have hmem' : lastIdx ∈ lo ∨ lastIdx ∈ hi := by simpa [hne] using hmem
  rcases hmem' with hlast | hlast
  · obtain ⟨a, b, rfl⟩ := List.append_of_mem hlast
    have hform : (a ++ lastIdx :: b) ++ slotIdx :: hi = a ++ lastIdx :: (b ++ slotIdx :: hi) := by
      simp
    rw [hform] at hsorted ⊢
    have hothers := not_mem_of_nodup (nodup_of_sorted hsorted)
    refine ⟨a.length, hsorted.search_middle, ?_⟩
    rw [if_neg (by simp), List.append_assoc, List.cons_append, Vec.setAt_append, relabel_last hne,
      relabel_of_not_mem, relabel_slot]
    all_goals
      simp only [List.mem_append, List.mem_cons, not_or] at hlo hhi hothers ⊢
      tauto
  · obtain ⟨b, c, rfl⟩ := List.append_of_mem hlast
    have hform : lo ++ slotIdx :: (b ++ lastIdx :: c) = (lo ++ slotIdx :: b) ++ lastIdx :: c := by
      simp
    rw [hform] at hsorted ⊢
    have hothers := not_mem_of_nodup (nodup_of_sorted hsorted)
    refine ⟨_, hsorted.search_middle, ?_⟩
    have hadjusted : (if lo.length < (lo ++ slotIdx :: b).length
        then (lo ++ slotIdx :: b).length - 1 else (lo ++ slotIdx :: b).length) =
        (lo ++ b).length := by
      simp only [List.length_append, List.length_cons]
      rw [if_pos (by omega)]
      omega
    rw [hadjusted, ← List.append_assoc, Vec.setAt_append, relabel_last hne, relabel_slot,
      relabel_of_not_mem]
    all_goals
      simp only [List.mem_append, List.mem_cons, not_or] at hlo hhi hothers ⊢
      tauto

/-- Another slot is removed, and the last one moves into its place. -/
theorem removeRowSlot_moved (h : slots.Valid) (hslots : slots.rowSlots = init ++ [last])
    {slotIdx : Nat} (hrow : slots.rows[rowId]? = some slotIdx) (hlt : slotIdx < init.length) :
    slots.removeRowSlot rowId =
      some (⟨(slots.rows.erase rowId).insert last.rowId slotIdx, init.set slotIdx last,
        relabel slotIdx init.length slots.scanOrder⟩, some init[slotIdx].row) := by
  have hlength : slots.rowSlots.length = init.length + 1 := by simp [hslots]
  have hid : slots.idAt slotIdx = rowId := h.idAt_of_rows hrow
  have hlast : slots.idAt init.length = last.rowId := by simp [idAt, hslots]
  have hne : init.length ≠ slotIdx := hlt.ne'
  have hslot : slotIdx ∈ slots.scanOrder := (h.mem_scan _).mpr (h.lt_of_rows hrow)
  have hmoved : init.length ∈ slots.scanOrder := (h.mem_scan _).mpr (by omega)
  have hmeta : slots.movedSlotMeta slotIdx =
      some (last.rowId, (slots.scanPosition last.rowId).toOption) := by
    unfold movedSlotMeta
    rw [if_pos (by omega), hslots, List.getLast?_concat]
    rfl
  have hremoved : slots.rowSlots[slotIdx]? = some init[slotIdx] := by
    rw [hslots, List.getElem?_append_left hlt, List.getElem?_eq_getElem hlt]
  have hplace : (init.set slotIdx last)[slotIdx]? = some last := by simp [hlt]
  have hsorted := h.scan_sorted
  obtain ⟨lo, hi, hscan⟩ := List.append_of_mem hslot
  rw [hscan] at hmoved hsorted
  have hpos : slots.scanPosition rowId = .ok lo.length := by
    unfold scanPosition
    rw [hscan, ← hid]
    exact hsorted.search_middle
  obtain ⟨movedPos, hmovedPos, hset⟩ := setAt_relabel hsorted hne hmoved
  rw [← hscan, hlast] at hmovedPos
  unfold removeRowSlot removeSlot
  rw [hrow]
  simp only [hremoved, hmeta, hpos, show slots.scanPosition last.rowId = .ok movedPos from hmovedPos]
  simp only [hslots, hscan, Except.toOption, removeScanPos, Vec.removeAt_append,
    Vec.swapRemove_of_lt hlt, hplace, moveScanPos, hset, Option.bind_eq_bind, Option.bind_some]
  rfl

theorem sorted_relabel {idAt idAt' : Nat → RowId} {scanOrder : List Nat} {slotIdx lastIdx : Nat}
    (hsorted : Keyed.Sorted idAt scanOrder)
    (hidAt : ∀ i ∈ scanOrder, i ≠ slotIdx →
      idAt' (if i = lastIdx then slotIdx else i) = idAt i) :
    Keyed.Sorted idAt' (relabel slotIdx lastIdx scanOrder) := by
  unfold Keyed.Sorted relabel
  rw [List.pairwise_map]
  apply List.Pairwise.imp_of_mem _ (hsorted.sublist List.filter_sublist)
  intro i j hi hj hij
  obtain ⟨hi, hi'⟩ := List.mem_filter.mp hi
  obtain ⟨hj, hj'⟩ := List.mem_filter.mp hj
  rwa [hidAt i hi (by simpa using hi'), hidAt j hj (by simpa using hj')]

theorem mem_relabel {scanOrder : List Nat} {slotIdx lastIdx : Nat} (hle : slotIdx ≤ lastIdx)
    (hmem : ∀ i, i ∈ scanOrder ↔ i < lastIdx + 1) (i : Nat) :
    i ∈ relabel slotIdx lastIdx scanOrder ↔ i < lastIdx := by
  unfold relabel
  simp only [List.mem_map, List.mem_filter, hmem, decide_eq_true_eq]
  constructor
  · rintro ⟨j, ⟨hj, hne⟩, rfl⟩
    split
    · omega
    · omega
  · intro hlt
    by_cases hi : i = slotIdx
    · exact ⟨lastIdx, ⟨by omega, by omega⟩, by rw [if_pos rfl, hi]⟩
    · exact ⟨i, ⟨by omega, hi⟩, if_neg (by omega)⟩

/-- Without the last slot. -/
def withoutLast (slots : RowSlots V) (rowId : RowId) (init : List (RowSlot V)) : RowSlots V :=
  ⟨slots.rows.erase rowId, init, relabel init.length init.length slots.scanOrder⟩

/-- With the last slot in the place of another one. -/
def withMoved (slots : RowSlots V) (rowId : RowId) (init : List (RowSlot V)) (last : RowSlot V)
    (slotIdx : Nat) : RowSlots V :=
  ⟨(slots.rows.erase rowId).insert last.rowId slotIdx, init.set slotIdx last,
    relabel slotIdx init.length slots.scanOrder⟩

section

variable (h : slots.Valid) (hslots : slots.rowSlots = init ++ [last])

include hslots

theorem idAt_concat : slots.idAt init.length = last.rowId := by
  simp [idAt, hslots]

theorem idAt_withoutLast {i : Nat} (hlt : i < init.length) :
    (slots.withoutLast rowId init).idAt i = slots.idAt i := by
  simp only [idAt, withoutLast, hslots, List.getElem?_append_left hlt]

theorem idAt_withMoved {slotIdx i : Nat} (hlt : i < init.length) :
    (slots.withMoved rowId init last slotIdx).idAt i =
      if i = slotIdx then last.rowId else slots.idAt i := by
  simp only [idAt, withMoved, hslots, List.getElem?_append_left hlt]
  by_cases hi : i = slotIdx
  · rw [if_pos hi, hi, List.getElem?_set_self (hi ▸ hlt)]
    rfl
  · rw [if_neg hi, List.getElem?_set_ne (Ne.symm hi)]

include h

theorem mem_scan_concat (i : Nat) : i ∈ slots.scanOrder ↔ i < init.length + 1 := by
  rw [h.mem_scan, hslots, List.length_append, List.length_singleton]

theorem valid_withoutLast (hrow : slots.rows[rowId]? = some init.length) :
    (slots.withoutLast rowId init).Valid := by
  have hid := h.idAt_of_rows hrow
  have hlength : slots.rowSlots.length = init.length + 1 := by simp [hslots]
  refine ⟨fun id i => ?_, sorted_relabel h.scan_sorted fun i hi hne => ?_,
    mem_relabel le_rfl (mem_scan_concat h hslots)⟩
  · change (slots.rows.erase rowId)[id]? = some i ↔ i < init.length ∧ _
    rw [getElem?_erase]
    by_cases hlt : i < init.length
    · rw [idAt_withoutLast hslots hlt]
      by_cases hk : id = rowId
      · have hother : slots.idAt i ≠ rowId := fun heq =>
          hlt.ne (h.idAt_inj (by omega) (by omega) (heq.trans hid.symm))
        simp [hk, hother]
      · rw [if_neg hk, h.rows_iff]
        simp [hlt, Nat.lt_succ_of_lt hlt, hlength]
    · by_cases hk : id = rowId
      · simp [hk, hlt]
      · rw [if_neg hk, h.rows_iff, hlength]
        have hother : ¬ (i < init.length + 1 ∧ slots.idAt i = id) := fun ⟨hle, heq⟩ => by
          obtain rfl : i = init.length := by omega
          exact hk (heq.symm.trans hid)
        exact iff_of_false hother fun hkept => hlt hkept.1
  · have hlt : i < init.length := by
      have := (mem_scan_concat h hslots i).mp hi
      omega
    rw [if_neg hne, idAt_withoutLast hslots hlt]

theorem valid_withMoved {slotIdx : Nat} (hrow : slots.rows[rowId]? = some slotIdx)
    (hlt : slotIdx < init.length) : (slots.withMoved rowId init last slotIdx).Valid := by
  have hid := h.idAt_of_rows hrow
  have hlength : slots.rowSlots.length = init.length + 1 := by simp [hslots]
  have hlast := idAt_concat hslots
  have hne : last.rowId ≠ rowId := fun heq => by
    have hi := h.idAt_inj (by omega) (by omega) ((hlast.trans heq).trans hid.symm)
    omega
  refine ⟨fun id i => ?_, sorted_relabel h.scan_sorted fun i hi hne => ?_, fun i => ?_⟩
  · change ((slots.rows.erase rowId).insert last.rowId slotIdx)[id]? = some i ↔
      i < (init.set slotIdx last).length ∧ _
    rw [getElem?_insert, getElem?_erase, List.length_set]
    by_cases hk : id = last.rowId
    · rw [if_pos hk, hk]
      constructor
      · intro hi
        obtain rfl := Option.some.inj hi
        exact ⟨hlt, (idAt_withMoved hslots hlt).trans (if_pos rfl)⟩
      · rintro ⟨hi, hidAt⟩
        rw [idAt_withMoved hslots hi] at hidAt
        split at hidAt
        next hslot => rw [hslot]
        next => exact absurd (h.idAt_inj (by omega) (by omega) (hidAt.trans hlast.symm)) hi.ne
    · rw [if_neg hk]
      by_cases hk' : id = rowId
      · rw [if_pos hk', hk']
        refine ⟨nofun, fun ⟨hi, hidAt⟩ => ?_⟩
        rw [idAt_withMoved hslots hi] at hidAt
        split at hidAt
        next => exact absurd hidAt hne
        next hslot => exact absurd (h.idAt_inj (by omega) (by omega) (hidAt.trans hid.symm)) hslot
      · rw [if_neg hk', h.rows_iff, hlength]
        constructor
        · rintro ⟨hi, hidAt⟩
          have hi' : i ≠ init.length := fun heq => hk (by rw [← hidAt, heq, hlast])
          have hslot : i ≠ slotIdx := fun heq => hk' (by rw [← hidAt, heq, hid])
          have hi'' : i < init.length := by omega
          exact ⟨hi'', by rw [idAt_withMoved hslots hi'', if_neg hslot, hidAt]⟩
        · rintro ⟨hi, hidAt⟩
          rw [idAt_withMoved hslots hi] at hidAt
          split at hidAt
          next => exact absurd hidAt.symm hk
          next => exact ⟨Nat.lt_succ_of_lt hi, hidAt⟩
  · by_cases hi' : i = init.length
    · rw [if_pos hi', idAt_withMoved hslots hlt, if_pos rfl, hi', hlast]
    · have hlt' : i < init.length := by
        have := (mem_scan_concat h hslots i).mp hi
        omega
      rw [if_neg hi', idAt_withMoved hslots hlt', if_neg hne]
  · change i ∈ relabel slotIdx init.length slots.scanOrder ↔ i < (init.set slotIdx last).length
    rw [mem_relabel hlt.le (mem_scan_concat h hslots), List.length_set]

end

theorem rowRefById_of_perm {left : RowSlots V} {removed : RowSlot V} (h : slots.Valid)
    (hleft : left.Valid) (hperm : (removed :: left.rowSlots).Perm slots.rowSlots) (id : RowId) :
    left.rowRefById id = if id = removed.rowId then none else slots.rowRefById id := by
  have hnodup : (removed.rowId :: left.rowSlots.map RowSlot.rowId).Nodup :=
    (hperm.map RowSlot.rowId).nodup_iff.mpr h.nodup_rowIds
  apply Option.ext
  intro row
  rw [hleft.rowRefById_iff]
  split
  next hid =>
    refine ⟨fun hmem => ?_, nofun⟩
    exact absurd (List.mem_map_of_mem hmem) (hid ▸ (List.nodup_cons.mp hnodup).1)
  next hid =>
    rw [h.rowRefById_iff, ← hperm.mem_iff, List.mem_cons]
    have hne : (⟨id, row⟩ : RowSlot V) ≠ removed := fun heq => hid (congrArg RowSlot.rowId heq)
    simp [hne]

/-- Removing the row of an id leaves valid slots, in which the id is gone and the others have
the rows they had. -/
theorem Valid.removeRowSlot (h : slots.Valid) {slotIdx : Nat}
    (hrow : slots.rows[rowId]? = some slotIdx) :
    ∃ left row, slots.removeRowSlot rowId = some (left, some row) ∧ left.Valid ∧
      slots.rowRefById rowId = some row ∧
      ∀ id, left.rowRefById id = if id = rowId then none else slots.rowRefById id := by
  have hslot := h.lt_of_rows hrow
  have hid := h.idAt_of_rows hrow
  obtain ⟨init, last, hslots⟩ := Vec.exists_concat (Nat.zero_lt_of_lt hslot)
  have hlast := idAt_concat hslots
  by_cases heq : slotIdx = init.length
  · subst heq
    have hleft := valid_withoutLast h hslots hrow
    have hperm : (last :: init).Perm slots.rowSlots := by
      rw [hslots]
      exact (List.perm_append_singleton last init).symm
    obtain rfl : last.rowId = rowId := hlast.symm.trans hid
    refine ⟨_, _, removeRowSlot_last h hslots hrow, hleft, ?_, rowRefById_of_perm h hleft hperm⟩
    exact h.rowRefById_iff.mpr (hperm.mem_iff.mp (by simp))
  · have hlt : slotIdx < init.length := by
      rw [hslots, List.length_append, List.length_singleton] at hslot
      omega
    have hleft := valid_withMoved h hslots hrow hlt
    have hremoved : init[slotIdx].rowId = rowId := by
      rw [← hid, idAt, hslots, List.getElem?_append_left hlt, List.getElem?_eq_getElem hlt]
      rfl
    have hperm : (init[slotIdx] :: init.set slotIdx last).Perm slots.rowSlots := by
      have hin : slotIdx < (init ++ [last]).length := by rwa [← hslots]
      obtain ⟨left, hleft, hperm⟩ := Vec.swapRemove_perm hin
      rw [Vec.swapRemove_of_lt hlt] at hleft
      obtain rfl := Option.some.inj hleft
      rwa [List.getElem_append_left hlt, ← hslots] at hperm
    refine ⟨_, _, removeRowSlot_moved h hslots hrow hlt, hleft, ?_, fun id => ?_⟩
    · exact h.rowRefById_iff.mpr (hperm.mem_iff.mp (by simp [← hremoved]))
    · have hlookup := rowRefById_of_perm h hleft hperm id
      rwa [hremoved] at hlookup

end Remove

end RowSlots

end Cynos.Storage
