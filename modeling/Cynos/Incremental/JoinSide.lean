import Cynos.Incremental.Trace
import Cynos.Lib.Run
import Cynos.Lib.SlotMap
import Cynos.Lib.Vec

/-! One side of a join: its rows in slots, the slots by row id, and for each join key the bucket of
its slots. A slot knows its place in its bucket, so that it is taken out without a search. -/
namespace Cynos.Incremental

open Core
open Index (RowId)

variable {V : Type}

inductive JoinKey (V : Type) where
  | empty
  | one (value : Value V)
  | many (values : List (Value V))
  deriving DecidableEq

def JoinKey.fromVec : List (Value V) → JoinKey V
  | [] => empty
  | [value] => one value
  | values => many values

structure JoinSlot (V : Type) where
  row : TraceTupleHandle V
  key : JoinKey V
  bucketPos : Nat
  matchCount : Nat

structure JoinSideState (V : Type) where
  buckets : JoinKey V → Option (List Nat)
  rowToSlot : RowId → Option Nat
  slots : List (Option (JoinSlot V))
  freeList : List Nat
  colCount : Nat

/-- An update that leaves the join key as it is. -/
structure SameKeyTraceUpdate (V : Type) where
  oldRow : TraceTupleHandle V
  newRow : TraceTupleHandle V
  key : JoinKey V

section Repair

variable [DecidableEq V]

/-- `usize::MAX`, the position of a slot that was met already. -/
def markedPos : Nat := 0xFFFFFFFFFFFFFFFF

/-- A live slot of the key is kept and marked when it is met first. -/
def keepSlot (key : JoinKey V) (kept : List Nat × List (Option (JoinSlot V))) (slotId : Nat) :
    List Nat × List (Option (JoinSlot V)) :=
  match kept.2[slotId]?.join with
  | none => kept
  | some slot =>
    if slot.key ≠ key ∨ slot.bucketPos = markedPos then kept
    else (kept.1 ++ [slotId], kept.2.set slotId (some { slot with bucketPos := markedPos }))

def setBucketPos (slots : List (Option (JoinSlot V))) (entry : Nat × Nat) :
    List (Option (JoinSlot V)) :=
  match slots[entry.1]?.join with
  | none => slots
  | some slot => slots.set entry.1 (some { slot with bucketPos := entry.2 })

def repairBucketPositions (bucket : List Nat) (slots : List (Option (JoinSlot V)))
    (key : JoinKey V) : List Nat × List (Option (JoinSlot V)) :=
  let (bucket, slots) := bucket.foldl (keepSlot key) ([], slots)
  (bucket, bucket.zipIdx.foldl setBucketPos slots)

end Repair

namespace JoinSideState

def withColCount (colCount : Nat) : JoinSideState V :=
  ⟨fun _ => none, fun _ => none, [], [], colCount⟩

def ensureColCount (state : JoinSideState V) (row : TraceTupleHandle V) : JoinSideState V :=
  if state.colCount = 0 then { state with colCount := row.layout.len } else state

variable [DecidableEq V]

/-- The state and the slot of the new row. -/
def insert (state : JoinSideState V) (row : TraceTupleHandle V) (key : JoinKey V)
    (matchCount : Nat) : Option (JoinSideState V × Nat) := do
  let state := state.ensureColCount row
  let bucket := (state.buckets key).getD []
  let slot : JoinSlot V := ⟨row, key, bucket.length, matchCount⟩
  let (slots, freeList, slotId) ←
    match state.freeList with
    | slotId :: freeList => (Vec.setAt state.slots slotId (some slot)).map (·, freeList, slotId)
    | [] => some (state.slots ++ [some slot], [], state.slots.length)
  some ({ state with
    buckets := Function.update state.buckets key (some (bucket ++ [slotId]))
    rowToSlot := Function.update state.rowToSlot row.rowId (some slotId)
    slots, freeList }, slotId)

/-- Where the bucket of the key has the slot; the bucket is repaired when it is not where the
slot says. -/
def bucketPosition (state : JoinSideState V) (slotId : Nat) (key : JoinKey V)
    (expectedPos : Nat) : JoinSideState V × Option Nat :=
  match state.buckets key with
  | none => (state, none)
  | some bucket =>
    if expectedPos < bucket.length ∧ bucket[expectedPos]? = some slotId then
      (state, some expectedPos)
    else
      let (bucket, slots) := repairBucketPositions bucket state.slots key
      ({ state with buckets := Function.update state.buckets key (some bucket), slots },
        bucket.idxOf? slotId)

/-- The bucket without the entry at `removePos`; the last entry moves there. -/
def swapRemoveAt (bucket : List Nat) (slots : List (Option (JoinSlot V))) (key : JoinKey V)
    (removePos : Nat) : Option (List Nat × List (Option (JoinSlot V))) := do
  let bucket ← Vec.swapRemove bucket removePos
  match bucket[removePos]? with
  | none => some (bucket, slots)
  | some movedSlotId =>
    match slots[movedSlotId]?.join with
    | some movedSlot =>
      some (bucket, slots.set movedSlotId (some { movedSlot with bucketPos := removePos }))
    | none => some (repairBucketPositions bucket slots key)

/-- An emptied bucket goes. -/
def removeFromBucket (state : JoinSideState V) (slotId : Nat) (key : JoinKey V)
    (actualPos : Option Nat) : Option (JoinSideState V) :=
  match state.buckets key with
  | none => some state
  | some bucket => do
    let (bucket, slots, removePos) :=
      match actualPos with
      | some pos => (bucket, state.slots, pos)
      | none =>
        let (bucket, slots) := repairBucketPositions bucket state.slots key
        (bucket, slots, (bucket.idxOf? slotId).getD bucket.length)
    let (bucket, slots) ←
      if removePos ≥ bucket.length then some (bucket, slots)
      else swapRemoveAt bucket slots key removePos
    some { state with
      buckets := Function.update state.buckets key (if bucket.isEmpty then none else some bucket)
      slots }

def removeByRowId (state : JoinSideState V) (rowId : RowId) :
    Option (JoinSideState V × Option (JoinSlot V)) :=
  match state.rowToSlot rowId with
  | none => some (state, none)
  | some slotId =>
    let state := { state with rowToSlot := Function.update state.rowToSlot rowId none }
    match state.slots[slotId]?.join with
    | none => some (state, none)
    | some found =>
      let (state, actualPos) := state.bucketPosition slotId found.key found.bucketPos
      match state.slots[slotId]?.join with
      | none => some (state, none)
      | some slot => do
        let state := { state with slots := state.slots.set slotId none }
        let state ← state.removeFromBucket slotId found.key actualPos
        some ({ state with freeList := slotId :: state.freeList }, some slot)

/-- What `process_left_update_same_key` does to the side: a row that is not there is inserted,
with the matches `matchCount` of its key. -/
def updateSameKey (state : JoinSideState V) (update : SameKeyTraceUpdate V) (matchCount : Nat) :
    Option (JoinSideState V) :=
  match state.rowToSlot update.oldRow.rowId with
  | none => (state.insert update.newRow update.key matchCount).map Prod.fst
  | some slotId => do
    let slot ← state.slots[slotId]?.join
    some { state with slots := state.slots.set slotId (some { slot with row := update.newRow }) }

section Consistency

/-- The slots with the row map and the free list. -/
def table (state : JoinSideState V) : SlotMap RowId (JoinSlot V) :=
  ⟨state.slots, state.rowToSlot, state.freeList⟩

/-- The rows by row id, each with its key and the number of its matches. -/
def entries (state : JoinSideState V) (rowId : RowId) :
    Option (TraceTupleHandle V × JoinKey V × Nat) :=
  (state.table.lookup rowId).map fun slot => (slot.row, slot.key, slot.matchCount)

def bucketOf (state : JoinSideState V) (key : JoinKey V) : List Nat :=
  (state.buckets key).getD []

/-- The row map names exactly the live slots and the free list has the others; a slot is in the
bucket of its key, at the position that it says, and nothing else is in a bucket. -/
structure Consistent (state : JoinSideState V) : Prop where
  table : state.table.Valid fun slot => slot.row.rowId
  bucket : ∀ key pos slotId, (state.bucketOf key)[pos]? = some slotId ↔
    ∃ slot : JoinSlot V,
      state.slots[slotId]? = some (some slot) ∧ slot.key = key ∧ slot.bucketPos = pos

variable {state : JoinSideState V}

omit [DecidableEq V] in
theorem consistent_withColCount (colCount : Nat) :
    (withColCount colCount : JoinSideState V).Consistent where
  table := SlotMap.valid_empty
  bucket key pos slotId := by simp [bucketOf, withColCount]

omit [DecidableEq V] in
theorem Consistent.ensureColCount (h : state.Consistent) (row : TraceTupleHandle V) :
    (state.ensureColCount row).Consistent := by
  unfold JoinSideState.ensureColCount
  split
  · exact ⟨h.table, h.bucket⟩
  · exact h

omit [DecidableEq V] in
theorem rowToSlot_ensureColCount (state : JoinSideState V) (row : TraceTupleHandle V) :
    (state.ensureColCount row).rowToSlot = state.rowToSlot := by
  unfold JoinSideState.ensureColCount
  split <;> rfl

/-- What an insertion makes of a consistent state. -/
theorem insert_eq (h : state.Consistent) (row : TraceTupleHandle V) (key : JoinKey V)
    (matchCount : Nat) :
    ∃ next slotId, state.insert row key matchCount = some (next, slotId) ∧
      slotId = state.table.nextSlot ∧
      next.table =
        state.table.insert row.rowId ⟨row, key, (state.bucketOf key).length, matchCount⟩ ∧
      next.buckets = Function.update state.buckets key (some (state.bucketOf key ++ [slotId])) := by
  have hensure : (state.ensureColCount row).slots = state.slots ∧
      (state.ensureColCount row).freeList = state.freeList ∧
      (state.ensureColCount row).buckets = state.buckets := by
    unfold JoinSideState.ensureColCount
    split <;> exact ⟨rfl, rfl, rfl⟩
  obtain ⟨hslots, hfree, hbuckets⟩ := hensure
  unfold insert SlotMap.nextSlot SlotMap.insert
  simp only [hslots, hfree, hbuckets, rowToSlot_ensureColCount]
  cases hlist : state.freeList with
  | nil =>
    rw [show state.table.free = [] from hlist]
    refine ⟨_, _, rfl, rfl, ?_, rfl⟩
    simp [table, SlotMap.append, bucketOf, hlist]
  | cons slotId freeList =>
    rw [show state.table.free = slotId :: freeList from hlist]
    have hslot : state.slots[slotId]? = some none :=
      (h.table.mem_free slotId).mp (by rw [show state.table.free = _ from hlist]; simp)
    obtain ⟨hlt, -⟩ := List.getElem?_eq_some_iff.mp hslot
    simp only [Vec.setAt, if_pos hlt]
    exact ⟨_, _, rfl, rfl, rfl, rfl⟩

/-- A row whose id is not there yet. -/
theorem Consistent.insert (h : state.Consistent) {row : TraceTupleHandle V}
    (hfresh : state.rowToSlot row.rowId = none) (key : JoinKey V) (matchCount : Nat) :
    ∃ next slotId, state.insert row key matchCount = some (next, slotId) ∧ next.Consistent ∧
      ∀ id, next.entries id =
        if id = row.rowId then some (row, key, matchCount) else state.entries id := by
  obtain ⟨next, slotId, hinsert, hslotId, htable, hbuckets⟩ := insert_eq h row key matchCount
  refine ⟨next, slotId, hinsert, ⟨?_, fun other pos id => ?_⟩, fun id => ?_⟩
  · rw [htable]
    exact h.table.insert hfresh rfl
  · have hslots : next.slots[id]? = if id = slotId
        then some (some ⟨row, key, (state.bucketOf key).length, matchCount⟩)
        else state.slots[id]? := by
      rw [hslotId]
      exact (congrArg (·.slots[id]?) htable).trans (h.table.getElem?_insert _ _ id)
    have hbucket : next.bucketOf other =
        if other = key then state.bucketOf key ++ [slotId] else state.bucketOf other := by
      unfold bucketOf
      rw [hbuckets, Function.update_apply]
      by_cases hkey : other = key
      · simp [hkey, bucketOf]
      · simp [hkey]
    have hold := h.bucket other pos id
    have hnew : ∀ slot, state.slots[slotId]? ≠ some (some slot) := fun slot hslot =>
      h.table.ne_nextSlot hslot hslotId
    have hfar : (state.bucketOf other)[pos]? = some slotId → False := fun hpos => by
      obtain ⟨slot, hslot, -⟩ := (h.bucket other pos slotId).mp hpos
      exact hnew slot hslot
    rw [hslots, hbucket]
    by_cases hid : id = slotId
    · subst hid
      simp only [if_true, Option.some.injEq, exists_eq_left']
      by_cases hkey : other = key
      · subst hkey
        grind
      · rw [if_neg hkey]
        exact iff_of_false hfar fun hslot => hkey hslot.1.symm
    · rw [if_neg hid, ← hold]
      by_cases hkey : other = key
      · grind
      · rw [if_neg hkey]
  · rw [entries, htable, h.table.lookup_insert hfresh rfl]
    split <;> rfl

omit [DecidableEq V] in
/-- The slot of a row stands where it says in the bucket of its key. -/
theorem Consistent.bucketPosition (h : state.Consistent) {slotId : Nat} {slot : JoinSlot V}
    (hslot : state.slots[slotId]? = some (some slot)) :
    ∃ bucket, state.buckets slot.key = some bucket ∧
      bucket[slot.bucketPos]? = some slotId := by
  have hpos := (h.bucket slot.key slot.bucketPos slotId).mpr ⟨slot, hslot, rfl, rfl⟩
  unfold bucketOf at hpos
  cases hbucket : state.buckets slot.key with
  | none => simp [hbucket] at hpos
  | some bucket =>
    rw [hbucket] at hpos
    exact ⟨bucket, rfl, hpos⟩

/-- The bucket of a key has its live slots, each at the position it says. -/
def Lists (bucket : List Nat) (slots : List (Option (JoinSlot V))) (key : JoinKey V) : Prop :=
  ∀ pos slotId, bucket[pos]? = some slotId ↔
    ∃ slot : JoinSlot V, slots[slotId]? = some (some slot) ∧ slot.key = key ∧ slot.bucketPos = pos

/-- The last slot of a bucket moves to the place of the removed one. -/
theorem swapRemoveAt_eq {bucket : List Nat} {slots : List (Option (JoinSlot V))} {slotId : Nat}
    {slot : JoinSlot V} (h : Lists bucket slots slot.key)
    (hslot : slots[slotId]? = some (some slot)) :
    ∃ left slots', swapRemoveAt bucket (slots.set slotId none) slot.key slot.bucketPos =
        some (left, slots') ∧ Lists left slots' slot.key ∧
      (slots' = slots.set slotId none ∨ ∃ (movedId : Nat) (moved : JoinSlot V),
        (slots.set slotId none)[movedId]? = some (some moved) ∧ moved.key = slot.key ∧
          slots' = (slots.set slotId none).set movedId
            (some { moved with bucketPos := slot.bucketPos })) := by
  have hpos := (h slot.bucketPos slotId).mpr ⟨slot, hslot, rfl, rfl⟩
  obtain ⟨hlt, -⟩ := List.getElem?_eq_some_iff.mp hpos
  obtain ⟨hslotLt, -⟩ := List.getElem?_eq_some_iff.mp hslot
  obtain ⟨left, hleft, hlength, hentries⟩ := Vec.getElem?_swapRemove hlt
  have honce (pos : Nat) (hp : bucket[pos]? = some slotId) : pos = slot.bucketPos := by
    obtain ⟨other, hother, -, rfl⟩ := (h pos slotId).mp hp
    rw [hslot] at hother
    simp only [Option.some.injEq] at hother
    rw [hother]
  unfold swapRemoveAt
  rw [hleft, Option.bind_eq_bind, Option.bind_some]
  cases hplace : left[slot.bucketPos]? with
  | none =>
    have hlast : slot.bucketPos = left.length := by
      have := List.getElem?_eq_none_iff.mp hplace
      omega
    refine ⟨left, _, rfl, fun pos id => ?_, .inl rfl⟩
    rw [hentries, List.getElem?_set]
    by_cases hid : slotId = id
    · subst hid
      have := honce pos
      grind
    · rw [if_neg hid, ← h pos id]
      grind
  | some movedId =>
    have hbefore : slot.bucketPos < left.length := (List.getElem?_eq_some_iff.mp hplace).1
    have hfrom : bucket[left.length]? = some movedId := by
      rw [hentries, if_pos hbefore, if_pos rfl] at hplace
      exact hplace
    obtain ⟨moved, hmoved, hkey, hmovedPos⟩ := (h left.length movedId).mp hfrom
    have hne : slotId ≠ movedId := by
      rintro rfl
      have := honce left.length hfrom
      omega
    obtain ⟨hmovedLt, -⟩ := List.getElem?_eq_some_iff.mp hmoved
    have hkept : (slots.set slotId none)[movedId]? = some (some moved) := by
      rw [List.getElem?_set_ne hne, hmoved]
    have honceMoved (pos : Nat) (hp : bucket[pos]? = some movedId) : pos = left.length := by
      obtain ⟨other, hother, -, rfl⟩ := (h pos movedId).mp hp
      rw [hmoved] at hother
      simp only [Option.some.injEq] at hother
      rw [← hother, hmovedPos]
    simp only [hkept, Option.join_some]
    refine ⟨left, _, rfl, fun pos id => ?_, .inr ⟨movedId, moved, hkept, hkey, rfl⟩⟩
    rw [hentries, List.getElem?_set]
    by_cases hid : movedId = id
    · subst hid
      have := honceMoved pos
      grind
    · rw [if_neg hid, List.getElem?_set]
      by_cases hgone : slotId = id
      · subst hgone
        have := honce pos
        grind
      · rw [if_neg hgone, ← h pos id]
        grind

/-- Taking a row out of a consistent state; no bucket has to be repaired for it. -/
theorem removeByRowId_eq (h : state.Consistent) {rowId : RowId} {slotId : Nat}
    (hrow : state.rowToSlot rowId = some slotId) :
    ∃ slot bucket left slots', state.slots[slotId]? = some (some slot) ∧
      state.buckets slot.key = some bucket ∧
      swapRemoveAt bucket (state.slots.set slotId none) slot.key slot.bucketPos =
        some (left, slots') ∧
      state.removeByRowId rowId = some
        ({ state with
            buckets := Function.update state.buckets slot.key
              (if left.isEmpty then none else some left)
            rowToSlot := Function.update state.rowToSlot rowId none
            slots := slots'
            freeList := slotId :: state.freeList }, some slot) := by
  obtain ⟨slot, hslot, -⟩ := (h.table.live rowId slotId).mp hrow
  obtain ⟨bucket, hbucket, hpos⟩ := h.bucketPosition hslot
  have hlists : Lists bucket state.slots slot.key := by
    intro pos id
    have := h.bucket slot.key pos id
    rwa [bucketOf, hbucket] at this
  obtain ⟨left, slots', hswap, -⟩ := swapRemoveAt_eq hlists hslot
  obtain ⟨hlt, -⟩ := List.getElem?_eq_some_iff.mp hpos
  refine ⟨slot, bucket, left, slots', hslot, hbucket, hswap, ?_⟩
  change state.slots[slotId]? = some (some slot) at hslot
  unfold removeByRowId
  simp only [hrow, hslot, Option.join_some, JoinSideState.bucketPosition, hbucket,
    if_pos (And.intro hlt hpos), removeFromBucket, if_neg (Nat.not_le.mpr hlt), hswap,
    Option.bind_eq_bind, Option.bind_some]

theorem Consistent.removeByRowId (h : state.Consistent) (rowId : RowId) :
    ∃ next removed, state.removeByRowId rowId = some (next, removed) ∧ next.Consistent ∧
      ∀ id, next.entries id = if id = rowId then none else state.entries id := by
  cases hrow : state.rowToSlot rowId with
  | none =>
    refine ⟨state, none, by rw [JoinSideState.removeByRowId, hrow], h, fun id => ?_⟩
    split
    next hid =>
      rw [entries, hid, h.table.lookup_eq_none.mpr hrow]
      rfl
    next => rfl
  | some slotId =>
    obtain ⟨slot, bucket, left, slots', hslot, hbucket, hswap, hremove⟩ := removeByRowId_eq h hrow
    have hlists : Lists bucket state.slots slot.key := by
      intro pos id
      have := h.bucket slot.key pos id
      rwa [bucketOf, hbucket] at this
    obtain ⟨left', slots'', hswap', hleft, hslots⟩ := swapRemoveAt_eq hlists hslot
    obtain ⟨rfl, rfl⟩ : left' = left ∧ slots'' = slots' := by
      rw [hswap'] at hswap
      simpa using hswap
    have htable : (state.table.remove rowId).Valid fun slot => slot.row.rowId :=
      h.table.remove rowId
    have hremoved : state.table.remove rowId =
        ⟨state.slots.set slotId none, Function.update state.rowToSlot rowId none,
          slotId :: state.freeList⟩ := by
      rw [SlotMap.remove, show state.table.slotOf rowId = some slotId from hrow]
      rfl
    have hlookup : ∀ id, ((state.table.remove rowId).lookup id).map
        (fun slot => (slot.row, slot.key, slot.matchCount)) =
          if id = rowId then none else state.entries id := by
      intro id
      rw [h.table.lookup_remove]
      split <;> rfl
    rw [hremoved] at htable hlookup
    refine ⟨_, _, hremove, ⟨?_, fun key pos id => ?_⟩, fun id => ?_⟩
    · rcases hslots with rfl | ⟨movedId, moved, hmoved, -, rfl⟩
      · exact htable
      · exact htable.replace hmoved rfl
    · by_cases hkey : key = slot.key
      · subst hkey
        rw [← hleft pos id]
        unfold bucketOf
        simp only [Function.update_self]
        cases left' with
        | nil => rfl
        | cons first rest => rfl
      · have hother := h.bucket key pos id
        unfold bucketOf at hother ⊢
        simp only [Function.update_of_ne hkey]
        rw [hother]
        rcases hslots with rfl | ⟨movedId, moved, hmoved, hmovedKey, rfl⟩
        · grind
        · grind
    · rw [← hlookup id]
      rcases hslots with rfl | ⟨movedId, moved, hmoved, -, rfl⟩
      · rfl
      · have hreplace := htable.lookup_replace hmoved
          (show ({ moved with bucketPos := slot.bucketPos } : JoinSlot V).row.rowId = _ from rfl) id
        refine (congrArg
          (Option.map fun slot => (slot.row, slot.key, slot.matchCount)) hreplace).trans ?_
        split
        next hid =>
          rw [hid, htable.lookup_eq_some.mpr ⟨rfl, movedId, hmoved⟩]
          rfl
        next => rfl

theorem Consistent.updateSameKey (h : state.Consistent) {update : SameKeyTraceUpdate V}
    (hrowId : update.newRow.rowId = update.oldRow.rowId) (matchCount : Nat) :
    ∃ next, state.updateSameKey update matchCount = some next ∧ next.Consistent ∧
      ∀ id, next.entries id =
        if id = update.oldRow.rowId
        then some (update.newRow, ((state.entries id).map Prod.snd).getD (update.key, matchCount))
        else state.entries id := by
  unfold JoinSideState.updateSameKey
  cases hrow : state.rowToSlot update.oldRow.rowId with
  | none =>
    have hnone : state.entries update.oldRow.rowId = none := by
      rw [entries, h.table.lookup_eq_none.mpr hrow]
      rfl
    rw [← hrowId] at hrow
    obtain ⟨next, slotId, hinsert, hnext, hnextEntries⟩ := h.insert hrow update.key matchCount
    refine ⟨next, by simp only [hinsert, Option.map_some], hnext, fun id => ?_⟩
    rw [hnextEntries, hrowId]
    split
    next hid =>
      rw [hid, hnone]
      rfl
    next => rfl
  | some slotId =>
    obtain ⟨slot, hslot, hid⟩ := (h.table.live _ _).mp hrow
    have hsame : state.slots[slotId]? = some (some slot) := hslot
    obtain ⟨hlt, -⟩ := List.getElem?_eq_some_iff.mp hsame
    simp only [hsame, Option.join_some, Option.bind_eq_bind, Option.bind_some]
    refine ⟨_, rfl, ⟨?_, fun key pos id => ?_⟩, fun id => ?_⟩
    · exact h.table.replace hslot (hrowId.trans hid.symm)
    · have hold := h.bucket key pos id
      change (state.bucketOf key)[pos]? = some id ↔ _
      rw [hold]
      by_cases heq : slotId = id
      · subst heq
        rw [hsame, List.getElem?_set_self hlt]
        simp
      · simp only [List.getElem?_set_ne heq]
    · have hreplace := h.table.lookup_replace hslot
        (show ({ slot with row := update.newRow } : JoinSlot V).row.rowId = _ from
          hrowId.trans hid.symm) id
      refine (congrArg
        (Option.map fun slot => (slot.row, slot.key, slot.matchCount)) hreplace).trans ?_
      rw [show ({ slot with row := update.newRow } : JoinSlot V).row.rowId =
        update.oldRow.rowId from hrowId]
      split
      next heq =>
        rw [entries, heq, h.table.lookup_eq_some.mpr ⟨hid, slotId, hslot⟩]
        rfl
      next => rfl

end Consistency

section Runs

inductive JoinSideOperation (V : Type) where
  | insert (row : TraceTupleHandle V) (key : JoinKey V) (matchCount : Nat)
  | removeByRowId (rowId : RowId)
  /-- The new row stands for the old one, under its row id. -/
  | updateSameKey (update : SameKeyTraceUpdate V) (matchCount : Nat)
      (rowId_eq : update.newRow.rowId = update.oldRow.rowId)

/-- `none` where the code panics. -/
def operate (state : JoinSideState V) : JoinSideOperation V → Option (JoinSideState V)
  | .insert row key matchCount => (state.insert row key matchCount).map Prod.fst
  | .removeByRowId rowId => (state.removeByRowId rowId).map Prod.fst
  | .updateSameKey update matchCount _ => state.updateSameKey update matchCount

/-- The row that is inserted is not there yet. -/
def InsertsNew (state : JoinSideState V) : JoinSideOperation V → Prop
  | .insert row _ _ => state.rowToSlot row.rowId = none
  | .removeByRowId _ | .updateSameKey _ _ _ => True

theorem Consistent.operate {state : JoinSideState V} (h : state.Consistent)
    {operation : JoinSideOperation V} (hnew : state.InsertsNew operation) :
    ∃ next, state.operate operation = some next ∧ next.Consistent := by
  cases operation with
  | insert row key matchCount =>
    obtain ⟨next, slotId, hinsert, hnext, -⟩ := h.insert hnew key matchCount
    exact ⟨next, by rw [JoinSideState.operate, hinsert]; rfl, hnext⟩
  | removeByRowId rowId =>
    obtain ⟨next, removed, hremove, hnext, -⟩ := h.removeByRowId rowId
    exact ⟨next, by rw [JoinSideState.operate, hremove]; rfl, hnext⟩
  | updateSameKey update matchCount hrowId =>
    obtain ⟨next, hupdate, hnext, -⟩ := h.updateSameKey hrowId matchCount
    exact ⟨next, hupdate, hnext⟩

/-- A run that inserts no row twice keeps map, slots, buckets and free list together. -/
theorem run_consistent (colCount : Nat) {operations : List (JoinSideOperation V)}
    (h : Run.Along operate InsertsNew (withColCount colCount) operations) :
    ∃ state : JoinSideState V,
      Run.run operate (withColCount colCount) operations = some state ∧ state.Consistent :=
  Run.preserves (fun _ _ hstate hnew => hstate.operate hnew)
    (consistent_withColCount colCount) h

/-- Two rows, the first one taken out again and the second one changed. -/
theorem run_consistent_sample :
    ∃ state : JoinSideState Nat, Run.run operate (withColCount 1)
        [.insert (.owned (.new 1 [some 7])) .empty 0, .insert (.owned (.new 2 [some 7])) .empty 0,
          .removeByRowId 1,
          .updateSameKey ⟨.owned (.new 2 [some 7]), .owned (.new 2 [some 8]), .empty⟩ 0 rfl] =
      some state ∧ state.Consistent := by
  refine run_consistent 1 ⟨rfl, rfl, trivial, trivial, ?_⟩
  trivial

/-- The slot of a row that is inserted again stays behind, and the row map forgets it. -/
theorem insert_twice_inconsistent :
    ∃ state : JoinSideState Nat, Run.run operate (withColCount 1)
        [.insert (.owned (.new 1 [some 7])) .empty 0, .insert (.owned (.new 1 [some 7])) .empty 0] =
      some state ∧ ¬state.Consistent := by
  refine ⟨_, rfl, fun h => ?_⟩
  have hfirst := h.table.slotOf_keyOf (i := 0) rfl
  cases hfirst

end Runs

end JoinSideState

end Cynos.Incremental
