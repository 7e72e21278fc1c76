import Cynos.Incremental.Derivation
import Cynos.Incremental.View
import Cynos.Lib.SlotMap

/-! The rows a query shows, kept as rows or as shared pointers to rows. Both ways hold them in
the same slots; a store of rows makes a shadow of pointers when it is asked for them. -/
namespace Cynos.Incremental

open Core
open Index (RowId)

variable {V : Type}

namespace VisibleRows

def applyRowDelta (store : VisibleRows V) (delta : Delta (Row V)) : VisibleRows V :=
  if delta.isInsert then store.upsert delta.data
  else if delta.isDelete then store.remove delta.data.id
  else store

def applyRows (store : VisibleRows V) (deltas : List (Delta (Row V))) : VisibleRows V :=
  deltas.foldl applyRowDelta store

end VisibleRows

/-- A pointer to a row stands for the row. -/
abbrev SharedVisibleRows (V : Type) := VisibleRows V

/-- `rcShadow` has the pointers to the rows of the slots, once they were asked for. -/
structure OwnedVisibleRows (V : Type) extends VisibleRows V where
  rcShadow : Option (List (Option (Row V)))

namespace OwnedVisibleRows

def empty : OwnedVisibleRows V := ⟨.empty, none⟩

def fromRows (rows : List (Row V)) : OwnedVisibleRows V := ⟨.fromRows rows, none⟩

def upsert (store : OwnedVisibleRows V) (row : Row V) : OwnedVisibleRows V where
  toVisibleRows := store.toVisibleRows.upsert row
  rcShadow := store.rcShadow.map fun shadow =>
    match store.rowToSlot row.id with
    | some slotId => shadow.set slotId (some row)
    | none =>
      match store.freeList with
      | slotId :: _ => shadow.set slotId (some row)
      | [] => shadow ++ [some row]

def remove (store : OwnedVisibleRows V) (rowId : RowId) : OwnedVisibleRows V where
  toVisibleRows := store.toVisibleRows.remove rowId
  rcShadow :=
    match store.rowToSlot rowId with
    | some slotId => store.rcShadow.map fun shadow => shadow.set slotId none
    | none => store.rcShadow

def applyDelta (store : OwnedVisibleRows V) (delta : Delta (TraceTupleHandle V)) :
    OwnedVisibleRows V :=
  if delta.isInsert then store.upsert delta.data.materializeRc
  else if delta.isDelete then store.remove delta.data.rowId
  else store

def applyRowDelta (store : OwnedVisibleRows V) (delta : Delta (Row V)) : OwnedVisibleRows V :=
  if delta.isInsert then store.upsert delta.data
  else if delta.isDelete then store.remove delta.data.id
  else store

def rcShadowSlots (store : OwnedVisibleRows V) : List (Option (Row V)) :=
  store.rcShadow.getD store.slots

/-- Asking for the pointers keeps the shadow. -/
def rcRows (store : OwnedVisibleRows V) : OwnedVisibleRows V × List (Row V) :=
  ({ store with rcShadow := some store.rcShadowSlots }, store.rcShadowSlots.filterMap id)

end OwnedVisibleRows

inductive VisibleResultStore (V : Type) where
  | owned (rows : OwnedVisibleRows V)
  | shared (rows : SharedVisibleRows V)

namespace VisibleResultStore

def default : VisibleResultStore V := owned .empty

def fromRows (rows : List (Row V)) : VisibleResultStore V := owned (.fromRows rows)

def fromRcRows (rows : List (Row V)) : VisibleResultStore V := shared (.fromRows rows)

def apply (batch : List (Delta (TraceTupleHandle V))) :
    VisibleResultStore V → VisibleResultStore V
  | owned rows => owned (batch.foldl OwnedVisibleRows.applyDelta rows)
  | shared rows => shared (rows.apply batch)

def applyRows (deltas : List (Delta (Row V))) : VisibleResultStore V → VisibleResultStore V
  | owned rows => owned (deltas.foldl OwnedVisibleRows.applyRowDelta rows)
  | shared rows => shared (rows.applyRows deltas)

def replaceRows (rows : List (Row V)) : VisibleResultStore V → VisibleResultStore V
  | owned _ | shared _ => owned (.fromRows rows)

def replaceRcRows (rows : List (Row V)) : VisibleResultStore V → VisibleResultStore V
  | owned _ | shared _ => shared (.fromRows rows)

def rows : VisibleResultStore V → List (Row V)
  | owned store => store.rows
  | shared store => store.rows

def rcRows : VisibleResultStore V → VisibleResultStore V × List (Row V)
  | owned store => (owned store.rcRows.1, store.rcRows.2)
  | shared store => (shared store, store.rows)

def clear : VisibleResultStore V → VisibleResultStore V
  | owned _ => owned .empty
  | shared _ => shared .empty

/-- The slots, which both ways have. -/
def slotRows : VisibleResultStore V → VisibleRows V
  | owned store => store.toVisibleRows
  | shared store => store

end VisibleResultStore

section Contents

/-- What is to be shown, as a map by row id. -/
abbrev RowContents (V : Type) := RowId → Option (Row V)

def putRow (contents : RowContents V) (row : Row V) : RowContents V :=
  Function.update contents row.id (some row)

def loadedRows (rows : List (Row V)) : RowContents V := rows.foldl putRow fun _ => none

def foldDelta (contents : RowContents V) (delta : Delta (Row V)) : RowContents V :=
  if delta.isInsert then putRow contents delta.data
  else if delta.isDelete then Function.update contents delta.data.id none
  else contents

end Contents

section Slots

namespace VisibleRows

/-- The slots with their map and free list. -/
def table (store : VisibleRows V) : SlotMap RowId (Row V) :=
  ⟨store.slots, store.rowToSlot, store.freeList⟩

theorem table_upsert (store : VisibleRows V) (row : Row V) :
    (store.upsert row).table = store.table.upsert row.id row := by
  obtain ⟨slots, rowToSlot, freeList⟩ := store
  unfold VisibleRows.upsert SlotMap.upsert SlotMap.insert table
  dsimp only
  cases rowToSlot row.id with
  | some slotId => rfl
  | none => cases freeList <;> rfl

theorem table_remove (store : VisibleRows V) (rowId : RowId) :
    (store.remove rowId).table = store.table.remove rowId := by
  obtain ⟨slots, rowToSlot, freeList⟩ := store
  unfold VisibleRows.remove SlotMap.remove table
  dsimp only
  cases rowToSlot rowId <;> rfl

theorem table_load {store : VisibleRows V} (h : store.table.Valid Row.id) (row : Row V) :
    (store.load row).table = (store.table.remove row.id).append row.id row := by
  unfold VisibleRows.load SlotMap.remove
  cases hslot : store.rowToSlot row.id with
  | none =>
    rw [show store.table.slotOf row.id = none from hslot]
    rfl
  | some slotId =>
    obtain ⟨previous, hprevious, -⟩ := (h.live row.id slotId).mp hslot
    obtain ⟨hlt, -⟩ := List.getElem?_eq_some_iff.mp hprevious
    rw [show store.table.slotOf row.id = some slotId from hslot]
    simp only [table, SlotMap.append, List.length_set, Function.update_idem]
    rw [List.set_append_left slotId none (show slotId < store.slots.length from hlt)]

/-- The rows loaded later stand for those loaded before under the same ids. -/
theorem table_fromRows (rows : List (Row V)) :
    (fromRows rows).table.Valid Row.id ∧
      ∀ id, (fromRows rows).table.lookup id = loadedRows rows id := by
  suffices hfold : ∀ (store : VisibleRows V) (contents : RowId → Option (Row V)),
      store.table.Valid Row.id → (∀ id, store.table.lookup id = contents id) →
        (rows.foldl load store).table.Valid Row.id ∧
          ∀ id, (rows.foldl load store).table.lookup id = rows.foldl putRow contents id by
    exact hfold empty (fun _ => none) SlotMap.valid_empty fun id => rfl
  induction rows with
  | nil => exact fun store contents h hcontents => ⟨h, hcontents⟩
  | cons row rows ih =>
    intro store contents h hcontents
    have hgone : (store.table.remove row.id).slotOf row.id = none := by
      rw [← (h.remove row.id).lookup_eq_none, h.lookup_remove, if_pos rfl]
    refine ih (store.load row) (putRow contents row) ?_ fun id => ?_
    · rw [table_load h]
      exact (h.remove row.id).append hgone rfl
    · rw [table_load h, (h.remove row.id).lookup_append hgone rfl, h.lookup_remove, hcontents]
      by_cases hid : id = row.id
      · simp [putRow, hid]
      · simp [putRow, hid]

theorem table_applyRowDelta {store : VisibleRows V} (h : store.table.Valid Row.id)
    {contents : RowContents V} (hcontents : ∀ id, store.table.lookup id = contents id)
    (delta : Delta (Row V)) :
    (store.applyRowDelta delta).table.Valid Row.id ∧
      ∀ id, (store.applyRowDelta delta).table.lookup id = foldDelta contents delta id := by
  unfold applyRowDelta foldDelta
  split
  · rw [table_upsert]
    refine ⟨h.upsert rfl, fun id => ?_⟩
    rw [h.lookup_upsert rfl, hcontents, putRow, Function.update_apply]
  split
  · rw [table_remove]
    refine ⟨h.remove _, fun id => ?_⟩
    rw [h.lookup_remove, hcontents, Function.update_apply]
  · exact ⟨h, hcontents⟩

theorem table_applyRows {store : VisibleRows V} (h : store.table.Valid Row.id)
    {contents : RowContents V} (hcontents : ∀ id, store.table.lookup id = contents id)
    (deltas : List (Delta (Row V))) :
    (store.applyRows deltas).table.Valid Row.id ∧
      ∀ id, (store.applyRows deltas).table.lookup id = deltas.foldl foldDelta contents id := by
  induction deltas generalizing store contents with
  | nil => exact ⟨h, hcontents⟩
  | cons delta deltas ih =>
    obtain ⟨hnext, hfolded⟩ := table_applyRowDelta h hcontents delta
    exact ih hnext hfolded

end VisibleRows

end Slots

section Operations

/-- Deltas of tuples as they leave a trace. -/
abbrev TraceDeltas (V : Type) := List (Delta (Derivation V))

variable [DecidableEq V]

def TraceDeltas.handles (batch : TraceDeltas V) : List (Delta (TraceTupleHandle V)) :=
  batch.map fun delta => ⟨delta.data.handle, delta.diff⟩

def TraceDeltas.rows (batch : TraceDeltas V) : List (Delta (Row V)) :=
  MaterializedView.materializeRows batch.handles

/-- A tuple has the row id of its row. -/
theorem Derivation.rowId_handle (derivation : Derivation V) :
    derivation.handle.rowId = derivation.handle.materializeRc.id := by
  have hnone {handle : TraceTupleHandle V} (h : handle.materialized = none) :
      handle.rowId = handle.materializeRc.id := by
    rw [TraceTupleHandle.materializeRc, h]
    rfl
  cases derivation with
  | base row => rfl
  | concat | nullPadLeft | nullPadRight | project => exact hnone rfl

theorem applyDelta_handle (store : VisibleRows V) (delta : Delta (Derivation V)) :
    store.applyDelta ⟨delta.data.handle, delta.diff⟩ =
      store.applyRowDelta ⟨delta.data.handle.materializeRc, delta.diff⟩ := by
  unfold VisibleRows.applyDelta VisibleRows.applyRowDelta
  rw [delta.data.rowId_handle]
  rfl

theorem apply_handles (store : VisibleRows V) (batch : TraceDeltas V) :
    store.apply batch.handles = store.applyRows batch.rows := by
  unfold VisibleRows.apply VisibleRows.applyRows TraceDeltas.rows MaterializedView.materializeRows
    TraceDeltas.handles
  rw [List.map_map, List.foldl_map, List.foldl_map]
  congr 1
  funext store delta
  exact applyDelta_handle store delta

inductive VisibleOperation (V : Type) where
  | replaceRows (rows : List (Row V))
  | replaceRcRows (rows : List (Row V))
  | apply (batch : TraceDeltas V)
  | applyRows (deltas : List (Delta (Row V)))
  | rcRows
  | clear

def VisibleResultStore.operate (store : VisibleResultStore V) :
    VisibleOperation V → VisibleResultStore V
  | .replaceRows rows => store.replaceRows rows
  | .replaceRcRows rows => store.replaceRcRows rows
  | .apply batch => store.apply batch.handles
  | .applyRows deltas => store.applyRows deltas
  | .rcRows => store.rcRows.1
  | .clear => store.clear

namespace VisibleOperation

/-- What the operation makes of the map to be shown. -/
def fold (contents : RowContents V) : VisibleOperation V → RowContents V
  | replaceRows rows | replaceRcRows rows => loadedRows rows
  | apply batch => batch.rows.foldl foldDelta contents
  | applyRows deltas => deltas.foldl foldDelta contents
  | rcRows => contents
  | clear => fun _ => none

/-- What it makes of the slots, however the rows in them are kept. -/
def onSlots (store : VisibleRows V) : VisibleOperation V → VisibleRows V
  | replaceRows rows | replaceRcRows rows => .fromRows rows
  | apply batch => store.apply batch.handles
  | applyRows deltas => store.applyRows deltas
  | rcRows => store
  | clear => .empty

/-- The same operation on a store that keeps rows. -/
def asOwned : VisibleOperation V → VisibleOperation V
  | replaceRcRows rows => replaceRows rows
  | operation => operation

theorem onSlots_asOwned (store : VisibleRows V) (operation : VisibleOperation V) :
    operation.asOwned.onSlots store = operation.onSlots store := by
  cases operation <;> rfl

omit [DecidableEq V] in
theorem asOwned_asOwned (operation : VisibleOperation V) :
    operation.asOwned.asOwned = operation.asOwned := by
  cases operation <;> rfl

theorem table_onSlots {store : VisibleRows V} (h : store.table.Valid Row.id)
    {contents : RowContents V} (hcontents : ∀ id, store.table.lookup id = contents id)
    (operation : VisibleOperation V) :
    (operation.onSlots store).table.Valid Row.id ∧
      ∀ id, (operation.onSlots store).table.lookup id = operation.fold contents id := by
  cases operation with
  | replaceRows rows | replaceRcRows rows => exact VisibleRows.table_fromRows rows
  | apply batch =>
    rw [onSlots, apply_handles]
    exact VisibleRows.table_applyRows h hcontents batch.rows
  | applyRows deltas => exact VisibleRows.table_applyRows h hcontents deltas
  | rcRows => exact ⟨h, hcontents⟩
  | clear => exact ⟨SlotMap.valid_empty, fun id => rfl⟩

theorem table_foldl_onSlots {store : VisibleRows V} (h : store.table.Valid Row.id)
    {contents : RowContents V} (hcontents : ∀ id, store.table.lookup id = contents id)
    (operations : List (VisibleOperation V)) :
    (operations.foldl onSlots store).table.Valid Row.id ∧
      ∀ id, (operations.foldl onSlots store).table.lookup id =
        operations.foldl fold contents id := by
  induction operations generalizing store contents with
  | nil => exact ⟨h, hcontents⟩
  | cons operation operations ih =>
    obtain ⟨hnext, hfolded⟩ := table_onSlots h hcontents operation
    exact ih hnext hfolded

end VisibleOperation

end Operations

section Shadow

namespace OwnedVisibleRows

/-- The shadow, where there is one, has the rows of the slots. -/
def Shadowed (store : OwnedVisibleRows V) : Prop :=
  ∀ shadow, store.rcShadow = some shadow → shadow = store.slots

variable {store : OwnedVisibleRows V}

theorem Shadowed.rcShadowSlots (h : store.Shadowed) : store.rcShadowSlots = store.slots := by
  unfold OwnedVisibleRows.rcShadowSlots
  cases hshadow : store.rcShadow with
  | none => rfl
  | some shadow => exact h shadow hshadow

theorem Shadowed.upsert (h : store.Shadowed) (row : Row V) : (store.upsert row).Shadowed := by
  intro shadow hshadow
  obtain ⟨before, hbefore, rfl⟩ := Option.map_eq_some_iff.mp hshadow
  rw [h before hbefore]
  change _ = (store.toVisibleRows.upsert row).slots
  unfold VisibleRows.upsert
  cases store.rowToSlot row.id with
  | some slotId => rfl
  | none => cases store.freeList <;> rfl

theorem Shadowed.remove (h : store.Shadowed) (rowId : RowId) : (store.remove rowId).Shadowed := by
  intro shadow hshadow
  change _ = (store.toVisibleRows.remove rowId).slots
  unfold OwnedVisibleRows.remove at hshadow
  unfold VisibleRows.remove
  cases hslot : store.rowToSlot rowId with
  | some slotId =>
    simp only [hslot] at hshadow
    obtain ⟨before, hbefore, rfl⟩ := Option.map_eq_some_iff.mp hshadow
    rw [h before hbefore]
  | none =>
    simp only [hslot] at hshadow
    exact h shadow hshadow

theorem applyRowDelta_spec (h : store.Shadowed) (delta : Delta (Row V)) :
    (store.applyRowDelta delta).toVisibleRows = store.toVisibleRows.applyRowDelta delta ∧
      (store.applyRowDelta delta).Shadowed := by
  unfold applyRowDelta VisibleRows.applyRowDelta
  split
  · exact ⟨rfl, h.upsert _⟩
  split
  · exact ⟨rfl, h.remove _⟩
  · exact ⟨rfl, h⟩

theorem applyDelta_spec (h : store.Shadowed) (delta : Delta (TraceTupleHandle V)) :
    (store.applyDelta delta).toVisibleRows = store.toVisibleRows.applyDelta delta ∧
      (store.applyDelta delta).Shadowed := by
  unfold applyDelta VisibleRows.applyDelta
  split
  · exact ⟨rfl, h.upsert _⟩
  split
  · exact ⟨rfl, h.remove _⟩
  · exact ⟨rfl, h⟩

/-- Steps that keep the shadow and do to the slots what `g` does, one after the other. -/
theorem foldl_spec {D : Type} {f : OwnedVisibleRows V → D → OwnedVisibleRows V}
    {g : VisibleRows V → D → VisibleRows V}
    (hstep : ∀ store : OwnedVisibleRows V, store.Shadowed → ∀ d,
      (f store d).toVisibleRows = g store.toVisibleRows d ∧ (f store d).Shadowed)
    (h : store.Shadowed) (deltas : List D) :
    (deltas.foldl f store).toVisibleRows = deltas.foldl g store.toVisibleRows ∧
      (deltas.foldl f store).Shadowed := by
  induction deltas generalizing store with
  | nil => exact ⟨rfl, h⟩
  | cons delta deltas ih =>
    obtain ⟨hslots, hnext⟩ := hstep store h delta
    rw [List.foldl_cons, List.foldl_cons, ← hslots]
    exact ih hnext

end OwnedVisibleRows

namespace VisibleResultStore

def Shadowed : VisibleResultStore V → Prop
  | owned store => store.Shadowed
  | shared _ => True

variable {store : VisibleResultStore V}

theorem rows_eq (store : VisibleResultStore V) : store.rows = store.slotRows.rows := by
  cases store <;> rfl

theorem Shadowed.rcRows (h : store.Shadowed) : store.rcRows.2 = store.slotRows.rows := by
  cases store with
  | owned store => exact congrArg (List.filterMap id) (OwnedVisibleRows.Shadowed.rcShadowSlots h)
  | shared store => rfl

theorem default_shadowed : (default : VisibleResultStore V).Shadowed := nofun

variable [DecidableEq V]

theorem Shadowed.operate (h : store.Shadowed) (operation : VisibleOperation V) :
    (store.operate operation).slotRows = operation.onSlots store.slotRows ∧
      (store.operate operation).Shadowed := by
  cases store with
  | shared store =>
    cases operation with
    | replaceRows rows => exact ⟨rfl, nofun⟩
    | replaceRcRows | apply | applyRows | rcRows | clear => exact ⟨rfl, trivial⟩
  | owned store =>
    cases operation with
    | replaceRows rows => exact ⟨rfl, nofun⟩
    | replaceRcRows rows => exact ⟨rfl, trivial⟩
    | apply batch =>
      exact OwnedVisibleRows.foldl_spec (fun _ => OwnedVisibleRows.applyDelta_spec) h batch.handles
    | applyRows deltas =>
      exact OwnedVisibleRows.foldl_spec (fun _ => OwnedVisibleRows.applyRowDelta_spec) h deltas
    | rcRows =>
      refine ⟨rfl, fun shadow hshadow => ?_⟩
      obtain rfl := Option.some.inj hshadow
      exact OwnedVisibleRows.Shadowed.rcShadowSlots h
    | clear => exact ⟨rfl, nofun⟩

theorem Shadowed.foldl_operate (h : store.Shadowed) (operations : List (VisibleOperation V)) :
    (operations.foldl VisibleResultStore.operate store).slotRows =
        operations.foldl VisibleOperation.onSlots store.slotRows ∧
      (operations.foldl VisibleResultStore.operate store).Shadowed := by
  induction operations generalizing store with
  | nil => exact ⟨rfl, h⟩
  | cons operation operations ih =>
    obtain ⟨hslots, hnext⟩ := h.operate operation
    rw [List.foldl_cons, List.foldl_cons, ← hslots]
    exact ih hnext

/-- The slots are in order, and the store shows what is to be shown. -/
structure Shows (store : VisibleResultStore V) (contents : RowContents V) : Prop where
  slots : store.slotRows.table.Valid Row.id
  lookup : ∀ rowId, store.slotRows.table.lookup rowId = contents rowId
  rows : ∀ row, row ∈ store.rows ↔ contents row.id = some row
  listedOnce : (store.rows.map Row.id).Nodup
  rcRows : store.rcRows.2 = store.rows

theorem slotRows_foldl_operate (operations : List (VisibleOperation V)) :
    (operations.foldl operate default).slotRows =
      (operations.map VisibleOperation.asOwned).foldl VisibleOperation.onSlots .empty := by
  rw [(default_shadowed.foldl_operate operations).1, List.foldl_map]
  simp only [VisibleOperation.onSlots_asOwned]
  rfl

/-- After any operations a store shows what they make of a map, in the order in which a store
that keeps rows all the time would show them. -/
theorem operate_shows (operations : List (VisibleOperation V)) :
    (operations.foldl operate default).Shows
        (operations.foldl VisibleOperation.fold fun _ => none) ∧
      (operations.foldl operate default).rows =
        ((operations.map VisibleOperation.asOwned).foldl operate default).rows := by
  obtain ⟨hslots, hshadowed⟩ := (default_shadowed (V := V)).foldl_operate operations
  have hempty : (VisibleRows.empty : VisibleRows V).table.Valid Row.id := SlotMap.valid_empty
  have hnone : ∀ rowId, (VisibleRows.empty : VisibleRows V).table.lookup rowId =
      (fun _ => none : RowContents V) rowId := fun _ => rfl
  obtain ⟨hvalid, hlookup⟩ := VisibleOperation.table_foldl_onSlots hempty hnone operations
  change (operations.foldl operate default).slotRows =
    operations.foldl VisibleOperation.onSlots .empty at hslots
  rw [← hslots] at hvalid hlookup
  refine ⟨⟨hvalid, hlookup, fun row => ?_, ?_, ?_⟩, ?_⟩
  · rw [rows_eq, ← hlookup]
    exact hvalid.mem_values
  · rw [rows_eq]
    exact hvalid.nodup_values
  · rw [hshadowed.rcRows, rows_eq]
  · rw [rows_eq, rows_eq, slotRows_foldl_operate, slotRows_foldl_operate, List.map_map]
    exact congrArg (fun run => (List.foldl VisibleOperation.onSlots .empty run).rows)
      (List.map_congr_left fun operation _ => operation.asOwned_asOwned.symm)

end VisibleResultStore

end Shadow

end Cynos.Incremental
