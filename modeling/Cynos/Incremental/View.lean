import Cynos.Incremental.Compile

/-! Materialized views: a dataflow, the states of its operators and the rows it shows. -/
namespace Cynos.Incremental

open Core
open Index (RowId)

namespace Delta

variable {T : Type}

def insert (data : T) : Delta T := ⟨data, 1⟩
def delete (data : T) : Delta T := ⟨data, -1⟩

def isInsert (delta : Delta T) : Bool := 0 < delta.diff
def isDelete (delta : Delta T) : Bool := delta.diff < 0

@[simp] theorem isInsert_insert (data : T) : (insert data).isInsert = true := rfl
@[simp] theorem isDelete_delete (data : T) : (delete data).isDelete = true := rfl

end Delta

variable {V : Type}

/-- The rows a view shows, in slots that are used again after a removal. -/
structure VisibleRows (V : Type) where
  slots : List (Option (Row V))
  rowToSlot : RowId → Option Nat
  freeList : List Nat

namespace VisibleRows

def empty : VisibleRows V := ⟨[], fun _ => none, []⟩

/-- One row of the loop of `from_rows`: a later row with the same id takes its place. -/
def load (store : VisibleRows V) (row : Row V) : VisibleRows V :=
  let slotId := store.slots.length
  let slots := store.slots ++ [some row]
  let rowToSlot := Function.update store.rowToSlot row.id (some slotId)
  match store.rowToSlot row.id with
  | some previousSlot => ⟨slots.set previousSlot none, rowToSlot, previousSlot :: store.freeList⟩
  | none => ⟨slots, rowToSlot, store.freeList⟩

def fromRows (rows : List (Row V)) : VisibleRows V := rows.foldl load empty

def upsert (store : VisibleRows V) (row : Row V) : VisibleRows V :=
  match store.rowToSlot row.id with
  | some slotId => { store with slots := store.slots.set slotId (some row) }
  | none =>
    match store.freeList with
    | slotId :: freeList =>
      ⟨store.slots.set slotId (some row), Function.update store.rowToSlot row.id (some slotId),
        freeList⟩
    | [] =>
      ⟨store.slots ++ [some row],
        Function.update store.rowToSlot row.id (some store.slots.length), []⟩

def remove (store : VisibleRows V) (rowId : RowId) : VisibleRows V :=
  match store.rowToSlot rowId with
  | some slotId =>
    ⟨store.slots.set slotId none, Function.update store.rowToSlot rowId none,
      slotId :: store.freeList⟩
  | none => store

def applyDelta (store : VisibleRows V) (delta : Delta (TraceTupleHandle V)) : VisibleRows V :=
  if delta.isInsert then store.upsert delta.data.materializeRc
  else if delta.isDelete then store.remove delta.data.rowId
  else store

def apply (store : VisibleRows V) (batch : List (Delta (TraceTupleHandle V))) : VisibleRows V :=
  batch.foldl applyDelta store

def rows (store : VisibleRows V) : List (Row V) := store.slots.filterMap id

end VisibleRows

section Dependencies

def mergeCompiledSources : List TableId → List TableId → List TableId
  | [], right => right
  | left, [] => left
  | l :: left, r :: right =>
    if l < r then l :: mergeCompiledSources left (r :: right)
    else if r < l then r :: mergeCompiledSources (l :: left) right
    else l :: mergeCompiledSources left right
termination_by left right => left.length + right.length

theorem mem_mergeCompiledSources {left right : List TableId} {tableId : TableId} :
    tableId ∈ mergeCompiledSources left right ↔ tableId ∈ left ∨ tableId ∈ right := by
  fun_induction mergeCompiledSources left right with
  | case1 right => simp
  | case2 left => simp
  | case3 l left r right h ih => simp only [List.mem_cons, ih, or_assoc]
  | case4 l left r right h h' ih => simp only [List.mem_cons, ih]; tauto
  | case5 l left r right h h' ih =>
    have heq : r = l := Nat.le_antisymm (not_lt.mp h) (not_lt.mp h')
    simp only [List.mem_cons, ih, heq]
    tauto

theorem pairwise_mergeCompiledSources {left right : List TableId} (hleft : left.Pairwise (· < ·))
    (hright : right.Pairwise (· < ·)) : (mergeCompiledSources left right).Pairwise (· < ·) := by
  fun_induction mergeCompiledSources left right with
  | case1 right => exact hright
  | case2 left => exact hleft
  | case3 l left r right h ih =>
    rw [List.pairwise_cons] at hleft ⊢
    refine ⟨fun tableId hmem => ?_, ih hleft.2 hright⟩
    rcases mem_mergeCompiledSources.mp hmem with hmem | hmem
    · exact hleft.1 _ hmem
    · rcases List.mem_cons.mp hmem with rfl | hmem
      · exact h
      · exact h.trans ((List.pairwise_cons.mp hright).1 _ hmem)
  | case4 l left r right h h' ih =>
    rw [List.pairwise_cons] at hright ⊢
    refine ⟨fun tableId hmem => ?_, ih hleft hright.2⟩
    rcases mem_mergeCompiledSources.mp hmem with hmem | hmem
    · rcases List.mem_cons.mp hmem with rfl | hmem
      · exact h'
      · exact h'.trans ((List.pairwise_cons.mp hleft).1 _ hmem)
    · exact hright.1 _ hmem
  | case5 l left r right h h' ih =>
    have heq : r = l := Nat.le_antisymm (not_lt.mp h) (not_lt.mp h')
    subst heq
    rw [List.pairwise_cons] at hleft hright ⊢
    refine ⟨fun tableId hmem => ?_, ih hleft.2 hright.2⟩
    rcases mem_mergeCompiledSources.mp hmem with hmem | hmem
    · exact hleft.1 _ hmem
    · exact hright.1 _ hmem

/-- The tables of the sources, each once and in order. -/
def compileDataflowDependencies : DataflowNode V → List TableId
  | .source tableId => [tableId]
  | .filter input _ _ | .project input _ | .map input _ _ | .aggregate input _ _ =>
    compileDataflowDependencies input
  | .join left right _ _ _ _ _ =>
    mergeCompiledSources (compileDataflowDependencies left) (compileDataflowDependencies right)

theorem pairwise_compileDataflowDependencies (node : DataflowNode V) :
    (compileDataflowDependencies node).Pairwise (· < ·) := by
  induction node with
  | source tableId => exact List.pairwise_singleton _ _
  | filter _ _ _ ih | project _ _ ih | map _ _ _ ih | aggregate _ _ _ ih => exact ih
  | join _ _ _ _ _ _ _ left right => exact pairwise_mergeCompiledSources left right

theorem nodup_compileDataflowDependencies (node : DataflowNode V) :
    (compileDataflowDependencies node).Nodup :=
  (pairwise_compileDataflowDependencies node).imp fun h => h.ne

end Dependencies

/-- `program` is compiled when the first change arrives. -/
structure MaterializedView (ops : Operators V) where
  dataflow : DataflowNode V
  program : Option (CompiledTraceProgram V)
  visibleRows : VisibleRows V
  dependencies : List TableId
  states : OperatorStates ops

namespace MaterializedView

variable {ops : Operators V}

def withCompiledInitial (dataflow : DataflowNode V) (initial : List (Row V))
    (states : OperatorStates ops) : MaterializedView ops where
  dataflow := dataflow
  program := none
  visibleRows := .fromRows initial
  dependencies := compileDataflowDependencies dataflow
  states := states

def new (dataflow : DataflowNode V) : MaterializedView ops :=
  withCompiledInitial dataflow [] ⟨fun _ => none, fun _ => none⟩

def result (view : MaterializedView ops) : List (Row V) := view.visibleRows.rows

/-- The sources are sorted, so that the binary search finds the ones that are there. -/
def dependsOn (view : MaterializedView ops) (tableId : TableId) : Bool :=
  tableId ∈ compileDataflowDependencies view.dataflow

def fromRowDeltas (deltas : List (Delta (Row V))) : List (Delta (TraceTupleHandle V)) :=
  deltas.map fun delta => ⟨.owned delta.data, delta.diff⟩

def materializeRows (batch : List (Delta (TraceTupleHandle V))) : List (Delta (Row V)) :=
  batch.map fun delta => ⟨delta.data.materializeRc, delta.diff⟩

@[simp] theorem materializeRows_isEmpty (batch : List (Delta (TraceTupleHandle V))) :
    (materializeRows batch).isEmpty = batch.isEmpty := by
  cases batch <;> rfl

variable [DecidableEq V]

def onTableChangeBatch (view : MaterializedView ops) (cached : TraceTupleHandle V → Bool)
    (tableId : TableId) (deltas : List (Delta (Row V))) :
    Option (MaterializedView ops × List (Delta (TraceTupleHandle V))) :=
  if view.dependsOn tableId then do
    let (program, states, output) ← executeCompiledTraceProgram view.dataflow
      (view.program.getD (compileTraceProgram view.dataflow)) cached view.states tableId
      (fromRowDeltas deltas)
    some ({ view with program := some program, states,
                      visibleRows := view.visibleRows.apply output }, output)
  else some (view, [])

/-- What a change makes of a view whose tree is evaluated node by node. -/
def change (view : MaterializedView ops) (tableId : TableId) (deltas : List (Delta (Row V))) :
    MaterializedView ops × List (Delta (TraceTupleHandle V)) :=
  if view.dependsOn tableId then
    let (states, output) := view.dataflow.evaluate ops (fun _ => false) tableId
      (fromRowDeltas deltas) 0 view.states
    ({ view with states, visibleRows := view.visibleRows.apply output }, output)
  else (view, [])

/-- The program of a view is that of its dataflow, and its dependencies are the sources. -/
structure Compiled (view : MaterializedView ops) : Prop where
  program : ∀ program, view.program = some program → ∃ slots : TraceSlots V,
    slots.length = (compileTraceProgram view.dataflow).slotCount ∧
      program = { compileTraceProgram view.dataflow with scratchSlots := slots }
  dependencies : view.dependencies = compileDataflowDependencies view.dataflow

omit [DecidableEq V] in
theorem compiled_withCompiledInitial (dataflow : DataflowNode V) (initial : List (Row V))
    (states : OperatorStates ops) : (withCompiledInitial dataflow initial states).Compiled :=
  ⟨fun _ h => (nomatch h : False).elim, rfl⟩

/-- What a view shows: everything but its program. -/
structure Shows (view view' : MaterializedView ops) : Prop where
  dataflow : view.dataflow = view'.dataflow
  visibleRows : view.visibleRows = view'.visibleRows
  states : view.states = view'.states

omit [DecidableEq V] in
theorem Shows.refl (view : MaterializedView ops) : Shows view view := ⟨rfl, rfl, rfl⟩

/-- A compiled view never misses a slot, and shows what the tree evaluates to. -/
theorem onTableChangeBatch_eq {view view' : MaterializedView ops} (hcompiled : view.Compiled)
    (hshows : Shows view view') (cached : TraceTupleHandle V → Bool) (tableId : TableId)
    (deltas : List (Delta (Row V))) :
    ∃ next, view.onTableChangeBatch cached tableId deltas =
        some (next, (view'.change tableId deltas).2) ∧
      next.Compiled ∧ Shows next (view'.change tableId deltas).1 := by
  obtain ⟨dataflow, program', visibleRows, dependencies', states⟩ := view'
  obtain ⟨dataflow, program, visibleRows, dependencies, states⟩ := view
  obtain ⟨rfl, rfl, rfl⟩ : dataflow = _ ∧ visibleRows = _ ∧ states = _ :=
    ⟨hshows.dataflow, hshows.visibleRows, hshows.states⟩
  unfold onTableChangeBatch change dependsOn
  dsimp only
  split
  · obtain ⟨slots, hslots, hprogram⟩ : ∃ slots : TraceSlots V,
        slots.length = (compileTraceProgram dataflow).slotCount ∧
          program.getD (compileTraceProgram dataflow) =
            { compileTraceProgram dataflow with scratchSlots := slots } := by
      cases hprogram : program with
      | none => exact ⟨_, List.length_replicate .., rfl⟩
      | some p => exact hcompiled.program p hprogram
    obtain ⟨slots', hlength, hexecute⟩ := executeCompiledTraceProgram_eq dataflow slots hslots
      cached (fun _ => false) states tableId (fromRowDeltas deltas)
    rw [hprogram, hexecute]
    refine ⟨_, rfl, ⟨?_, hcompiled.dependencies⟩, ⟨rfl, rfl, rfl⟩⟩
    rintro _ ⟨rfl⟩
    exact ⟨slots', hlength.trans hslots, rfl⟩
  · exact ⟨_, rfl, hcompiled, hshows⟩

end MaterializedView

end Cynos.Incremental
