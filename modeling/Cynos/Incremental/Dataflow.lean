import Cynos.Incremental.Trace
import Mathlib.Logic.Function.Basic

/-! Dataflow trees and what one batch of source deltas makes of them. -/
namespace Cynos.Incremental

open Core

abbrev TableId := Nat
abbrev ColumnId := Nat

inductive JoinKeySpec (V : Type) where
  | columns (indices : List ColumnId)
  | constant (values : List (Value V))
  | dynamic (extractor : Row V → List (Value V))

inductive AggregateType where
  | count
  | sum
  | avg
  | min
  | max
  deriving DecidableEq

inductive JoinType where
  | inner
  | leftOuter
  | rightOuter
  | fullOuter
  deriving DecidableEq

variable {V : Type}

/-- The form of a row function that reads a handle; both are made from one expression. -/
abbrev HandleForm {A : Type} (f : Row V → A) : Type :=
  { g : TraceTupleHandle V → A // ∀ handle, g handle = f handle.materializeRc }

inductive DataflowNode (V : Type) where
  | source (tableId : TableId)
  | filter (input : DataflowNode V) (predicate : Row V → Bool)
      (tracePredicate : Option (HandleForm predicate))
  | project (input : DataflowNode V) (columns : List ColumnId)
  | map (input : DataflowNode V) (mapper : Row V → Row V)
      (traceMapper : Option (HandleForm mapper))
  | join (left right : DataflowNode V) (leftKey rightKey : JoinKeySpec V) (joinType : JoinType)
      (leftWidth rightWidth : Nat)
  | aggregate (input : DataflowNode V) (groupBy : List ColumnId)
      (functions : List (ColumnId × AggregateType))

/-- The stateful operators: their states and what a batch of deltas does to one. -/
structure Operators (V : Type) where
  JoinState : Type
  GroupAggregateState : Type
  withColCounts : Nat → Nat → JoinState
  processLeftJoinTraceDeltas : JoinState → JoinKeySpec V → JoinType →
    List (Delta (TraceTupleHandle V)) → JoinState × List (Delta (TraceTupleHandle V))
  processRightJoinTraceDeltas : JoinState → JoinKeySpec V → JoinType →
    List (Delta (TraceTupleHandle V)) → JoinState × List (Delta (TraceTupleHandle V))
  newGroupAggregateState : List ColumnId → List (ColumnId × AggregateType) → GroupAggregateState
  processTraceDeltasInto : GroupAggregateState → List (Delta (TraceTupleHandle V)) →
    GroupAggregateState × List (Delta (TraceTupleHandle V))

/-- The states of all joins and aggregates, by the state id of their node. -/
structure OperatorStates (ops : Operators V) where
  joinStates : Nat → Option ops.JoinState
  aggregateStates : Nat → Option ops.GroupAggregateState

section Rules

variable (ops : Operators V)

def processJoinTraceDeltas (states : OperatorStates ops) (stateId leftWidth rightWidth : Nat)
    (leftKey rightKey : JoinKeySpec V) (joinType : JoinType)
    (leftDeltas rightDeltas : List (Delta (TraceTupleHandle V))) :
    OperatorStates ops × List (Delta (TraceTupleHandle V)) :=
  if leftDeltas.isEmpty && rightDeltas.isEmpty then (states, [])
  else
    let state := (states.joinStates stateId).getD (ops.withColCounts leftWidth rightWidth)
    let (state, leftOutput) := if leftDeltas.isEmpty then (state, [])
      else ops.processLeftJoinTraceDeltas state leftKey joinType leftDeltas
    let (state, rightOutput) := if rightDeltas.isEmpty then (state, [])
      else ops.processRightJoinTraceDeltas state rightKey joinType rightDeltas
    ({ states with joinStates := Function.update states.joinStates stateId (some state) },
      leftOutput ++ rightOutput)

def processAggregateTraceDeltas (states : OperatorStates ops) (stateId : Nat)
    (groupBy : List ColumnId) (functions : List (ColumnId × AggregateType))
    (inputDeltas : List (Delta (TraceTupleHandle V))) :
    OperatorStates ops × List (Delta (TraceTupleHandle V)) :=
  if inputDeltas.isEmpty then (states, [])
  else
    let state := (states.aggregateStates stateId).getD (ops.newGroupAggregateState groupBy functions)
    let (state, output) := ops.processTraceDeltasInto state inputDeltas
    ({ states with aggregateStates := Function.update states.aggregateStates stateId (some state) },
      output)

end Rules

section Handles

/-- `cached` tells which handles without a row of their own have been materialized. -/
def hasMaterializedRow (cached : TraceTupleHandle V → Bool) (handle : TraceTupleHandle V) : Bool :=
  handle.materialized.isSome || cached handle

/-- `keep_trace_handle` and the choice in `map_trace_handle`. -/
def applyTraceHandle {A : Type} (cached : TraceTupleHandle V → Bool) (handle : TraceTupleHandle V)
    (f : Row V → A) (traceForm : Option (HandleForm f)) : A :=
  match traceForm.filter fun _ => !hasMaterializedRow cached handle with
  | some g => g.1 handle
  | none => f handle.materializeRc

def mapTraceHandle (cached : TraceTupleHandle V → Bool) (handle : TraceTupleHandle V)
    (mapper : Row V → Row V) (traceMapper : Option (HandleForm mapper)) : TraceTupleHandle V :=
  let mapped := applyTraceHandle cached handle mapper traceMapper
  .owned { mapped with id := handle.rowId, version := handle.version }

/-- Which rows are cached decides only which of two equal forms is asked. -/
@[simp] theorem applyTraceHandle_eq {A : Type} (cached : TraceTupleHandle V → Bool)
    (handle : TraceTupleHandle V) (f : Row V → A) (traceForm : Option (HandleForm f)) :
    applyTraceHandle cached handle f traceForm = f handle.materializeRc := by
  rw [applyTraceHandle]
  split
  · rename_i g _
    exact g.2 handle
  · rfl

theorem mapTraceHandle_eq (cached cached' : TraceTupleHandle V → Bool)
    (handle : TraceTupleHandle V) (mapper : Row V → Row V)
    (traceMapper : Option (HandleForm mapper)) :
    mapTraceHandle cached handle mapper traceMapper =
      mapTraceHandle cached' handle mapper traceMapper := by
  simp [mapTraceHandle]

end Handles

/-- Largest value of a state id. -/
def maxStateId : Nat := 2 ^ 64 - 1

def leftChildStateId (stateId : Nat) : Nat := min (min (stateId * 2) maxStateId + 1) maxStateId
def rightChildStateId (stateId : Nat) : Nat := min (min (stateId * 2) maxStateId + 2) maxStateId

/-- The tree from the bottom up, each node by its own rule. -/
def DataflowNode.evaluate [DecidableEq V] (ops : Operators V) (cached : TraceTupleHandle V → Bool)
    (sourceTable : TableId) (deltas : List (Delta (TraceTupleHandle V))) :
    DataflowNode V → Nat → OperatorStates ops →
      OperatorStates ops × List (Delta (TraceTupleHandle V))
  | .source tableId, _, states => (states, if tableId = sourceTable then deltas else [])
  | .filter input predicate tracePredicate, stateId, states =>
    let (states, rows) := input.evaluate ops cached sourceTable deltas stateId states
    (states, rows.filter fun d => applyTraceHandle cached d.data predicate tracePredicate)
  | .project input columns, stateId, states =>
    let (states, rows) := input.evaluate ops cached sourceTable deltas stateId states
    (states, rows.map fun d => ⟨d.data.project columns, d.diff⟩)
  | .map input mapper traceMapper, stateId, states =>
    let (states, rows) := input.evaluate ops cached sourceTable deltas stateId states
    (states, rows.map fun d => ⟨mapTraceHandle cached d.data mapper traceMapper, d.diff⟩)
  | .join left right leftKey rightKey joinType leftWidth rightWidth, stateId, states =>
    let (states, leftRows) :=
      left.evaluate ops cached sourceTable deltas (leftChildStateId stateId) states
    let (states, rightRows) :=
      right.evaluate ops cached sourceTable deltas (rightChildStateId stateId) states
    processJoinTraceDeltas ops states stateId leftWidth rightWidth leftKey rightKey joinType
      leftRows rightRows
  | .aggregate input groupBy functions, stateId, states =>
    let (states, rows) :=
      input.evaluate ops cached sourceTable deltas (leftChildStateId stateId) states
    processAggregateTraceDeltas ops states stateId groupBy functions rows

end Cynos.Incremental
