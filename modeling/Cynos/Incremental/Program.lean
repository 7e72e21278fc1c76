import Cynos.Incremental.Dataflow

/-! The linear program a dataflow tree is compiled to, and its execution. -/
namespace Cynos.Incremental

open Core

abbrev TraceSlotId := Nat

inductive TraceUnaryOp where
  | filter (nodeIndex : Nat) (tupleNative : Bool)
  | project (columns : List ColumnId)
  | map (nodeIndex : Nat) (tupleNative : Bool)
  deriving DecidableEq

def TraceUnaryOp.canAppend : TraceUnaryOp → Bool
  | .project _ => true
  | .filter _ tupleNative | .map _ tupleNative => tupleNative

structure UnaryFusionBlock where
  ops : List TraceUnaryOp
  acceptsAppend : Bool
  deriving DecidableEq

namespace UnaryFusionBlock

def new (op : TraceUnaryOp) : UnaryFusionBlock := ⟨[op], op.canAppend⟩

def push (block : UnaryFusionBlock) (op : TraceUnaryOp) : UnaryFusionBlock :=
  ⟨block.ops ++ [op], op.canAppend⟩

end UnaryFusionBlock

inductive TraceInstruction where
  | source (tableId : TableId) (outputSlot : TraceSlotId)
  | unary (inputSlot outputSlot : TraceSlotId) (block : UnaryFusionBlock)
  | join (nodeIndex stateId leftWidth rightWidth : Nat)
      (leftSlot rightSlot outputSlot : TraceSlotId)
  | aggregate (stateId : Nat) (inputSlot outputSlot : TraceSlotId) (groupBy : List ColumnId)
      (functions : List (ColumnId × AggregateType))
  deriving DecidableEq

def TraceInstruction.outputSlot : TraceInstruction → TraceSlotId
  | .source _ slot | .unary _ slot _ | .join _ _ _ _ _ _ slot | .aggregate _ _ slot _ _ => slot

/-- The counters and instructions that compilation writes to. -/
structure TraceCompiler where
  nextNodeIndex : Nat
  nextSlot : Nat
  instructions : List TraceInstruction

namespace TraceCompiler

def nextNode (c : TraceCompiler) : TraceCompiler := { c with nextNodeIndex := c.nextNodeIndex + 1 }

/-- A new slot for the output of a new instruction. -/
def emit (c : TraceCompiler) (instruction : TraceSlotId → TraceInstruction) :
    TraceCompiler × TraceSlotId :=
  ({ c with nextSlot := c.nextSlot + 1, instructions := c.instructions ++ [instruction c.nextSlot] },
    c.nextSlot)

def appendTraceUnaryOp (c : TraceCompiler) (inputSlot : TraceSlotId) (op : TraceUnaryOp) :
    TraceCompiler × TraceSlotId :=
  match c.instructions.getLast? with
  | some (.unary lastInput outputSlot block) =>
    if outputSlot = inputSlot ∧ block.acceptsAppend = true then
      ({ c with instructions :=
          c.instructions.dropLast ++ [.unary lastInput outputSlot (block.push op)] }, outputSlot)
    else c.emit fun slot => .unary inputSlot slot (.new op)
  | _ => c.emit fun slot => .unary inputSlot slot (.new op)

end TraceCompiler

variable {V : Type}

def compileTraceProgramNode : DataflowNode V → Nat → TraceCompiler → TraceCompiler × TraceSlotId
  | .source tableId, _, c => c.nextNode.emit fun slot => .source tableId slot
  | .filter input _ tracePredicate, stateId, c =>
    let (c', inputSlot) := compileTraceProgramNode input stateId c.nextNode
    c'.appendTraceUnaryOp inputSlot (.filter c.nextNodeIndex tracePredicate.isSome)
  | .project input columns, stateId, c =>
    let (c', inputSlot) := compileTraceProgramNode input stateId c.nextNode
    c'.appendTraceUnaryOp inputSlot (.project columns)
  | .map input _ traceMapper, stateId, c =>
    let (c', inputSlot) := compileTraceProgramNode input stateId c.nextNode
    c'.appendTraceUnaryOp inputSlot (.map c.nextNodeIndex traceMapper.isSome)
  | .join left right _ _ _ leftWidth rightWidth, stateId, c =>
    let (c₁, leftSlot) := compileTraceProgramNode left (leftChildStateId stateId) c.nextNode
    let (c₂, rightSlot) := compileTraceProgramNode right (rightChildStateId stateId) c₁
    c₂.emit fun slot => .join c.nextNodeIndex stateId leftWidth rightWidth leftSlot rightSlot slot
  | .aggregate input groupBy functions, stateId, c =>
    let (c', inputSlot) := compileTraceProgramNode input (leftChildStateId stateId) c.nextNode
    c'.emit fun slot => .aggregate stateId inputSlot slot groupBy functions

abbrev TraceSlots (V : Type) := List (List (Delta (TraceTupleHandle V)))

structure CompiledTraceProgram (V : Type) where
  instructions : List TraceInstruction
  slotCount : Nat
  rootSlot : TraceSlotId
  scratchSlots : TraceSlots V

def compileTraceProgram (node : DataflowNode V) : CompiledTraceProgram V :=
  let (c, rootSlot) := compileTraceProgramNode node 0 ⟨0, 0, []⟩
  ⟨c.instructions, c.nextSlot, rootSlot, List.replicate c.nextSlot []⟩

inductive TraceRuntimeNode (V : Type) where
  | filter (predicate : Row V → Bool) (tracePredicate : Option (HandleForm predicate))
  | map (mapper : Row V → Row V) (traceMapper : Option (HandleForm mapper))
  | join (leftKey rightKey : JoinKeySpec V) (joinType : JoinType)
  | marker

def collectTraceRuntimeNodes : DataflowNode V → List (TraceRuntimeNode V)
  | .source _ => [.marker]
  | .filter input predicate tracePredicate =>
    .filter predicate tracePredicate :: collectTraceRuntimeNodes input
  | .project input _ => .marker :: collectTraceRuntimeNodes input
  | .map input mapper traceMapper => .map mapper traceMapper :: collectTraceRuntimeNodes input
  | .join left right leftKey rightKey joinType _ _ =>
    .join leftKey rightKey joinType ::
      (collectTraceRuntimeNodes left ++ collectTraceRuntimeNodes right)
  | .aggregate input _ _ => .marker :: collectTraceRuntimeNodes input

section Execute

variable [DecidableEq V]

/-- One operator of a block on one tuple: `none` when the runtime node is of
another kind, `some none` when the tuple is dropped. -/
def applyTraceUnaryOp (runtimeNodes : List (TraceRuntimeNode V))
    (cached : TraceTupleHandle V → Bool) (op : TraceUnaryOp) (handle : TraceTupleHandle V) :
    Option (Option (TraceTupleHandle V)) :=
  match op with
  | .filter nodeIndex _ =>
    match runtimeNodes[nodeIndex]? with
    | some (.filter predicate tracePredicate) =>
      some (if applyTraceHandle cached handle predicate tracePredicate then some handle else none)
    | _ => none
  | .project columns => some (some (handle.project columns))
  | .map nodeIndex _ =>
    match runtimeNodes[nodeIndex]? with
    | some (.map mapper traceMapper) =>
      some (some (mapTraceHandle cached handle mapper traceMapper))
    | _ => none

def applyTraceUnaryOps (runtimeNodes : List (TraceRuntimeNode V))
    (cached : TraceTupleHandle V → Bool) :
    List TraceUnaryOp → TraceTupleHandle V → Option (Option (TraceTupleHandle V))
  | [], handle => some (some handle)
  | op :: ops, handle => do
    match ← applyTraceUnaryOp runtimeNodes cached op handle with
    | none => some none
    | some handle => applyTraceUnaryOps runtimeNodes cached ops handle

def executeUnaryFusionBlock (runtimeNodes : List (TraceRuntimeNode V))
    (cached : TraceTupleHandle V → Bool) (ops : List TraceUnaryOp) :
    List (Delta (TraceTupleHandle V)) → Option (List (Delta (TraceTupleHandle V)))
  | [] => some []
  | delta :: input => do
    let kept ← applyTraceUnaryOps runtimeNodes cached ops delta.data
    let output ← executeUnaryFusionBlock runtimeNodes cached ops input
    some (match kept with
      | none => output
      | some handle => ⟨handle, delta.diff⟩ :: output)

/-- What the instructions of a program write to. -/
structure TraceMachine (ops : Operators V) where
  slots : TraceSlots V
  states : OperatorStates ops

/-- An output slot is cleared and filled. -/
def writeSlot (slots : TraceSlots V) (slot : TraceSlotId)
    (output : List (Delta (TraceTupleHandle V))) : Option (TraceSlots V) :=
  if slot < slots.length then some (slots.set slot output) else none

/-- The emptied buffer of an input goes back to its slot. -/
def recycleSlotBuffer (slots : TraceSlots V) (slot : TraceSlotId) : TraceSlots V :=
  slots.set slot []

def takeSlot (slots : TraceSlots V) (slot : TraceSlotId) :
    Option (TraceSlots V × List (Delta (TraceTupleHandle V))) :=
  slots[slot]?.map fun input => (slots.set slot [], input)

def executeTraceInstruction {ops : Operators V} (runtimeNodes : List (TraceRuntimeNode V))
    (cached : TraceTupleHandle V → Bool) (sourceTable : TableId)
    (deltas : List (Delta (TraceTupleHandle V))) (m : TraceMachine ops) :
    TraceInstruction → Option (TraceMachine ops)
  | .source tableId outputSlot => do
    let slots ← writeSlot m.slots outputSlot (if tableId ≠ sourceTable then [] else deltas)
    some { m with slots }
  | .unary inputSlot outputSlot block => do
    let (slots, input) ← takeSlot m.slots inputSlot
    let output ← executeUnaryFusionBlock runtimeNodes cached block.ops input
    let slots ← writeSlot slots outputSlot output
    some { m with slots := recycleSlotBuffer slots inputSlot }
  | .join nodeIndex stateId leftWidth rightWidth leftSlot rightSlot outputSlot =>
    match runtimeNodes[nodeIndex]? with
    | some (.join leftKey rightKey joinType) => do
      let (slots, leftInput) ← takeSlot m.slots leftSlot
      let (slots, rightInput) ← takeSlot slots rightSlot
      let (states, output) := processJoinTraceDeltas ops m.states stateId leftWidth rightWidth
        leftKey rightKey joinType leftInput rightInput
      let slots ← writeSlot slots outputSlot output
      some { slots := recycleSlotBuffer (recycleSlotBuffer slots leftSlot) rightSlot, states }
    | _ => none
  | .aggregate stateId inputSlot outputSlot groupBy functions => do
    let (slots, input) ← takeSlot m.slots inputSlot
    let (states, output) :=
      processAggregateTraceDeltas ops m.states stateId groupBy functions input
    let slots ← writeSlot slots outputSlot output
    some { slots := recycleSlotBuffer slots inputSlot, states }

def executeCompiledTraceProgram {ops : Operators V} (dataflow : DataflowNode V)
    (program : CompiledTraceProgram V) (cached : TraceTupleHandle V → Bool)
    (states : OperatorStates ops) (sourceTable : TableId)
    (deltas : List (Delta (TraceTupleHandle V))) :
    Option (CompiledTraceProgram V × OperatorStates ops × List (Delta (TraceTupleHandle V))) := do
  let m ← program.instructions.foldlM
    (executeTraceInstruction (collectTraceRuntimeNodes dataflow) cached sourceTable deltas)
    { slots := program.scratchSlots, states : TraceMachine ops }
  let (slots, output) ← takeSlot m.slots program.rootSlot
  some ({ program with scratchSlots := slots }, m.states, output)

end Execute

end Cynos.Incremental
