import Cynos.Incremental.Program

/-! A compiled program does what its dataflow tree does. The code of a node writes
no slot that was handed out before it and leaves the node's output in the slot it
returns; a unary operator that joins the block of its input keeps that. -/
namespace Cynos.Incremental

open Core

variable {V : Type} [DecidableEq V]

section Blocks

variable {runtimeNodes : List (TraceRuntimeNode V)} {cached : TraceTupleHandle V → Bool}

theorem applyTraceUnaryOps_append (front back : List TraceUnaryOp) (handle : TraceTupleHandle V) :
    applyTraceUnaryOps runtimeNodes cached (front ++ back) handle =
      (applyTraceUnaryOps runtimeNodes cached front handle).bind fun
        | none => some none
        | some handle => applyTraceUnaryOps runtimeNodes cached back handle := by
  induction front generalizing handle with
  | nil => rfl
  | cons op front ih =>
    rw [List.cons_append, applyTraceUnaryOps, applyTraceUnaryOps]
    cases applyTraceUnaryOp runtimeNodes cached op handle with
    | none => rfl
    | some kept =>
      cases kept with
      | none => rfl
      | some handle => exact ih handle

/-- A block runs its operators one after the other. -/
theorem executeUnaryFusionBlock_append (front back : List TraceUnaryOp)
    {input output : List (Delta (TraceTupleHandle V))}
    (h : executeUnaryFusionBlock runtimeNodes cached front input = some output) :
    executeUnaryFusionBlock runtimeNodes cached (front ++ back) input =
      executeUnaryFusionBlock runtimeNodes cached back output := by
  induction input generalizing output with
  | nil =>
    obtain rfl : [] = output := Option.some.inj h
    rfl
  | cons delta input ih =>
    rw [executeUnaryFusionBlock] at h ⊢
    rw [applyTraceUnaryOps_append]
    cases hops : applyTraceUnaryOps runtimeNodes cached front delta.data with
    | none => simp [hops] at h
    | some kept =>
      cases hrest : executeUnaryFusionBlock runtimeNodes cached front input with
      | none => simp [hops, hrest] at h
      | some rest =>
        simp only [hops, hrest, Option.bind_eq_bind, Option.bind_some, Option.some.injEq] at h
        rw [ih hrest]
        cases kept with
        | none =>
          obtain rfl := h
          simp
        | some handle =>
          obtain rfl := h
          rfl

theorem executeUnaryFusionBlock_single {op : TraceUnaryOp}
    {f : TraceTupleHandle V → Option (TraceTupleHandle V)}
    (hop : ∀ handle, applyTraceUnaryOp runtimeNodes cached op handle = some (f handle))
    (input : List (Delta (TraceTupleHandle V))) :
    executeUnaryFusionBlock runtimeNodes cached [op] input =
      some (input.filterMap fun d => (f d.data).map (⟨·, d.diff⟩)) := by
  induction input with
  | nil => rfl
  | cons delta input ih =>
    have happly : applyTraceUnaryOps runtimeNodes cached [op] delta.data = some (f delta.data) := by
      simp only [applyTraceUnaryOps, hop, Option.bind_eq_bind, Option.bind_some]
      cases f delta.data <;> rfl
    rw [executeUnaryFusionBlock, happly, ih]
    cases hf : f delta.data <;> simp [hf]

end Blocks

section Slots

variable {ops : Operators V} {runtimeNodes : List (TraceRuntimeNode V)}
  {cached : TraceTupleHandle V → Bool} {sourceTable : TableId}
  {deltas : List (Delta (TraceTupleHandle V))} {m : TraceMachine ops}

omit [DecidableEq V] in
theorem takeSlot_eq {slots : TraceSlots V} {slot : TraceSlotId}
    {input : List (Delta (TraceTupleHandle V))} (h : slots[slot]? = some input) :
    takeSlot slots slot = some (slots.set slot [], input) := by
  rw [takeSlot, h, Option.map_some]

omit [DecidableEq V] in
theorem writeSlot_eq {slots : TraceSlots V} {slot : TraceSlotId} (h : slot < slots.length)
    (output : List (Delta (TraceTupleHandle V))) :
    writeSlot slots slot output = some (slots.set slot output) := if_pos h

omit [DecidableEq V] in
theorem lt_length_of_getElem? {slots : TraceSlots V} {slot : TraceSlotId}
    {input : List (Delta (TraceTupleHandle V))} (h : slots[slot]? = some input) :
    slot < slots.length := by
  obtain ⟨hlt, -⟩ := List.getElem?_eq_some_iff.mp h
  exact hlt

theorem executeTraceInstruction_unary {input output : List (Delta (TraceTupleHandle V))}
    {inputSlot outputSlot : TraceSlotId} {block : UnaryFusionBlock}
    (hinput : m.slots[inputSlot]? = some input) (hslot : outputSlot < m.slots.length)
    (hblock : executeUnaryFusionBlock runtimeNodes cached block.ops input = some output) :
    executeTraceInstruction runtimeNodes cached sourceTable deltas m
        (.unary inputSlot outputSlot block) =
      some { m with
        slots := ((m.slots.set inputSlot []).set outputSlot output).set inputSlot [] } := by
  simp only [executeTraceInstruction, takeSlot_eq hinput, Option.bind_eq_bind, Option.bind_some,
    hblock]
  rw [writeSlot_eq (by simpa using hslot)]
  rfl

/-- An operator that joins a block acts on what the block leaves in its slot. -/
theorem executeTraceInstruction_push {m' : TraceMachine ops} {inputSlot outputSlot : TraceSlotId}
    {block : UnaryFusionBlock} {op : TraceUnaryOp} {output output' : List (Delta (TraceTupleHandle V))}
    (hne : inputSlot ≠ outputSlot)
    (h : executeTraceInstruction runtimeNodes cached sourceTable deltas m
      (.unary inputSlot outputSlot block) = some m')
    (houtput : m'.slots[outputSlot]? = some output)
    (hop : executeUnaryFusionBlock runtimeNodes cached [op] output = some output') :
    executeTraceInstruction runtimeNodes cached sourceTable deltas m
        (.unary inputSlot outputSlot (block.push op)) =
      some { m' with slots := m'.slots.set outputSlot output' } := by
  cases hinput : m.slots[inputSlot]? with
  | none => simp [executeTraceInstruction, takeSlot, hinput] at h
  | some input =>
    cases hblock : executeUnaryFusionBlock runtimeNodes cached block.ops input with
    | none => simp [executeTraceInstruction, takeSlot, hinput, hblock] at h
    | some written =>
      by_cases hslot : outputSlot < m.slots.length
      · rw [executeTraceInstruction_unary hinput hslot hblock, Option.some.injEq] at h
        obtain rfl := h
        have hwritten : written = output := by
          change (((m.slots.set inputSlot []).set outputSlot written).set inputSlot [])[outputSlot]? =
            some output at houtput
          rw [List.getElem?_set_ne hne, List.getElem?_set_self (by simpa using hslot)] at houtput
          exact Option.some.inj houtput
        subst hwritten
        rw [executeTraceInstruction_unary hinput hslot
          ((executeUnaryFusionBlock_append _ _ hblock).trans hop)]
        have hslots : (((m.slots.set inputSlot []).set outputSlot written).set inputSlot []).set
            outputSlot output' =
            ((m.slots.set inputSlot []).set outputSlot output').set inputSlot [] := by
          rw [List.set_comm [] output' hne, List.set_set]
        change _ = some { m with slots := _ }
        rw [hslots]
      · simp [executeTraceInstruction, takeSlot, hinput, hblock, writeSlot, hslot] at h

end Slots

section Emits

/-- What the code of a node does in a run, from any slots and states. -/
def RunsNode (node : DataflowNode V) (stateId : Nat) (c c' : TraceCompiler) (slot : Nat)
    (code : List TraceInstruction) : Prop :=
  ∀ (ops : Operators V) (runtimeNodes : List (TraceRuntimeNode V))
    (cached cached' : TraceTupleHandle V → Bool) (sourceTable : TableId)
    (deltas : List (Delta (TraceTupleHandle V))) (m : TraceMachine ops),
    collectTraceRuntimeNodes node <+: runtimeNodes.drop c.nextNodeIndex →
    c'.nextSlot ≤ m.slots.length →
    ∃ m', code.foldlM (executeTraceInstruction runtimeNodes cached sourceTable deltas) m = some m' ∧
      m'.states = (node.evaluate ops cached' sourceTable deltas stateId m.states).1 ∧
      m'.slots.length = m.slots.length ∧
      m'.slots[slot]? = some (node.evaluate ops cached' sourceTable deltas stateId m.states).2 ∧
      ∀ i < c.nextSlot, m'.slots[i]? = m.slots[i]?

/-- Compiling `node` from `c` appended `code` and returned `slot`. -/
structure Emits (node : DataflowNode V) (stateId : Nat) (c c' : TraceCompiler) (slot : Nat)
    (code : List TraceInstruction) : Prop where
  instructions : c'.instructions = c.instructions ++ code
  last : ∃ i, code.getLast? = some i ∧ i.outputSlot = slot
  low : c.nextSlot ≤ slot
  high : slot < c'.nextSlot
  nodes : c'.nextNodeIndex = c.nextNodeIndex + (collectTraceRuntimeNodes node).length
  apart : ∀ inputSlot outputSlot block, .unary inputSlot outputSlot block ∈ code →
    inputSlot ≠ outputSlot
  runs : RunsNode node stateId c c' slot code

/-- The rule of a node over one input that treats each delta by itself. -/
def UnaryRule (node input : DataflowNode V) (stateId nodeIndex : Nat) (op : TraceUnaryOp) : Prop :=
  ∀ (ops : Operators V) (runtimeNodes : List (TraceRuntimeNode V))
    (cached cached' : TraceTupleHandle V → Bool),
    collectTraceRuntimeNodes node <+: runtimeNodes.drop nodeIndex →
    ∃ f : TraceTupleHandle V → Option (TraceTupleHandle V),
      (∀ handle, applyTraceUnaryOp runtimeNodes cached op handle = some (f handle)) ∧
      ∀ sourceTable deltas (states : OperatorStates ops),
        node.evaluate ops cached' sourceTable deltas stateId states =
          ((input.evaluate ops cached' sourceTable deltas stateId states).1,
            (input.evaluate ops cached' sourceTable deltas stateId states).2.filterMap
              fun d => (f d.data).map (⟨·, d.diff⟩))

variable {node input : DataflowNode V} {stateId nodeIndex : Nat} {c c₁ : TraceCompiler}
  {slot : Nat} {code : List TraceInstruction} {op : TraceUnaryOp}

theorem UnaryRule.run (hrule : UnaryRule node input stateId nodeIndex op)
    {ops : Operators V} {runtimeNodes : List (TraceRuntimeNode V)}
    (cached cached' : TraceTupleHandle V → Bool)
    (hnodes : collectTraceRuntimeNodes node <+: runtimeNodes.drop nodeIndex) (sourceTable : TableId)
    (deltas : List (Delta (TraceTupleHandle V))) (states : OperatorStates ops) :
    (node.evaluate ops cached' sourceTable deltas stateId states).1 =
        (input.evaluate ops cached' sourceTable deltas stateId states).1 ∧
      executeUnaryFusionBlock runtimeNodes cached [op]
          (input.evaluate ops cached' sourceTable deltas stateId states).2 =
        some (node.evaluate ops cached' sourceTable deltas stateId states).2 := by
  obtain ⟨f, hop, hevaluate⟩ := hrule ops runtimeNodes cached cached' hnodes
  rw [hevaluate, executeUnaryFusionBlock_single hop]
  exact ⟨rfl, rfl⟩

omit [DecidableEq V] in
theorem prefix_drop_succ {x : TraceRuntimeNode V} {nodes runtimeNodes : List (TraceRuntimeNode V)}
    {nodeIndex : Nat} (h : x :: nodes <+: runtimeNodes.drop nodeIndex) :
    nodes <+: runtimeNodes.drop (nodeIndex + 1) := by
  obtain ⟨rest, hrest⟩ := h
  exact ⟨rest, by rw [← List.tail_drop, ← hrest]; rfl⟩

omit [DecidableEq V] in
theorem getElem?_of_prefix_drop {x : TraceRuntimeNode V}
    {nodes runtimeNodes : List (TraceRuntimeNode V)} {nodeIndex : Nat}
    (h : x :: nodes <+: runtimeNodes.drop nodeIndex) : runtimeNodes[nodeIndex]? = some x := by
  obtain ⟨rest, hrest⟩ := h
  have hhead := List.head?_drop (l := runtimeNodes) (i := nodeIndex)
  rw [← hhead, ← hrest]
  rfl

theorem Emits.fused {front : List TraceInstruction} {inputSlot : TraceSlotId}
    {block : UnaryFusionBlock}
    (h : Emits input stateId c.nextNode c₁ slot (front ++ [.unary inputSlot slot block]))
    (hcollect : ∃ x, collectTraceRuntimeNodes node = x :: collectTraceRuntimeNodes input)
    (hrule : UnaryRule node input stateId c.nextNodeIndex op) :
    Emits node stateId c
      { c₁ with instructions := c.instructions ++ (front ++ [.unary inputSlot slot (block.push op)]) }
      slot (front ++ [.unary inputSlot slot (block.push op)]) := by
  obtain ⟨x, hcollect⟩ := hcollect
  have hapart : inputSlot ≠ slot := h.apart inputSlot slot block (by simp)
  refine ⟨rfl, ⟨_, List.getLast?_concat, rfl⟩, h.low, h.high, ?_, ?_, ?_⟩
  · rw [hcollect, List.length_cons]
    have hnodes : c₁.nextNodeIndex =
        c.nextNodeIndex + 1 + (collectTraceRuntimeNodes input).length := h.nodes
    change c₁.nextNodeIndex = _
    omega
  · intro i o b hmem
    rw [List.mem_append, List.mem_singleton] at hmem
    cases hmem with
    | inl hfront => exact h.apart i o b (List.mem_append_left _ hfront)
    | inr hlast =>
      cases hlast
      exact hapart
  · intro ops runtimeNodes cached cached' sourceTable deltas m hprefixed hslots
    obtain ⟨hstates, hblock⟩ :=
      hrule.run cached cached' hprefixed sourceTable deltas m.states
    rw [hcollect] at hprefixed
    obtain ⟨m', hrun, hstates', hlength, houtput, hframe⟩ :=
      h.runs ops runtimeNodes cached cached' sourceTable deltas m
        (prefix_drop_succ hprefixed) hslots
    rw [List.foldlM_append] at hrun
    cases hfront : front.foldlM
        (executeTraceInstruction runtimeNodes cached sourceTable deltas) m with
    | none => simp [hfront] at hrun
    | some m₀ =>
      simp only [hfront, Option.bind_eq_bind, Option.bind_some, List.foldlM_cons,
        List.foldlM_nil, Option.bind_eq_some_iff] at hrun
      obtain ⟨m₁, hlast, hm₁⟩ := hrun
      obtain rfl : m₁ = m' := Option.some.inj hm₁
      refine ⟨⟨m₁.slots.set slot
        (node.evaluate ops cached' sourceTable deltas stateId m.states).2, m₁.states⟩, ?_, ?_, ?_, ?_, ?_⟩
      rotate_left
      · exact hstates'.trans hstates.symm
      · simpa using hlength
      · exact List.getElem?_set_self (lt_length_of_getElem? houtput)
      · intro i hi
        have hlow := h.low
        simp only [TraceCompiler.nextNode] at hlow
        change (m₁.slots.set slot _)[i]? = _
        rw [List.getElem?_set_ne (by omega)]
        exact hframe i hi
      · rw [List.foldlM_append, hfront]
        simp only [Option.bind_eq_bind, Option.bind_some, List.foldlM_cons, List.foldlM_nil]
        rw [executeTraceInstruction_push hapart hlast houtput hblock]
        rfl

/-- One more instruction, which turns the output of the input into the node's. -/
theorem Emits.overInput {inputId : Nat} {instruction : TraceInstruction}
    (h : Emits input inputId c.nextNode c₁ slot code)
    (hcollect : ∃ x, collectTraceRuntimeNodes node = x :: collectTraceRuntimeNodes input)
    (houtputSlot : instruction.outputSlot = c₁.nextSlot)
    (happly : ∀ inputSlot outputSlot block, .unary inputSlot outputSlot block = instruction →
      inputSlot ≠ outputSlot)
    (hrun : ∀ (ops : Operators V) runtimeNodes cached cached' sourceTable deltas
      (m m' : TraceMachine ops), collectTraceRuntimeNodes node <+: runtimeNodes.drop c.nextNodeIndex →
      m'.states = (input.evaluate ops cached' sourceTable deltas inputId m.states).1 →
      m'.slots[slot]? = some (input.evaluate ops cached' sourceTable deltas inputId m.states).2 →
      c₁.nextSlot < m'.slots.length →
      executeTraceInstruction runtimeNodes cached sourceTable deltas m' instruction =
        some ⟨((m'.slots.set slot []).set c₁.nextSlot
          (node.evaluate ops cached' sourceTable deltas stateId m.states).2).set slot [],
          (node.evaluate ops cached' sourceTable deltas stateId m.states).1⟩) :
    Emits node stateId c (c₁.emit fun _ => instruction).1 c₁.nextSlot (code ++ [instruction]) := by
  obtain ⟨x, hcollect⟩ := hcollect
  have hlow : c.nextSlot ≤ slot := h.low
  have hhigh := h.high
  refine ⟨?_, ⟨_, List.getLast?_concat, houtputSlot⟩, by omega, Nat.lt_succ_self _, ?_, ?_, ?_⟩
  · change c₁.instructions ++ _ = _
    rw [h.instructions, List.append_assoc]
    rfl
  · have hnodes : c₁.nextNodeIndex =
        c.nextNodeIndex + 1 + (collectTraceRuntimeNodes input).length := h.nodes
    rw [hcollect, List.length_cons]
    change c₁.nextNodeIndex = _
    omega
  · intro i o b hmem
    rw [List.mem_append, List.mem_singleton] at hmem
    cases hmem with
    | inl hcode => exact h.apart i o b hcode
    | inr hlast => exact happly i o b hlast
  · intro ops runtimeNodes cached cached' sourceTable deltas m hprefixed hslots
    change c₁.nextSlot + 1 ≤ _ at hslots
    have hbelow := hprefixed
    rw [hcollect] at hbelow
    obtain ⟨m', hcode, hstates, hlength, houtput, hframe⟩ :=
      h.runs ops runtimeNodes cached cached' sourceTable deltas m (prefix_drop_succ hbelow)
        (by omega)
    have hslot : c₁.nextSlot < m'.slots.length := by omega
    refine ⟨⟨((m'.slots.set slot []).set c₁.nextSlot
      (node.evaluate ops cached' sourceTable deltas stateId m.states).2).set slot [],
      (node.evaluate ops cached' sourceTable deltas stateId m.states).1⟩, ?_, rfl, ?_, ?_, ?_⟩
    · rw [List.foldlM_append, hcode]
      simp only [Option.bind_eq_bind, Option.bind_some, List.foldlM_cons, List.foldlM_nil]
      rw [hrun ops runtimeNodes cached cached' sourceTable deltas m m' hprefixed hstates houtput hslot]
      rfl
    · simpa using hlength
    · change (((m'.slots.set slot []).set c₁.nextSlot _).set slot [])[c₁.nextSlot]? = _
      rw [List.getElem?_set_ne (by omega), List.getElem?_set_self (by simpa using hslot)]
    · intro i hi
      change (((m'.slots.set slot []).set c₁.nextSlot _).set slot [])[i]? = _
      rw [List.getElem?_set_ne (by omega), List.getElem?_set_ne (by omega),
        List.getElem?_set_ne (by omega)]
      exact hframe i hi

theorem Emits.emitted (h : Emits input stateId c.nextNode c₁ slot code)
    (hcollect : ∃ x, collectTraceRuntimeNodes node = x :: collectTraceRuntimeNodes input)
    (hrule : UnaryRule node input stateId c.nextNodeIndex op) :
    Emits node stateId c (c₁.emit fun output => .unary slot output (.new op)).1 c₁.nextSlot
      (code ++ [.unary slot c₁.nextSlot (.new op)]) := by
  refine h.overInput hcollect rfl ?_ ?_
  · intro i o b hunary
    cases hunary
    exact h.high.ne
  · intro ops runtimeNodes cached cached' sourceTable deltas m m' hprefixed hstates houtput hslot
    obtain ⟨hsame, hblock⟩ :=
      hrule.run cached cached' hprefixed sourceTable deltas m.states
    rw [executeTraceInstruction_unary houtput hslot hblock, hsame, ← hstates]

/-- A unary operator over an input, in a block of its own or in the input's. -/
theorem Emits.appendTraceUnaryOp (h : Emits input stateId c.nextNode c₁ slot code)
    (hcollect : ∃ x, collectTraceRuntimeNodes node = x :: collectTraceRuntimeNodes input)
    (hrule : UnaryRule node input stateId c.nextNodeIndex op) :
    ∃ code', Emits node stateId c (c₁.appendTraceUnaryOp slot op).1
      (c₁.appendTraceUnaryOp slot op).2 code' := by
  have hemitted := h.emitted hcollect hrule
  obtain ⟨i, hi, rfl⟩ := h.last
  have hlast : c₁.instructions.getLast? = some i := by
    rw [h.instructions, List.getLast?_append, hi]
    rfl
  cases i with
  | unary inputSlot outputSlot block =>
    rw [TraceCompiler.appendTraceUnaryOp, hlast]
    by_cases hfuse : block.acceptsAppend = true
    · obtain ⟨front, rfl⟩ := List.getLast?_eq_some_iff.mp hi
      have hfront : c₁.instructions.dropLast = c.instructions ++ front := by
        rw [h.instructions, ← List.append_assoc]
        exact List.dropLast_concat
      refine ⟨front ++ [.unary inputSlot outputSlot (block.push op)], ?_⟩
      simp only [TraceInstruction.outputSlot, hfuse, and_self, if_true, hfront, List.append_assoc]
      exact h.fused hcollect hrule
    · simp only [TraceInstruction.outputSlot, hfuse]
      exact ⟨_, hemitted⟩
  | _ =>
    rw [TraceCompiler.appendTraceUnaryOp, hlast]
    exact ⟨_, hemitted⟩

end Emits

section Rules

variable {input : DataflowNode V} {stateId nodeIndex : Nat}

theorem unaryRule_filter (predicate : Row V → Bool)
    (tracePredicate : Option (HandleForm predicate)) :
    UnaryRule (.filter input predicate tracePredicate) input stateId nodeIndex
      (.filter nodeIndex tracePredicate.isSome) := by
  intro ops runtimeNodes cached cached' hnodes
  refine ⟨fun handle => if predicate handle.materializeRc then some handle else none, ?_, ?_⟩
  · intro handle
    rw [applyTraceUnaryOp, getElem?_of_prefix_drop hnodes]
    simp only [applyTraceHandle_eq]
  · intro sourceTable deltas states
    simp only [DataflowNode.evaluate, applyTraceHandle_eq]
    refine Prod.ext rfl ?_
    rw [← List.filterMap_eq_filter]
    refine List.filterMap_congr fun d _ => ?_
    by_cases hkeep : predicate d.data.materializeRc <;> simp [Option.guard, hkeep]

theorem unaryRule_project (columns : List ColumnId) :
    UnaryRule (.project input columns) input stateId nodeIndex (.project columns) := by
  intro ops runtimeNodes cached cached' _
  refine ⟨fun handle => some (handle.project columns), fun handle => rfl, ?_⟩
  intro sourceTable deltas states
  refine Prod.ext rfl ?_
  exact (congrFun List.filterMap_eq_map _).symm

theorem unaryRule_map (mapper : Row V → Row V) (traceMapper : Option (HandleForm mapper)) :
    UnaryRule (.map input mapper traceMapper) input stateId nodeIndex
      (.map nodeIndex traceMapper.isSome) := by
  intro ops runtimeNodes cached cached' hnodes
  refine ⟨fun handle => some (mapTraceHandle cached' handle mapper traceMapper), ?_, ?_⟩
  · intro handle
    rw [applyTraceUnaryOp, getElem?_of_prefix_drop hnodes]
    simp only [mapTraceHandle_eq cached cached']
  · intro sourceTable deltas states
    refine Prod.ext rfl ?_
    exact (congrFun List.filterMap_eq_map _).symm

end Rules

section Compile

variable {c c₁ c₂ : TraceCompiler} {stateId : Nat}

theorem emits_source (tableId : TableId) (stateId : Nat) (c : TraceCompiler) :
    Emits (.source tableId : DataflowNode V) stateId c
      (c.nextNode.emit fun slot => .source tableId slot).1 c.nextSlot
      [.source tableId c.nextSlot] := by
  refine ⟨rfl, ⟨_, rfl, rfl⟩, le_rfl, Nat.lt_succ_self _, rfl, by simp, ?_⟩
  intro ops runtimeNodes cached cached' sourceTable deltas m _ hslots
  refine ⟨⟨m.slots.set c.nextSlot (if tableId = sourceTable then deltas else []), m.states⟩,
    ?_, rfl, ?_, ?_, ?_⟩
  · have hslot : c.nextSlot < m.slots.length := hslots
    simp only [List.foldlM_cons, List.foldlM_nil, executeTraceInstruction, ite_not]
    rw [writeSlot_eq hslot]
    rfl
  · simp
  · exact List.getElem?_set_self hslots
  · intro i hi
    exact List.getElem?_set_ne (by omega)

theorem Emits.aggregate {input : DataflowNode V} {inputSlot : Nat} {code : List TraceInstruction}
    (h : Emits input (leftChildStateId stateId) c.nextNode c₁ inputSlot code)
    (groupBy : List ColumnId) (functions : List (ColumnId × AggregateType)) :
    Emits (.aggregate input groupBy functions) stateId c
      (c₁.emit fun slot => .aggregate stateId inputSlot slot groupBy functions).1 c₁.nextSlot
      (code ++ [.aggregate stateId inputSlot c₁.nextSlot groupBy functions]) := by
  refine h.overInput ⟨_, rfl⟩ rfl (by simp) ?_
  intro ops runtimeNodes cached cached' sourceTable deltas m m' _ hstates houtput hslot
  simp only [executeTraceInstruction, takeSlot_eq houtput, Option.bind_eq_bind, Option.bind_some,
    DataflowNode.evaluate, ← hstates]
  rw [writeSlot_eq (by simpa using hslot)]
  rfl

omit [DecidableEq V] in
theorem prefix_drop_append {front back runtimeNodes : List (TraceRuntimeNode V)} {nodeIndex : Nat}
    (h : front ++ back <+: runtimeNodes.drop nodeIndex) :
    back <+: runtimeNodes.drop (nodeIndex + front.length) := by
  obtain ⟨rest, hrest⟩ := h
  refine ⟨rest, ?_⟩
  rw [← List.drop_drop, ← hrest, List.append_assoc, List.drop_left]

/-- The left output waits in its slot while the code of the right input runs. -/
theorem Emits.join {left right : DataflowNode V} {leftSlot rightSlot : Nat}
    {leftCode rightCode : List TraceInstruction}
    (hleft : Emits left (leftChildStateId stateId) c.nextNode c₁ leftSlot leftCode)
    (hright : Emits right (rightChildStateId stateId) c₁ c₂ rightSlot rightCode)
    (leftKey rightKey : JoinKeySpec V) (joinType : JoinType) (leftWidth rightWidth : Nat) :
    Emits (.join left right leftKey rightKey joinType leftWidth rightWidth) stateId c
      (c₂.emit fun slot =>
        .join c.nextNodeIndex stateId leftWidth rightWidth leftSlot rightSlot slot).1 c₂.nextSlot
      (leftCode ++ rightCode ++
        [.join c.nextNodeIndex stateId leftWidth rightWidth leftSlot rightSlot c₂.nextSlot]) := by
  have hlow : c.nextSlot ≤ leftSlot := hleft.low
  have hleftHigh := hleft.high
  have hbetween := hright.low
  have hrightHigh := hright.high
  have hnodesLeft : c₁.nextNodeIndex =
      c.nextNodeIndex + 1 + (collectTraceRuntimeNodes left).length := hleft.nodes
  have hnodesRight := hright.nodes
  refine ⟨?_, ⟨_, List.getLast?_concat, rfl⟩, by omega, Nat.lt_succ_self _, ?_, ?_, ?_⟩
  · change c₂.instructions ++ _ = _
    rw [hright.instructions, hleft.instructions, List.append_assoc, List.append_assoc,
      List.append_assoc]
    rfl
  · rw [collectTraceRuntimeNodes, List.length_cons, List.length_append]
    change c₂.nextNodeIndex = _
    omega
  · intro i o b hmem
    simp only [List.mem_append, List.mem_singleton, reduceCtorEq, or_false] at hmem
    exact hmem.elim (hleft.apart i o b) (hright.apart i o b)
  · intro ops runtimeNodes cached cached' sourceTable deltas m hprefixed hslots
    change c₂.nextSlot + 1 ≤ _ at hslots
    have hnode := getElem?_of_prefix_drop hprefixed
    have hbelow := prefix_drop_succ hprefixed
    obtain ⟨m₁, hrun₁, hstates₁, hlength₁, houtput₁, hframe₁⟩ :=
      hleft.runs ops runtimeNodes cached cached' sourceTable deltas m
        ((List.prefix_append _ _).trans hbelow) (by omega)
    obtain ⟨m₂, hrun₂, hstates₂, hlength₂, houtput₂, hframe₂⟩ :=
      hright.runs ops runtimeNodes cached cached' sourceTable deltas m₁
        (by rw [hnodesLeft]; exact prefix_drop_append hbelow) (by omega)
    have hslot : c₂.nextSlot < m₂.slots.length := by omega
    rw [← hframe₂ leftSlot hleftHigh] at houtput₁
    have hsecond : (m₂.slots.set leftSlot [])[rightSlot]? = m₂.slots[rightSlot]? :=
      List.getElem?_set_ne (by omega)
    rw [← hsecond] at houtput₂
    rw [hstates₁] at hstates₂ houtput₂
    refine ⟨⟨((((m₂.slots.set leftSlot []).set rightSlot []).set c₂.nextSlot
      (DataflowNode.evaluate ops cached' sourceTable deltas
        (.join left right leftKey rightKey joinType leftWidth rightWidth) stateId m.states).2).set
          leftSlot []).set rightSlot [], (DataflowNode.evaluate ops cached' sourceTable deltas
        (.join left right leftKey rightKey joinType leftWidth rightWidth) stateId m.states).1⟩,
      ?_, rfl, ?_, ?_, ?_⟩
    · rw [List.foldlM_append, List.foldlM_append, hrun₁, Option.bind_eq_bind, Option.bind_some, hrun₂]
      simp only [Option.bind_eq_bind, Option.bind_some, List.foldlM_cons, List.foldlM_nil,
        executeTraceInstruction, hnode, takeSlot_eq houtput₁, takeSlot_eq houtput₂,
        DataflowNode.evaluate, ← hstates₂]
      rw [writeSlot_eq (by simpa using hslot)]
      rfl
    · simp [hlength₂, hlength₁]
    · change (List.set (List.set (List.set (List.set (List.set m₂.slots leftSlot []) rightSlot [])
        c₂.nextSlot _) leftSlot []) rightSlot [])[c₂.nextSlot]? = _
      rw [List.getElem?_set_ne (by omega), List.getElem?_set_ne (by omega),
        List.getElem?_set_self (by simpa using hslot)]
    · intro i hi
      change (List.set (List.set (List.set (List.set (List.set m₂.slots leftSlot []) rightSlot [])
        c₂.nextSlot _) leftSlot []) rightSlot [])[i]? = _
      rw [List.getElem?_set_ne (by omega), List.getElem?_set_ne (by omega),
        List.getElem?_set_ne (by omega), List.getElem?_set_ne (by omega),
        List.getElem?_set_ne (by omega), hframe₂ i (by omega)]
      exact hframe₁ i hi

/-- The code of every node, by induction on the tree. -/
theorem emits_compileTraceProgramNode (node : DataflowNode V) (stateId : Nat) (c : TraceCompiler) :
    ∃ code, Emits node stateId c (compileTraceProgramNode node stateId c).1
      (compileTraceProgramNode node stateId c).2 code := by
  induction node generalizing stateId c with
  | source tableId => exact ⟨_, emits_source tableId stateId c⟩
  | filter input predicate tracePredicate ih =>
    obtain ⟨code, h⟩ := ih stateId c.nextNode
    exact h.appendTraceUnaryOp ⟨_, rfl⟩ (unaryRule_filter predicate tracePredicate)
  | project input columns ih =>
    obtain ⟨code, h⟩ := ih stateId c.nextNode
    exact h.appendTraceUnaryOp ⟨_, rfl⟩ (unaryRule_project columns)
  | map input mapper traceMapper ih =>
    obtain ⟨code, h⟩ := ih stateId c.nextNode
    exact h.appendTraceUnaryOp ⟨_, rfl⟩ (unaryRule_map mapper traceMapper)
  | join left right leftKey rightKey joinType leftWidth rightWidth ihLeft ihRight =>
    obtain ⟨leftCode, hleft⟩ := ihLeft (leftChildStateId stateId) c.nextNode
    obtain ⟨rightCode, hright⟩ := ihRight (rightChildStateId stateId) _
    exact ⟨_, hleft.join hright leftKey rightKey joinType leftWidth rightWidth⟩
  | aggregate input groupBy functions ih =>
    obtain ⟨code, h⟩ := ih (leftChildStateId stateId) c.nextNode
    exact ⟨_, h.aggregate groupBy functions⟩

end Compile

section Execute

variable {ops : Operators V} (node : DataflowNode V)

/-- One batch, from any slots that an earlier batch may have left. -/
theorem executeCompiledTraceProgram_eq (slots : TraceSlots V)
    (hslots : slots.length = (compileTraceProgram node).slotCount)
    (cached cached' : TraceTupleHandle V → Bool) (states : OperatorStates ops)
    (sourceTable : TableId) (deltas : List (Delta (TraceTupleHandle V))) :
    ∃ slots', slots'.length = slots.length ∧
      executeCompiledTraceProgram node { compileTraceProgram node with scratchSlots := slots } cached
          states sourceTable deltas =
        some ({ compileTraceProgram node with scratchSlots := slots' },
          node.evaluate ops cached' sourceTable deltas 0 states) := by
  obtain ⟨code, hemits⟩ := emits_compileTraceProgramNode node 0 ⟨0, 0, []⟩
  obtain ⟨m, hrun, hstates, hlength, houtput, -⟩ :=
    hemits.runs ops (collectTraceRuntimeNodes node) cached cached' sourceTable deltas
      ⟨slots, states⟩ List.prefix_rfl hslots.ge
  have hinstructions : (compileTraceProgram node).instructions = code := hemits.instructions
  refine ⟨m.slots.set (compileTraceProgram node).rootSlot [], by simpa using hlength, ?_⟩
  have htake : takeSlot m.slots (compileTraceProgram node).rootSlot =
      some (m.slots.set (compileTraceProgram node).rootSlot [], _) := takeSlot_eq houtput
  simp only [executeCompiledTraceProgram, hinstructions, hrun, Option.bind_eq_bind,
    Option.bind_some, htake, hstates]

/-- A batch of deltas of one table, and the rows that are cached when it arrives. -/
structure TraceBatch (V : Type) where
  sourceTable : TableId
  deltas : List (Delta (TraceTupleHandle V))
  cached : TraceTupleHandle V → Bool

/-- `on_table_change_batch` on one batch after the other. -/
def executeBatches : CompiledTraceProgram V → OperatorStates ops → List (TraceBatch V) →
    Option (OperatorStates ops × List (List (Delta (TraceTupleHandle V))))
  | _, states, [] => some (states, [])
  | program, states, batch :: batches => do
    let (program, states, output) ← executeCompiledTraceProgram node program batch.cached states
      batch.sourceTable batch.deltas
    let (states, outputs) ← executeBatches program states batches
    some (states, output :: outputs)

def evaluateBatches (cached : TraceTupleHandle V → Bool) : OperatorStates ops →
    List (TraceBatch V) → OperatorStates ops × List (List (Delta (TraceTupleHandle V)))
  | states, [] => (states, [])
  | states, batch :: batches =>
    let (states, output) := node.evaluate ops cached batch.sourceTable batch.deltas 0 states
    let (states, outputs) := evaluateBatches cached states batches
    (states, output :: outputs)

theorem executeBatches_of_slots (cached : TraceTupleHandle V → Bool) (batches : List (TraceBatch V))
    (slots : TraceSlots V) (hslots : slots.length = (compileTraceProgram node).slotCount)
    (states : OperatorStates ops) :
    executeBatches node { compileTraceProgram node with scratchSlots := slots } states batches =
      some (evaluateBatches node cached states batches) := by
  induction batches generalizing slots states with
  | nil => rfl
  | cons batch batches ih =>
    obtain ⟨slots', hlength, hexecute⟩ := executeCompiledTraceProgram_eq node slots hslots
      batch.cached cached states batch.sourceTable batch.deltas
    rw [executeBatches, hexecute, Option.bind_eq_bind, Option.bind_some]
    simp only [ih slots' (hlength.trans hslots), Option.bind_eq_bind, Option.bind_some]
    rfl

end Execute

end Cynos.Incremental
