import Cynos.Incremental.Program
import Cynos.Lib.HeapPosition

/-! The ids under which joins and aggregates keep their states: positions in a heap, as far
as they fit in a word. -/
namespace Cynos.Incremental

open HeapPosition (position saturated)

variable {V : Type}

/-- The state an instruction works on. -/
def TraceInstruction.stateId? : TraceInstruction → Option Nat
  | .source _ _ | .unary _ _ _ => none
  | .join _ stateId _ _ _ _ _ | .aggregate stateId _ _ _ _ => some stateId

/-- `left_child_state_id` with words of `bits` bits. -/
def leftChildStateIdOf (bits stateId : Nat) : Nat :=
  saturated bits (saturated bits (stateId * 2) + 1)

def rightChildStateIdOf (bits stateId : Nat) : Nat :=
  saturated bits (saturated bits (stateId * 2) + 2)

namespace DataflowNode

/-- The ids of the joins and aggregates of a tree, in the order they are compiled. -/
def stateIds (bits : Nat) : DataflowNode V → Nat → List Nat
  | .source _, _ => []
  | .filter input _ _, stateId | .project input _, stateId | .map input _ _, stateId =>
    input.stateIds bits stateId
  | .join left right _ _ _ _ _, stateId =>
    left.stateIds bits (leftChildStateIdOf bits stateId) ++
      right.stateIds bits (rightChildStateIdOf bits stateId) ++ [stateId]
  | .aggregate input _ _, stateId =>
    input.stateIds bits (leftChildStateIdOf bits stateId) ++ [stateId]

/-- How many joins and aggregates stand above each of them, `depth` above the tree. -/
def statefulDepths : DataflowNode V → Nat → List Nat
  | .source _, _ => []
  | .filter input _ _, depth | .project input _, depth | .map input _ _, depth =>
    input.statefulDepths depth
  | .join left right _ _ _ _ _, depth =>
    left.statefulDepths (depth + 1) ++ right.statefulDepths (depth + 1) ++ [depth]
  | .aggregate input _ _, depth => input.statefulDepths (depth + 1) ++ [depth]

/-- The way to each join and aggregate past those above it; an aggregate's input is its left. -/
def statefulPaths : DataflowNode V → List Bool → List (List Bool)
  | .source _, _ => []
  | .filter input _ _, path | .project input _, path | .map input _ _, path =>
    input.statefulPaths path
  | .join left right _ _ _ _ _, path =>
    left.statefulPaths (path ++ [false]) ++ right.statefulPaths (path ++ [true]) ++ [path]
  | .aggregate input _ _, path => input.statefulPaths (path ++ [false]) ++ [path]

section Paths

theorem map_length_statefulPaths (node : DataflowNode V) (path : List Bool) :
    (node.statefulPaths path).map List.length = node.statefulDepths path.length := by
  induction node generalizing path with
  | source => rfl
  | filter input _ _ ih | project input _ ih | map input _ _ ih => exact ih path
  | join left right _ _ _ _ _ ihl ihr => simp [statefulPaths, statefulDepths, ihl, ihr]
  | aggregate input _ _ ih => simp [statefulPaths, statefulDepths, ih]

theorem stateIds_eq_map (bits : Nat) (node : DataflowNode V) (path : List Bool) :
    node.stateIds bits (saturated bits (position path)) =
      (node.statefulPaths path).map fun path => saturated bits (position path) := by
  induction node generalizing path with
  | source => rfl
  | filter input _ _ ih | project input _ ih | map input _ _ ih => exact ih path
  | join left right _ _ _ _ _ ihl ihr =>
    have hleft := HeapPosition.saturated_child bits (position path) false
    have hright := HeapPosition.saturated_child bits (position path) true
    rw [← HeapPosition.position_snoc] at hleft hright
    simp only [stateIds, statefulPaths, leftChildStateIdOf, rightChildStateIdOf, List.map_append,
      ← ihl, ← ihr, ← hleft, ← hright]
    rfl
  | aggregate input _ _ ih =>
    have hleft := HeapPosition.saturated_child bits (position path) false
    rw [← HeapPosition.position_snoc] at hleft
    simp only [stateIds, statefulPaths, leftChildStateIdOf, List.map_append, ← ih, ← hleft]
    rfl

theorem prefix_of_mem_statefulPaths {node : DataflowNode V} {path way : List Bool}
    (h : way ∈ node.statefulPaths path) : path <+: way := by
  induction node generalizing path with
  | source => simp [statefulPaths] at h
  | filter input _ _ ih | project input _ ih | map input _ _ ih => exact ih h
  | join left right _ _ _ _ _ ihl ihr =>
    simp only [statefulPaths, List.mem_append, List.mem_singleton] at h
    rcases h with (h | h) | rfl
    · exact (List.prefix_append path [false]).trans (ihl h)
    · exact (List.prefix_append path [true]).trans (ihr h)
    · exact List.prefix_rfl
  | aggregate input _ _ ih =>
    simp only [statefulPaths, List.mem_append, List.mem_singleton] at h
    rcases h with h | rfl
    · exact (List.prefix_append path [false]).trans (ih h)
    · exact List.prefix_rfl

theorem ne_of_mem_snoc {node : DataflowNode V} {path way : List Bool} {right : Bool}
    (h : way ∈ node.statefulPaths (path ++ [right])) : way ≠ path := by
  rintro rfl
  have := (prefix_of_mem_statefulPaths h).length_le
  simp at this

theorem nodup_statefulPaths (node : DataflowNode V) (path : List Bool) :
    (node.statefulPaths path).Nodup := by
  induction node generalizing path with
  | source => exact List.nodup_nil
  | filter input _ _ ih | project input _ ih | map input _ _ ih => exact ih path
  | join left right _ _ _ _ _ ihl ihr =>
    have hsides : ∀ way ∈ left.statefulPaths (path ++ [false]),
        ∀ other ∈ right.statefulPaths (path ++ [true]), way ≠ other := by
      rintro way hl _ hr rfl
      obtain ⟨rest, hrest⟩ := prefix_of_mem_statefulPaths hl
      obtain ⟨rest', hrest'⟩ := prefix_of_mem_statefulPaths hr
      rw [← hrest', List.append_assoc, List.append_assoc] at hrest
      simpa using List.append_cancel_left hrest
    refine List.nodup_append.mpr ⟨List.nodup_append.mpr ⟨ihl _, ihr _, hsides⟩,
      List.pairwise_singleton _ path, fun way hw other ho => ?_⟩
    rw [List.mem_singleton.mp ho]
    rcases List.mem_append.mp hw with hw | hw
    · exact ne_of_mem_snoc hw
    · exact ne_of_mem_snoc hw
  | aggregate input _ _ ih =>
    refine List.nodup_append.mpr ⟨ih _, List.pairwise_singleton _ path, fun way hw other ho => ?_⟩
    rw [List.mem_singleton.mp ho]
    exact ne_of_mem_snoc hw

theorem nodup_stateIds_iff (bits : Nat) (node : DataflowNode V) :
    (node.stateIds bits 0).Nodup ↔ (node.statefulDepths 0).countP (bits ≤ ·) ≤ 1 := by
  have hids := node.stateIds_eq_map bits []
  rw [HeapPosition.position_nil, show saturated bits 0 = 0 from Nat.zero_min _] at hids
  rw [hids, HeapPosition.nodup_saturated_iff bits (node.nodup_statefulPaths []),
    ← List.length_nil, ← node.map_length_statefulPaths [], List.countP_map]
  rfl

end Paths

end DataflowNode

section Programs

theorem emit_stateIds (c : TraceCompiler) (instruction : TraceSlotId → TraceInstruction) :
    (c.emit instruction).1.instructions.filterMap TraceInstruction.stateId? =
      c.instructions.filterMap TraceInstruction.stateId? ++
        (instruction c.nextSlot).stateId?.toList := by
  rw [TraceCompiler.emit, List.filterMap_append, List.filterMap_cons]
  cases (instruction c.nextSlot).stateId? <;> rfl

/-- Filters, projections and maps have no state, alone or in a block. -/
theorem appendTraceUnaryOp_stateIds (c : TraceCompiler) (inputSlot : TraceSlotId)
    (op : TraceUnaryOp) :
    (c.appendTraceUnaryOp inputSlot op).1.instructions.filterMap TraceInstruction.stateId? =
      c.instructions.filterMap TraceInstruction.stateId? := by
  have hemit : (c.emit fun slot => .unary inputSlot slot (.new op)).1.instructions.filterMap
      TraceInstruction.stateId? = c.instructions.filterMap TraceInstruction.stateId? := by
    rw [emit_stateIds]
    exact List.append_nil _
  unfold TraceCompiler.appendTraceUnaryOp
  split
  · rename_i lastInput outputSlot block hlast
    split
    · obtain ⟨front, hfront⟩ := List.getLast?_eq_some_iff.mp hlast
      simp only [hfront, List.dropLast_concat, List.filterMap_append, List.filterMap_cons,
        List.filterMap_nil, TraceInstruction.stateId?]
    · exact hemit
  · exact hemit

theorem compileTraceProgramNode_stateIds (node : DataflowNode V) (stateId : Nat)
    (c : TraceCompiler) :
    (compileTraceProgramNode node stateId c).1.instructions.filterMap TraceInstruction.stateId? =
      c.instructions.filterMap TraceInstruction.stateId? ++ node.stateIds 64 stateId := by
  induction node generalizing stateId c with
  | source tableId =>
    rw [compileTraceProgramNode, emit_stateIds]
    rfl
  | filter input _ _ ih | project input _ ih | map input _ _ ih =>
    rw [compileTraceProgramNode, appendTraceUnaryOp_stateIds, ih]
    rfl
  | join left right _ _ _ _ _ ihl ihr =>
    rw [compileTraceProgramNode, emit_stateIds, ihr, ihl]
    simp only [DataflowNode.stateIds, List.append_assoc]
    rfl
  | aggregate input _ _ ih =>
    rw [compileTraceProgramNode, emit_stateIds, ih]
    simp only [DataflowNode.stateIds, List.append_assoc]
    rfl

/-- With words of any width. The compiled program has the ids of a 64-bit machine. -/
theorem nodup_stateIds_program_iff (node : DataflowNode V) :
    (compileTraceProgram node).instructions.filterMap TraceInstruction.stateId? =
        node.stateIds 64 0 ∧
      ∀ bits, (node.stateIds bits 0).Nodup ↔
        (node.statefulDepths 0).countP (bits ≤ ·) ≤ 1 :=
  ⟨compileTraceProgramNode_stateIds node 0 ⟨0, 0, []⟩, fun bits => node.nodup_stateIds_iff bits⟩

/-- `count` aggregates, each over the one before. -/
def aggregateChain (V : Type) : Nat → DataflowNode V
  | 0 => .source 0
  | count + 1 => .aggregate (aggregateChain V count) [] []

/-- The two innermost of 66 have the greatest word as their id. -/
theorem aggregateChain_shares_state :
    ¬ ((compileTraceProgram (aggregateChain Nat 66)).instructions.filterMap
      TraceInstruction.stateId?).Nodup := by
  rw [compileTraceProgram, compileTraceProgramNode_stateIds, List.filterMap_nil, List.nil_append,
    DataflowNode.nodup_stateIds_iff]
  decide

end Programs

end Cynos.Incremental
