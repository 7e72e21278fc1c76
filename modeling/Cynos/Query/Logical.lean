import Cynos.Query.StreamedPlan

/-! Logical plans and what they mean: every operator on the results of its inputs, every join
a loop over both sides on its condition, whichever algorithm it is lowered to. -/
namespace Cynos.Query

open Core Join

inductive LogicalPlan where
  | scan (table : TableName)
  | indexScan (table : TableName) (index : IndexName) (bounds : IndexBounds)
  | indexGet (table : TableName) (index : IndexName) (key : Value Scalar)
  | indexInGet (table : TableName) (index : IndexName) (keys : List (Value Scalar))
  | ginIndexScan (table : TableName) (index : IndexName) (column : String) (columnIndex : Nat)
      (path : String) (value : Option (Value Scalar)) (queryType : String) (recheck : Option Expr)
  | ginIndexScanMulti (table : TableName) (index : IndexName) (column : String)
      (pairs : List (String × Value Scalar)) (matchAll : Bool) (recheck : Option Expr)
  | filter (input : LogicalPlan) (predicate : Expr)
  | project (input : LogicalPlan) (columns : List Expr)
  | join (left right : LogicalPlan) (condition : Expr) (joinType : JoinType)
      (outputTables : List TableName)
  | aggregate (input : LogicalPlan) (groupBy : List Expr) (aggregates : List (AggregateFunc × Expr))
  | sort (input : LogicalPlan) (orderBy : List (Expr × SortOrder))
  | limit (input : LogicalPlan) (limit offset : Nat)
  | crossProduct (left right : LogicalPlan)
  | union (left right : LogicalPlan) (all : Bool)
  | empty

namespace LogicalPlan

/-- The tables a plan shows, in order. -/
def outputTables : LogicalPlan → List TableName
  | .scan table | .indexScan table _ _ | .indexGet table _ _ | .indexInGet table _ _
  | .ginIndexScan table _ _ _ _ _ _ _ | .ginIndexScanMulti table _ _ _ _ _ => [table]
  | .filter input _ | .project input _ | .aggregate input _ _ | .sort input _
  | .limit input _ _ => outputTables input
  | .join _ _ _ _ outputTables => outputTables
  | .crossProduct left right | .union left right _ => outputTables left ++ outputTables right
  | .empty => []

/-- The tables a plan reads. -/
def collectTables : LogicalPlan → List TableName
  | .scan table | .indexScan table _ _ | .indexGet table _ _ | .indexInGet table _ _
  | .ginIndexScan table _ _ _ _ _ _ _ | .ginIndexScanMulti table _ _ _ _ _ => [table]
  | .filter input _ | .project input _ | .aggregate input _ _ | .sort input _
  | .limit input _ _ => collectTables input
  | .join left right _ _ _ | .crossProduct left right | .union left right _ =>
    collectTables left ++ collectTables right
  | .empty => []

def inputs : LogicalPlan → List LogicalPlan
  | .filter input _ | .project input _ | .aggregate input _ _ | .sort input _
  | .limit input _ _ => [input]
  | .join left right _ _ _ | .crossProduct left right | .union left right _ => [left, right]
  | _ => []

/-- Every node of a plan is as `p` says. -/
inductive All (p : LogicalPlan → Prop) : LogicalPlan → Prop
  | intro {plan : LogicalPlan} (here : p plan) (inputs : ∀ input ∈ plan.inputs, All p input) :
    All p plan

namespace All

variable {p : LogicalPlan → Prop} {plan : LogicalPlan}

theorem here (h : plan.All p) : p plan := by
  cases h with
  | intro here _ => exact here

theorem of_mem (h : plan.All p) {input : LogicalPlan} (hinput : input ∈ plan.inputs) :
    input.All p := by
  cases h with
  | intro _ inputs => exact inputs input hinput

end All

end LogicalPlan

section Lookups

def trimPathStart : List Char → List Char
  | '$' :: '.' :: path => trimPathStart path
  | path => path

def ginPathToKey (path : String) : String := String.ofList (trimPathStart path.toList)

/-- The text of a literal in a GIN lookup; `format` prints floats and what has no text. -/
def ginLookupValueToString (format : Value Scalar → String) (value : Value Scalar) : String :=
  match value with
  | some (.string s) => s
  | some (.int32 i) => toString i.toInt
  | some (.int64 i) => toString i.toInt
  | some (.boolean b) => if b then "true" else "false"
  | value => format value

end Lookups

namespace PhysicalPlanRunner

variable (runner : PhysicalPlanRunner) (format : Value Scalar → String)

def executeLogical : LogicalPlan → ExecutionResult Relation
  | .scan table => runner.executeTableScan table
  | .indexScan table index bounds => runner.executeIndexScan table index bounds none none false
  | .indexGet table index key => runner.executeIndexGet table index key none
  | .indexInGet table index keys => runner.executeIndexInGet table index keys
  | .ginIndexScan table index _ _ path value queryType _ =>
    runner.executeGinIndexScan table index (ginPathToKey path)
      (value.map (ginLookupValueToString format)) queryType
  | .ginIndexScanMulti table index _ pairs matchAll _ =>
    runner.executeGinIndexScanMulti table index
      (pairs.map fun (path, value) => (ginPathToKey path, ginLookupValueToString format value))
      matchAll
  | .filter input predicate => do return runner.executeFilter (← executeLogical input) predicate
  | .project input columns => do return runner.executeProject (← executeLogical input) columns
  | .join left right condition joinType outputTables => do
    return runner.executeNestedLoopJoin (← executeLogical left) (← executeLogical right) condition
      joinType outputTables
  | .aggregate input groupBy aggregates => do
    return runner.executeHashAggregate (← executeLogical input) groupBy aggregates
  | .sort input orderBy => do return executeSort (← executeLogical input) orderBy
  | .limit input limit offset => do executeLimit (← executeLogical input) limit offset
  | .crossProduct left right => do
    return executeCrossProduct (← executeLogical left) (← executeLogical right)
  | .union left right all => do
    executeUnion (← executeLogical left) (← executeLogical right) all
  | .empty => return .empty

/-- The rows of a nested loop join in the terms of the library. -/
theorem executeNestedLoopJoin_eq (l r : Relation) (condition : Expr) (joinType : JoinType)
    (outputTables : List TableName) :
    runner.executeNestedLoopJoin l r condition joinType outputTables =
      joinRelation (.fromSources l.context r.context outputTables)
        (loopJoin (fun a b => runner.joinHolds (.fromSources l.context r.context outputTables)
            condition ((JoinOutputLayout.fromSources l.context r.context outputTables).materializeRow
              (some a) (some b)))
          (JoinOutputLayout.fromSources l.context r.context outputTables).materializeRow
          (emitUnmatchedLeft joinType) (trackRightMatches joinType) l.entries r.entries) :=
  rfl

end PhysicalPlanRunner

end Cynos.Query
