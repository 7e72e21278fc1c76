import Cynos.Query.DataSource
import Cynos.Query.Predicate

/-! The recursive execution of a physical plan: filters, a projection and a limit over one
table in one pass, everything else operator by operator. -/
namespace Cynos.Query

open Core
open Index (RowId)

/-- What the runner is made of: the data source, the functions of expressions, the
aggregate executor and the order in which a heap of the standard library yields
the entries it was left with. -/
structure PhysicalPlanRunner where
  dataSource : DataSource
  functions : Functions
  aggregateExecutor : List Nat → List (AggregateFunc × Option Nat) → List Entry → List Entry
  binaryHeapIntoVec : (Entry → Entry → Ordering) → Nat → List Entry → List Entry

/-- A runner over a source that knows no JSON and no patterns. -/
def PhysicalPlanRunner.ofSource (source : DataSource) : PhysicalPlanRunner where
  dataSource := source
  functions :=
    { toUppercase := id
      toLowercase := id
      matchRegexPattern := fun _ _ => false
      jsonbPathEq := fun _ _ _ => none
      jsonbContains := fun _ _ _ => none
      jsonbPathExists := fun _ _ => none
      jsonPathParses := fun _ => false
      rawJsonEqValue := fun _ _ _ => false
      rawJsonContainsValue := fun _ _ _ => false
      rawJsonExists := fun _ _ => false }
  aggregateExecutor := fun _ _ _ => []
  binaryHeapIntoVec := fun cmp k entries => (entries.mergeSort fun a b => cmp a b != .gt).take k

section Operators

def Entry.getField (entry : Entry) (index : Nat) : Option (Value Scalar) := entry.get index

def Relation.filter (relation : Relation) (keep : Entry → Bool) : Relation :=
  { relation with entries := relation.entries.filter keep }

def Relation.ofTable (table : TableName) (columnCount : Nat) (rows : List Entry) : Relation :=
  ⟨rows, [table], [columnCount]⟩

def compareFields : Option (Value Scalar) → Option (Value Scalar) → Ordering
  | some a, some b => Value.cmp a b
  | none, some _ => .lt
  | some _, none => .gt
  | none, none => .eq

def SortOrder.apply : SortOrder → Ordering → Ordering
  | .asc, ord => ord
  | .desc, ord => ord.swap

def compareEntries (orderBy : List (Nat × SortOrder)) (a b : Entry) : Ordering :=
  match orderBy with
  | [] => .eq
  | (index, order) :: rest =>
    (order.apply (compareFields (Entry.getField a index) (Entry.getField b index))).then
      (compareEntries rest a b)

def sortEntries (cmp : Entry → Entry → Ordering) (entries : List Entry) : List Entry :=
  entries.mergeSort fun a b => cmp a b != .gt

/-- Sort expressions that are no columns are left out. -/
def orderByIndices (ctx : EvalContext) (orderBy : List (Expr × SortOrder)) :
    List (Nat × SortOrder) :=
  orderBy.filterMap fun
    | (.column col, order) => some (ctx.resolveColumnIndex col.table col.index, order)
    | _ => none

def executeSort (input : Relation) (orderBy : List (Expr × SortOrder)) : Relation :=
  { input with
    entries := sortEntries (compareEntries (orderByIndices input.context orderBy)) input.entries }

def executeLimit (input : Relation) (limit offset : Nat) : ExecutionResult Relation :=
  if offset + limit ≤ maxUsize then
    return { input with entries := (input.entries.drop offset).take limit }
  else throw .overflow

def compareValues : List (Value Scalar) → List (Value Scalar) → Ordering
  | [], [] => .eq
  | [], _ :: _ => .lt
  | _ :: _, [] => .gt
  | a :: as, b :: bs => (Value.cmp a b).then (compareValues as bs)

/-- The entries whose values no earlier one has. -/
def distinctEntries : List (List (Value Scalar)) → List Entry → List Entry
  | _, [] => []
  | seen, entry :: entries =>
    if seen.any fun key => compareValues key entry.values == .eq then distinctEntries seen entries
    else entry :: distinctEntries (entry.values :: seen) entries

def executeUnion (left right : Relation) (all : Bool) : ExecutionResult Relation :=
  if left.tableColumnCounts.sum ≠ right.tableColumnCounts.sum then
    throw (.invalidOperation "UNION inputs must have the same column count")
  else if all then return { left with entries := left.entries ++ right.entries }
  else return { left with entries := distinctEntries [] (left.entries ++ right.entries) }

/-- The rows of the window of a limit. -/
def Relation.window (relation : Relation) (limit offset : Nat) : Relation :=
  { relation with entries := (relation.entries.drop offset).take limit }

end Operators

section Joins

inductive HashJoinBuildSide where
  | left
  | right
  deriving DecidableEq

def chooseHashJoinBuildSide (leftRows rightRows : Nat) : JoinType → HashJoinBuildSide
  | .leftOuter => .right
  | .rightOuter => .left
  | .fullOuter | .inner => if leftRows ≤ rightRows then .left else .right
  | .cross => .right

def hashJoinEmitUnmatchedProbe : JoinType → HashJoinBuildSide → Bool
  | .leftOuter, buildSide => buildSide = .right
  | .rightOuter, buildSide => buildSide = .left
  | .fullOuter, _ => true
  | .inner, _ | .cross, _ => false

def hashJoinEmitUnmatchedBuild : JoinType → HashJoinBuildSide → Bool
  | .leftOuter, buildSide => buildSide = .left
  | .rightOuter, buildSide => buildSide = .right
  | .fullOuter, _ => true
  | .inner, _ | .cross, _ => false

/-- Two keys in one bucket of the hash table: equal, and with the same hash, which for
floats is that of their bits. -/
def sqlKeyEq : Scalar → Scalar → Bool
  | .float64 a, .float64 b => a.toBits == b.toBits && (Scalar.float64 a).sqlEq (.float64 b)
  | a, b => a.sqlEq b

/-- A `Null` key or a missing field matches nothing. -/
def keysMatch (buildKey probeKey : Option (Value Scalar)) : Bool :=
  match buildKey, probeKey with
  | some (some a), some (some b) => sqlKeyEq a b
  | _, _ => false

/-- A joined row from the two sides that a hash join builds from and probes with. -/
def hashJoinRow (layout : JoinOutputLayout) (buildSide : HashJoinBuildSide)
    (build probe : Option Entry) : Entry :=
  match buildSide with
  | .left => layout.materializeRow build probe
  | .right => layout.materializeRow probe build

structure EquiJoinKeys where
  leftKeyIdx : Nat
  rightKeyIdx : Nat
  deriving DecidableEq

/-- The rows that one probe row yields. -/
def hashJoinProbe (layout : JoinOutputLayout) (buildSide : HashJoinBuildSide)
    (buildKeyIdx probeKeyIdx : Nat) (emitUnmatchedProbe : Bool) (build : List Entry)
    (probe : Entry) : List Entry :=
  let found := build.filter fun entry =>
    keysMatch (Entry.getField entry buildKeyIdx) (Entry.getField probe probeKeyIdx)
  if found.isEmpty then
    if emitUnmatchedProbe then [hashJoinRow layout buildSide none (some probe)] else []
  else found.map fun entry => hashJoinRow layout buildSide (some entry) (some probe)

/-- The build rows that no probe row matched. -/
def hashJoinUnmatchedBuild (layout : JoinOutputLayout) (buildSide : HashJoinBuildSide)
    (buildKeyIdx probeKeyIdx : Nat) (build probe : List Entry) : List Entry :=
  (build.filter fun entry => !probe.any fun p =>
    keysMatch (Entry.getField entry buildKeyIdx) (Entry.getField p probeKeyIdx)).map
      fun entry => hashJoinRow layout buildSide (some entry) none

def emitHashJoinEntries (left right : Relation) (keys : EquiJoinKeys) (joinType : JoinType)
    (layout : JoinOutputLayout) (buildSide : HashJoinBuildSide) : List Entry :=
  let (build, probe, buildKeyIdx, probeKeyIdx) := match buildSide with
    | .left => (left.entries, right.entries, keys.leftKeyIdx, keys.rightKeyIdx)
    | .right => (right.entries, left.entries, keys.rightKeyIdx, keys.leftKeyIdx)
  (probe.flatMap (hashJoinProbe layout buildSide buildKeyIdx probeKeyIdx
      (hashJoinEmitUnmatchedProbe joinType buildSide) build)) ++
    if hashJoinEmitUnmatchedBuild joinType buildSide then
      hashJoinUnmatchedBuild layout buildSide buildKeyIdx probeKeyIdx build probe
    else []

def fieldIsNull (field : Option (Value Scalar)) : Bool := field.getD none |>.isNull

/-- The right entries from the first whose key is not below the left one. -/
def advanceRight (rightKeyIdx : Nat) (leftValue : Value Scalar) (right : List Entry) :
    List Entry :=
  right.dropWhile fun entry =>
    match Entry.getField entry rightKeyIdx with
    | some (some value) => Value.lt (some value) leftValue
    | _ => true

theorem advanceRight_eq (rightKeyIdx : Nat) (leftValue : Value Scalar) (right : List Entry) :
    ∃ below : Entry → Bool, advanceRight rightKeyIdx leftValue right = right.dropWhile below ∧
      ∀ {entry : Entry} {value : Scalar},
        Entry.getField entry rightKeyIdx = some (some value) →
          below entry = Value.lt (some value) leftValue := by
  refine ⟨_, rfl, ?_⟩
  intro entry value hfield
  simp only [hfield]

def scanRight (rightKeyIdx : Nat) (leftValue : Value Scalar) : List Entry → List Entry
  | [] => []
  | entry :: right =>
    match Entry.getField entry rightKeyIdx with
    | some (some value) =>
      match Value.cmp leftValue (some value) with
      | .eq => entry :: scanRight rightKeyIdx leftValue right
      | .lt => []
      | .gt => scanRight rightKeyIdx leftValue right
    | _ => scanRight rightKeyIdx leftValue right

/-- The merge of two sorted sides; only the left one is kept when unmatched. -/
def mergeEntries (layout : JoinOutputLayout) (keys : EquiJoinKeys) (isOuter : Bool) :
    List Entry → List Entry → List Entry
  | [], _ => []
  | leftEntry :: left, right =>
    let unmatched := if isOuter then [layout.materializeRow (some leftEntry) none] else []
    match Entry.getField leftEntry keys.leftKeyIdx with
    | some (some value) =>
      let right := advanceRight keys.rightKeyIdx (some value) right
      let found := scanRight keys.rightKeyIdx (some value) right
      (if found.isEmpty then unmatched
        else found.map fun entry => layout.materializeRow (some leftEntry) (some entry)) ++
        mergeEntries layout keys isOuter left right
    | _ => unmatched ++ mergeEntries layout keys isOuter left right

def emitSortMergeJoinEntries (left right : Relation) (keys : EquiJoinKeys) (joinType : JoinType)
    (layout : JoinOutputLayout) : List Entry :=
  mergeEntries layout keys (joinType = .leftOuter ∨ joinType = .fullOuter)
    (sortEntries (compareEntries [(keys.leftKeyIdx, .asc)]) left.entries)
    (sortEntries (compareEntries [(keys.rightKeyIdx, .asc)]) right.entries)

def emitUnmatchedLeft (joinType : JoinType) : Bool :=
  joinType = .leftOuter ∨ joinType = .fullOuter

def trackRightMatches (joinType : JoinType) : Bool :=
  joinType = .rightOuter ∨ joinType = .fullOuter

/-- A nested loop join on a condition that is asked about joined rows. -/
def emitNestedLoopJoinEntries (left right : List Entry) (condition : Entry → Bool)
    (joinType : JoinType) (layout : JoinOutputLayout) : List Entry :=
  let joins (l r : Entry) := condition (layout.materializeRow (some l) (some r))
  (left.flatMap fun l =>
      let found := right.filter (joins l)
      if found.isEmpty then
        if emitUnmatchedLeft joinType then [layout.materializeRow (some l) none] else []
      else found.map fun r => layout.materializeRow (some l) (some r)) ++
    if trackRightMatches joinType then
      (right.filter fun r => !left.any fun l => joins l r).map
        fun r => layout.materializeRow none (some r)
    else []

def indexJoinEmitsUnmatchedOuter : JoinType → Bool → Bool
  | .inner, _ | .cross, _ => false
  | .leftOuter, outerIsLeft => outerIsLeft
  | .rightOuter, outerIsLeft => !outerIsLeft
  | .fullOuter, _ => true

def indexNestedLoopRow (layout : JoinOutputLayout) (outerIsLeft : Bool) (outer : Entry)
    (inner : Option Entry) : Entry :=
  if outerIsLeft then layout.materializeRow (some outer) inner
  else layout.materializeRow inner (some outer)

def indexJoinOutputLayout (outer : EvalContext) (innerTable : TableName) (innerColCount : Nat)
    (outerIsLeft : Bool) (outputTables : List TableName) : JoinOutputLayout :=
  let inner : EvalContext := ⟨[innerTable], [innerColCount]⟩
  if outerIsLeft then .fromSources outer inner outputTables
  else .fromSources inner outer outputTables

def emitCrossProductEntries (left right : List Entry) (layout : JoinOutputLayout) : List Entry :=
  left.flatMap fun l => right.map fun r => layout.materializeRow (some l) (some r)

def extractColumnRef : Expr → ExecutionResult ColumnRef
  | .column col => return col
  | _ => throw (.invalidOperation "Expected column reference")

def extractJoinKeys (condition : Expr) (left right : EvalContext) : ExecutionResult EquiJoinKeys :=
  match condition with
  | .binaryOp leftExpr .eq rightExpr => do
    let leftCol ← extractColumnRef leftExpr
    let rightCol ← extractColumnRef rightExpr
    if leftCol.table ∈ left.tables ∧ rightCol.table ∈ right.tables then
      return ⟨left.resolveColumnIndex leftCol.table leftCol.index,
        right.resolveColumnIndex rightCol.table rightCol.index⟩
    else if rightCol.table ∈ left.tables ∧ leftCol.table ∈ right.tables then
      return ⟨left.resolveColumnIndex rightCol.table rightCol.index,
        right.resolveColumnIndex leftCol.table leftCol.index⟩
    else throw (.invalidOperation "Join columns do not match relation tables")
  | _ => throw (.invalidOperation "Expected equi-join condition")

def extractOuterKeyIndex (condition : Expr) (outer : EvalContext) : ExecutionResult Nat :=
  match condition with
  | .binaryOp leftExpr .eq rightExpr => do
    let leftCol ← extractColumnRef leftExpr
    let rightCol ← extractColumnRef rightExpr
    if leftCol.table ∈ outer.tables then
      return outer.resolveColumnIndex leftCol.table leftCol.index
    else if rightCol.table ∈ outer.tables then
      return outer.resolveColumnIndex rightCol.table rightCol.index
    else throw (.invalidOperation "Outer key column not found in outer relation")
  | _ => throw (.invalidOperation "Expected equi-join condition")

end Joins

namespace PhysicalPlanRunner

variable (runner : PhysicalPlanRunner)

def executeIndexScan (table : TableName) (index : IndexName) (bounds : IndexBounds)
    (limit offset : Option Nat) (reverse : Bool) : ExecutionResult Relation := do
  let rows ← runner.dataSource.getIndexRangeWithLimit table index bounds limit (offset.getD 0)
    reverse
  let columnCount ← runner.dataSource.getColumnCount table
  return .ofTable table columnCount rows

def executeIndexGet (table : TableName) (index : IndexName) (key : Value Scalar)
    (limit : Option Nat) : ExecutionResult Relation := do
  let rows ← indexPointRows runner.dataSource table index key limit
  let columnCount ← runner.dataSource.getColumnCount table
  return .ofTable table columnCount rows

/-- The rows of several lookups, each row once. -/
def indexInRows (table : TableName) (index : IndexName) :
    List (Value Scalar) → List RowId → ExecutionResult (List Entry)
  | [], _ => return []
  | key :: keys, seenIds => do
    let (seenIds, rows) ← visitIndexPointWithSqlSemantics runner.dataSource table index key none
      (fun (s : List RowId × List Entry) row =>
        if row.id ∈ s.1 then (s, true) else ((row.id :: s.1, s.2 ++ [row]), true)) (seenIds, [])
    return rows ++ (← indexInRows table index keys seenIds)

def executeIndexInGet (table : TableName) (index : IndexName) (keys : List (Value Scalar)) :
    ExecutionResult Relation := do
  let rows ← runner.indexInRows table index keys []
  let columnCount ← runner.dataSource.getColumnCount table
  return .ofTable table columnCount rows

def ginIndexRows (table : TableName) (index : IndexName) (key : String) (value : Option String)
    (queryType : String) : ExecutionResult (List Entry) :=
  match queryType, value with
  | "eq", some v => runner.dataSource.getGinIndexRows table index key v
  | "contains", _ | "exists", _ => runner.dataSource.getGinIndexRowsByKey table index key
  | _, _ => runner.dataSource.getTableRows table

def executeGinIndexScan (table : TableName) (index : IndexName) (key : String)
    (value : Option String) (queryType : String) : ExecutionResult Relation := do
  let rows ← runner.ginIndexRows table index key value queryType
  let columnCount ← runner.dataSource.getColumnCount table
  return .ofTable table columnCount rows

def executeGinIndexScanMulti (table : TableName) (index : IndexName)
    (pairs : List (String × String)) (matchAll : Bool) : ExecutionResult Relation := do
  let rows ← runner.dataSource.getGinIndexRowsMulti table index pairs matchAll
  let columnCount ← runner.dataSource.getColumnCount table
  return .ofTable table columnCount rows

def executeTableScan (table : TableName) : ExecutionResult Relation := do
  let columnCount ← runner.dataSource.getColumnCount table
  let rows ← runner.dataSource.getTableRows table
  return .ofTable table columnCount rows

/-- A relation of at most one table is filtered without its context, a comparison of
one of its columns with a literal by its kernel. -/
def executeFilter (input : Relation) (predicate : Expr) : Relation :=
  if input.tables.length ≤ 1 then
    input.filter fun entry =>
      match simpleBinaryPredicate predicate with
      | some simple =>
        evalSimpleBinaryPredicateValue ((Entry.getField entry simple.columnIndex).getD none) simple
      | none => evalPredicate runner.functions (Entry.getField entry) none predicate
  else
    input.filter fun entry =>
      evalPredicate runner.functions (Entry.getField entry) (some input.context) predicate

def projectEntry (ctx : Option EvalContext) (columns : List Expr) (entry : Entry) : Entry :=
  .newWithVersion entry.id entry.version
    (evalAccessorExprs runner.functions (Entry.getField entry) ctx columns)

def executeProject (input : Relation) (columns : List Expr) : Relation :=
  ⟨input.entries.map (runner.projectEntry (some input.context) columns), input.tables,
    [columns.length]⟩

/-- Small inputs are sorted; of larger ones a heap keeps the first `limit + offset`. -/
def executeTopN (input : Relation) (orderBy : List (Expr × SortOrder)) (limit offset : Nat) :
    ExecutionResult Relation :=
  let indices := orderByIndices input.context orderBy
  let k := saturatingAdd limit offset
  if k = 0 ∨ input.entries.length ≤ min (k * 2) maxUsize then
    executeLimit { input with entries := sortEntries (compareEntries indices) input.entries }
      limit offset
  else
    let result := sortEntries (compareEntries indices)
      (runner.binaryHeapIntoVec (compareEntries indices) k input.entries)
    return { input with entries := (result.drop offset).take limit }

def aggregateColumn (ctx : EvalContext) : Expr → Option Nat
  | .column col | .aggregate _ (some (.column col)) _ =>
    some (ctx.resolveColumnIndex col.table col.index)
  | _ => none

def executeHashAggregate (input : Relation) (groupBy : List Expr)
    (aggregates : List (AggregateFunc × Expr)) : Relation :=
  let groupByIndices := groupBy.filterMap fun
    | .column col => some (input.context.resolveColumnIndex col.table col.index)
    | _ => none
  let aggSpecs := aggregates.map fun spec => (spec.1, aggregateColumn input.context spec.2)
  ⟨runner.aggregateExecutor groupByIndices aggSpecs input.entries, input.tables,
    [groupByIndices.length + aggSpecs.length]⟩

def joinRelation (layout : JoinOutputLayout) (entries : List Entry) : Relation :=
  ⟨entries, layout.tables, layout.tableColumnCounts⟩

def executeHashJoin (left right : Relation) (condition : Expr) (joinType : JoinType)
    (outputTables : List TableName) : ExecutionResult Relation := do
  let keys ← extractJoinKeys condition left.context right.context
  let layout := JoinOutputLayout.fromSources left.context right.context outputTables
  let buildSide := chooseHashJoinBuildSide left.entries.length right.entries.length joinType
  return joinRelation layout (emitHashJoinEntries left right keys joinType layout buildSide)

def executeSortMergeJoin (left right : Relation) (condition : Expr) (joinType : JoinType)
    (outputTables : List TableName) : ExecutionResult Relation := do
  let keys ← extractJoinKeys condition left.context right.context
  let layout := JoinOutputLayout.fromSources left.context right.context outputTables
  return joinRelation layout (emitSortMergeJoinEntries left right keys joinType layout)

def executeNestedLoopJoin (left right : Relation) (condition : Expr) (joinType : JoinType)
    (outputTables : List TableName) : Relation :=
  let layout := JoinOutputLayout.fromSources left.context right.context outputTables
  joinRelation layout (emitNestedLoopJoinEntries left.entries right.entries
    (fun entry => evalPredicate runner.functions (Entry.getField entry) (some layout.context)
      condition) joinType layout)

/-- The rows that one outer row yields. -/
def indexNestedLoopProbe (innerTable : TableName) (innerIndex : IndexName) (outerKeyIdx : Nat)
    (emitUnmatchedOuter outerIsLeft : Bool) (layout : JoinOutputLayout) (outer : Entry) :
    ExecutionResult (List Entry) := do
  let rows ← match Entry.getField outer outerKeyIdx with
    | some (some key) => indexPointRows runner.dataSource innerTable innerIndex (some key) none
    | _ => pure []
  if rows.isEmpty then
    return if emitUnmatchedOuter then [indexNestedLoopRow layout outerIsLeft outer none] else []
  else return rows.map fun row => indexNestedLoopRow layout outerIsLeft outer (some row)

def executeIndexNestedLoopJoin (outer : Relation) (innerTable : TableName) (innerIndex : IndexName)
    (condition : Expr) (joinType : JoinType) (outerIsLeft : Bool)
    (outputTables : List TableName) : ExecutionResult Relation := do
  let innerColCount ← runner.dataSource.getColumnCount innerTable
  let layout := indexJoinOutputLayout outer.context innerTable innerColCount outerIsLeft outputTables
  let outerKeyIdx ← extractOuterKeyIndex condition outer.context
  let rows ← outer.entries.mapM (runner.indexNestedLoopProbe innerTable innerIndex outerKeyIdx
    (indexJoinEmitsUnmatchedOuter joinType outerIsLeft) outerIsLeft layout)
  return joinRelation layout rows.flatten

def executeCrossProduct (left right : Relation) : Relation :=
  let layout := JoinOutputLayout.fromSources left.context right.context (left.tables ++ right.tables)
  joinRelation layout (emitCrossProductEntries left.entries right.entries layout)

end PhysicalPlanRunner

section Artifacts

inductive CachedSingleTableProjection where
  | identity
  | columns (indices : List Nat)
  | exprs (exprs : List Expr)

structure CachedSingleTablePipeline where
  table : TableName
  filters : List CompiledRowPredicate
  projection : CachedSingleTableProjection
  limit : Option (Nat × Nat)

inductive PlanExecutionArtifact where
  | none
  | singleTablePipeline (pipeline : CachedSingleTablePipeline)
  | filteredTableScan (table : TableName) (predicate : CompiledRowPredicate)

variable (functions : Functions)

def stripNoop : PhysicalPlan → PhysicalPlan
  | .noOp input => stripNoop input
  | plan => plan

/-- The filters over a table scan, outermost first. -/
def pipelineSource : PhysicalPlan → Option (List CompiledRowPredicate × TableName)
  | .noOp input => pipelineSource input
  | .filter input predicate => (pipelineSource input).map fun source =>
      (compileRowPredicate functions predicate :: source.1, source.2)
  | .tableScan table => some ([], table)
  | _ => none

def columnIndices (columns : List Expr) : Option (List Nat) :=
  columns.mapM fun
    | .column column => some column.index
    | _ => none

def compileProjection (columns : List Expr) : CachedSingleTableProjection :=
  match columnIndices columns with
  | some indices => .columns indices
  | none => .exprs columns

def pipelineOver (limit : Option (Nat × Nat)) (plan : PhysicalPlan) :
    Option CachedSingleTablePipeline :=
  match stripNoop plan with
  | .project input columns => (pipelineSource functions input).map fun source =>
      ⟨source.2, source.1, compileProjection columns, limit⟩
  | plan => (pipelineSource functions plan).map fun source =>
      ⟨source.2, source.1, .identity, limit⟩

def compileSingleTablePipelineArtifact (plan : PhysicalPlan) : Option CachedSingleTablePipeline :=
  match stripNoop plan with
  | .limit input limit offset => pipelineOver functions (some (limit, offset)) input
  | .project input columns => pipelineOver functions none (.project input columns)
  | _ => none

def compileExecutionArtifact (plan : PhysicalPlan) : PlanExecutionArtifact :=
  match compileSingleTablePipelineArtifact functions plan with
  | some pipeline => .singleTablePipeline pipeline
  | none =>
    match plan with
    | .filter (.tableScan table) predicate =>
      .filteredTableScan table (compileRowPredicate functions predicate)
    | _ => .none

variable {functions}

theorem compileExecutionArtifact_some {plan : PhysicalPlan} {pipeline : CachedSingleTablePipeline}
    (h : compileSingleTablePipelineArtifact functions plan = some pipeline) :
    compileExecutionArtifact functions plan = .singleTablePipeline pipeline := by
  rw [compileExecutionArtifact.eq_def, h]

theorem compileExecutionArtifact_none {plan : PhysicalPlan}
    (h : compileSingleTablePipelineArtifact functions plan = none)
    (hplan : ∀ table predicate, plan ≠ .filter (.tableScan table) predicate) :
    compileExecutionArtifact functions plan = .none := by
  rw [compileExecutionArtifact.eq_def, h]
  dsimp only
  split
  next table predicate => exact absurd rfl (hplan table predicate)
  next => rfl

end Artifacts

namespace PhysicalPlanRunner

variable (runner : PhysicalPlanRunner)

def compiledHolds (predicate : CompiledRowPredicate) (row : Entry) : Bool :=
  (evalCompiledPredicateAccessor runner.functions (Entry.getField row) predicate).isTrue

def projectRow (projection : CachedSingleTableProjection) (row : Entry) : Entry :=
  match projection with
  | .identity => row
  | .columns indices => .newWithVersion row.id row.version
      (indices.map fun index => (Entry.getField row index).getD none)
  | .exprs exprs => runner.projectEntry none exprs row

@[simp] theorem projectRow_identity : runner.projectRow .identity = id := rfl

def executeCachedSingleTablePipeline (pipeline : CachedSingleTablePipeline) :
    ExecutionResult Relation := do
  let sourceColumnCount ← runner.dataSource.getColumnCount pipeline.table
  let outputColumnCount := match pipeline.projection with
    | .identity => sourceColumnCount
    | .columns indices => indices.length
    | .exprs exprs => exprs.length
  let rows ← runner.dataSource.getTableRows pipeline.table
  let kept := rows.filter fun row => pipeline.filters.all fun f => runner.compiledHolds f row
  let visible := match pipeline.limit with
    | some (limit, offset) => limited offset (some limit) kept
    | none => kept
  return .ofTable pipeline.table outputColumnCount (visible.map (runner.projectRow pipeline.projection))

def executeCompiledFilteredTableScan (table : TableName) (predicate : CompiledRowPredicate) :
    ExecutionResult Relation := do
  let columnCount ← runner.dataSource.getColumnCount table
  let rows ← runner.dataSource.getTableRows table
  return .ofTable table columnCount (rows.filter (runner.compiledHolds predicate))

def execute (plan : PhysicalPlan) : ExecutionResult Relation :=
  match compileExecutionArtifact runner.functions plan with
  | .singleTablePipeline pipeline => runner.executeCachedSingleTablePipeline pipeline
  | .filteredTableScan table predicate => runner.executeCompiledFilteredTableScan table predicate
  | .none =>
    match plan with
    | .tableScan table => runner.executeTableScan table
    | .indexScan table index bounds limit offset reverse =>
      runner.executeIndexScan table index bounds limit offset reverse
    | .indexGet table index key limit => runner.executeIndexGet table index key limit
    | .indexInGet table index keys => runner.executeIndexInGet table index keys
    | .ginIndexScan table index key value queryType _ =>
      runner.executeGinIndexScan table index key value queryType
    | .ginIndexScanMulti table index pairs matchAll _ =>
      runner.executeGinIndexScanMulti table index pairs matchAll
    | .filter input predicate => do return runner.executeFilter (← execute input) predicate
    | .project input columns => do return runner.executeProject (← execute input) columns
    | .hashJoin left right condition joinType outputTables => do
      executeHashJoin (← execute left) (← execute right) condition joinType outputTables
    | .sortMergeJoin left right condition joinType outputTables => do
      executeSortMergeJoin (← execute left) (← execute right) condition joinType outputTables
    | .nestedLoopJoin left right condition joinType outputTables => do
      return runner.executeNestedLoopJoin (← execute left) (← execute right) condition joinType
        outputTables
    | .indexNestedLoopJoin outer innerTable innerIndex condition joinType outerIsLeft
        outputTables => do
      runner.executeIndexNestedLoopJoin (← execute outer) innerTable innerIndex condition joinType
        outerIsLeft outputTables
    | .hashAggregate input groupBy aggregates => do
      return runner.executeHashAggregate (← execute input) groupBy aggregates
    | .sort input orderBy => do return executeSort (← execute input) orderBy
    | .limit input limit offset => do executeLimit (← execute input) limit offset
    | .crossProduct left right => do
      return executeCrossProduct (← execute left) (← execute right)
    | .union left right all => do executeUnion (← execute left) (← execute right) all
    | .noOp input => execute input
    | .topN input orderBy limit offset => do
      runner.executeTopN (← execute input) orderBy limit offset
    | .empty => return .empty

@[simp] theorem execute_indexScan (table : TableName) (index : IndexName) (bounds : IndexBounds)
    (limit offset : Option Nat) (reverse : Bool) :
    runner.execute (.indexScan table index bounds limit offset reverse) =
      runner.executeIndexScan table index bounds limit offset reverse := rfl

@[simp] theorem execute_indexGet (table : TableName) (index : IndexName) (key : Value Scalar)
    (limit : Option Nat) :
    runner.execute (.indexGet table index key limit) =
      runner.executeIndexGet table index key limit := rfl

@[simp] theorem execute_tableScan (table : TableName) :
    runner.execute (.tableScan table) = runner.executeTableScan table := rfl

end PhysicalPlanRunner

end Cynos.Query
