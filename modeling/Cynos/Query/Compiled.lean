import Cynos.Query.Runner

/-! Plans compiled for streaming. A cursor hands its rows to an emitter one by one; the
emitter says whether it wants more, and the cursor whether it could hand on all it had. -/
namespace Cynos.Query

open Core
open Index (RowId)

section Plans

inductive CompiledSourcePlan where
  | tableScan (table : TableName)
  | indexScan (table : TableName) (index : IndexName) (bounds : IndexBounds) (limit : Option Nat)
      (offset : Nat) (reverse : Bool)
  | indexGet (table : TableName) (index : IndexName) (key : Value Scalar) (limit : Option Nat)
  | indexInGet (table : TableName) (index : IndexName) (keys : List (Value Scalar))
  | ginIndexScan (table : TableName) (index : IndexName) (key : String) (value : Option String)
      (queryType : String)
  | ginIndexScanMulti (table : TableName) (index : IndexName) (pairs : List (String × String))
      (matchAll : Bool)

inductive CompiledProjection where
  | columns (indices : List Nat)
  | exprs (exprs : List Expr)

mutual

inductive CompiledExecPlanKind where
  | empty
  | source (source : CompiledSourcePlan)
  | filter (input : CompiledExecPlan) (predicate : CompiledRowPredicate)
  | project (input : CompiledExecPlan) (projection : CompiledProjection)
  | limit (input : CompiledExecPlan) (limit offset : Nat)
  | unionAll (left right : CompiledExecPlan)
  | unionDistinct (left right : CompiledExecPlan)
  | hashJoin (left right : CompiledExecPlan) (keys : EquiJoinKeys) (joinType : JoinType)
      (buildSide : HashJoinBuildSide)
  | sortMergeJoin (left right : CompiledExecPlan) (keys : EquiJoinKeys) (joinType : JoinType)
  | nestedLoopJoin (left right : CompiledExecPlan) (predicate : CompiledRowPredicate)
      (joinType : JoinType)
  | indexNestedLoopJoin (outer : CompiledExecPlan) (innerTable : TableName)
      (innerIndex : IndexName) (outerKeyIdx : Nat) (joinType : JoinType) (outerIsLeft : Bool)
  | hashAggregate (input : CompiledExecPlan) (groupBy : List Expr)
      (aggregates : List (AggregateFunc × Expr))
  | sort (input : CompiledExecPlan) (orderBy : List (Expr × SortOrder))
  | topN (input : CompiledExecPlan) (orderBy : List (Expr × SortOrder)) (limit offset : Nat)
  | crossProduct (left right : CompiledExecPlan)

/-- A compiled plan with the tables of its rows and how many rows it may yield. -/
inductive CompiledExecPlan where
  | mk (execMeta : EvalContext) (estimatedRows : Option Nat) (kind : CompiledExecPlanKind)

end

def CompiledExecPlan.execMeta : CompiledExecPlan → EvalContext
  | .mk execMeta _ _ => execMeta

def CompiledExecPlan.estimatedRows : CompiledExecPlan → Option Nat
  | .mk _ estimatedRows _ => estimatedRows

@[simp] theorem CompiledExecPlan.execMeta_mk (execMeta : EvalContext) (rows : Option Nat)
    (kind : CompiledExecPlanKind) : (CompiledExecPlan.mk execMeta rows kind).execMeta = execMeta :=
  rfl
@[simp] theorem CompiledExecPlan.estimatedRows_mk (execMeta : EvalContext) (rows : Option Nat)
    (kind : CompiledExecPlanKind) :
    (CompiledExecPlan.mk execMeta rows kind).estimatedRows = rows := rfl

end Plans

section Binding

/-- The place of a column in the rows of a plan; a column without a table keeps its index. -/
def resolveMetaColumnIndex (execMeta : EvalContext) (tableName : TableName)
    (tableRelativeIndex : Nat) : Nat :=
  if tableName = "" then tableRelativeIndex
  else execMeta.resolveColumnIndex tableName tableRelativeIndex

variable (execMeta : EvalContext)

mutual

/-- An expression with the places of its columns worked out. -/
def bindExprToMeta : Expr → Expr
  | .column col => .column { col with index := resolveMetaColumnIndex execMeta col.table col.index }
  | .literal value => .literal value
  | .binaryOp left op right => .binaryOp (bindExprToMeta left) op (bindExprToMeta right)
  | .unaryOp op expr => .unaryOp op (bindExprToMeta expr)
  | .function name args => .function name (bindExprsToMeta args)
  | .aggregate func none distinct => .aggregate func none distinct
  | .aggregate func (some expr) distinct => .aggregate func (some (bindExprToMeta expr)) distinct
  | .between expr low high =>
    .between (bindExprToMeta expr) (bindExprToMeta low) (bindExprToMeta high)
  | .notBetween expr low high =>
    .notBetween (bindExprToMeta expr) (bindExprToMeta low) (bindExprToMeta high)
  | .in expr list => .in (bindExprToMeta expr) (bindExprsToMeta list)
  | .notIn expr list => .notIn (bindExprToMeta expr) (bindExprsToMeta list)
  | .like expr pattern => .like (bindExprToMeta expr) pattern
  | .notLike expr pattern => .notLike (bindExprToMeta expr) pattern
  | .match expr pattern => .match (bindExprToMeta expr) pattern
  | .notMatch expr pattern => .notMatch (bindExprToMeta expr) pattern

def bindExprsToMeta : List Expr → List Expr
  | [] => []
  | expr :: exprs => bindExprToMeta expr :: bindExprsToMeta exprs

end

end Binding

section Estimates

def saturatingMul (a b : Nat) : Nat := min (a * b) maxUsize

def estimateBoundedOutputRows (inputRows limit : Option Nat) (offset : Nat) : Option Nat :=
  inputRows.map fun rows => limit.elim (rows - offset) (min (rows - offset))

def estimateJoinOutputRows (leftRows rightRows : Option Nat) : JoinType → Option Nat
  | .leftOuter => leftRows
  | .rightOuter => rightRows
  | .fullOuter =>
    match leftRows, rightRows with
    | some left, some right => some (saturatingAdd left right)
    | _, _ => none
  | .cross =>
    match leftRows, rightRows with
    | some left, some right => some (saturatingMul left right)
    | _, _ => none
  | .inner =>
    match leftRows, rightRows with
    | some left, some right => some (max left right)
    | some left, none => some left
    | none, right => right

def estimateIndexJoinOutputRows (outerRows : Option Nat) (outerIsLeft : Bool) :
    JoinType → Option Nat
  | .inner => outerRows
  | .leftOuter => if outerIsLeft then outerRows else none
  | .rightOuter => if outerIsLeft then none else outerRows
  | .fullOuter | .cross => none

def chooseCompiledHashJoinBuildSide (leftRows rightRows : Option Nat) :
    JoinType → HashJoinBuildSide
  | .leftOuter => .right
  | .rightOuter => .left
  | .fullOuter | .inner =>
    match leftRows, rightRows with
    | some left, some right => if left ≤ right then .left else .right
    | some _, none => .left
    | none, _ => .right
  | .cross => .right

end Estimates

section Meta

def compiledProjectMeta (input : EvalContext) (outputColumnCount : Nat) : EvalContext :=
  ⟨input.tables, [outputColumnCount]⟩

def compiledJoinMeta (left right : EvalContext) (outputTables : List TableName) : EvalContext :=
  (JoinOutputLayout.fromSources left right outputTables).context

def compiledIndexJoinMeta (outer inner : EvalContext) (outerIsLeft : Bool)
    (outputTables : List TableName) : EvalContext :=
  if outerIsLeft then compiledJoinMeta outer inner outputTables
  else compiledJoinMeta inner outer outputTables

def extractJoinKeysFromMeta (condition : Expr) (left right : EvalContext) :
    ExecutionResult EquiJoinKeys :=
  match condition with
  | .binaryOp leftExpr .eq rightExpr => do
    let leftCol ← extractColumnRef leftExpr
    let rightCol ← extractColumnRef rightExpr
    if leftCol.table ∈ left.tables ∧ rightCol.table ∈ right.tables then
      return ⟨resolveMetaColumnIndex left leftCol.table leftCol.index,
        resolveMetaColumnIndex right rightCol.table rightCol.index⟩
    else if rightCol.table ∈ left.tables ∧ leftCol.table ∈ right.tables then
      return ⟨resolveMetaColumnIndex left rightCol.table rightCol.index,
        resolveMetaColumnIndex right leftCol.table leftCol.index⟩
    else throw (.invalidOperation "Expected equi-join condition")
  | _ => throw (.invalidOperation "Expected equi-join condition")

def extractOuterKeyIndexFromMeta (condition : Expr) (outer : EvalContext) : ExecutionResult Nat :=
  match condition with
  | .binaryOp leftExpr .eq rightExpr => do
    let leftCol ← extractColumnRef leftExpr
    let rightCol ← extractColumnRef rightExpr
    if leftCol.table ∈ outer.tables then
      return resolveMetaColumnIndex outer leftCol.table leftCol.index
    else if rightCol.table ∈ outer.tables then
      return resolveMetaColumnIndex outer rightCol.table rightCol.index
    else throw (.invalidOperation "Expected equi-join condition")
  | _ => throw (.invalidOperation "Expected equi-join condition")

end Meta

def compileProjectionExprs (columns : List Expr) : CompiledProjection :=
  match columnIndices columns with
  | some indices => .columns indices
  | none => .exprs columns

namespace PhysicalPlanRunner

variable (runner : PhysicalPlanRunner)

section Compile

variable (tableRowCount : TableName → ExecutionResult Nat)

def compileSingleTableMeta (table : TableName) : ExecutionResult EvalContext := do
  return ⟨[table], [← runner.dataSource.getColumnCount table]⟩

def compileSource (table : TableName) (estimate : Nat → Option Nat) (plan : CompiledSourcePlan) :
    ExecutionResult CompiledExecPlan := do
  let execMeta ← runner.compileSingleTableMeta table
  return .mk execMeta (estimate (← tableRowCount table)) (.source plan)

def compileExecPlan : PhysicalPlan → ExecutionResult CompiledExecPlan
  | .empty => return .mk ⟨[], []⟩ (some 0) .empty
  | .tableScan table => runner.compileSource tableRowCount table some (.tableScan table)
  | .indexScan table index bounds limit offset reverse =>
    runner.compileSource tableRowCount table
      (fun rows => estimateBoundedOutputRows (some rows) limit (offset.getD 0))
      (.indexScan table index bounds limit (offset.getD 0) reverse)
  | .indexGet table index key limit => do
    let execMeta ← runner.compileSingleTableMeta table
    return .mk execMeta (some (limit.getD 1)) (.source (.indexGet table index key limit))
  | .indexInGet table index keys =>
    runner.compileSource tableRowCount table some (.indexInGet table index keys)
  | .ginIndexScan table index key value queryType _ =>
    runner.compileSource tableRowCount table some (.ginIndexScan table index key value queryType)
  | .ginIndexScanMulti table index pairs matchAll _ =>
    runner.compileSource tableRowCount table some (.ginIndexScanMulti table index pairs matchAll)
  | .filter input predicate => do
    let input ← compileExecPlan input
    return .mk input.execMeta input.estimatedRows (.filter input
      (compileRowPredicate runner.functions (bindExprToMeta input.execMeta predicate)))
  | .project input columns => do
    let input ← compileExecPlan input
    return .mk (compiledProjectMeta input.execMeta columns.length) input.estimatedRows
      (.project input (compileProjectionExprs (bindExprsToMeta input.execMeta columns)))
  | .limit input limit offset => do
    let input ← compileExecPlan input
    return .mk input.execMeta (estimateBoundedOutputRows input.estimatedRows (some limit) offset)
      (.limit input limit offset)
  | .union left right all => do
    let left ← compileExecPlan left
    let right ← compileExecPlan right
    let estimatedRows := match left.estimatedRows, right.estimatedRows with
      | some left, some right => some (saturatingAdd left right)
      | _, _ => none
    return .mk left.execMeta estimatedRows
      (if all then .unionAll left right else .unionDistinct left right)
  | .hashJoin left right condition joinType outputTables => do
    let left ← compileExecPlan left
    let right ← compileExecPlan right
    let keys ← extractJoinKeysFromMeta condition left.execMeta right.execMeta
    return .mk (compiledJoinMeta left.execMeta right.execMeta outputTables)
      (estimateJoinOutputRows left.estimatedRows right.estimatedRows joinType)
      (.hashJoin left right keys joinType
        (chooseCompiledHashJoinBuildSide left.estimatedRows right.estimatedRows joinType))
  | .sortMergeJoin left right condition joinType outputTables => do
    let left ← compileExecPlan left
    let right ← compileExecPlan right
    let keys ← extractJoinKeysFromMeta condition left.execMeta right.execMeta
    return .mk (compiledJoinMeta left.execMeta right.execMeta outputTables)
      (estimateJoinOutputRows left.estimatedRows right.estimatedRows joinType)
      (.sortMergeJoin left right keys joinType)
  | .nestedLoopJoin left right condition joinType outputTables => do
    let left ← compileExecPlan left
    let right ← compileExecPlan right
    let joinMeta := compiledJoinMeta left.execMeta right.execMeta outputTables
    return .mk joinMeta
      (estimateJoinOutputRows left.estimatedRows right.estimatedRows joinType)
      (.nestedLoopJoin left right
        (compileRowPredicate runner.functions (bindExprToMeta joinMeta condition)) joinType)
  | .indexNestedLoopJoin outer innerTable innerIndex condition joinType outerIsLeft
      outputTables => do
    let outer ← compileExecPlan outer
    let innerMeta ← runner.compileSingleTableMeta innerTable
    let outerKeyIdx ← extractOuterKeyIndexFromMeta condition outer.execMeta
    return .mk (compiledIndexJoinMeta outer.execMeta innerMeta outerIsLeft outputTables)
      (estimateIndexJoinOutputRows outer.estimatedRows outerIsLeft joinType)
      (.indexNestedLoopJoin outer innerTable innerIndex outerKeyIdx joinType outerIsLeft)
  | .hashAggregate input groupBy aggregates => do
    let input ← compileExecPlan input
    return .mk (compiledProjectMeta input.execMeta (groupBy.length + aggregates.length)) none
      (.hashAggregate input groupBy aggregates)
  | .sort input orderBy => do
    let input ← compileExecPlan input
    return .mk input.execMeta input.estimatedRows (.sort input orderBy)
  | .topN input orderBy limit offset => do
    let input ← compileExecPlan input
    return .mk input.execMeta
      (estimateBoundedOutputRows input.estimatedRows (some limit) offset)
      (.topN input orderBy limit offset)
  | .crossProduct left right => do
    let left ← compileExecPlan left
    let right ← compileExecPlan right
    let estimatedRows := match left.estimatedRows, right.estimatedRows with
      | some left, some right => some (saturatingMul left right)
      | _, _ => none
    return .mk (compiledJoinMeta left.execMeta right.execMeta
      (left.execMeta.tables ++ right.execMeta.tables)) estimatedRows (.crossProduct left right)
  | .noOp input => compileExecPlan input

end Compile

end PhysicalPlanRunner

section Emitters

variable {σ τ : Type}

/-- What a cursor hands its rows to: it may fail, and may want no more. -/
abbrev ExecRowEmitter (σ : Type) := σ → Entry → ExecutionResult (σ × Bool)

/-- `if !run? { return Ok(false) }`, and what follows it. -/
def orStop (run : ExecutionResult (σ × Bool)) (stop : σ → τ)
    (next : σ → ExecutionResult (τ × Bool)) : ExecutionResult (τ × Bool) := do
  match ← run with
  | (s, true) => next s
  | (s, false) => return (stop s, false)

def emitRelationRows (emit : ExecRowEmitter σ) : List Entry → σ → ExecutionResult (σ × Bool)
  | [], s => return (s, true)
  | row :: rows, s => orStop (emit s row) id (emitRelationRows emit rows)

/-- What a visitor of source rows carries along. -/
structure VisitState (σ : Type) where
  state : σ
  continueScan : Bool
  error : Option ExecutionError

def emitVisitor (emit : ExecRowEmitter σ) (s : VisitState σ) (row : Entry) :
    VisitState σ × Bool :=
  match emit s.state row with
  | .ok (state, next) => (⟨state, next, s.error⟩, next)
  | .error e => (⟨s.state, s.continueScan, some e⟩, false)

def visitCompiledSourceRows
    (visitRows : (VisitState σ → Entry → VisitState σ × Bool) → VisitState σ →
      ExecutionResult (VisitState σ))
    (emit : ExecRowEmitter σ) (s : σ) : ExecutionResult (σ × Bool) := do
  let visited ← visitRows (emitVisitor emit) ⟨s, true, none⟩
  match visited.error with
  | some e => throw e
  | none => return (visited.state, visited.continueScan)

/-- A visit of rows that the data source lists. -/
def visitListed (rows : ExecutionResult (List Entry))
    (visitor : VisitState σ → Entry → VisitState σ × Bool) (s : VisitState σ) :
    ExecutionResult (VisitState σ) := do
  return (visit visitor (← rows) s).1

/-- Rows that an earlier key has yielded are passed over. -/
def freshEmitter (emit : ExecRowEmitter σ) : ExecRowEmitter (List RowId × σ) :=
  fun (seenIds, s) row =>
    if row.id ∈ seenIds then return ((seenIds, s), true)
    else do
      let (s, next) ← emit s row
      return ((row.id :: seenIds, s), next)

/-- What a limit carries along. -/
structure LimitState (σ : Type) where
  state : σ
  skipped : Nat
  taken : Nat

def limitEmitter (limit offset : Nat) (emit : ExecRowEmitter σ) : ExecRowEmitter (LimitState σ) :=
  fun s row =>
    if s.skipped < offset then return (⟨s.state, s.skipped + 1, s.taken⟩, true)
    else if limit ≤ s.taken then return (s, false)
    else do
      let (state, next) ← emit s.state row
      return (⟨state, s.skipped, s.taken + 1⟩, next && decide (s.taken + 1 < limit))

/-- Rows with the values of an earlier row are passed over. -/
def distinctEmitter (emit : ExecRowEmitter σ) :
    ExecRowEmitter (List (List (Value Scalar)) × σ) :=
  fun (seen, s) row =>
    if seen.any fun key => compareValues key row.values == .eq then return ((seen, s), true)
    else do
      let (s, next) ← emit s row
      return ((row.values :: seen, s), next)

/-- The probe of a hash join. The build rows it matches are marked before their rows are
handed on: the marks are read only when no row was declined. -/
def hashJoinEmitter (layout : JoinOutputLayout) (buildSide : HashJoinBuildSide)
    (buildKeyIdx probeKeyIdx : Nat) (emitUnmatchedProbe : Bool) (build : List Entry)
    (emit : ExecRowEmitter σ) : ExecRowEmitter (List Bool × σ) :=
  fun (buildMatched, s) probe => do
    let found := build.map fun entry =>
      keysMatch (Entry.getField entry buildKeyIdx) (Entry.getField probe probeKeyIdx)
    let (s, next) ← emitRelationRows emit (hashJoinProbe layout buildSide buildKeyIdx probeKeyIdx
      emitUnmatchedProbe build probe) s
    return ((List.zipWith or buildMatched found, s), next)

/-- The rows of the build side without a mark, where the join keeps them. -/
def emitUnmarked (layout : JoinOutputLayout) (buildSide : HashJoinBuildSide)
    (emitUnmatchedBuild : Bool) (build : List Entry) (buildMatched : List Bool)
    (emit : ExecRowEmitter σ) (s : σ) : ExecutionResult (σ × Bool) :=
  if emitUnmatchedBuild then
    emitRelationRows emit (((build.zip buildMatched).filter fun entry => !entry.2).map fun entry =>
      hashJoinRow layout buildSide (some entry.1) none) s
  else return (s, true)

end Emitters

namespace PhysicalPlanRunner

variable (runner : PhysicalPlanRunner)

section Cursors

variable {σ : Type}

/-- The loop over the keys of an IN list. -/
def executeIndexInCursor (table : TableName) (index : IndexName) (emit : ExecRowEmitter σ) :
    List (Value Scalar) → List RowId × σ → ExecutionResult (σ × Bool)
  | [], s => return (s.2, true)
  | key :: keys, s =>
    orStop (visitCompiledSourceRows (visitIndexPointWithSqlSemantics runner.dataSource table index
      key none) (freshEmitter emit) s) Prod.snd (executeIndexInCursor table index emit keys)

def executeCompiledSourceCursor (emit : ExecRowEmitter σ) :
    CompiledSourcePlan → σ → ExecutionResult (σ × Bool)
  | .tableScan table, s =>
    visitCompiledSourceRows (visitListed (runner.dataSource.getTableRows table)) emit s
  | .indexScan table index bounds limit offset reverse, s =>
    visitCompiledSourceRows (visitListed (runner.dataSource.getIndexRangeWithLimit table index
      bounds limit offset reverse)) emit s
  | .indexGet table index key limit, s =>
    visitCompiledSourceRows (visitIndexPointWithSqlSemantics runner.dataSource table index key
      limit) emit s
  | .indexInGet table index keys, s => runner.executeIndexInCursor table index emit keys ([], s)
  | .ginIndexScan table index key value queryType, s =>
    visitCompiledSourceRows (visitListed (runner.ginIndexRows table index key value queryType))
      emit s
  | .ginIndexScanMulti table index pairs matchAll, s =>
    visitCompiledSourceRows (visitListed (runner.dataSource.getGinIndexRowsMulti table index pairs
      matchAll)) emit s

def projectCompiledRow (projection : CompiledProjection) (row : Entry) : Entry :=
  match projection with
  | .columns indices => .newWithVersion row.id row.version
      (indices.map fun index => (Entry.getField row index).getD none)
  | .exprs exprs => runner.projectEntry none exprs row

/-- The inner rows that an outer row matches; the state says whether there was one. -/
def indexMatchEmitter (layout : JoinOutputLayout) (outerIsLeft : Bool) (outer : Entry)
    (emit : ExecRowEmitter σ) : ExecRowEmitter (Bool × σ) :=
  fun s inner => do
    let (state, next) ← emit s.2 (indexNestedLoopRow layout outerIsLeft outer (some inner))
    return ((true, state), next)

def indexNestedLoopEmitter (innerTable : TableName) (innerIndex : IndexName) (outerKeyIdx : Nat)
    (emitUnmatchedOuter outerIsLeft : Bool) (layout : JoinOutputLayout)
    (emit : ExecRowEmitter σ) : ExecRowEmitter σ :=
  fun s outer =>
    let visited := match Entry.getField outer outerKeyIdx with
      | some (some key) =>
        visitCompiledSourceRows (visitIndexPointWithSqlSemantics runner.dataSource innerTable
          innerIndex (some key) none) (indexMatchEmitter layout outerIsLeft outer emit) (false, s)
      | _ => pure ((false, s), true)
    orStop visited Prod.snd fun (matched, s) =>
      if emitUnmatchedOuter && !matched then
        emit s (indexNestedLoopRow layout outerIsLeft outer none)
      else return (s, true)

/-- The rows that a cursor hands to an emitter that declines none. -/
def collectRows
    (cursor : ExecRowEmitter (List Entry) → List Entry → ExecutionResult (List Entry × Bool)) :
    ExecutionResult (List Entry) := do
  let (rows, _) ← cursor (fun rows row => .ok (rows ++ [row], true)) []
  return rows

def compiledRelation (execMeta : EvalContext) (rows : List Entry) : Relation :=
  ⟨rows, execMeta.tables, execMeta.tableColumnCounts⟩

def executeCompiledCursorPlan :
    CompiledExecPlan → {σ : Type} → ExecRowEmitter σ → σ → ExecutionResult (σ × Bool)
  | .mk _ _ .empty, _, _, s => return (s, true)
  | .mk _ _ (.source source), _, emit, s => runner.executeCompiledSourceCursor emit source s
  | .mk _ _ (.filter input predicate), _, emit, s =>
    executeCompiledCursorPlan input
      (fun s row => if runner.compiledHolds predicate row then emit s row else return (s, true)) s
  | .mk _ _ (.project input projection), _, emit, s =>
    executeCompiledCursorPlan input
      (fun s row => emit s (runner.projectCompiledRow projection row)) s
  | .mk _ _ (.limit input limit offset), _, emit, s =>
    orStop (executeCompiledCursorPlan input (limitEmitter limit offset emit) ⟨s, 0, 0⟩)
      LimitState.state fun s => return (s.state, true)
  | .mk _ _ (.unionAll left right), _, emit, s =>
    orStop (executeCompiledCursorPlan left emit s) id (executeCompiledCursorPlan right emit)
  | .mk _ _ (.unionDistinct left right), _, emit, s =>
    orStop (executeCompiledCursorPlan left (distinctEmitter emit) ([], s)) Prod.snd fun s =>
      orStop (executeCompiledCursorPlan right (distinctEmitter emit) s) Prod.snd fun s =>
        return (s.2, true)
  | .mk execMeta _ (.hashJoin left right keys joinType .left), _, emit, s => do
    let layout := JoinOutputLayout.fromSources left.execMeta right.execMeta execMeta.tables
    let build ← collectRows (executeCompiledCursorPlan left)
    orStop (executeCompiledCursorPlan right (hashJoinEmitter layout .left keys.leftKeyIdx
        keys.rightKeyIdx (hashJoinEmitUnmatchedProbe joinType .left) build emit)
        (build.map fun _ => false, s)) Prod.snd fun (buildMatched, s) =>
      emitUnmarked layout .left (hashJoinEmitUnmatchedBuild joinType .left) build buildMatched emit s
  | .mk execMeta _ (.hashJoin left right keys joinType .right), _, emit, s => do
    let layout := JoinOutputLayout.fromSources left.execMeta right.execMeta execMeta.tables
    let build ← collectRows (executeCompiledCursorPlan right)
    orStop (executeCompiledCursorPlan left (hashJoinEmitter layout .right keys.rightKeyIdx
        keys.leftKeyIdx (hashJoinEmitUnmatchedProbe joinType .right) build emit)
        (build.map fun _ => false, s)) Prod.snd fun (buildMatched, s) =>
      emitUnmarked layout .right (hashJoinEmitUnmatchedBuild joinType .right) build buildMatched
        emit s
  | .mk execMeta _ (.sortMergeJoin left right keys joinType), _, emit, s => do
    let leftRows ← collectRows (executeCompiledCursorPlan left)
    let rightRows ← collectRows (executeCompiledCursorPlan right)
    emitRelationRows emit (emitSortMergeJoinEntries (compiledRelation left.execMeta leftRows)
      (compiledRelation right.execMeta rightRows) keys joinType
      (.fromSources left.execMeta right.execMeta execMeta.tables)) s
  | .mk execMeta _ (.nestedLoopJoin left right predicate joinType), _, emit, s => do
    let leftRows ← collectRows (executeCompiledCursorPlan left)
    let rightRows ← collectRows (executeCompiledCursorPlan right)
    emitRelationRows emit (emitNestedLoopJoinEntries leftRows rightRows
      (runner.compiledHolds predicate) joinType
      (.fromSources left.execMeta right.execMeta execMeta.tables)) s
  | .mk execMeta _ (.indexNestedLoopJoin outer innerTable innerIndex outerKeyIdx joinType
      outerIsLeft), _, emit, s => do
    let innerColCount ← runner.dataSource.getColumnCount innerTable
    executeCompiledCursorPlan outer (runner.indexNestedLoopEmitter innerTable innerIndex outerKeyIdx
      (indexJoinEmitsUnmatchedOuter joinType outerIsLeft) outerIsLeft
      (indexJoinOutputLayout outer.execMeta innerTable innerColCount outerIsLeft execMeta.tables)
      emit) s
  | .mk _ _ (.hashAggregate input groupBy aggregates), _, emit, s => do
    let rows ← collectRows (executeCompiledCursorPlan input)
    emitRelationRows emit (runner.executeHashAggregate (compiledRelation input.execMeta rows)
      groupBy aggregates).entries s
  | .mk _ _ (.sort input orderBy), _, emit, s => do
    let rows ← collectRows (executeCompiledCursorPlan input)
    emitRelationRows emit (executeSort (compiledRelation input.execMeta rows) orderBy).entries s
  | .mk _ _ (.topN input orderBy limit offset), _, emit, s => do
    let rows ← collectRows (executeCompiledCursorPlan input)
    let relation ← runner.executeTopN (compiledRelation input.execMeta rows) orderBy limit offset
    emitRelationRows emit relation.entries s
  | .mk _ _ (.crossProduct left right), _, emit, s => do
    let leftRows ← collectRows (executeCompiledCursorPlan left)
    let rightRows ← collectRows (executeCompiledCursorPlan right)
    emitRelationRows emit (emitCrossProductEntries leftRows rightRows
      (.fromSources left.execMeta right.execMeta (left.execMeta.tables ++ right.execMeta.tables))) s

def executeCompiledExecPlan (plan : CompiledExecPlan) : ExecutionResult Relation := do
  return compiledRelation plan.execMeta (← collectRows (runner.executeCompiledCursorPlan plan))

end Cursors

-- The equations of the compiler and of the executor, made here once for all proofs about them.
section Equations

attribute [local simp] compileExecPlan executeCompiledCursorPlan

end Equations

end PhysicalPlanRunner

end Cynos.Query
