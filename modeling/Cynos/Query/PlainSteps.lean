import Cynos.Query.RowBags

/-! The plain execution one operator at a time: whichever way `execute` takes for a plan, its
result is that of the operator on the result of its inputs. -/
namespace Cynos.Query

open Core

section Binding

variable {execMeta : EvalContext}

theorem resolveFrom_of_not_mem {tableName : TableName} {tables : List TableName}
    (h : tableName ∉ tables) (index offset : Nat) (counts : List Nat) :
    EvalContext.resolveFrom tableName index offset tables counts = index := by
  induction tables generalizing offset counts with
  | nil => rfl
  | cons table tables ih =>
    rw [List.mem_cons, not_or] at h
    rw [EvalContext.resolveFrom, if_neg (Ne.symm h.1)]
    exact ih h.2 _ _

theorem resolveMetaColumnIndex_eq (h : "" ∉ execMeta.tables) (tableName : TableName)
    (index : Nat) :
    resolveMetaColumnIndex execMeta tableName index =
      execMeta.resolveColumnIndex tableName index := by
  rw [resolveMetaColumnIndex]
  split
  · rename_i hname
    subst hname
    exact (resolveFrom_of_not_mem h index 0 _).symm
  · rfl

theorem resolveMetaColumnIndex_single (h : execMeta.tables.length ≤ 1) (tableName : TableName)
    (index : Nat) : resolveMetaColumnIndex execMeta tableName index = index := by
  obtain ⟨tables, counts⟩ := execMeta
  rw [resolveMetaColumnIndex]
  split
  · rfl
  · match tables, h with
    | [], _ => rfl
    | [table], _ =>
      rw [EvalContext.resolveColumnIndex, EvalContext.resolveFrom]
      split
      · exact Nat.zero_add index
      · rfl

mutual

/-- An expression bound to the tables of a row needs no context. -/
theorem evalAccessorExpr_bind (h : "" ∉ execMeta.tables) (functions : Functions)
    (get : Nat → Option (Value Scalar)) (expr : Expr) :
    evalAccessorExpr functions get none (bindExprToMeta execMeta expr) =
      evalAccessorExpr functions get (some execMeta) expr := by
  match expr with
  | .column col =>
    simp only [bindExprToMeta, evalAccessorExpr, evalColumn, resolveMetaColumnIndex_eq h]
  | .literal value => simp only [bindExprToMeta, evalAccessorExpr]
  | .binaryOp left op right =>
    simp only [bindExprToMeta, evalAccessorExpr, evalAccessorExpr_bind h functions get left,
      evalAccessorExpr_bind h functions get right]
  | .unaryOp op expr =>
    simp only [bindExprToMeta, evalAccessorExpr, evalAccessorExpr_bind h functions get expr]
  | .function name args =>
    simp only [bindExprToMeta, evalAccessorExpr, evalAccessorExprs_bind h functions get args]
  | .aggregate func none distinct =>
    rw [bindExprToMeta, evalAccessorExpr, evalAccessorExpr]
  | .aggregate func (some expr) distinct =>
    simp only [bindExprToMeta, evalAccessorExpr, evalAccessorExpr_bind h functions get expr]
  | .between expr low high =>
    simp only [bindExprToMeta, evalAccessorExpr, evalAccessorExpr_bind h functions get expr,
      evalAccessorExpr_bind h functions get low, evalAccessorExpr_bind h functions get high]
  | .notBetween expr low high =>
    simp only [bindExprToMeta, evalAccessorExpr, evalAccessorExpr_bind h functions get expr,
      evalAccessorExpr_bind h functions get low, evalAccessorExpr_bind h functions get high]
  | .in expr list =>
    simp only [bindExprToMeta, evalAccessorExpr, evalAccessorExpr_bind h functions get expr,
      evalAccessorExprs_bind h functions get list]
  | .notIn expr list =>
    simp only [bindExprToMeta, evalAccessorExpr, evalAccessorExpr_bind h functions get expr,
      evalAccessorExprs_bind h functions get list]
  | .like expr pattern =>
    simp only [bindExprToMeta, evalAccessorExpr, evalAccessorExpr_bind h functions get expr]
  | .notLike expr pattern =>
    simp only [bindExprToMeta, evalAccessorExpr, evalAccessorExpr_bind h functions get expr]
  | .match expr pattern =>
    simp only [bindExprToMeta, evalAccessorExpr, evalAccessorExpr_bind h functions get expr]
  | .notMatch expr pattern =>
    simp only [bindExprToMeta, evalAccessorExpr, evalAccessorExpr_bind h functions get expr]

theorem evalAccessorExprs_bind (h : "" ∉ execMeta.tables) (functions : Functions)
    (get : Nat → Option (Value Scalar)) (exprs : List Expr) :
    evalAccessorExprs functions get none (bindExprsToMeta execMeta exprs) =
      evalAccessorExprs functions get (some execMeta) exprs := by
  match exprs with
  | [] => simp only [bindExprsToMeta, evalAccessorExprs]
  | expr :: exprs =>
    simp only [bindExprsToMeta, evalAccessorExprs, evalAccessorExpr_bind h functions get expr,
      evalAccessorExprs_bind h functions get exprs]

end

mutual

/-- Over one table the columns of an expression are where they were. -/
theorem bindExprToMeta_single (h : execMeta.tables.length ≤ 1) (expr : Expr) :
    bindExprToMeta execMeta expr = expr := by
  match expr with
  | .column col => simp only [bindExprToMeta, resolveMetaColumnIndex_single h]
  | .literal value => simp only [bindExprToMeta]
  | .binaryOp left op right =>
    simp only [bindExprToMeta, bindExprToMeta_single h left, bindExprToMeta_single h right]
  | .unaryOp op expr => simp only [bindExprToMeta, bindExprToMeta_single h expr]
  | .function name args => simp only [bindExprToMeta, bindExprsToMeta_single h args]
  | .aggregate func none distinct => simp only [bindExprToMeta]
  | .aggregate func (some expr) distinct =>
    simp only [bindExprToMeta, bindExprToMeta_single h expr]
  | .between expr low high | .notBetween expr low high =>
    simp only [bindExprToMeta, bindExprToMeta_single h expr, bindExprToMeta_single h low,
      bindExprToMeta_single h high]
  | .in expr list | .notIn expr list =>
    simp only [bindExprToMeta, bindExprToMeta_single h expr, bindExprsToMeta_single h list]
  | .like expr pattern | .notLike expr pattern | .match expr pattern | .notMatch expr pattern =>
    simp only [bindExprToMeta, bindExprToMeta_single h expr]

theorem bindExprsToMeta_single (h : execMeta.tables.length ≤ 1) (exprs : List Expr) :
    bindExprsToMeta execMeta exprs = exprs := by
  match exprs with
  | [] => simp only [bindExprsToMeta]
  | expr :: exprs =>
    simp only [bindExprsToMeta, bindExprToMeta_single h expr, bindExprsToMeta_single h exprs]

end

end Binding

section Layout

variable (left right : EvalContext)

/-- Tables that no side has are passed over. -/
theorem layoutSegments_tables (outputTables : List TableName) (leftUsed rightUsed : List Bool) :
    layoutSegments left right
        ((layoutSegments left right outputTables leftUsed rightUsed).map Prod.fst) leftUsed
        rightUsed =
      layoutSegments left right outputTables leftUsed rightUsed := by
  induction outputTables generalizing leftUsed rightUsed with
  | nil => rfl
  | cons table outputTables ih =>
    rw [layoutSegments.eq_def left right (table :: outputTables)]
    dsimp only
    cases hleft : takeSegment table 0 left.tables left.tableColumnCounts leftUsed with
    | some found =>
      dsimp only
      rw [List.map_cons, layoutSegments.eq_def]
      dsimp only
      rw [hleft]
      dsimp only
      rw [ih]
    | none =>
      dsimp only
      cases hright : takeSegment table 0 right.tables right.tableColumnCounts rightUsed with
      | some found =>
        dsimp only
        rw [List.map_cons, layoutSegments.eq_def]
        dsimp only
        rw [hleft, hright]
        dsimp only
        rw [ih]
      | none => exact ih _ _

theorem fromSources_tables (outputTables : List TableName) :
    JoinOutputLayout.fromSources left right
        (JoinOutputLayout.fromSources left right outputTables).tables =
      .fromSources left right outputTables := by
  rw [JoinOutputLayout.fromSources, JoinOutputLayout.fromSources, layoutSegments_tables]

theorem mem_of_takeSegment {target : TableName} {offset : Nat} {tables : List TableName}
    {counts : List Nat} {used : List Bool} {found : Nat × Nat × List Bool}
    (h : takeSegment target offset tables counts used = some found) : target ∈ tables := by
  induction tables generalizing offset counts used found with
  | nil => cases h
  | cons table tables ih =>
    rw [takeSegment] at h
    split at h
    · rename_i heq
      exact heq.1 ▸ List.mem_cons_self
    · obtain ⟨rest, hrest, -⟩ := Option.map_eq_some_iff.mp h
      exact List.mem_cons_of_mem _ (ih hrest)

/-- The tables of a joined row are those of its sides. -/
theorem mem_fromSources_tables {outputTables : List TableName} {table : TableName}
    (h : table ∈ (JoinOutputLayout.fromSources left right outputTables).tables) :
    table ∈ left.tables ∨ table ∈ right.tables := by
  have hsegments : ∀ (outputTables : List TableName) (leftUsed rightUsed : List Bool),
      table ∈ (layoutSegments left right outputTables leftUsed rightUsed).map Prod.fst →
        table ∈ left.tables ∨ table ∈ right.tables := by
    intro outputTables
    induction outputTables with
    | nil => exact fun _ _ h => absurd h List.not_mem_nil
    | cons target outputTables ih =>
      intro leftUsed rightUsed hmem
      rw [layoutSegments] at hmem
      split at hmem
      · rename_i heq
        rw [List.map_cons, List.mem_cons] at hmem
        rcases hmem with rfl | hmem
        · exact .inl (mem_of_takeSegment heq)
        · exact ih _ _ hmem
      · split at hmem
        · rename_i heq
          rw [List.map_cons, List.mem_cons] at hmem
          rcases hmem with rfl | hmem
          · exact .inr (mem_of_takeSegment heq)
          · exact ih _ _ hmem
        · exact ih _ _ hmem
  exact hsegments _ _ _ h

end Layout

section Plans

/-- The inputs of a plan. -/
def PhysicalPlan.inputs : PhysicalPlan → List PhysicalPlan
  | .filter input _ | .project input _ | .hashAggregate input _ _ | .sort input _
  | .topN input _ _ _ | .limit input _ _ | .noOp input => [input]
  | .hashJoin left right _ _ _ | .sortMergeJoin left right _ _ _ | .nestedLoopJoin left right _ _ _
  | .crossProduct left right | .union left right _ => [left, right]
  | .indexNestedLoopJoin outer _ _ _ _ _ _ => [outer]
  | _ => []

/-- Every node of a plan is as `p` says. -/
inductive PhysicalPlan.All (p : PhysicalPlan → Prop) : PhysicalPlan → Prop
  | intro {plan : PhysicalPlan} (here : p plan) (inputs : ∀ input ∈ plan.inputs, All p input) :
    All p plan

namespace PhysicalPlan.All

variable {p q : PhysicalPlan → Prop} {plan : PhysicalPlan}

theorem here (h : plan.All p) : p plan := by
  cases h with
  | intro here _ => exact here

theorem of_mem (h : plan.All p) {input : PhysicalPlan} (hinput : input ∈ plan.inputs) :
    input.All p := by
  cases h with
  | intro _ inputs => exact inputs input hinput

theorem imp (hpq : ∀ plan, p plan → q plan) (h : plan.All p) : plan.All q := by
  induction h with
  | intro here _ ih => exact .intro (hpq _ here) ih

theorem stripNoop (h : plan.All p) : (stripNoop plan).All p := by
  induction plan with
  | noOp input ih => exact ih (h.of_mem List.mem_cons_self)
  | _ => exact h

end PhysicalPlan.All

end Plans

namespace PhysicalPlanRunner

variable (runner : PhysicalPlanRunner)

/-- The test of a filter on a relation. -/
def filterHolds (input : Relation) (predicate : Expr) (entry : Entry) : Bool :=
  if input.tables.length ≤ 1 then
    match simpleBinaryPredicate predicate with
    | some simple =>
      evalSimpleBinaryPredicateValue ((Entry.getField entry simple.columnIndex).getD none) simple
    | none => evalPredicate runner.functions (Entry.getField entry) none predicate
  else evalPredicate runner.functions (Entry.getField entry) (some input.context) predicate

theorem executeFilter_eq (input : Relation) (predicate : Expr) :
    runner.executeFilter input predicate = input.filter (runner.filterHolds input predicate) := by
  unfold executeFilter filterHolds
  split <;> rfl

/-- The compiled test of a filter on a relation. -/
def compiledFilterHolds (input : Relation) (predicate : Expr) (entry : Entry) : Bool :=
  runner.compiledHolds
    (compileRowPredicate runner.functions (bindExprToMeta input.context predicate)) entry

def joinHolds (layout : JoinOutputLayout) (condition : Expr) (entry : Entry) : Bool :=
  evalPredicate runner.functions (Entry.getField entry) (some layout.context) condition

def compiledJoinHolds (layout : JoinOutputLayout) (condition : Expr) (entry : Entry) : Bool :=
  runner.compiledHolds
    (compileRowPredicate runner.functions (bindExprToMeta layout.context condition)) entry

/-- The two evaluators agree on the predicate of a node, on the rows it is asked about. -/
def EvaluatorsAgree : PhysicalPlan → Prop
  | .filter input predicate => ∀ relation, runner.execute input = .ok relation →
      ∀ entry ∈ relation.entries,
        runner.filterHolds relation predicate entry =
          runner.compiledFilterHolds relation predicate entry
  | .nestedLoopJoin left right condition _ outputTables => ∀ l r,
      runner.execute left = .ok l → runner.execute right = .ok r →
        ∀ a ∈ l.entries, ∀ b ∈ r.entries,
          let layout := JoinOutputLayout.fromSources l.context r.context outputTables
          let joined := layout.materializeRow (some a) (some b)
          runner.joinHolds layout condition joined = runner.compiledJoinHolds layout condition joined
  | _ => True

variable {runner}

theorem execute_noOp (input : PhysicalPlan) :
    runner.execute (.noOp input) = runner.execute input := by
  have hsame : compileSingleTablePipelineArtifact runner.functions (.noOp input) =
      compileSingleTablePipelineArtifact runner.functions input := by
    unfold compileSingleTablePipelineArtifact
    rw [stripNoop]
  rw [execute.eq_def _ (.noOp input)]
  cases h : compileSingleTablePipelineArtifact runner.functions input with
  | none => rw [compileExecutionArtifact_none (hsame.trans h) nofun]
  | some pipeline =>
    rw [compileExecutionArtifact_some (hsame.trans h), execute.eq_def _ input,
      compileExecutionArtifact_some h]

theorem execute_stripNoop (plan : PhysicalPlan) :
    runner.execute (stripNoop plan) = runner.execute plan := by
  induction plan with
  | noOp input ih => rw [stripNoop, execute_noOp, ih]
  | _ => rfl

theorem ok_of_rows_bind {A : Type} {table : TableName} {f : Nat → List Entry → A} {a : A}
    (h : (do
      let columnCount ← runner.dataSource.getColumnCount table
      let rows ← runner.dataSource.getTableRows table
      return f columnCount rows) = (.ok a : ExecutionResult A)) :
    ∃ columnCount rows, runner.dataSource.getColumnCount table = .ok columnCount ∧
      runner.dataSource.getTableRows table = .ok rows ∧ f columnCount rows = a := by
  cases hcount : runner.dataSource.getColumnCount table with
  | error e =>
    rw [hcount] at h
    cases h
  | ok columnCount =>
    rw [hcount, ok_bind] at h
    cases hrows : runner.dataSource.getTableRows table with
    | error e =>
      rw [hrows] at h
      cases h
    | ok rows =>
      rw [hrows] at h
      exact ⟨columnCount, rows, rfl, rfl, Except.ok.inj h⟩

theorem executeTableScan_eq {table : TableName} {columnCount : Nat} {rows : List Entry}
    (hcount : runner.dataSource.getColumnCount table = .ok columnCount)
    (hrows : runner.dataSource.getTableRows table = .ok rows) :
    runner.executeTableScan table = .ok (.ofTable table columnCount rows) := by
  rw [executeTableScan, hcount, ok_bind, hrows]
  rfl

theorem compiledFilterHolds_ofTable (table : TableName) (columnCount : Nat) (rows : List Entry)
    (predicate : Expr) :
    runner.compiledFilterHolds (.ofTable table columnCount rows) predicate =
      runner.compiledHolds (compileRowPredicate runner.functions predicate) := by
  have hsingle : (Relation.ofTable table columnCount rows).context.tables.length ≤ 1 :=
    Nat.le_refl 1
  funext entry
  rw [compiledFilterHolds, bindExprToMeta_single hsingle]

/-- A filter, compiled or not. -/
theorem execute_filter_of {input : PhysicalPlan} {predicate : Expr} {r : Relation}
    (hagree : runner.EvaluatorsAgree (.filter input predicate))
    (h : runner.execute input = .ok r) :
    runner.execute (.filter input predicate) =
      .ok (r.filter (runner.compiledFilterHolds r predicate)) := by
  have hplain : (do return runner.executeFilter (← runner.execute input) predicate) =
      (.ok (r.filter (runner.compiledFilterHolds r predicate)) : ExecutionResult Relation) := by
    rw [h, ok_bind, pure_eq_ok, executeFilter_eq, Relation.filter, Relation.filter]
    congr 2
    exact List.filter_congr fun entry hentry => hagree r h entry hentry
  rw [execute.eq_def]
  cases input with
  | tableScan table =>
    rw [execute_tableScan] at h
    obtain ⟨columnCount, rows, hcount, hrows, rfl⟩ := ok_of_rows_bind h
    change runner.executeCompiledFilteredTableScan table
      (compileRowPredicate runner.functions predicate) = _
    rw [executeCompiledFilteredTableScan, hcount, ok_bind, hrows, compiledFilterHolds_ofTable]
    rfl
  | _ => exact hplain

theorem execute_filter {input : PhysicalPlan} {predicate : Expr} {relation : Relation}
    (hagree : runner.EvaluatorsAgree (.filter input predicate))
    (h : runner.execute (.filter input predicate) = .ok relation) :
    ∃ r, runner.execute input = .ok r ∧
      relation = r.filter (runner.compiledFilterHolds r predicate) := by
  obtain ⟨r, hr⟩ : ∃ r, runner.execute input = .ok r := by
    have hplain : (do return runner.executeFilter (← runner.execute input) predicate) =
        (.ok relation : ExecutionResult Relation) → ∃ r, runner.execute input = .ok r := by
      intro h
      cases hinput : runner.execute input with
      | error e =>
        rw [hinput] at h
        cases h
      | ok r => exact ⟨r, rfl⟩
    rw [execute.eq_def] at h
    cases input with
    | tableScan table =>
      obtain ⟨columnCount, rows, hcount, hrows, -⟩ := ok_of_rows_bind h
      exact ⟨_, executeTableScan_eq hcount hrows⟩
    | _ => exact hplain h
  rw [execute_filter_of hagree hr] at h
  exact ⟨r, hr, (Except.ok.inj h).symm⟩

/-- The filters of a pipeline, over one table. -/
theorem execute_pipelineSource {plan : PhysicalPlan} {filters : List CompiledRowPredicate}
    {table : TableName} {columnCount : Nat} {rows : List Entry}
    (hplan : pipelineSource runner.functions plan = some (filters, table))
    (hagree : plan.All runner.EvaluatorsAgree)
    (hcount : runner.dataSource.getColumnCount table = .ok columnCount)
    (hrows : runner.dataSource.getTableRows table = .ok rows) :
    runner.execute plan = .ok (.ofTable table columnCount
      (rows.filter fun row => filters.all fun f => runner.compiledHolds f row)) := by
  induction plan generalizing filters with
  | tableScan table' =>
    cases hplan
    rw [execute_tableScan, executeTableScan_eq hcount hrows]
    simp
  | noOp input ih =>
    rw [execute_noOp]
    exact ih hplan (hagree.of_mem List.mem_cons_self)
  | filter input predicate ih =>
    rw [pipelineSource, Option.map_eq_some_iff] at hplan
    obtain ⟨⟨filters', table'⟩, hinput, hpair⟩ := hplan
    cases hpair
    have hrun := ih hinput (hagree.of_mem List.mem_cons_self)
    rw [execute_filter_of hagree.here hrun, compiledFilterHolds_ofTable, Relation.filter,
      Relation.ofTable, Relation.ofTable, List.filter_filter]
    rfl
  | _ => cases hplan

section Projections

theorem columnIndices_values (functions : Functions) (get : Nat → Option (Value Scalar))
    {columns : List Expr} {indices : List Nat} (h : columnIndices columns = some indices) :
    evalAccessorExprs functions get none columns = indices.map fun index => (get index).getD none := by
  induction columns generalizing indices with
  | nil =>
    obtain rfl := Option.some.inj h
    rw [evalAccessorExprs]
    rfl
  | cons column columns ih =>
    rw [columnIndices, List.mapM_cons, Option.bind_eq_bind, Option.bind_eq_some_iff] at h
    obtain ⟨index, hindex, h⟩ := h
    rw [Option.bind_eq_bind, Option.bind_eq_some_iff] at h
    obtain ⟨rest, hrest, h⟩ := h
    obtain rfl := Option.some.inj h
    rw [evalAccessorExprs, ih hrest]
    cases column <;> cases hindex
    rw [evalAccessorExpr, evalColumn]
    rfl

theorem evalAccessorExprs_length (functions : Functions) (get : Nat → Option (Value Scalar))
    (ctx : Option EvalContext) (exprs : List Expr) :
    (evalAccessorExprs functions get ctx exprs).length = exprs.length := by
  induction exprs with
  | nil => rw [evalAccessorExprs]; rfl
  | cons expr exprs ih => rw [evalAccessorExprs, List.length_cons, List.length_cons, ih]

theorem projectCompiledRow_eq (columns : List Expr) :
    runner.projectCompiledRow (compileProjectionExprs columns) =
      runner.projectEntry none columns := by
  funext entry
  rw [compileProjectionExprs]
  cases h : columnIndices columns with
  | none => rfl
  | some indices =>
    dsimp only [projectCompiledRow]
    rw [projectEntry, columnIndices_values runner.functions (Entry.getField entry) h]

theorem projectRow_eq (columns : List Expr) :
    runner.projectRow (compileProjection columns) = runner.projectEntry none columns := by
  funext entry
  rw [compileProjection]
  cases h : columnIndices columns with
  | none => rfl
  | some indices =>
    dsimp only [projectRow]
    rw [projectEntry, columnIndices_values runner.functions (Entry.getField entry) h]

theorem projectEntry_bind {execMeta : EvalContext} (h : "" ∉ execMeta.tables)
    (columns : List Expr) :
    runner.projectEntry none (bindExprsToMeta execMeta columns) =
      runner.projectEntry (some execMeta) columns := by
  funext entry
  rw [projectEntry, projectEntry, evalAccessorExprs_bind h]

theorem executeProject_ofTable {table : TableName} (hname : table ≠ "") (columnCount : Nat)
    (rows : List Entry) (columns : List Expr) :
    runner.executeProject (.ofTable table columnCount rows) columns =
      .ofTable table columns.length (rows.map (runner.projectRow (compileProjection columns))) := by
  have hbind : runner.projectEntry none
      (bindExprsToMeta (Relation.ofTable table columnCount rows).context columns) =
        runner.projectEntry (some (Relation.ofTable table columnCount rows).context) columns :=
    projectEntry_bind (fun h => hname (List.mem_singleton.mp h).symm) columns
  have hsingle : (Relation.ofTable table columnCount rows).context.tables.length ≤ 1 :=
    Nat.le_refl 1
  rw [bindExprsToMeta_single hsingle] at hbind
  rw [executeProject, ← hbind, projectRow_eq]
  rfl

end Projections

section Pipelines

theorem executeCached_ok {pipeline : CachedSingleTablePipeline} {relation : Relation}
    (h : runner.executeCachedSingleTablePipeline pipeline = .ok relation) :
    ∃ columnCount rows, runner.dataSource.getColumnCount pipeline.table = .ok columnCount ∧
      runner.dataSource.getTableRows pipeline.table = .ok rows := by
  obtain ⟨columnCount, rows, hcount, hrows, -⟩ := ok_of_rows_bind h
  exact ⟨columnCount, rows, hcount, hrows⟩

theorem executeCached_eq {pipeline : CachedSingleTablePipeline} {columnCount : Nat}
    {rows : List Entry}
    (hcount : runner.dataSource.getColumnCount pipeline.table = .ok columnCount)
    (hrows : runner.dataSource.getTableRows pipeline.table = .ok rows) :
    runner.executeCachedSingleTablePipeline pipeline = .ok (.ofTable pipeline.table
      (match pipeline.projection with
        | .identity => columnCount
        | .columns indices => indices.length
        | .exprs exprs => exprs.length)
      ((match pipeline.limit with
        | some (limit, offset) => limited offset (some limit) (rows.filter fun row =>
            pipeline.filters.all fun f => runner.compiledHolds f row)
        | none => rows.filter fun row =>
            pipeline.filters.all fun f => runner.compiledHolds f row).map
        (runner.projectRow pipeline.projection))) := by
  rw [executeCachedSingleTablePipeline, hcount, ok_bind, hrows]
  rfl

theorem compileProjection_length (functions : Functions) (columns : List Expr)
    (columnCount : Nat) :
    (match compileProjection columns with
      | .identity => columnCount
      | .columns indices => indices.length
      | .exprs exprs => exprs.length) = columns.length := by
  rw [compileProjection]
  cases h : columnIndices columns with
  | none => rfl
  | some indices =>
    rw [← evalAccessorExprs_length functions (fun _ => none) none columns,
      columnIndices_values functions _ h, List.length_map]

theorem execute_project_source {input : PhysicalPlan} {columns : List Expr}
    {source : List CompiledRowPredicate × TableName}
    (hsource : pipelineSource runner.functions input = some source) :
    runner.execute (.project input columns) = runner.executeCachedSingleTablePipeline
      ⟨source.2, source.1, compileProjection columns, none⟩ := by
  have hsome : compileSingleTablePipelineArtifact runner.functions (.project input columns) =
      some ⟨source.2, source.1, compileProjection columns, none⟩ :=
    congrArg (Option.map _) hsource
  rw [execute.eq_def, compileExecutionArtifact_some hsome]

/-- The limit of a pipeline takes a window of what its input yields. -/
theorem execute_pipelineOver {input : PhysicalPlan} {limit offset : Nat}
    {pipeline : CachedSingleTablePipeline} {relation : Relation}
    (hover : pipelineOver runner.functions (some (limit, offset)) input = some pipeline)
    (hagree : input.All runner.EvaluatorsAgree)
    (h : runner.executeCachedSingleTablePipeline pipeline = .ok relation) :
    ∃ r, runner.execute input = .ok r ∧ relation = r.window limit offset := by
  have hstrip := hagree.stripNoop
  rw [pipelineOver] at hover
  rw [← execute_stripNoop]
  obtain ⟨columnCount, rows, hcount, hrows⟩ := executeCached_ok h
  rw [executeCached_eq hcount hrows] at h
  obtain rfl := Except.ok.inj h
  split at hover
  · rename_i input' columns hproject
    obtain ⟨source, hsource, rfl⟩ := Option.map_eq_some_iff.mp hover
    have hinput : runner.executeCachedSingleTablePipeline
        ⟨source.2, source.1, compileProjection columns, none⟩ = _ := executeCached_eq hcount hrows
    rw [← execute_project_source hsource, ← hproject] at hinput
    refine ⟨_, hinput, ?_⟩
    rw [Relation.window, Relation.ofTable, Relation.ofTable, ← List.map_drop, ← List.map_take]
    rfl
  · obtain ⟨source, hsource, rfl⟩ := Option.map_eq_some_iff.mp hover
    refine ⟨_, execute_pipelineSource hsource hstrip hcount hrows, ?_⟩
    rw [projectRow_identity, List.map_id]
    rfl

/-- A limit, in a pipeline or not. -/
theorem execute_limit {input : PhysicalPlan} {limit offset : Nat} {relation : Relation}
    (hagree : input.All runner.EvaluatorsAgree)
    (h : runner.execute (.limit input limit offset) = .ok relation) :
    ∃ r, runner.execute input = .ok r ∧ relation = r.window limit offset := by
  rw [execute.eq_def] at h
  cases hover : pipelineOver runner.functions (some (limit, offset)) input with
  | none =>
    have hnone : compileSingleTablePipelineArtifact runner.functions (.limit input limit offset) =
        none := hover
    rw [compileExecutionArtifact_none hnone nofun] at h
    cases hinput : runner.execute input with
    | error e =>
      dsimp only at h
      rw [hinput] at h
      cases h
    | ok r =>
      dsimp only at h
      rw [hinput, ok_bind, executeLimit] at h
      split at h
      · exact ⟨r, rfl, (Except.ok.inj h).symm⟩
      · cases h
  | some pipeline =>
    have hsome : compileSingleTablePipelineArtifact runner.functions (.limit input limit offset) =
        some pipeline := hover
    rw [compileExecutionArtifact_some hsome] at h
    exact execute_pipelineOver hover hagree h

variable (hname : ∀ columnCount, runner.dataSource.getColumnCount "" ≠ .ok columnCount)
include hname

theorem table_ne_empty {table : TableName} {columnCount : Nat}
    (h : runner.dataSource.getColumnCount table = .ok columnCount) : table ≠ "" := by
  rintro rfl
  exact hname columnCount h

/-- A projection, in a pipeline or not. -/
theorem execute_project {input : PhysicalPlan} {columns : List Expr} {relation : Relation}
    (hagree : input.All runner.EvaluatorsAgree)
    (h : runner.execute (.project input columns) = .ok relation) :
    ∃ r, runner.execute input = .ok r ∧ relation = runner.executeProject r columns := by
  cases hsource : pipelineSource runner.functions input with
  | none =>
    rw [execute.eq_def] at h
    have hnone : compileSingleTablePipelineArtifact runner.functions (.project input columns) =
        none := congrArg (Option.map _) hsource
    rw [compileExecutionArtifact_none hnone nofun] at h
    cases hinput : runner.execute input with
    | error e =>
      dsimp only at h
      rw [hinput] at h
      cases h
    | ok r =>
      dsimp only at h
      rw [hinput] at h
      exact ⟨r, rfl, (Except.ok.inj h).symm⟩
  | some source =>
    rw [execute_project_source hsource] at h
    obtain ⟨columnCount, rows, hcount, hrows⟩ := executeCached_ok h
    rw [executeCached_eq hcount hrows] at h
    refine ⟨_, execute_pipelineSource hsource hagree hcount hrows, ?_⟩
    rw [executeProject_ofTable (table_ne_empty hname hcount), ← Except.ok.inj h,
      compileProjection_length runner.functions]

end Pipelines

end PhysicalPlanRunner

end Cynos.Query
