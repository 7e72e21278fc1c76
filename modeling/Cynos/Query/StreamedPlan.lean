import Cynos.Query.PlainSteps

/-! A streamed plan against its plain execution. A limit that is reached reports the end of
its own rows as if nobody wanted more: the right branch of a union and the unmatched build
rows of a full join are lost with it, and nothing else is. -/
namespace Cynos.Query

open Core Join

/-- No hash join decides the order of the rows. -/
def PhysicalPlan.hashJoinFree : PhysicalPlan → Bool
  | .hashJoin _ _ _ _ _ => false
  | .filter input _ | .project input _ | .hashAggregate input _ _ | .sort input _
  | .topN input _ _ _ | .limit input _ _ | .noOp input => hashJoinFree input
  | .indexNestedLoopJoin outer _ _ _ _ _ _ => hashJoinFree outer
  | .sortMergeJoin left right _ _ _ | .nestedLoopJoin left right _ _ _
  | .crossProduct left right | .union left right _ => hashJoinFree left && hashJoinFree right
  | _ => true

/-- The aggregates of a plan group by columns only. -/
def PhysicalPlan.GroupsByColumns : PhysicalPlan → Prop
  | .hashAggregate _ groupBy _ => ∀ expr ∈ groupBy, ∃ column, expr = .column column
  | _ => True

namespace PhysicalPlanRunner

variable (runner : PhysicalPlanRunner)

/-- Limits and the like read rows in an order that a hash join leaves open nowhere, or do not
depend on it. -/
def RowOrderSettled : PhysicalPlan → Prop
  | .limit input _ _ | .topN input _ _ _ => input.hashJoinFree = true
  | .union left right false => (left.hashJoinFree && right.hashJoinFree) = true ∨
      ∀ l r, runner.execute left = .ok l → runner.execute right = .ok r →
        DistinctValues (l.entries ++ r.entries)
  | .sortMergeJoin left right condition _ _ =>
      (left.hashJoinFree && right.hashJoinFree) = true ∨
      ∀ l r keys, runner.execute left = .ok l → runner.execute right = .ok r →
        extractJoinKeys condition l.context r.context = .ok keys →
          TransitiveOn (JoinKey keys l.entries r.entries)
  | .hashAggregate input groupBy aggregates => input.hashJoinFree = true ∨
      ∀ relation rows, runner.execute input = .ok relation → SameRows rows relation.entries →
        SameRows (runner.executeHashAggregate { relation with entries := rows } groupBy
          aggregates).entries (runner.executeHashAggregate relation groupBy aggregates).entries
  | _ => True

section Cuts

variable (tableRowCount : TableName → ExecutionResult Nat)

def estimatedRows (plan : PhysicalPlan) : Option Nat :=
  match runner.compileExecPlan tableRowCount plan with
  | .ok compiled => compiled.estimatedRows
  | .error _ => none

def compiledBuildSide (left right : PhysicalPlan) (joinType : JoinType) : HashJoinBuildSide :=
  chooseCompiledHashJoinBuildSide (runner.estimatedRows tableRowCount left)
    (runner.estimatedRows tableRowCount right) joinType

def rowCount (plan : PhysicalPlan) : Nat :=
  match runner.execute plan with
  | .ok relation => relation.entries.length
  | .error _ => 0

/-- A limit whose report goes through to the root of the plan is reached. -/
def fills : PhysicalPlan → Bool
  | .limit input limit offset =>
    limitReached (runner.rowCount input) limit offset || fills input
  | .filter input _ | .project input _ | .noOp input => fills input
  | .union left right _ => fills left || fills right
  | .hashJoin left right _ joinType _ =>
    match runner.compiledBuildSide tableRowCount left right joinType with
    | .left => fills right
    | .right => fills left
  | .indexNestedLoopJoin outer _ _ _ _ _ _ => fills outer
  | _ => false

/-- A reached limit in the left branch of a union or on the probe side of a full join, with
rows that come after it. -/
def Loses : PhysicalPlan → Prop
  | .union left right all => runner.fills tableRowCount left = true ∧
      ∃ l r, runner.execute left = .ok l ∧ runner.execute right = .ok r ∧
        if all then r.entries ≠ []
        else distinctEntries (l.entries.foldl distinctUpdate []) r.entries ≠ []
  | .hashJoin left right condition .fullOuter _ =>
      ∃ l r keys, runner.execute left = .ok l ∧ runner.execute right = .ok r ∧
        extractJoinKeys condition l.context r.context = .ok keys ∧
        match runner.compiledBuildSide tableRowCount left right .fullOuter with
        | .left => runner.fills tableRowCount right = true ∧
            ∃ a ∈ l.entries, ∀ b ∈ r.entries, hashKeysMatch keys a b = false
        | .right => runner.fills tableRowCount left = true ∧
            ∃ b ∈ r.entries, ∀ a ∈ l.entries, hashKeysMatch keys a b = false
  | _ => False

/-- A node loses no rows, and the tables of its rows are laid out as it says. -/
def Keeps (plan : PhysicalPlan) : Prop :=
  ¬ runner.Loses tableRowCount plan ∧ plan.GroupsByColumns

/-- The plan compiles, and streams rows that are those of the relation unless it loses some. -/
structure Streamed (plan : PhysicalPlan) (relation : Relation) (compiled : CompiledExecPlan)
    (rows : List Entry) : Prop where
  compiles : runner.compileExecPlan tableRowCount plan = .ok compiled
  emits : runner.Emits compiled rows (runner.fills tableRowCount plan)
  context : plan.GroupsByColumns → compiled.execMeta = relation.context
  named : "" ∉ relation.tables
  same : SameRows rows relation.entries ↔ ¬ runner.Loses tableRowCount plan
  sequence : ¬ runner.Loses tableRowCount plan → plan.hashJoinFree = true → rows = relation.entries

def Streams (plan : PhysicalPlan) (relation : Relation) : Prop :=
  ∃ compiled rows, runner.Streamed tableRowCount plan relation compiled rows

end Cuts

section Steps

variable {runner} {tableRowCount : TableName → ExecutionResult Nat} {input left right : PhysicalPlan}
  {r l relation : Relation}

theorem filterMap_length {A B : Type} {f : A → Option B} {as : List A}
    (h : ∀ a ∈ as, ∃ b, f a = some b) : (as.filterMap f).length = as.length := by
  induction as with
  | nil => rfl
  | cons a as ih =>
    obtain ⟨b, hb⟩ := h a List.mem_cons_self
    rw [List.filterMap_cons_some hb, List.length_cons, List.length_cons,
      ih fun a ha => h a (List.mem_cons_of_mem _ ha)]

theorem executeHashAggregate_context (r : Relation) {groupBy : List Expr}
    (aggregates : List (AggregateFunc × Expr))
    (hcolumns : ∀ expr ∈ groupBy, ∃ column, expr = .column column) :
    (runner.executeHashAggregate r groupBy aggregates).context =
      compiledProjectMeta r.context (groupBy.length + aggregates.length) := by
  refine congrArg (fun width => EvalContext.mk r.tables [width])
    (congrArg₂ (· + ·) (filterMap_length fun expr hexpr => ?_) (List.length_map _))
  obtain ⟨column, rfl⟩ := hcolumns expr hexpr
  exact ⟨_, rfl⟩

theorem Streams.kept (h : runner.Streams tableRowCount input r)
    (hkeeps : runner.Keeps tableRowCount input) :
    ∃ compiled rows, runner.compileExecPlan tableRowCount input = .ok compiled ∧
      runner.Emits compiled rows (runner.fills tableRowCount input) ∧
      compiled.execMeta = r.context ∧ "" ∉ r.tables ∧ SameRows rows r.entries ∧
      (input.hashJoinFree = true → rows = r.entries) := by
  obtain ⟨compiled, rows, h⟩ := h
  exact ⟨compiled, rows, h.compiles, h.emits, h.context hkeeps.2, h.named,
    h.same.mpr hkeeps.1, h.sequence hkeeps.1⟩

theorem Streams.filter (h : runner.Streams tableRowCount input r)
    (hkeeps : runner.Keeps tableRowCount input) (predicate : Expr) :
    runner.Streams tableRowCount (.filter input predicate)
      (r.filter (runner.compiledFilterHolds r predicate)) := by
  obtain ⟨compiled, rows, hcompiles, hemits, hcontext, hnamed, hsame, hsequence⟩ := h.kept hkeeps
  have hcompile : runner.compileExecPlan tableRowCount (.filter input predicate) =
      .ok (.mk compiled.execMeta compiled.estimatedRows (.filter compiled (compileRowPredicate
        runner.functions (bindExprToMeta compiled.execMeta predicate)))) := by
    rw [compileExecPlan, hcompiles]
    rfl
  rw [hcontext] at hcompile
  refine ⟨_, _, hcompile, hemits.filter _, fun _ => rfl, hnamed, iff_of_true ?_ not_false, ?_⟩
  · exact SameBag.filter hsame fun a b hab => by
      rw [compiledHolds, compiledFilterHolds, compiledHolds, getField_congr' hab]
  · intro _ hfree
    rw [hsequence hfree]
    rfl

theorem Streams.noOp (h : runner.Streams tableRowCount input r)
    (hkeeps : runner.Keeps tableRowCount input) :
    runner.Streams tableRowCount (.noOp input) r := by
  obtain ⟨compiled, rows, hcompiles, hemits, hcontext, hnamed, hsame, hsequence⟩ := h.kept hkeeps
  refine ⟨compiled, rows, ?_, hemits, fun _ => hcontext, hnamed, iff_of_true hsame not_false,
    fun _ => hsequence⟩
  rw [compileExecPlan, hcompiles]

theorem Streams.project (h : runner.Streams tableRowCount input r)
    (hkeeps : runner.Keeps tableRowCount input) (columns : List Expr) :
    runner.Streams tableRowCount (.project input columns) (runner.executeProject r columns) := by
  obtain ⟨compiled, rows, hcompiles, hemits, hcontext, hnamed, hsame, hsequence⟩ := h.kept hkeeps
  have hcompile : runner.compileExecPlan tableRowCount (.project input columns) =
      .ok (.mk (compiledProjectMeta compiled.execMeta columns.length) compiled.estimatedRows
        (.project compiled (compileProjectionExprs
          (bindExprsToMeta compiled.execMeta columns)))) := by
    rw [compileExecPlan, hcompiles]
    rfl
  rw [hcontext] at hcompile
  have hrow : runner.projectCompiledRow (compileProjectionExprs (bindExprsToMeta r.context columns))
      = runner.projectEntry (some r.context) columns := by
    rw [projectCompiledRow_eq]
    exact projectEntry_bind hnamed columns
  refine ⟨_, _, hcompile, hemits.project _, fun _ => rfl, hnamed, iff_of_true ?_ not_false, ?_⟩
  · rw [hrow]
    exact SameBag.map hsame fun a b hab => by
      rw [projectEntry, projectEntry, Row.newWithVersion_values, Row.newWithVersion_values,
        getField_congr' hab]
  · intro _ hfree
    rw [hrow, hsequence hfree]
    rfl

theorem Streams.limit (hinput : runner.execute input = .ok r)
    (h : runner.Streams tableRowCount input r) (hkeeps : runner.Keeps tableRowCount input)
    (hfree : input.hashJoinFree = true) (limit offset : Nat) :
    runner.Streams tableRowCount (.limit input limit offset) (r.window limit offset) := by
  obtain ⟨compiled, rows, hcompiles, hemits, hcontext, hnamed, -, hsequence⟩ := h.kept hkeeps
  obtain rfl := hsequence hfree
  have hcompile : runner.compileExecPlan tableRowCount (.limit input limit offset) =
      .ok (.mk compiled.execMeta
        (estimateBoundedOutputRows compiled.estimatedRows (some limit) offset)
        (.limit compiled limit offset)) := by
    rw [compileExecPlan, hcompiles]
    rfl
  have hfills : runner.fills tableRowCount (.limit input limit offset) =
      (limitReached r.entries.length limit offset || runner.fills tableRowCount input) := by
    rw [fills, rowCount, hinput]
  refine ⟨_, _, hcompile, ?_, fun _ => hcontext, hnamed, iff_of_true (.refl _) not_false,
    fun _ _ => rfl⟩
  rw [hfills]
  exact hemits.limit limit offset

theorem Streams.sort (h : runner.Streams tableRowCount input r)
    (hkeeps : runner.Keeps tableRowCount input) (orderBy : List (Expr × SortOrder)) :
    runner.Streams tableRowCount (.sort input orderBy) (executeSort r orderBy) := by
  obtain ⟨compiled, rows, hcompiles, hemits, hcontext, hnamed, hsame, hsequence⟩ := h.kept hkeeps
  have hcompile : runner.compileExecPlan tableRowCount (.sort input orderBy) =
      .ok (.mk compiled.execMeta compiled.estimatedRows (.sort compiled orderBy)) := by
    rw [compileExecPlan, hcompiles]
    rfl
  refine ⟨_, _, hcompile, hemits.sort orderBy, fun _ => hcontext, hnamed,
    iff_of_true ?_ not_false, ?_⟩
  · exact sameRows_sort hsame orderBy orderBy
  · intro _ hfree
    rw [hcontext, hsequence hfree]
    rfl

theorem Streams.topN (h : runner.Streams tableRowCount input r)
    (hkeeps : runner.Keeps tableRowCount input) (hfree : input.hashJoinFree = true)
    {orderBy : List (Expr × SortOrder)} {limit offset : Nat}
    (htop : runner.executeTopN r orderBy limit offset = .ok relation) :
    runner.Streams tableRowCount (.topN input orderBy limit offset) relation := by
  obtain ⟨compiled, rows, hcompiles, hemits, hcontext, hnamed, -, hsequence⟩ := h.kept hkeeps
  obtain rfl := hsequence hfree
  have hcompile : runner.compileExecPlan tableRowCount (.topN input orderBy limit offset) =
      .ok (.mk compiled.execMeta
        (estimateBoundedOutputRows compiled.estimatedRows (some limit) offset)
        (.topN compiled orderBy limit offset)) := by
    rw [compileExecPlan, hcompiles]
    rfl
  have hrelation : compiledRelation compiled.execMeta r.entries = r := by
    rw [hcontext]
    rfl
  have htables : relation.context = r.context := by
    unfold executeTopN executeLimit at htop
    dsimp only at htop
    split at htop
    · split at htop
      · exact (Except.ok.inj htop) ▸ rfl
      · cases htop
    · exact (Except.ok.inj htop) ▸ rfl
  refine ⟨_, _, hcompile, hemits.topN (by rw [hrelation]; exact htop),
    fun _ => hcontext.trans htables.symm, ?_, iff_of_true (.refl _) not_false, fun _ _ => rfl⟩
  rw [show relation.tables = r.tables from congrArg EvalContext.tables htables]
  exact hnamed

theorem Streams.hashAggregate (hinput : runner.execute input = .ok r)
    (h : runner.Streams tableRowCount input r) (hkeeps : runner.Keeps tableRowCount input)
    {groupBy : List Expr} {aggregates : List (AggregateFunc × Expr)}
    (hsettled : runner.RowOrderSettled (.hashAggregate input groupBy aggregates)) :
    runner.Streams tableRowCount (.hashAggregate input groupBy aggregates)
      (runner.executeHashAggregate r groupBy aggregates) := by
  obtain ⟨compiled, rows, hcompiles, hemits, hcontext, hnamed, hsame, hsequence⟩ := h.kept hkeeps
  have hcompile : runner.compileExecPlan tableRowCount (.hashAggregate input groupBy aggregates) =
      .ok (.mk (compiledProjectMeta compiled.execMeta (groupBy.length + aggregates.length)) none
        (.hashAggregate compiled groupBy aggregates)) := by
    rw [compileExecPlan, hcompiles]
    rfl
  have hrelation : compiledRelation compiled.execMeta rows = { r with entries := rows } := by
    rw [hcontext]
    rfl
  refine ⟨_, _, hcompile, hemits.hashAggregate groupBy aggregates, fun hcolumns => ?_, hnamed,
    iff_of_true ?_ not_false, ?_⟩
  · rw [CompiledExecPlan.execMeta_mk, hcontext]
    exact (executeHashAggregate_context r aggregates hcolumns).symm
  · rw [hrelation]
    rcases hsettled with hfree | hsettled
    · rw [hsequence hfree]
    · exact hsettled r rows hinput hsame
  · intro _ hfree
    rw [hrelation, hsequence hfree]

section Joins

variable {condition : Expr} {joinType : JoinType} {outputTables : List TableName}

theorem extractJoinKeysFromMeta_of {left right : EvalContext} (hleft : "" ∉ left.tables)
    (hright : "" ∉ right.tables) {keys : EquiJoinKeys}
    (h : extractJoinKeys condition left right = .ok keys) :
    extractJoinKeysFromMeta condition left right = .ok keys := by
  unfold extractJoinKeys at h
  unfold extractJoinKeysFromMeta
  split at h
  · rename_i leftExpr rightExpr
    try dsimp only
    cases hleftCol : extractColumnRef leftExpr with
    | error e =>
      rw [hleftCol] at h
      cases h
    | ok leftCol =>
      rw [hleftCol, ok_bind] at h
      rw [ok_bind]
      cases hrightCol : extractColumnRef rightExpr with
      | error e =>
        rw [hrightCol] at h
        cases h
      | ok rightCol =>
        rw [hrightCol, ok_bind] at h
        rw [ok_bind]
        simp only [resolveMetaColumnIndex_eq hleft, resolveMetaColumnIndex_eq hright]
        split at h
        · rw [if_pos ‹_›]
          exact h
        · split at h
          · rw [if_neg ‹_›, if_pos ‹_›]
            exact h
          · cases h
  · cases h

theorem named_join (hleft : "" ∉ l.tables) (hright : "" ∉ r.tables)
    (outputTables : List TableName) :
    "" ∉ (JoinOutputLayout.fromSources l.context r.context outputTables).tables :=
  fun h => (mem_fromSources_tables _ _ h).elim hleft hright

theorem Streams.crossProduct (hleft : runner.Streams tableRowCount left l)
    (hright : runner.Streams tableRowCount right r)
    (hleftKeeps : runner.Keeps tableRowCount left)
    (hrightKeeps : runner.Keeps tableRowCount right) :
    runner.Streams tableRowCount (.crossProduct left right) (executeCrossProduct l r) := by
  obtain ⟨compiledLeft, leftRows, hcompilesLeft, hemitsLeft, hcontextLeft, hnamedLeft, hsameLeft,
    hsequenceLeft⟩ := hleft.kept hleftKeeps
  obtain ⟨compiledRight, rightRows, hcompilesRight, hemitsRight, hcontextRight, hnamedRight,
    hsameRight, hsequenceRight⟩ := hright.kept hrightKeeps
  obtain ⟨estimate, hcompile⟩ : ∃ estimate, runner.compileExecPlan tableRowCount
      (.crossProduct left right) =
      .ok (.mk (compiledJoinMeta l.context r.context (l.tables ++ r.tables)) estimate
        (.crossProduct compiledLeft compiledRight)) := by
    rw [compileExecPlan, hcompilesLeft, ok_bind, hcompilesRight, ok_bind, hcontextLeft,
      hcontextRight]
    exact ⟨_, rfl⟩
  refine ⟨_, _, hcompile, hemitsLeft.crossProduct hemitsRight, fun _ => rfl,
    named_join hnamedLeft hnamedRight _, iff_of_true ?_ not_false, ?_⟩
  · rw [hcontextLeft, hcontextRight]
    exact sameRows_crossProduct _ hsameLeft hsameRight
  · intro _ hfree
    rw [PhysicalPlan.hashJoinFree, Bool.and_eq_true] at hfree
    rw [hcontextLeft, hcontextRight, hsequenceLeft hfree.1, hsequenceRight hfree.2]
    rfl

theorem Streams.sortMergeJoin (hleftRun : runner.execute left = .ok l)
    (hrightRun : runner.execute right = .ok r) (hleft : runner.Streams tableRowCount left l)
    (hright : runner.Streams tableRowCount right r)
    (hleftKeeps : runner.Keeps tableRowCount left)
    (hrightKeeps : runner.Keeps tableRowCount right)
    (hsettled : runner.RowOrderSettled (.sortMergeJoin left right condition joinType outputTables))
    (hjoin : executeSortMergeJoin l r condition joinType outputTables = .ok relation) :
    runner.Streams tableRowCount (.sortMergeJoin left right condition joinType outputTables)
      relation := by
  obtain ⟨compiledLeft, leftRows, hcompilesLeft, hemitsLeft, hcontextLeft, hnamedLeft, hsameLeft,
    hsequenceLeft⟩ := hleft.kept hleftKeeps
  obtain ⟨compiledRight, rightRows, hcompilesRight, hemitsRight, hcontextRight, hnamedRight,
    hsameRight, hsequenceRight⟩ := hright.kept hrightKeeps
  obtain ⟨keys, hkeys, hjoined⟩ := ok_of_bind hjoin
  obtain rfl := Except.ok.inj hjoined
  have hcompile : runner.compileExecPlan tableRowCount
      (.sortMergeJoin left right condition joinType outputTables) =
      .ok (.mk (compiledJoinMeta l.context r.context outputTables)
        (estimateJoinOutputRows compiledLeft.estimatedRows compiledRight.estimatedRows joinType)
        (.sortMergeJoin compiledLeft compiledRight keys joinType)) := by
    rw [compileExecPlan, hcompilesLeft, ok_bind, hcompilesRight, ok_bind, hcontextLeft,
      hcontextRight, extractJoinKeysFromMeta_of hnamedLeft hnamedRight hkeys]
    rfl
  have hlayout : JoinOutputLayout.fromSources compiledLeft.execMeta compiledRight.execMeta
      (compiledJoinMeta l.context r.context outputTables).tables =
        .fromSources l.context r.context outputTables := by
    rw [hcontextLeft, hcontextRight]
    exact fromSources_tables _ _ _
  refine ⟨_, _, hcompile, hemitsLeft.sortMergeJoin hemitsRight keys joinType, fun _ => rfl,
    named_join hnamedLeft hnamedRight _, iff_of_true ?_ not_false, ?_⟩
  · rw [hlayout]
    rcases hsettled with hfree | hsettled
    · rw [Bool.and_eq_true] at hfree
      rw [hsequenceLeft hfree.1, hsequenceRight hfree.2]
      rfl
    · have htransitive := hsettled l r keys hleftRun hrightRun hkeys
      exact (sameRows_sortMergeJoin _ hsameLeft.symm hsameRight.symm joinType htransitive).symm
  · intro _ hfree
    rw [PhysicalPlan.hashJoinFree, Bool.and_eq_true] at hfree
    rw [hlayout, hsequenceLeft hfree.1, hsequenceRight hfree.2]
    rfl

theorem emitNestedLoopJoinEntries_congr {condition condition' : Entry → Bool}
    {left right : List Entry} (layout : JoinOutputLayout) (joinType : JoinType)
    (h : ∀ a ∈ left, ∀ b ∈ right, condition (layout.materializeRow (some a) (some b)) =
      condition' (layout.materializeRow (some a) (some b))) :
    emitNestedLoopJoinEntries left right condition joinType layout =
      emitNestedLoopJoinEntries left right condition' joinType layout := by
  unfold emitNestedLoopJoinEntries
  dsimp only
  congr 1
  · refine List.flatMap_congr fun a ha => ?_
    rw [List.filter_congr fun b hb => h a ha b hb]
  · split
    · congr 1
      refine List.filter_congr fun b hb => ?_
      rw [Bool.eq_iff_iff, Bool.not_eq_true', Bool.not_eq_true', List.any_eq_false,
        List.any_eq_false]
      exact forall₂_congr fun a ha => by rw [h a ha b hb]
    · rfl

theorem Streams.nestedLoopJoin (hleftRun : runner.execute left = .ok l)
    (hrightRun : runner.execute right = .ok r) (hleft : runner.Streams tableRowCount left l)
    (hright : runner.Streams tableRowCount right r)
    (hleftKeeps : runner.Keeps tableRowCount left)
    (hrightKeeps : runner.Keeps tableRowCount right)
    (hagree : runner.EvaluatorsAgree
      (.nestedLoopJoin left right condition joinType outputTables)) :
    runner.Streams tableRowCount (.nestedLoopJoin left right condition joinType outputTables)
      (runner.executeNestedLoopJoin l r condition joinType outputTables) := by
  obtain ⟨compiledLeft, leftRows, hcompilesLeft, hemitsLeft, hcontextLeft, hnamedLeft, hsameLeft,
    hsequenceLeft⟩ := hleft.kept hleftKeeps
  obtain ⟨compiledRight, rightRows, hcompilesRight, hemitsRight, hcontextRight, hnamedRight,
    hsameRight, hsequenceRight⟩ := hright.kept hrightKeeps
  obtain ⟨estimate, hcompile⟩ : ∃ estimate, runner.compileExecPlan tableRowCount
      (.nestedLoopJoin left right condition joinType outputTables) =
      .ok (.mk (compiledJoinMeta l.context r.context outputTables) estimate
        (.nestedLoopJoin compiledLeft compiledRight (compileRowPredicate runner.functions
          (bindExprToMeta (compiledJoinMeta l.context r.context outputTables) condition))
          joinType)) := by
    rw [compileExecPlan, hcompilesLeft, ok_bind, hcompilesRight, ok_bind, hcontextLeft,
      hcontextRight]
    exact ⟨_, rfl⟩
  have hlayout : JoinOutputLayout.fromSources compiledLeft.execMeta compiledRight.execMeta
      (compiledJoinMeta l.context r.context outputTables).tables =
        .fromSources l.context r.context outputTables := by
    rw [hcontextLeft, hcontextRight]
    exact fromSources_tables _ _ _
  have hplain : (runner.executeNestedLoopJoin l r condition joinType outputTables).entries =
      emitNestedLoopJoinEntries l.entries r.entries (runner.compiledJoinHolds
        (.fromSources l.context r.context outputTables) condition) joinType
        (.fromSources l.context r.context outputTables) :=
    emitNestedLoopJoinEntries_congr _ joinType (hagree l r hleftRun hrightRun)
  refine ⟨_, _, hcompile, hemitsLeft.nestedLoopJoin hemitsRight _ joinType, fun _ => rfl,
    named_join hnamedLeft hnamedRight _, iff_of_true ?_ not_false, ?_⟩
  · rw [hlayout, hplain]
    exact sameRows_nestedLoopJoin _ hsameLeft hsameRight joinType fun a b hab => by
      rw [compiledHolds, compiledJoinHolds, compiledHolds, getField_congr' hab]
      rfl
  · intro _ hfree
    rw [PhysicalPlan.hashJoinFree, Bool.and_eq_true] at hfree
    rw [hlayout, hplain, hsequenceLeft hfree.1, hsequenceRight hfree.2]
    rfl

/-- The rows that an outer row yields, where the lookup succeeds. -/
def probedRows (runner : PhysicalPlanRunner) (innerTable : TableName) (innerIndex : IndexName)
    (outerKeyIdx : Nat) (emitUnmatchedOuter outerIsLeft : Bool) (layout : JoinOutputLayout)
    (outer : Entry) : List Entry :=
  match runner.indexNestedLoopProbe innerTable innerIndex outerKeyIdx emitUnmatchedOuter outerIsLeft
    layout outer with
  | .ok rows => rows
  | .error _ => []

theorem probedRows_of_ok {innerTable : TableName} {innerIndex : IndexName} {outerKeyIdx : Nat}
    {emitUnmatchedOuter outerIsLeft : Bool} {layout : JoinOutputLayout} {outer : Entry}
    {rows : List Entry} (h : runner.indexNestedLoopProbe innerTable innerIndex outerKeyIdx
      emitUnmatchedOuter outerIsLeft layout outer = .ok rows) :
    runner.probedRows innerTable innerIndex outerKeyIdx emitUnmatchedOuter outerIsLeft layout
      outer = rows := by
  rw [probedRows, h]

theorem indexNestedLoopRow_values_congr (layout : JoinOutputLayout) (outerIsLeft : Bool)
    {a b : Entry} (h : a.values = b.values) (inner : Option Entry) :
    (indexNestedLoopRow layout outerIsLeft a inner).values =
      (indexNestedLoopRow layout outerIsLeft b inner).values := by
  unfold indexNestedLoopRow
  split
  · exact materializeRow_values_congr layout (congrArg some h) rfl
  · exact materializeRow_values_congr layout rfl (congrArg some h)

/-- The rows that an outer row yields, from the inner rows it matches. -/
theorem exists_inner {innerTable : TableName} {innerIndex : IndexName} {outerKeyIdx : Nat}
    {emitUnmatchedOuter outerIsLeft : Bool} {layout : JoinOutputLayout} {outer : Entry}
    {rows : List Entry} (h : runner.indexNestedLoopProbe innerTable innerIndex outerKeyIdx
      emitUnmatchedOuter outerIsLeft layout outer = .ok rows) :
    ∃ inner : List Entry, ∀ other, Entry.getField other outerKeyIdx = Entry.getField outer outerKeyIdx →
      runner.indexNestedLoopProbe innerTable innerIndex outerKeyIdx emitUnmatchedOuter outerIsLeft
        layout other = .ok (if inner.isEmpty then
            if emitUnmatchedOuter then [indexNestedLoopRow layout outerIsLeft other none] else []
          else inner.map fun row => indexNestedLoopRow layout outerIsLeft other (some row)) := by
  unfold indexNestedLoopProbe at h ⊢
  rcases hfield : Entry.getField outer outerKeyIdx with _ | _ | key
  · refine ⟨[], fun other hother => ?_⟩
    rw [hother]
    rfl
  · refine ⟨[], fun other hother => ?_⟩
    rw [hother]
    rfl
  · rw [hfield] at h
    obtain ⟨inner, hinner, -⟩ := ok_of_bind h
    refine ⟨inner, fun other hother => ?_⟩
    rw [hother]
    dsimp only
    rw [hinner, ok_bind]
    cases inner <;> rfl

/-- Outer rows with the same values are looked up with the same key. -/
theorem indexNestedLoopProbe_congr {innerTable : TableName} {innerIndex : IndexName}
    {outerKeyIdx : Nat} {emitUnmatchedOuter outerIsLeft : Bool} {layout : JoinOutputLayout}
    {a b : Entry} (hab : a.values = b.values) {rows : List Entry}
    (h : runner.indexNestedLoopProbe innerTable innerIndex outerKeyIdx emitUnmatchedOuter
      outerIsLeft layout a = .ok rows) :
    ∃ rows', runner.indexNestedLoopProbe innerTable innerIndex outerKeyIdx emitUnmatchedOuter
      outerIsLeft layout b = .ok rows' ∧ rows'.map Row.values = rows.map Row.values := by
  obtain ⟨inner, hinner⟩ := exists_inner h
  have hvalues := indexNestedLoopRow_values_congr layout outerIsLeft hab.symm
  rw [hinner a rfl] at h
  obtain rfl := Except.ok.inj h
  refine ⟨_, hinner b (getField_congr hab outerKeyIdx).symm, ?_⟩
  split
  · split
    · rw [List.map_singleton, List.map_singleton, hvalues]
    · rfl
  · rw [List.map_map, List.map_map]
    exact List.map_congr_left fun row _ => hvalues (some row)

theorem probedRows_values_congr {innerTable : TableName} {innerIndex : IndexName}
    {outerKeyIdx : Nat} {emitUnmatchedOuter outerIsLeft : Bool} {layout : JoinOutputLayout}
    {a b : Entry} (hab : a.values = b.values) :
    (runner.probedRows innerTable innerIndex outerKeyIdx emitUnmatchedOuter outerIsLeft layout
        a).map Row.values =
      (runner.probedRows innerTable innerIndex outerKeyIdx emitUnmatchedOuter outerIsLeft layout
        b).map Row.values := by
  cases ha : runner.indexNestedLoopProbe innerTable innerIndex outerKeyIdx emitUnmatchedOuter
    outerIsLeft layout a with
  | ok rows =>
    obtain ⟨rows', hb, hvalues⟩ := indexNestedLoopProbe_congr hab ha
    rw [probedRows_of_ok ha, probedRows_of_ok hb, hvalues]
  | error e =>
    cases hb : runner.indexNestedLoopProbe innerTable innerIndex outerKeyIdx emitUnmatchedOuter
      outerIsLeft layout b with
    | ok rows =>
      obtain ⟨rows', ha', -⟩ := indexNestedLoopProbe_congr hab.symm hb
      rw [ha] at ha'
      cases ha'
    | error e' => rw [probedRows, probedRows, ha, hb]

/-- The lookups of all outer rows. -/
theorem probedRows_of_mapM {innerTable : TableName} {innerIndex : IndexName} {outerKeyIdx : Nat}
    {emitUnmatchedOuter outerIsLeft : Bool} {layout : JoinOutputLayout} {outer : List Entry}
    {joined : List (List Entry)} (h : outer.mapM (runner.indexNestedLoopProbe innerTable innerIndex
      outerKeyIdx emitUnmatchedOuter outerIsLeft layout) = .ok joined) :
    joined.flatten = outer.flatMap (runner.probedRows innerTable innerIndex outerKeyIdx
        emitUnmatchedOuter outerIsLeft layout) ∧
      ∀ row ∈ outer, runner.indexNestedLoopProbe innerTable innerIndex outerKeyIdx
        emitUnmatchedOuter outerIsLeft layout row = .ok (runner.probedRows innerTable innerIndex
          outerKeyIdx emitUnmatchedOuter outerIsLeft layout row) := by
  induction outer generalizing joined with
  | nil =>
    obtain rfl := Except.ok.inj h
    exact ⟨rfl, nofun⟩
  | cons row outer ih =>
    rw [List.mapM_cons] at h
    obtain ⟨rows, hrows, h⟩ := ok_of_bind h
    obtain ⟨rest, hrest, h⟩ := ok_of_bind h
    obtain rfl := Except.ok.inj h
    obtain ⟨hflatten, hall⟩ := ih hrest
    rw [List.flatten_cons, List.flatMap_cons, hflatten, probedRows_of_ok hrows]
    refine ⟨rfl, fun other hother => ?_⟩
    rcases List.mem_cons.mp hother with rfl | hother
    · rw [probedRows_of_ok hrows, hrows]
    · exact hall other hother

theorem extractOuterKeyIndexFromMeta_of {outer : EvalContext} (hnamed : "" ∉ outer.tables)
    {outerKeyIdx : Nat} (h : extractOuterKeyIndex condition outer = .ok outerKeyIdx) :
    extractOuterKeyIndexFromMeta condition outer = .ok outerKeyIdx := by
  unfold extractOuterKeyIndex at h
  unfold extractOuterKeyIndexFromMeta
  split at h
  · try dsimp only
    obtain ⟨leftCol, hleft, h⟩ := ok_of_bind h
    obtain ⟨rightCol, hright, h⟩ := ok_of_bind h
    rw [hleft, ok_bind, hright, ok_bind]
    simp only [resolveMetaColumnIndex_eq hnamed]
    split at h
    · rw [if_pos ‹_›]
      exact h
    · split at h
      · rw [if_neg ‹_›, if_pos ‹_›]
        exact h
      · cases h
  · cases h

theorem Streams.indexNestedLoopJoin
    (hname : ∀ columnCount, runner.dataSource.getColumnCount "" ≠ .ok columnCount)
    (h : runner.Streams tableRowCount input r) (hkeeps : runner.Keeps tableRowCount input)
    {innerTable : TableName} {innerIndex : IndexName} {outerIsLeft : Bool}
    (hjoin : runner.executeIndexNestedLoopJoin r innerTable innerIndex condition joinType
      outerIsLeft outputTables = .ok relation) :
    runner.Streams tableRowCount (.indexNestedLoopJoin input innerTable innerIndex condition
      joinType outerIsLeft outputTables) relation := by
  obtain ⟨compiled, rows, hcompiles, hemits, hcontext, hnamed, hsame, hsequence⟩ := h.kept hkeeps
  obtain ⟨innerColCount, hcount, hjoin⟩ := ok_of_bind hjoin
  obtain ⟨outerKeyIdx, hkey, hjoin⟩ := ok_of_bind hjoin
  obtain ⟨joined, hjoined, hrelation⟩ := ok_of_bind hjoin
  obtain rfl := Except.ok.inj hrelation
  have hinnerNamed : "" ∉ (⟨[innerTable], [innerColCount]⟩ : EvalContext).tables := fun hmem =>
    table_ne_empty hname hcount (List.mem_singleton.mp hmem).symm
  let layout := indexJoinOutputLayout r.context innerTable innerColCount outerIsLeft outputTables
  obtain ⟨estimate, hcompile⟩ : ∃ estimate, runner.compileExecPlan tableRowCount
      (.indexNestedLoopJoin input innerTable innerIndex condition joinType outerIsLeft
        outputTables) = .ok (.mk layout.context estimate
          (.indexNestedLoopJoin compiled innerTable innerIndex outerKeyIdx joinType
            outerIsLeft)) := by
    rw [compileExecPlan, hcompiles, ok_bind, compileSingleTableMeta, hcount, ok_bind, hcontext]
    change ∃ estimate, (extractOuterKeyIndexFromMeta condition r.context >>= _) = _
    rw [extractOuterKeyIndexFromMeta_of hnamed hkey, ok_bind]
    refine ⟨_, congrArg (fun execMeta => Except.ok (CompiledExecPlan.mk execMeta _ _)) ?_⟩
    cases outerIsLeft <;> rfl
  have hlayout : indexJoinOutputLayout compiled.execMeta innerTable innerColCount outerIsLeft
      layout.context.tables = layout := by
    rw [hcontext]
    cases outerIsLeft <;> exact fromSources_tables _ _ _
  obtain ⟨hflatten, hprobes⟩ := probedRows_of_mapM hjoined
  let probed := runner.probedRows innerTable innerIndex outerKeyIdx
    (indexJoinEmitsUnmatchedOuter joinType outerIsLeft) outerIsLeft layout
  have hprobed : ∀ row ∈ rows, runner.indexNestedLoopProbe innerTable innerIndex outerKeyIdx
      (indexJoinEmitsUnmatchedOuter joinType outerIsLeft) outerIsLeft layout row =
      .ok (probed row) := by
    intro row hrow
    obtain ⟨row', hrow', hvalues⟩ := hsame.mem_map hrow
    obtain ⟨found, hfound, -⟩ := indexNestedLoopProbe_congr hvalues (hprobes row' hrow')
    rw [show probed row = found from probedRows_of_ok hfound, hfound]
  refine ⟨_, _, hcompile, hemits.indexNestedLoopJoin hcount probed ?_, fun _ => rfl, ?_,
    iff_of_true ?_ not_false, ?_⟩
  · rw [hlayout]
    exact hprobed
  · cases outerIsLeft with
    | true => exact fun hmem => (mem_fromSources_tables _ _ hmem).elim hnamed hinnerNamed
    | false => exact fun hmem => (mem_fromSources_tables _ _ hmem).elim hinnerNamed hnamed
  · refine SameBag.trans (SameBag.flatMap hsame fun a b hab => ?_) (.of_map_eq
      (congrArg (List.map Row.values) hflatten.symm))
    exact SameBag.of_map_eq (probedRows_values_congr hab)
  · intro _ hfree
    rw [hsequence hfree]
    exact hflatten.symm

/-- Some build row is matched by no probe row. -/
theorem hashJoinUnmatchedBuild_eq_nil (layout : JoinOutputLayout) (buildSide : HashJoinBuildSide)
    (buildKeyIdx probeKeyIdx : Nat) (build probe : List Entry) :
    hashJoinUnmatchedBuild layout buildSide buildKeyIdx probeKeyIdx build probe = [] ↔
      (build.any fun b => !probe.any fun p =>
        keysMatch (Entry.getField b buildKeyIdx) (Entry.getField p probeKeyIdx)) = false := by
  rw [hashJoinUnmatchedBuild, List.map_eq_nil_iff, List.filter_eq_nil_iff, List.any_eq_false]

theorem any_unmatched_congr {build build' probe probe' : List Entry}
    (hbuild : SameRows build build') (hprobe : SameRows probe probe')
    (buildKeyIdx probeKeyIdx : Nat) :
    (build.any fun b => !probe.any fun p =>
        keysMatch (Entry.getField b buildKeyIdx) (Entry.getField p probeKeyIdx)) =
      build'.any fun b => !probe'.any fun p =>
        keysMatch (Entry.getField b buildKeyIdx) (Entry.getField p probeKeyIdx) :=
  hbuild.any_eq fun b b' hb => congrArg _ (hprobe.any_eq fun p p' hp => by
    rw [getField_congr hb, getField_congr hp])

/-- A stream of a join without the unmatched build rows is short of exactly these. -/
theorem sameRows_hashJoinStream_iff {layout : JoinOutputLayout} {joinType : JoinType}
    {buildSide : HashJoinBuildSide} {buildKeyIdx probeKeyIdx : Nat} {build probe : List Entry}
    {probeCut : Bool} {entries : List Entry}
    (h : SameRows (hashJoinStream layout joinType buildSide buildKeyIdx probeKeyIdx build probe
      false) entries) :
    SameRows (hashJoinStream layout joinType buildSide buildKeyIdx probeKeyIdx build probe
        probeCut) entries ↔
      ¬ (hashJoinEmitUnmatchedBuild joinType buildSide = true ∧ probeCut = true ∧
        (build.any fun b => !probe.any fun p =>
          keysMatch (Entry.getField b buildKeyIdx) (Entry.getField p probeKeyIdx)) = true) := by
  cases probeCut with
  | false => exact iff_of_true h fun hloses => Bool.false_ne_true hloses.2.1
  | true =>
    cases hemit : hashJoinEmitUnmatchedBuild joinType buildSide with
    | false =>
      refine iff_of_true ?_ fun hloses => Bool.false_ne_true hloses.1
      unfold hashJoinStream at h ⊢
      rw [hemit] at h ⊢
      exact h
    | true =>
      have hnil := hashJoinUnmatchedBuild_eq_nil layout buildSide buildKeyIdx probeKeyIdx build probe
      unfold hashJoinStream at h ⊢
      rw [hemit] at h ⊢
      rw [Bool.not_false, Bool.true_and, if_pos rfl] at h
      rw [Bool.not_true, Bool.false_and, if_neg Bool.false_ne_true, List.append_nil]
      constructor
      · intro hsame hloses
        have hlength := hsame.length_eq.trans h.length_eq.symm
        rw [List.length_append] at hlength
        rw [hnil.mp (List.eq_nil_of_length_eq_zero (by omega))] at hloses
        exact Bool.false_ne_true hloses.2.2
      · intro hkeeps
        rw [hnil.mpr (Bool.eq_false_iff.mpr fun hany => hkeeps ⟨rfl, rfl, hany⟩),
          List.append_nil] at h
        exact h

theorem hashKeysMatch_unmatched (keys : EquiJoinKeys) (left right : List Entry) :
    ((left.any fun a => !right.any fun b =>
        keysMatch (Entry.getField a keys.leftKeyIdx) (Entry.getField b keys.rightKeyIdx)) = true ↔
      ∃ a ∈ left, ∀ b ∈ right, hashKeysMatch keys a b = false) ∧
    ((right.any fun b => !left.any fun a =>
        keysMatch (Entry.getField b keys.rightKeyIdx) (Entry.getField a keys.leftKeyIdx)) = true ↔
      ∃ b ∈ right, ∀ a ∈ left, hashKeysMatch keys a b = false) := by
  refine ⟨?_, ?_⟩
  · simp only [List.any_eq_true, Bool.not_eq_true', List.any_eq_false, Bool.not_eq_true]
    rfl
  · simp only [List.any_eq_true, Bool.not_eq_true', List.any_eq_false, Bool.not_eq_true,
      keysMatch_comm (Entry.getField _ keys.rightKeyIdx)]
    rfl

theorem loses_hashJoin_iff {keys : EquiJoinKeys} (hleft : runner.execute left = .ok l)
    (hright : runner.execute right = .ok r)
    (hkeys : extractJoinKeys condition l.context r.context = .ok keys) :
    runner.Loses tableRowCount (.hashJoin left right condition joinType outputTables) ↔
      joinType = .fullOuter ∧
        match runner.compiledBuildSide tableRowCount left right joinType with
        | .left => runner.fills tableRowCount right = true ∧
            ∃ a ∈ l.entries, ∀ b ∈ r.entries, hashKeysMatch keys a b = false
        | .right => runner.fills tableRowCount left = true ∧
            ∃ b ∈ r.entries, ∀ a ∈ l.entries, hashKeysMatch keys a b = false := by
  constructor
  · intro hloses
    cases joinType with
    | fullOuter =>
      obtain ⟨l', r', keys', hleft', hright', hkeys', hloses⟩ := hloses
      rw [hleft] at hleft'
      rw [hright] at hright'
      obtain rfl := Except.ok.inj hleft'
      obtain rfl := Except.ok.inj hright'
      rw [hkeys] at hkeys'
      obtain rfl := Except.ok.inj hkeys'
      exact ⟨rfl, hloses⟩
    | inner | leftOuter | rightOuter | cross => exact hloses.elim
  · rintro ⟨rfl, hloses⟩
    exact ⟨l, r, keys, hleft, hright, hkeys, hloses⟩

/-- Only a full join keeps build rows that nothing matches. -/
theorem emitUnmatchedBuild_compiled (leftRows rightRows : Option Nat) :
    hashJoinEmitUnmatchedBuild joinType
      (chooseCompiledHashJoinBuildSide leftRows rightRows joinType) =
      decide (joinType = .fullOuter) := by
  cases joinType <;> rfl

theorem Streams.hashJoin (hleftRun : runner.execute left = .ok l)
    (hrightRun : runner.execute right = .ok r) (hleft : runner.Streams tableRowCount left l)
    (hright : runner.Streams tableRowCount right r)
    (hleftKeeps : runner.Keeps tableRowCount left)
    (hrightKeeps : runner.Keeps tableRowCount right)
    (hjoin : executeHashJoin l r condition joinType outputTables = .ok relation) :
    runner.Streams tableRowCount (.hashJoin left right condition joinType outputTables)
      relation := by
  obtain ⟨compiledLeft, leftRows, hcompilesLeft, hemitsLeft, hcontextLeft, hnamedLeft, hsameLeft,
    -⟩ := hleft.kept hleftKeeps
  obtain ⟨compiledRight, rightRows, hcompilesRight, hemitsRight, hcontextRight, hnamedRight,
    hsameRight, -⟩ := hright.kept hrightKeeps
  obtain ⟨keys, hkeys, hjoined⟩ := ok_of_bind hjoin
  obtain rfl := Except.ok.inj hjoined
  have hside : chooseCompiledHashJoinBuildSide compiledLeft.estimatedRows
      compiledRight.estimatedRows joinType =
        runner.compiledBuildSide tableRowCount left right joinType := by
    rw [compiledBuildSide, estimatedRows, estimatedRows, hcompilesLeft, hcompilesRight]
  have hemit : hashJoinEmitUnmatchedBuild joinType
      (runner.compiledBuildSide tableRowCount left right joinType) =
        decide (joinType = .fullOuter) := emitUnmatchedBuild_compiled _ _
  obtain ⟨estimate, hcompile⟩ : ∃ estimate, runner.compileExecPlan tableRowCount
      (.hashJoin left right condition joinType outputTables) =
      .ok (.mk (compiledJoinMeta l.context r.context outputTables) estimate
        (.hashJoin compiledLeft compiledRight keys joinType
          (runner.compiledBuildSide tableRowCount left right joinType))) := by
    rw [compileExecPlan, hcompilesLeft, ok_bind, hcompilesRight, ok_bind, hcontextLeft,
      hcontextRight, extractJoinKeysFromMeta_of hnamedLeft hnamedRight hkeys, ok_bind, hside]
    exact ⟨_, rfl⟩
  have hlayout : JoinOutputLayout.fromSources compiledLeft.execMeta compiledRight.execMeta
      (compiledJoinMeta l.context r.context outputTables).tables =
        .fromSources l.context r.context outputTables := by
    rw [hcontextLeft, hcontextRight]
    exact fromSources_tables _ _ _
  have hplain : ∀ buildSide, SameRows (emitHashJoinEntries (compiledRelation l.context leftRows)
      (compiledRelation r.context rightRows) keys joinType
      (.fromSources l.context r.context outputTables) buildSide)
      (emitHashJoinEntries l r keys joinType (.fromSources l.context r.context outputTables)
        (chooseHashJoinBuildSide l.entries.length r.entries.length joinType)) :=
    fun buildSide => sameRows_hashJoin _ hsameLeft hsameRight keys joinType _ _
  have hfree : ∀ {P : Prop},
      (PhysicalPlan.hashJoin left right condition joinType outputTables).hashJoinFree = true → P :=
    fun h => absurd h Bool.false_ne_true
  cases hbuild : runner.compiledBuildSide tableRowCount left right joinType with
  | left =>
    rw [hbuild] at hcompile hemit
    refine ⟨_, hashJoinStream (.fromSources l.context r.context outputTables) joinType .left
      keys.leftKeyIdx keys.rightKeyIdx leftRows rightRows (runner.fills tableRowCount right),
      hcompile, ?_, fun _ => rfl, named_join hnamedLeft hnamedRight _, ?_, fun _ => hfree⟩
    · rw [fills, hbuild, ← hlayout]
      exact hemitsLeft.hashJoinLeft hemitsRight keys joinType
    · refine (sameRows_hashJoinStream_iff (hplain .left)).trans (not_congr ?_)
      refine Iff.trans ?_ (loses_hashJoin_iff hleftRun hrightRun hkeys).symm
      rw [hemit, hbuild, decide_eq_true_iff]
      refine and_congr_right fun _ => and_congr_right fun _ => ?_
      exact (Bool.eq_iff_iff.mp (any_unmatched_congr hsameLeft hsameRight _ _)).trans
        (hashKeysMatch_unmatched keys l.entries r.entries).1
  | right =>
    rw [hbuild] at hcompile hemit
    refine ⟨_, hashJoinStream (.fromSources l.context r.context outputTables) joinType .right
      keys.rightKeyIdx keys.leftKeyIdx rightRows leftRows (runner.fills tableRowCount left),
      hcompile, ?_, fun _ => rfl, named_join hnamedLeft hnamedRight _, ?_, fun _ => hfree⟩
    · rw [fills, hbuild, ← hlayout]
      exact hemitsLeft.hashJoinRight hemitsRight keys joinType
    · refine (sameRows_hashJoinStream_iff (hplain .right)).trans (not_congr ?_)
      refine Iff.trans ?_ (loses_hashJoin_iff hleftRun hrightRun hkeys).symm
      rw [hemit, hbuild, decide_eq_true_iff]
      refine and_congr_right fun _ => and_congr_right fun _ => ?_
      exact (Bool.eq_iff_iff.mp (any_unmatched_congr hsameRight hsameLeft _ _)).trans
        (hashKeysMatch_unmatched keys l.entries r.entries).2

end Joins

section Unions

theorem Streams.unionAll (hleftRun : runner.execute left = .ok l)
    (hrightRun : runner.execute right = .ok r) (hleft : runner.Streams tableRowCount left l)
    (hright : runner.Streams tableRowCount right r)
    (hleftKeeps : runner.Keeps tableRowCount left)
    (hrightKeeps : runner.Keeps tableRowCount right) :
    runner.Streams tableRowCount (.union left right true)
      { l with entries := l.entries ++ r.entries } := by
  obtain ⟨compiledLeft, leftRows, hcompilesLeft, hemitsLeft, hcontextLeft, hnamedLeft, hsameLeft,
    hsequenceLeft⟩ := hleft.kept hleftKeeps
  obtain ⟨compiledRight, rightRows, hcompilesRight, hemitsRight, -, -, hsameRight,
    hsequenceRight⟩ := hright.kept hrightKeeps
  obtain ⟨estimate, hcompile⟩ : ∃ estimate, runner.compileExecPlan tableRowCount
      (.union left right true) =
      .ok (.mk l.context estimate (.unionAll compiledLeft compiledRight)) := by
    rw [compileExecPlan, hcompilesLeft, ok_bind, hcompilesRight, ok_bind, hcontextLeft]
    exact ⟨_, rfl⟩
  have hloses : runner.Loses tableRowCount (.union left right true) ↔
      runner.fills tableRowCount left = true ∧ r.entries ≠ [] := by
    constructor
    · rintro ⟨hfills, l', r', -, hright', hrows⟩
      rw [hrightRun] at hright'
      obtain rfl := Except.ok.inj hright'
      exact ⟨hfills, hrows⟩
    · exact fun ⟨hfills, hrows⟩ => ⟨hfills, l, r, hleftRun, hrightRun, hrows⟩
  refine ⟨_, _, hcompile, hemitsLeft.unionAll hemitsRight, fun _ => rfl, hnamedLeft, ?_, ?_⟩
  · rw [hloses]
    cases runner.fills tableRowCount left with
    | false => exact iff_of_true (hsameLeft.append hsameRight) fun h => Bool.false_ne_true h.1
    | true =>
      rw [if_pos rfl, List.append_nil, and_iff_right rfl, Classical.not_not]
      constructor
      · intro hsame
        have hlength := hsameLeft.length_eq.symm.trans hsame.length_eq
        rw [List.length_append] at hlength
        exact List.eq_nil_of_length_eq_zero (by omega)
      · intro hnil
        rw [hnil, List.append_nil]
        exact hsameLeft
  · intro hkeeps hfree
    rw [PhysicalPlan.hashJoinFree, Bool.and_eq_true] at hfree
    rw [hloses] at hkeeps
    rw [hsequenceLeft hfree.1, hsequenceRight hfree.2]
    split
    · rw [Classical.not_not.mp fun h => hkeeps ⟨‹_›, h⟩]
    · rfl

theorem Streams.unionDistinct (hleftRun : runner.execute left = .ok l)
    (hrightRun : runner.execute right = .ok r) (hleft : runner.Streams tableRowCount left l)
    (hright : runner.Streams tableRowCount right r)
    (hleftKeeps : runner.Keeps tableRowCount left)
    (hrightKeeps : runner.Keeps tableRowCount right)
    (hsettled : runner.RowOrderSettled (.union left right false)) :
    runner.Streams tableRowCount (.union left right false)
      { l with entries := distinctEntries [] (l.entries ++ r.entries) } := by
  obtain ⟨compiledLeft, leftRows, hcompilesLeft, hemitsLeft, hcontextLeft, hnamedLeft, hsameLeft,
    hsequenceLeft⟩ := hleft.kept hleftKeeps
  obtain ⟨compiledRight, rightRows, hcompilesRight, hemitsRight, -, -, hsameRight,
    hsequenceRight⟩ := hright.kept hrightKeeps
  obtain ⟨estimate, hcompile⟩ : ∃ estimate, runner.compileExecPlan tableRowCount
      (.union left right false) =
      .ok (.mk l.context estimate (.unionDistinct compiledLeft compiledRight)) := by
    rw [compileExecPlan, hcompilesLeft, ok_bind, hcompilesRight, ok_bind, hcontextLeft]
    exact ⟨_, rfl⟩
  have hloses : runner.Loses tableRowCount (.union left right false) ↔
      runner.fills tableRowCount left = true ∧
        distinctEntries (l.entries.foldl distinctUpdate []) r.entries ≠ [] := by
    constructor
    · rintro ⟨hfills, l', r', hleft', hright', hrows⟩
      rw [hleftRun] at hleft'
      rw [hrightRun] at hright'
      obtain rfl := Except.ok.inj hleft'
      obtain rfl := Except.ok.inj hright'
      exact ⟨hfills, hrows⟩
    · exact fun ⟨hfills, hrows⟩ => ⟨hfills, l, r, hleftRun, hrightRun, hrows⟩
  have hdistinct : SameRows (distinctEntries [] leftRows) (distinctEntries [] l.entries) ∧
      SameRows (distinctEntries [] (leftRows ++ rightRows))
        (distinctEntries [] (l.entries ++ r.entries)) := by
    rcases hsettled with hfree | hsettled
    · rw [Bool.and_eq_true] at hfree
      rw [hsequenceLeft hfree.1, hsequenceRight hfree.2]
      exact ⟨.refl _, .refl _⟩
    · have hvalues := hsettled l r hleftRun hrightRun
      exact ⟨(sameRows_distinctEntries hsameLeft.symm fun a ha b hb => hvalues a
          (List.mem_append_left _ ha) b (List.mem_append_left _ hb)).symm,
        (sameRows_distinctEntries (hsameLeft.append hsameRight).symm hvalues).symm⟩
  refine ⟨_, _, hcompile, hemitsLeft.unionDistinct hemitsRight, fun _ => rfl, hnamedLeft, ?_, ?_⟩
  · rw [hloses]
    cases runner.fills tableRowCount left with
    | false => exact iff_of_true hdistinct.2 fun h => Bool.false_ne_true h.1
    | true =>
      rw [if_pos rfl, List.append_nil, and_iff_right rfl, Classical.not_not, distinctEntries_append]
      constructor
      · intro hsame
        have hlength := hdistinct.1.length_eq.symm.trans hsame.length_eq
        rw [List.length_append] at hlength
        exact List.eq_nil_of_length_eq_zero (by omega)
      · intro hnil
        rw [hnil, List.append_nil]
        exact hdistinct.1
  · intro hkeeps hfree
    rw [PhysicalPlan.hashJoinFree, Bool.and_eq_true] at hfree
    rw [hloses] at hkeeps
    rw [hsequenceLeft hfree.1, hsequenceRight hfree.2, distinctEntries_append,
      distinctEntries_append]
    split
    · rw [Classical.not_not.mp fun h => hkeeps ⟨‹_›, h⟩]
      rfl
    · rfl

end Unions

section Sources

variable (hname : ∀ columnCount, runner.dataSource.getColumnCount "" ≠ .ok columnCount)
  {table : TableName} {columnCount : Nat} {rows : List Entry}
include hname

theorem streams_source {plan : PhysicalPlan} (source : CompiledSourcePlan)
    {estimate : Option Nat} (hcount : runner.dataSource.getColumnCount table = .ok columnCount)
    (hrows : runner.sourceRows source = .ok rows)
    (hcompile : runner.compileExecPlan tableRowCount plan =
      .ok (.mk ⟨[table], [columnCount]⟩ estimate (.source source)))
    (hfills : runner.fills tableRowCount plan = false)
    (hloses : ¬ runner.Loses tableRowCount plan) :
    runner.Streams tableRowCount plan (.ofTable table columnCount rows) :=
  ⟨_, rows, hcompile, hfills ▸ emits_source hrows, fun _ => rfl,
    fun h => table_ne_empty hname hcount (List.mem_singleton.mp h).symm,
    iff_of_true (.refl _) hloses, fun _ _ => rfl⟩

/-- A source that asks for the number of rows of its table. -/
theorem streams_counted {plan : PhysicalPlan} (source : CompiledSourcePlan)
    {estimate : Nat → Option Nat}
    (hcounts : ∀ table columnCount, runner.dataSource.getColumnCount table = .ok columnCount →
      ∃ count, tableRowCount table = .ok count)
    (hcount : runner.dataSource.getColumnCount table = .ok columnCount)
    (hrows : runner.sourceRows source = .ok rows)
    (hcompile : runner.compileExecPlan tableRowCount plan =
      runner.compileSource tableRowCount table estimate source)
    (hfills : runner.fills tableRowCount plan = false)
    (hloses : ¬ runner.Loses tableRowCount plan) :
    runner.Streams tableRowCount plan (.ofTable table columnCount rows) := by
  obtain ⟨count, hestimate⟩ := hcounts table columnCount hcount
  have hcompiled : runner.compileExecPlan tableRowCount plan =
      .ok (.mk ⟨[table], [columnCount]⟩ (estimate count) (.source source)) := by
    rw [hcompile, compileSource, compileSingleTableMeta, hcount, hestimate]
    rfl
  exact streams_source hname source hcount hrows hcompiled hfills hloses

end Sources

/-- What a node makes of inputs that stream all their rows. -/
theorem streams_node
    (hname : ∀ columnCount, runner.dataSource.getColumnCount "" ≠ .ok columnCount)
    (hcounts : ∀ table columnCount, runner.dataSource.getColumnCount table = .ok columnCount →
      ∃ count, tableRowCount table = .ok count)
    {plan : PhysicalPlan} (hagree : plan.All runner.EvaluatorsAgree)
    (hsettled : runner.RowOrderSettled plan)
    (hinputs : ∀ input ∈ plan.inputs, runner.Keeps tableRowCount input ∧
      ∀ r, runner.execute input = .ok r → runner.Streams tableRowCount input r)
    (h : runner.execute plan = .ok relation) : runner.Streams tableRowCount plan relation := by
  cases plan with
  | empty =>
    obtain rfl := Except.ok.inj h
    exact ⟨_, [], rfl, emits_empty, fun _ => rfl, List.not_mem_nil,
      iff_of_true (.refl _) not_false, fun _ _ => rfl⟩
  | tableScan table =>
    obtain ⟨columnCount, rows, hcount, hrows, rfl⟩ := ok_of_rows_bind h
    exact streams_counted hname (.tableScan table) hcounts hcount hrows rfl rfl not_false
  | indexScan table index bounds limit offset reverse =>
    obtain ⟨rows, hrows, h⟩ := ok_of_bind h
    obtain ⟨columnCount, hcount, h⟩ := ok_of_bind h
    obtain rfl := Except.ok.inj h
    exact streams_counted hname (.indexScan table index bounds limit (offset.getD 0) reverse)
      hcounts hcount hrows rfl rfl not_false
  | indexGet table index key limit =>
    obtain ⟨rows, hrows, h⟩ := ok_of_bind h
    obtain ⟨columnCount, hcount, h⟩ := ok_of_bind h
    obtain rfl := Except.ok.inj h
    have hcompile : runner.compileExecPlan tableRowCount (.indexGet table index key limit) =
        .ok (.mk ⟨[table], [columnCount]⟩ (some (limit.getD 1))
          (.source (.indexGet table index key limit))) := by
      rw [compileExecPlan, compileSingleTableMeta, hcount]
      rfl
    exact streams_source hname (.indexGet table index key limit) hcount hrows hcompile rfl
      not_false
  | indexInGet table index keys =>
    obtain ⟨rows, hrows, h⟩ := ok_of_bind h
    obtain ⟨columnCount, hcount, h⟩ := ok_of_bind h
    obtain rfl := Except.ok.inj h
    exact streams_counted hname (.indexInGet table index keys) hcounts hcount hrows rfl rfl
      not_false
  | ginIndexScan table index key value queryType recheck =>
    obtain ⟨rows, hrows, h⟩ := ok_of_bind h
    obtain ⟨columnCount, hcount, h⟩ := ok_of_bind h
    obtain rfl := Except.ok.inj h
    exact streams_counted hname (.ginIndexScan table index key value queryType) hcounts hcount
      hrows rfl rfl not_false
  | ginIndexScanMulti table index pairs matchAll recheck =>
    obtain ⟨rows, hrows, h⟩ := ok_of_bind h
    obtain ⟨columnCount, hcount, h⟩ := ok_of_bind h
    obtain rfl := Except.ok.inj h
    exact streams_counted hname (.ginIndexScanMulti table index pairs matchAll) hcounts hcount
      hrows rfl rfl not_false
  | noOp input =>
    obtain ⟨hkeeps, hinput⟩ := hinputs input List.mem_cons_self
    rw [execute_noOp] at h
    exact (hinput _ h).noOp hkeeps
  | filter input predicate =>
    obtain ⟨hkeeps, hinput⟩ := hinputs input List.mem_cons_self
    obtain ⟨r, hr, rfl⟩ := execute_filter hagree.here h
    exact (hinput r hr).filter hkeeps predicate
  | project input columns =>
    obtain ⟨hkeeps, hinput⟩ := hinputs input List.mem_cons_self
    obtain ⟨r, hr, rfl⟩ := execute_project hname (hagree.of_mem List.mem_cons_self) h
    exact (hinput r hr).project hkeeps columns
  | limit input limit offset =>
    obtain ⟨hkeeps, hinput⟩ := hinputs input List.mem_cons_self
    obtain ⟨r, hr, rfl⟩ := execute_limit (hagree.of_mem List.mem_cons_self) h
    exact Streams.limit hr (hinput r hr) hkeeps hsettled limit offset
  | sort input orderBy =>
    obtain ⟨hkeeps, hinput⟩ := hinputs input List.mem_cons_self
    obtain ⟨r, hr, h⟩ := ok_of_bind (show (runner.execute input >>= _) = _ from h)
    obtain rfl := Except.ok.inj h
    exact (hinput r hr).sort hkeeps orderBy
  | topN input orderBy limit offset =>
    obtain ⟨hkeeps, hinput⟩ := hinputs input List.mem_cons_self
    obtain ⟨r, hr, h⟩ := ok_of_bind (show (runner.execute input >>= _) = _ from h)
    exact (hinput r hr).topN hkeeps hsettled h
  | hashAggregate input groupBy aggregates =>
    obtain ⟨hkeeps, hinput⟩ := hinputs input List.mem_cons_self
    obtain ⟨r, hr, h⟩ := ok_of_bind (show (runner.execute input >>= _) = _ from h)
    obtain rfl := Except.ok.inj h
    exact Streams.hashAggregate hr (hinput r hr) hkeeps hsettled
  | indexNestedLoopJoin outer innerTable innerIndex condition joinType outerIsLeft outputTables =>
    obtain ⟨hkeeps, hinput⟩ := hinputs outer List.mem_cons_self
    obtain ⟨r, hr, h⟩ := ok_of_bind (show (runner.execute outer >>= _) = _ from h)
    exact Streams.indexNestedLoopJoin hname (hinput r hr) hkeeps h
  | crossProduct left right =>
    obtain ⟨hleftKeeps, hleft⟩ := hinputs left List.mem_cons_self
    obtain ⟨hrightKeeps, hright⟩ := hinputs right (List.mem_cons_of_mem _ List.mem_cons_self)
    obtain ⟨l, hl, h⟩ := ok_of_bind (show (runner.execute left >>= _) = _ from h)
    obtain ⟨r, hr, h⟩ := ok_of_bind h
    obtain rfl := Except.ok.inj h
    exact (hleft l hl).crossProduct (hright r hr) hleftKeeps hrightKeeps
  | hashJoin left right condition joinType outputTables =>
    obtain ⟨hleftKeeps, hleft⟩ := hinputs left List.mem_cons_self
    obtain ⟨hrightKeeps, hright⟩ := hinputs right (List.mem_cons_of_mem _ List.mem_cons_self)
    obtain ⟨l, hl, h⟩ := ok_of_bind (show (runner.execute left >>= _) = _ from h)
    obtain ⟨r, hr, h⟩ := ok_of_bind h
    exact Streams.hashJoin hl hr (hleft l hl) (hright r hr) hleftKeeps hrightKeeps h
  | sortMergeJoin left right condition joinType outputTables =>
    obtain ⟨hleftKeeps, hleft⟩ := hinputs left List.mem_cons_self
    obtain ⟨hrightKeeps, hright⟩ := hinputs right (List.mem_cons_of_mem _ List.mem_cons_self)
    obtain ⟨l, hl, h⟩ := ok_of_bind (show (runner.execute left >>= _) = _ from h)
    obtain ⟨r, hr, h⟩ := ok_of_bind h
    exact Streams.sortMergeJoin hl hr (hleft l hl) (hright r hr) hleftKeeps hrightKeeps hsettled h
  | nestedLoopJoin left right condition joinType outputTables =>
    obtain ⟨hleftKeeps, hleft⟩ := hinputs left List.mem_cons_self
    obtain ⟨hrightKeeps, hright⟩ := hinputs right (List.mem_cons_of_mem _ List.mem_cons_self)
    obtain ⟨l, hl, h⟩ := ok_of_bind (show (runner.execute left >>= _) = _ from h)
    obtain ⟨r, hr, h⟩ := ok_of_bind h
    obtain rfl := Except.ok.inj h
    exact Streams.nestedLoopJoin hl hr (hleft l hl) (hright r hr) hleftKeeps hrightKeeps
      hagree.here
  | union left right all =>
    obtain ⟨hleftKeeps, hleft⟩ := hinputs left List.mem_cons_self
    obtain ⟨hrightKeeps, hright⟩ := hinputs right (List.mem_cons_of_mem _ List.mem_cons_self)
    obtain ⟨l, hl, h⟩ := ok_of_bind (show (runner.execute left >>= _) = _ from h)
    obtain ⟨r, hr, h⟩ := ok_of_bind h
    rw [executeUnion] at h
    split at h
    · cases h
    · cases all with
      | true =>
        obtain rfl := Except.ok.inj h
        exact Streams.unionAll hl hr (hleft l hl) (hright r hr) hleftKeeps hrightKeeps
      | false =>
        obtain rfl := Except.ok.inj h
        exact Streams.unionDistinct hl hr (hleft l hl) (hright r hr) hleftKeeps hrightKeeps
          hsettled

/-- Where no input of a plan loses rows, it streams all rows but those that it loses itself. -/
theorem streams_of_execute
    (hname : ∀ columnCount, runner.dataSource.getColumnCount "" ≠ .ok columnCount)
    (hcounts : ∀ table columnCount, runner.dataSource.getColumnCount table = .ok columnCount →
      ∃ count, tableRowCount table = .ok count)
    {plan : PhysicalPlan} (hagree : plan.All runner.EvaluatorsAgree)
    (hsettled : plan.All runner.RowOrderSettled)
    (hkeeps : ∀ input ∈ plan.inputs, input.All (runner.Keeps tableRowCount))
    (h : runner.execute plan = .ok relation) : runner.Streams tableRowCount plan relation := by
  induction hagree generalizing relation with
  | intro here inputs ih =>
    exact streams_node hname hcounts (.intro here inputs) hsettled.here (fun input hmem =>
      ⟨(hkeeps input hmem).here, fun r hr => ih input hmem (hsettled.of_mem hmem)
        (fun _ hinner => (hkeeps input hmem).of_mem hinner) hr⟩) h

end Steps

end PhysicalPlanRunner

section Samples

/-- One table, of one column. -/
def itemsSource (rows : List Entry) : DataSource where
  getTableRows table := if table = "items" then .ok rows else .error (.tableNotFound table)
  getColumnCount table := if table = "items" then .ok 1 else .error (.tableNotFound table)
  getIndexRange _ _ _ _ := .ok []
  getGinIndexRows _ _ _ _ := .ok []
  getGinIndexRowsByKey _ _ _ := .ok []
  getGinIndexRowsMulti _ _ _ _ := .ok []

def itemRows : List Entry :=
  [.newWithVersion 1 1 [some (.int32 7)], .newWithVersion 2 1 [none]]

def itemsRunner : PhysicalPlanRunner := .ofSource (itemsSource itemRows)

def firstItem : PhysicalPlan := .limit (.tableScan "items") 1 0

theorem all_tableScan {p : PhysicalPlan → Prop} {table : TableName} (h : p (.tableScan table)) :
    (PhysicalPlan.tableScan table).All p := .intro h nofun

theorem all_firstItem {p : PhysicalPlan → Prop} (hscan : p (.tableScan "items"))
    (hlimit : p firstItem) : firstItem.All p :=
  .intro hlimit fun _ hmem => List.mem_singleton.mp hmem ▸ all_tableScan hscan

theorem all_union {p : PhysicalPlan → Prop} {left right : PhysicalPlan} (hleft : left.All p)
    (hright : right.All p) (h : p (.union left right true)) :
    (PhysicalPlan.union left right true).All p := by
  refine .intro h fun input hmem => ?_
  rcases List.mem_cons.mp hmem with rfl | hmem
  · exact hleft
  · exact List.mem_singleton.mp hmem ▸ hright

end Samples

end Cynos.Query
