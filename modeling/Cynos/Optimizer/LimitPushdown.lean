import Mathlib.Data.List.Nodup
import Cynos.Query.Context
import Cynos.Query.Runner

/-! The two passes that move limits into index accesses, and what the moved limits
yield. -/
namespace Cynos.Query

open Core

section Passes

/-- A limit over an optimized input: over a sort it becomes a `TopN`, over an index
access it moves into it. -/
def TopNPushdown.pushLimit (input : PhysicalPlan) (limit offset : Nat) : PhysicalPlan :=
  match input with
  | .sort sortInput orderBy => .topN sortInput orderBy limit offset
  | .indexGet table index key _ =>
    if offset = 0 then .indexGet table index key (some limit)
    else .limit (.indexGet table index key (some (saturatingAdd limit offset))) limit offset
  | .indexScan table index bounds none none reverse =>
    .indexScan table index bounds (some (saturatingAdd limit offset)) (some offset) reverse
  | input => .limit input limit offset

def TopNPushdown.traverse : PhysicalPlan → PhysicalPlan
  | .limit input limit offset => pushLimit (traverse input) limit offset
  | .filter input predicate => .filter (traverse input) predicate
  | .project input columns => .project (traverse input) columns
  | .sort input orderBy => .sort (traverse input) orderBy
  | .topN input orderBy limit offset => .topN (traverse input) orderBy limit offset
  | .hashJoin left right condition joinType outputTables =>
    .hashJoin (traverse left) (traverse right) condition joinType outputTables
  | .sortMergeJoin left right condition joinType outputTables =>
    .sortMergeJoin (traverse left) (traverse right) condition joinType outputTables
  | .nestedLoopJoin left right condition joinType outputTables =>
    .nestedLoopJoin (traverse left) (traverse right) condition joinType outputTables
  | .indexNestedLoopJoin outer innerTable innerIndex condition joinType outerIsLeft outputTables =>
    .indexNestedLoopJoin (traverse outer) innerTable innerIndex condition joinType outerIsLeft
      outputTables
  | .hashAggregate input groupBy aggregates => .hashAggregate (traverse input) groupBy aggregates
  | .crossProduct left right => .crossProduct (traverse left) (traverse right)
  | .union left right all => .union (traverse left) (traverse right) all
  | .noOp input => .noOp (traverse input)
  | plan => plan

namespace LimitSkipByIndexPass

variable (ctx : ExecutionContext)

def tryPushToIndexScan (limit offset : Nat) : PhysicalPlan → Option PhysicalPlan
  | .indexScan table index bounds existingLimit existingOffset reverse =>
    if existingLimit.isSome then none
    else if existingOffset.any (0 < ·) then none
    else some (.indexScan table index bounds (some limit) (some offset) reverse)
  | .project input columns =>
    (tryPushToIndexScan limit offset input).map fun optimized => .project optimized columns
  | .tableScan table => (ctx.findPrimaryIndex table).map fun pkIndex =>
      .indexScan table pkIndex.name .all (some limit) (some offset) false
  | _ => none

def traverse : PhysicalPlan → PhysicalPlan
  | .limit input limit offset =>
    (tryPushToIndexScan ctx limit offset (traverse input)).getD (.limit (traverse input) limit offset)
  | .filter input predicate => .filter (traverse input) predicate
  | .project input columns => .project (traverse input) columns
  | .sort input orderBy => .sort (traverse input) orderBy
  | .topN input orderBy limit offset => .topN (traverse input) orderBy limit offset
  | .hashJoin left right condition joinType outputTables =>
    .hashJoin (traverse left) (traverse right) condition joinType outputTables
  | .sortMergeJoin left right condition joinType outputTables =>
    .sortMergeJoin (traverse left) (traverse right) condition joinType outputTables
  | .nestedLoopJoin left right condition joinType outputTables =>
    .nestedLoopJoin (traverse left) (traverse right) condition joinType outputTables
  | .indexNestedLoopJoin outer innerTable innerIndex condition joinType outerIsLeft outputTables =>
    .indexNestedLoopJoin (traverse outer) innerTable innerIndex condition joinType outerIsLeft
      outputTables
  | .hashAggregate input groupBy aggregates => .hashAggregate (traverse input) groupBy aggregates
  | .crossProduct left right => .crossProduct (traverse left) (traverse right)
  | .union left right all => .union (traverse left) (traverse right) all
  | .noOp input => .noOp (traverse input)
  | plan => plan

end LimitSkipByIndexPass

def pushLimits (ctx : ExecutionContext) (plan : PhysicalPlan) : PhysicalPlan :=
  LimitSkipByIndexPass.traverse ctx (TopNPushdown.traverse plan)

end Passes

section Targets

/-- An index scan, a point lookup, or a projection of these. -/
def limitTarget : PhysicalPlan → Bool
  | .indexScan .. | .indexGet .. => true
  | .project input _ => limitTarget input
  | _ => false

/-- An index scan that takes over a limit as it stands, under projections. -/
def takesLimit : PhysicalPlan → Bool
  | .indexScan _ _ _ none existingOffset _ => !existingOffset.any (0 < ·)
  | .project input _ => takesLimit input
  | _ => false

variable (runner : PhysicalPlanRunner) (ctx : ExecutionContext)

/-- When a limit over an index access yields what it should. An index scan without limit
and offset is given the end of the window as its limit. A point lookup is given a new
limit instead of the one it had. Over anything else that takes no limit the end of the
window is computed. -/
def limitKept (input : PhysicalPlan) (limit offset : Nat) : Prop :=
  match input with
  | .indexScan table index bounds none none reverse =>
    offset = 0 ∨ maxUsize ≤ limit ∨ ∀ rows,
      runner.dataSource.getIndexRange table index bounds reverse = .ok rows →
        rows.length ≤ offset + limit
  | .indexGet table index key existing =>
    (offset = 0 ∨ offset + limit ≤ maxUsize) ∧ (offset + limit = 0 ∨ ∃ rows,
      indexPointRows runner.dataSource table index key none = .ok rows ∧
        ∀ n, existing = some n → limit = 0 ∨ offset + limit ≤ n ∨ rows.length ≤ max n offset)
  | input => takesLimit input = true ∨ offset + limit ≤ maxUsize

theorem pipelineSource_of_target (functions : Functions) {input : PhysicalPlan}
    (h : limitTarget input = true) : pipelineSource functions input = none := by
  cases input <;> first | rfl | cases h

theorem pipelineOver_of_target (functions : Functions) {limit : Option (Nat × Nat)}
    {input : PhysicalPlan} (h : limitTarget input = true) :
    pipelineOver functions limit input = none := by
  cases input with
  | indexScan => rfl
  | indexGet => rfl
  | project input columns =>
    have hinput : limitTarget input = true := h
    change (pipelineSource functions input).map _ = none
    rw [pipelineSource_of_target functions hinput]
    rfl
  | _ => cases h

theorem execute_limit_of_target {input : PhysicalPlan} (h : limitTarget input = true)
    (limit offset : Nat) :
    runner.execute (.limit input limit offset) = (do
      executeLimit (← runner.execute input) limit offset) := by
  have hnone : compileSingleTablePipelineArtifact runner.functions (.limit input limit offset) =
      none := pipelineOver_of_target runner.functions h
  rw [PhysicalPlanRunner.execute, compileExecutionArtifact_none hnone nofun]

theorem execute_project_of_target {input : PhysicalPlan} (h : limitTarget input = true)
    (columns : List Expr) :
    runner.execute (.project input columns) = (do
      return runner.executeProject (← runner.execute input) columns) := by
  have htarget : limitTarget (.project input columns) = true := h
  have hnone : compileSingleTablePipelineArtifact runner.functions (.project input columns) =
      none := pipelineOver_of_target runner.functions htarget
  rw [PhysicalPlanRunner.execute, compileExecutionArtifact_none hnone nofun]

theorem topN_traverse_of_target {input : PhysicalPlan} (h : limitTarget input = true) :
    TopNPushdown.traverse input = input := by
  induction input with
  | indexScan => rfl
  | indexGet => rfl
  | project input columns ih => rw [TopNPushdown.traverse, ih h]
  | _ => cases h

theorem limitSkip_traverse_of_target {input : PhysicalPlan} (h : limitTarget input = true) :
    LimitSkipByIndexPass.traverse ctx input = input := by
  induction input with
  | indexScan => rfl
  | indexGet => rfl
  | project input columns ih => rw [LimitSkipByIndexPass.traverse, ih h]
  | _ => cases h

theorem executeProject_window (relation : Relation) (columns : List Expr) (limit offset : Nat) :
    runner.executeProject (relation.window limit offset) columns =
      (runner.executeProject relation columns).window limit offset := by
  simp [PhysicalPlanRunner.executeProject, Relation.window, Relation.context]

theorem executeIndexScan_window {table : TableName} {index : IndexName} {bounds : IndexBounds}
    {reverse : Bool} {existingOffset : Option Nat} (hoffset : existingOffset.getD 0 = 0)
    {relation : Relation}
    (h : runner.executeIndexScan table index bounds none existingOffset reverse = .ok relation)
    (limit offset : Nat) :
    runner.executeIndexScan table index bounds (some limit) (some offset) reverse =
      .ok (relation.window limit offset) := by
  unfold PhysicalPlanRunner.executeIndexScan DataSource.getIndexRangeWithLimit at h ⊢
  rw [hoffset] at h
  cases hrows : runner.dataSource.getIndexRange table index bounds reverse with
  | error e => rw [hrows] at h; cases h
  | ok rows =>
    cases hcount : runner.dataSource.getColumnCount table with
    | error e => rw [hrows, hcount] at h; cases h
    | ok columnCount =>
      rw [hrows, hcount] at h
      obtain rfl := Except.ok.inj h
      rfl

/-- What takes a limit over yields the window. -/
theorem tryPush_of_takesLimit {input : PhysicalPlan} (h : takesLimit input = true)
    (limit offset : Nat) :
    ∃ plan, LimitSkipByIndexPass.tryPushToIndexScan ctx limit offset input = some plan ∧
      limitTarget plan = true ∧ limitTarget input = true ∧ ∀ relation,
        runner.execute input = .ok relation →
          runner.execute plan = .ok (relation.window limit offset) := by
  induction input with
  | indexScan table index bounds existingLimit existingOffset reverse =>
    cases existingLimit with
    | some existing => cases h
    | none =>
      have hzero : existingOffset.any (0 < ·) = false := by simpa [takesLimit] using h
      refine ⟨_, by rw [LimitSkipByIndexPass.tryPushToIndexScan, hzero]; rfl, rfl, rfl, ?_⟩
      intro relation hrun
      refine executeIndexScan_window runner ?_ hrun limit offset
      cases existingOffset with
      | none => rfl
      | some existing => simpa using hzero
  | project input columns ih =>
    obtain ⟨plan, hpush, hplan, hinput, hrun⟩ := ih h
    refine ⟨.project plan columns, by rw [LimitSkipByIndexPass.tryPushToIndexScan, hpush]; rfl,
      hplan, hinput, ?_⟩
    intro relation hrel
    rw [execute_project_of_target runner hinput] at hrel
    rw [execute_project_of_target runner hplan]
    cases hrows : runner.execute input with
    | error e => rw [hrows] at hrel; cases hrel
    | ok rows =>
      rw [hrows] at hrel
      obtain rfl := Except.ok.inj hrel
      rw [hrun rows hrows, ok_bind, executeProject_window]
      rfl
  | _ => cases h

theorem tryPush_of_not_takesLimit {input : PhysicalPlan} (htarget : limitTarget input = true)
    (h : takesLimit input = false) (limit offset : Nat) :
    LimitSkipByIndexPass.tryPushToIndexScan ctx limit offset input = none := by
  induction input with
  | indexScan table index bounds existingLimit existingOffset reverse =>
    cases existingLimit with
    | some existing => rfl
    | none =>
      have hsome : existingOffset.any (0 < ·) = true := by simpa [takesLimit] using h
      rw [LimitSkipByIndexPass.tryPushToIndexScan, hsome]
      rfl
  | indexGet => rfl
  | project input columns ih => rw [LimitSkipByIndexPass.tryPushToIndexScan, ih htarget h]; rfl
  | _ => cases htarget

theorem executeLimit_eq_window_iff (relation : Relation) (limit offset : Nat) :
    executeLimit relation limit offset = .ok (relation.window limit offset) ↔
      offset + limit ≤ maxUsize := by
  unfold executeLimit
  split
  · exact iff_of_true rfl ‹_›
  · exact iff_of_false nofun ‹_›

/-- A limit that stays where it is. -/
theorem execute_pushLimits_other {input : PhysicalPlan} (htarget : limitTarget input = true)
    {limit offset : Nat} (hpush : TopNPushdown.pushLimit input limit offset =
      .limit input limit offset) {relation : Relation} (h : runner.execute input = .ok relation) :
    runner.execute (pushLimits ctx (.limit input limit offset)) =
        .ok (relation.window limit offset) ↔
      takesLimit input = true ∨ offset + limit ≤ maxUsize := by
  rw [pushLimits, TopNPushdown.traverse, topN_traverse_of_target htarget, hpush,
    LimitSkipByIndexPass.traverse, limitSkip_traverse_of_target ctx htarget]
  cases htakes : takesLimit input with
  | true =>
    obtain ⟨plan, hplan, -, -, hrun⟩ := tryPush_of_takesLimit runner ctx htakes limit offset
    rw [hplan, Option.getD_some]
    exact iff_of_true (hrun relation h) (.inl rfl)
  | false =>
    rw [tryPush_of_not_takesLimit ctx htarget htakes, Option.getD_none,
      execute_limit_of_target runner htarget, h, ok_bind, executeLimit_eq_window_iff]
    simp

/-- Two windows of one offset hold the same rows when they have one limit or both reach
the end. -/
theorem window_eq_iff {rows : List Entry} {limit limit' offset : Nat} (hle : limit ≤ limit') :
    (rows.drop offset).take limit' = (rows.drop offset).take limit ↔
      limit' = limit ∨ rows.length ≤ offset + limit := by
  rw [List.take_eq_take_iff, List.length_drop]
  omega

theorem Relation.ofTable_window (table : TableName) (columnCount : Nat) (rows : List Entry)
    (limit offset : Nat) :
    (Relation.ofTable table columnCount rows).window limit offset =
      .ofTable table columnCount ((rows.drop offset).take limit) := rfl

theorem Relation.ofTable_inj {table : TableName} {columnCount : Nat} {rows rows' : List Entry} :
    Relation.ofTable table columnCount rows = .ofTable table columnCount rows' ↔ rows = rows' := by
  simp [Relation.ofTable]

theorem execute_pushLimits_indexScan {table : TableName} {index : IndexName}
    {bounds : IndexBounds} {reverse : Bool} {limit offset : Nat} (hlimit : limit ≤ maxUsize)
    {relation : Relation}
    (h : runner.execute (.indexScan table index bounds none none reverse) = .ok relation) :
    runner.execute (pushLimits ctx (.limit (.indexScan table index bounds none none reverse)
        limit offset)) = .ok (relation.window limit offset) ↔
      limitKept runner (.indexScan table index bounds none none reverse) limit offset := by
  rw [PhysicalPlanRunner.execute_indexScan, PhysicalPlanRunner.executeIndexScan,
    DataSource.getIndexRangeWithLimit] at h
  change runner.executeIndexScan table index bounds (some (saturatingAdd limit offset))
    (some offset) reverse = _ ↔ _
  rw [PhysicalPlanRunner.executeIndexScan, DataSource.getIndexRangeWithLimit]
  cases hrows : runner.dataSource.getIndexRange table index bounds reverse with
  | error e => rw [hrows] at h; cases h
  | ok rows =>
    cases hcount : runner.dataSource.getColumnCount table with
    | error e => rw [hrows, hcount] at h; cases h
    | ok columnCount =>
      rw [hrows, hcount] at h
      obtain rfl := Except.ok.inj h
      simp only [ok_bind, pure_eq_ok, Option.getD_some, limited_some, Except.ok.injEq,
        Option.getD_none, limited_none, List.drop_zero, Relation.ofTable_window,
        Relation.ofTable_inj]
      have hle : limit ≤ saturatingAdd limit offset := by unfold saturatingAdd; omega
      rw [window_eq_iff hle]
      simp only [limitKept, hrows, Except.ok.injEq, forall_eq']
      unfold saturatingAdd
      omega

theorem pointWindow_eq_iff {rows : List Entry} (existing : Option Nat) (limit offset : Nat) :
    (rows.drop offset).take limit =
        ((limited 0 existing rows).drop offset).take limit ↔
      ∀ n, existing = some n → limit = 0 ∨ offset + limit ≤ n ∨ rows.length ≤ max n offset := by
  cases existing with
  | none => simp
  | some n =>
    rw [limited_some, List.drop_zero, List.drop_take, List.take_take, List.take_eq_take_iff,
      List.length_drop]
    simp only [Option.some.injEq, forall_eq']
    omega

theorem executeIndexGet_eq {table : TableName} {index : IndexName} {key : Value Scalar}
    {limit : Option Nat} {relation : Relation}
    (h : runner.executeIndexGet table index key limit = .ok relation) :
    ∃ rows columnCount, indexPointRows runner.dataSource table index key limit = .ok rows ∧
      runner.dataSource.getColumnCount table = .ok columnCount ∧
      relation = .ofTable table columnCount rows := by
  rw [PhysicalPlanRunner.executeIndexGet] at h
  cases hrows : indexPointRows runner.dataSource table index key limit with
  | error e => rw [hrows] at h; cases h
  | ok rows =>
    cases hcount : runner.dataSource.getColumnCount table with
    | error e => rw [hrows, hcount] at h; cases h
    | ok columnCount =>
      rw [hrows, hcount] at h
      exact ⟨rows, columnCount, rfl, rfl, (Except.ok.inj h).symm⟩

theorem executeIndexGet_of_rows {table : TableName} {index : IndexName} {key : Value Scalar}
    {limit : Option Nat} {rows : List Entry} {columnCount : Nat}
    (hrows : indexPointRows runner.dataSource table index key limit = .ok rows)
    (hcount : runner.dataSource.getColumnCount table = .ok columnCount) :
    runner.executeIndexGet table index key limit = .ok (.ofTable table columnCount rows) := by
  rw [PhysicalPlanRunner.executeIndexGet, hrows, hcount]
  rfl

theorem pushLimits_indexGet (table : TableName) (index : IndexName) (key : Value Scalar)
    (existing : Option Nat) (limit offset : Nat) :
    pushLimits ctx (.limit (.indexGet table index key existing) limit offset) =
      if offset = 0 then .indexGet table index key (some limit)
      else .limit (.indexGet table index key (some (saturatingAdd limit offset))) limit offset := by
  change LimitSkipByIndexPass.traverse ctx
    (TopNPushdown.pushLimit (.indexGet table index key existing) limit offset) = _
  rw [TopNPushdown.pushLimit]
  split <;> rfl

/-- A limit over a lookup whose own limit covers the window. -/
theorem executeLimit_ofTable_iff {table : TableName} {columnCount limit offset : Nat}
    {rows found : List Entry} :
    executeLimit (.ofTable table columnCount (rows.take (saturatingAdd limit offset))) limit
        offset = .ok (.ofTable table columnCount ((found.drop offset).take limit)) ↔
      offset + limit ≤ maxUsize ∧
        (rows.drop offset).take limit = (found.drop offset).take limit := by
  unfold executeLimit
  split
  · have hcover : saturatingAdd limit offset - offset = limit := by
      unfold saturatingAdd
      omega
    rw [pure_eq_ok, Except.ok.injEq]
    change Relation.ofTable table columnCount _ = _ ↔ _
    rw [Relation.ofTable_inj]
    simp only [Relation.ofTable, List.drop_take, hcover, List.take_take, Nat.min_self]
    exact (and_iff_right ‹_›).symm
  · exact iff_of_false nofun fun h => absurd h.1 ‹_›

/-- The window of a point lookup, when the lookup is given a limit that covers it. -/
theorem execute_pushLimits_indexGet (laws : runner.dataSource.Lawful) {table : TableName}
    {index : IndexName} {key : Value Scalar} {existing : Option Nat} {limit offset : Nat}
    (hlimit : limit ≤ maxUsize) {relation : Relation}
    (h : runner.execute (.indexGet table index key existing) = .ok relation) :
    runner.execute (pushLimits ctx (.limit (.indexGet table index key existing) limit offset)) =
        .ok (relation.window limit offset) ↔
      limitKept runner (.indexGet table index key existing) limit offset := by
  obtain ⟨found, columnCount, hfound, hcount, rfl⟩ := executeIndexGet_eq runner h
  -- with the rows of the key at hand, both sides speak of windows of one list
  have hwindow : ∀ rows, indexPointRows runner.dataSource table index key none = .ok rows →
      ((rows.drop offset).take limit = (found.drop offset).take limit ↔
        ∀ n, existing = some n → limit = 0 ∨ offset + limit ≤ n ∨ rows.length ≤ max n offset) := by
    intro rows hrows
    rw [← pointWindow_eq_iff]
    cases existing with
    | none => rw [Except.ok.inj (hfound.symm.trans hrows)]; rfl
    | some n =>
      rw [Except.ok.inj (hfound.symm.trans (indexPointRows_some laws hrows n))]
      rfl
  have hrows_of : ∀ {m relation}, 0 < m →
      runner.executeIndexGet table index key (some m) = .ok relation →
        ∃ rows, indexPointRows runner.dataSource table index key none = .ok rows := by
    intro m relation hm hrun
    obtain ⟨_, _, hpoint, -⟩ := executeIndexGet_eq runner hrun
    obtain ⟨first, hfirst⟩ := getIndexRange_of_indexPointRows (by simpa using hm.ne') hpoint
    rcases indexPointRows_none laws hfirst with ⟨-, hrows⟩ | ⟨_, _, -, -, hrows⟩
    · exact ⟨_, hrows⟩
    · exact ⟨_, hrows⟩
  have hget : ∀ {rows}, indexPointRows runner.dataSource table index key none = .ok rows →
      ∀ m, runner.executeIndexGet table index key (some m) =
        .ok (.ofTable table columnCount (rows.take m)) :=
    fun hrows m => executeIndexGet_of_rows runner (indexPointRows_some laws hrows m) hcount
  rcases Nat.eq_zero_or_pos offset with rfl | hoffset
  · change runner.executeIndexGet table index key (some limit) = _ ↔ _
    rcases Nat.eq_zero_or_pos limit with rfl | hpos
    · exact iff_of_true (executeIndexGet_of_rows runner indexPointRows_zero hcount)
        ⟨.inl rfl, .inl rfl⟩
    · constructor
      · intro hrun
        obtain ⟨rows, hrows⟩ := hrows_of hpos hrun
        rw [hget hrows, Relation.ofTable_window, Except.ok.injEq, Relation.ofTable_inj] at hrun
        exact ⟨.inl rfl, .inr ⟨rows, hrows, (hwindow rows hrows).mp hrun⟩⟩
      · rintro ⟨-, hzero | ⟨rows, hrows, hkept⟩⟩
        · omega
        · rw [hget hrows, Relation.ofTable_window, Except.ok.injEq, Relation.ofTable_inj]
          exact (hwindow rows hrows).mpr hkept
  · have hpos : 0 < saturatingAdd limit offset := by
      unfold saturatingAdd maxUsize
      omega
    rw [pushLimits_indexGet, if_neg hoffset.ne', execute_limit_of_target runner rfl,
      PhysicalPlanRunner.execute_indexGet, Relation.ofTable_window]
    constructor
    · intro hrun
      cases hgot : runner.executeIndexGet table index key (some (saturatingAdd limit offset)) with
      | error e => rw [hgot] at hrun; cases hrun
      | ok got =>
        obtain ⟨rows, hrows⟩ := hrows_of hpos hgot
        rw [hget hrows, ok_bind, executeLimit_ofTable_iff, hwindow rows hrows] at hrun
        exact ⟨.inr hrun.1, .inr ⟨rows, hrows, hrun.2⟩⟩
    · rintro ⟨hle, hzero | ⟨rows, hrows, hkept⟩⟩
      · omega
      · rw [hget hrows, ok_bind, executeLimit_ofTable_iff, hwindow rows hrows]
        exact ⟨hle.resolve_left hoffset.ne', hkept⟩

end Targets

section Sources

variable (runner : PhysicalPlanRunner) (ctx : ExecutionContext)

/-- Tables whose rows differ, each listed in full by its primary index. -/
structure Indexed (source : DataSource) : Prop where
  lawful : source.Lawful
  nodup : ∀ {table rows}, source.getTableRows table = .ok rows → rows.Nodup
  primary : ∀ {table info rows}, ctx.findPrimaryIndex table = some info →
    source.getTableRows table = .ok rows → ∃ listed,
      source.getIndexRange table info.name .all false = .ok listed ∧ listed.Perm rows

variable {runner ctx}

theorem execute_tableScan_ok {table : TableName} {relation : Relation}
    (h : runner.execute (.tableScan table) = .ok relation) :
    ∃ rows columnCount, runner.dataSource.getTableRows table = .ok rows ∧
      runner.dataSource.getColumnCount table = .ok columnCount ∧
      relation = .ofTable table columnCount rows := by
  rw [PhysicalPlanRunner.execute_tableScan, PhysicalPlanRunner.executeTableScan] at h
  cases hcount : runner.dataSource.getColumnCount table with
  | error e => rw [hcount] at h; cases h
  | ok columnCount =>
    cases hrows : runner.dataSource.getTableRows table with
    | error e => rw [hcount, hrows] at h; cases h
    | ok rows =>
      rw [hcount, hrows] at h
      exact ⟨rows, columnCount, rfl, rfl, (Except.ok.inj h).symm⟩

/-- A limit over a table scan reads a window of some listing of the rows. -/
theorem Indexed.execute_pushLimits_tableScan (hsource : Indexed ctx runner.dataSource)
    {table : TableName} {rows : List Entry} {columnCount : Nat}
    (hrows : runner.dataSource.getTableRows table = .ok rows)
    (hcount : runner.dataSource.getColumnCount table = .ok columnCount) (limit offset : Nat) :
    ∃ listed : List Entry, listed.Perm rows ∧
      runner.execute (pushLimits ctx (.limit (.tableScan table) limit offset)) =
        .ok (.ofTable table columnCount ((listed.drop offset).take limit)) := by
  have hpush : pushLimits ctx (.limit (.tableScan table) limit offset) =
      ((ctx.findPrimaryIndex table).map fun info =>
        PhysicalPlan.indexScan table info.name .all (some limit) (some offset) false).getD
          (.limit (.tableScan table) limit offset) := rfl
  cases hindex : ctx.findPrimaryIndex table with
  | none =>
    refine ⟨rows, .refl rows, ?_⟩
    rw [hpush, hindex]
    change runner.executeCachedSingleTablePipeline ⟨table, [], .identity, some (limit, offset)⟩ = _
    rw [PhysicalPlanRunner.executeCachedSingleTablePipeline, hcount, hrows]
    simp
  | some info =>
    obtain ⟨listed, hlisted, hperm⟩ := hsource.primary hindex hrows
    refine ⟨listed, hperm, ?_⟩
    rw [hpush, hindex]
    change runner.executeIndexScan table info.name .all (some limit) (some offset) false = _
    rw [PhysicalPlanRunner.executeIndexScan, DataSource.getIndexRangeWithLimit, hlisted, hcount]
    rfl

/-- A pushed limit over an index access yields the window of its rows exactly when
`limitKept` holds; over a table scan it yields as many different rows as are left. -/
theorem execute_pushLimits_iff (hsource : Indexed ctx runner.dataSource) {limit : Nat}
    (hlimit : limit ≤ maxUsize) (offset : Nat) :
    (∀ input relation, limitTarget input = true → runner.execute input = .ok relation →
      (runner.execute (pushLimits ctx (.limit input limit offset)) =
        .ok (relation.window limit offset) ↔ limitKept runner input limit offset)) ∧
    ∀ table relation, runner.execute (.tableScan table) = .ok relation →
      ∃ result, runner.execute (pushLimits ctx (.limit (.tableScan table) limit offset)) =
          .ok result ∧
        result.entries.Nodup ∧ result.entries ⊆ relation.entries ∧
        result.entries.length = min limit (relation.entries.length - offset) := by
  constructor
  · intro input relation htarget hrun
    cases input with
    | indexScan table index bounds existingLimit existingOffset reverse =>
      cases existingLimit with
      | some existing => exact execute_pushLimits_other runner ctx htarget rfl hrun
      | none =>
        cases existingOffset with
        | some existing => exact execute_pushLimits_other runner ctx htarget rfl hrun
        | none => exact execute_pushLimits_indexScan runner ctx hlimit hrun
    | indexGet table index key existing =>
      exact execute_pushLimits_indexGet runner ctx hsource.lawful hlimit hrun
    | project input columns => exact execute_pushLimits_other runner ctx htarget rfl hrun
    | _ => cases htarget
  · intro table relation hrun
    obtain ⟨rows, columnCount, hrows, hcount, rfl⟩ := execute_tableScan_ok hrun
    obtain ⟨listed, hperm, hresult⟩ :=
      hsource.execute_pushLimits_tableScan hrows hcount limit offset
    refine ⟨_, hresult, ?_, ?_, ?_⟩
    · have hnodup := hperm.nodup_iff.mpr (hsource.nodup hrows)
      exact hnodup.sublist ((List.take_sublist _ _).trans (List.drop_sublist _ _))
    · intro row hrow
      exact hperm.subset (List.mem_of_mem_drop (List.mem_of_mem_take hrow))
    · simp [Relation.ofTable, hperm.length_eq]

def sampleRows : List Entry :=
  [1, 2, 3, 4, 5].map fun id => .newWithVersion id 1 [some (.int32 (Int32.ofNat id))]

/-- One table whose index holds the numbers 1 to 5. -/
def sampleSource : DataSource where
  getTableRows _ := .ok sampleRows
  getColumnCount _ := .ok 1
  getIndexRange _ _ bounds reverse := .ok (match bounds with
    | .scalar (.only (some (.int32 value))) =>
      sampleRows.filter fun row => row.values.any (Value.eq (some (.int32 value)))
    | .scalar (.only _) => []
    | _ => if reverse then sampleRows.reverse else sampleRows)
  getGinIndexRows _ _ _ _ := .ok []
  getGinIndexRowsByKey _ _ _ := .ok []
  getGinIndexRowsMulti _ _ _ _ := .ok []

def sampleContext : ExecutionContext where
  tableStats _ := some ⟨5, [⟨"idx_id", ["id"], true, .bTree⟩]⟩
  effectiveRowCounts _ := none
  anchorTable := none

theorem sampleRows_nodup : (sampleRows.map Row.id).Nodup := by decide

theorem sampleSource_indexed : Indexed sampleContext sampleSource := by
  refine ⟨⟨fun _ bounds' reverse' => ⟨_, rfl⟩, ?_, ?_⟩, ?_, ?_⟩
  · intro table index bounds reverse rows h
    obtain rfl := Except.ok.inj h
    split
    · exact sampleRows_nodup.sublist (List.filter_sublist.map _)
    · exact List.nodup_nil
    · split
      · rw [List.map_reverse]
        exact (List.reverse_perm _).nodup_iff.mpr sampleRows_nodup
      · exact sampleRows_nodup
  · intro table index key key' rows rows' hkeys h h'
    left
    have hnil : rows = [] ∨ rows' = [] := by
      unfold sqlPointLookupKeys at hkeys
      split at hkeys
      · obtain rfl := (List.cons.inj (List.cons.inj hkeys).2).1
        exact .inr (Except.ok.inj h').symm
      · exact .inl (Except.ok.inj h).symm
      · cases hkeys
    rcases hnil with rfl | rfl
    · simp
    · simp
  · intro table rows h
    obtain rfl := Except.ok.inj h
    exact List.Nodup.of_map Row.id sampleRows_nodup
  · intro table info rows _ h
    exact ⟨rows, h, .refl _⟩

theorem execute_pushLimits_sample :
    (PhysicalPlanRunner.ofSource sampleSource).execute (pushLimits sampleContext
        (.limit (.project (.indexScan "items" "idx_id" .all none none false) []) 2 1)) =
      .ok (.ofTable "items" 0 [.newWithVersion 2 1 [], .newWithVersion 3 1 []]) := by
  have hlimit : 2 ≤ maxUsize := by decide
  have hsource : Indexed sampleContext (PhysicalPlanRunner.ofSource sampleSource).dataSource :=
    sampleSource_indexed
  have hiff := (execute_pushLimits_iff hsource hlimit 1).1
    (.project (.indexScan "items" "idx_id" .all none none false) []) _ rfl rfl
  exact hiff.mpr (.inl rfl)

/-- A limit of two yields three rows. -/
theorem pushedLimit_exceeds :
    ¬ ∀ relation, (PhysicalPlanRunner.ofSource sampleSource).execute
        (.indexScan "items" "idx_id" .all none none false) = .ok relation →
      (PhysicalPlanRunner.ofSource sampleSource).execute (pushLimits sampleContext
        (.limit (.indexScan "items" "idx_id" .all none none false) 2 1)) =
          .ok (relation.window 2 1) := by
  intro h
  have hlength := congrArg (fun result => result.toOption.map fun r => r.entries.length)
    (h _ rfl)
  exact absurd hlength (by decide)

end Sources

end Cynos.Query
