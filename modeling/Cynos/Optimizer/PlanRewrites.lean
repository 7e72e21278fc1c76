import Cynos.Query.CrossProducts

/-! Rewrites of logical plans that keep the rows, the columns and what later rewrites rely
on. Most nodes are carried over to their rewritten inputs. -/
namespace Cynos.Query

open Core Join

namespace LogicalPlan

/-- The tables and widths of a result, from the column counts of the tables. -/
def context (columnCount : TableName → Nat) : LogicalPlan → EvalContext
  | .scan table | .indexScan table _ _ | .indexGet table _ _ | .indexInGet table _ _
  | .ginIndexScan table _ _ _ _ _ _ _ | .ginIndexScanMulti table _ _ _ _ _ =>
    ⟨[table], [columnCount table]⟩
  | .filter input _ | .sort input _ | .limit input _ _ => context columnCount input
  | .project input columns => ⟨(context columnCount input).tables, [columns.length]⟩
  | .join left right _ _ outputTables =>
    (JoinOutputLayout.fromSources (context columnCount left) (context columnCount right)
      outputTables).context
  | .aggregate input groupBy aggregates =>
    let ctx := context columnCount input
    let groupByIndices := groupBy.filterMap fun
      | .column col => some (ctx.resolveColumnIndex col.table col.index)
      | _ => none
    ⟨ctx.tables, [groupByIndices.length + aggregates.length]⟩
  | .crossProduct left right =>
    (JoinOutputLayout.fromSources (context columnCount left) (context columnCount right)
      ((context columnCount left).tables ++ (context columnCount right).tables)).context
  | .union left _ _ => context columnCount left
  | .empty => ⟨[], []⟩

/-- A filter over the plan has no join or cross product to be moved into. -/
def joinFree : LogicalPlan → Bool
  | .filter input _ | .sort input _ => joinFree input
  | .join _ _ _ _ _ | .crossProduct _ _ => false
  | _ => true

/-- The node over rewritten inputs. -/
def mapInputs (f : LogicalPlan → LogicalPlan) : LogicalPlan → LogicalPlan
  | .filter input predicate => .filter (f input) predicate
  | .project input columns => .project (f input) columns
  | .join left right condition joinType outputTables =>
    .join (f left) (f right) condition joinType outputTables
  | .aggregate input groupBy aggregates => .aggregate (f input) groupBy aggregates
  | .sort input orderBy => .sort (f input) orderBy
  | .limit input rows offset => .limit (f input) rows offset
  | .crossProduct left right => .crossProduct (f left) (f right)
  | .union left right all => .union (f left) (f right) all
  | plan => plan

theorem inputs_mapInputs (f : LogicalPlan → LogicalPlan) (plan : LogicalPlan) :
    (plan.mapInputs f).inputs = plan.inputs.map f := by
  cases plan <;> rfl

/-- The inputs of a plan over different tables are over different tables. -/
theorem nodup_of_mem_inputs {plan input : LogicalPlan} (hnodup : plan.collectTables.Nodup)
    (hinput : input ∈ plan.inputs) : input.collectTables.Nodup := by
  have hsub : input.collectTables.Sublist plan.collectTables := by
    cases plan with
    | filter | project | aggregate | sort | limit =>
      obtain rfl := List.mem_singleton.mp hinput
      exact .refl _
    | join left right | crossProduct left right | union left right =>
      rcases List.mem_cons.mp hinput with rfl | hinput
      · exact List.sublist_append_left _ _
      · obtain rfl := List.mem_singleton.mp hinput
        exact List.sublist_append_right _ _
    | _ => cases hinput
  exact hnodup.sublist hsub

end LogicalPlan

namespace PhysicalPlanRunner

variable (runner : PhysicalPlanRunner) (format : Value Scalar → String)

/-- The columns of a table that exists. -/
def columnCount (table : TableName) : Nat :=
  match runner.dataSource.getColumnCount table with
  | .ok count => count
  | .error _ => 0

/-- A filter that may be moved into a join reads columns of its input, the output tables of a
join are different tables of its sides, and a sort compares the rows it gets transitively. -/
def WellFormed : LogicalPlan → Prop
  | .filter input predicate => input.joinFree = true ∨
      ∀ col ∈ exprColumns predicate, (input.context runner.columnCount).HasColumn col
  | .join left right _ _ outputTables => outputTables.Nodup ∧
      ∀ table ∈ outputTables, table ∈ left.collectTables ++ right.collectTables
  | .sort input orderBy => ∀ relation, runner.evaluateLogical format input = .ok relation →
      OrdersRows (compareEntries (orderByIndices relation.context orderBy)) relation.entries
  | _ => True

variable {runner format}

theorem columnCount_eq {table : TableName} {count : Nat}
    (h : runner.dataSource.getColumnCount table = .ok count) : runner.columnCount table = count := by
  unfold columnCount
  rw [h]

theorem context_of_table {relation : Relation} {table : TableName}
    {rows : ExecutionResult (List Entry)}
    (h : (do
      let rows ← rows
      let columnCount ← runner.dataSource.getColumnCount table
      return Relation.ofTable table columnCount rows) = .ok relation) :
    relation.context = ⟨[table], [runner.columnCount table]⟩ := by
  obtain ⟨rows, -, h⟩ := ok_of_bind h
  obtain ⟨count, hcount, h⟩ := ok_of_bind h
  obtain rfl := Except.ok.inj h
  rw [columnCount_eq hcount]
  rfl

/-- The result of a plan has the tables and widths that the plan says. -/
theorem context_of_evaluate {plan : LogicalPlan} {relation : Relation}
    (h : runner.evaluateLogical format plan = .ok relation) :
    relation.context = plan.context runner.columnCount := by
  induction plan generalizing relation with
  | scan table =>
    obtain ⟨count, hcount, h⟩ := ok_of_bind h
    obtain ⟨rows, -, h⟩ := ok_of_bind h
    obtain rfl := Except.ok.inj h
    rw [LogicalPlan.context, columnCount_eq hcount]
    rfl
  | indexScan | indexGet | indexInGet | ginIndexScan | ginIndexScanMulti => exact context_of_table h
  | filter input predicate ih =>
    obtain ⟨r, hr, h⟩ := ok_of_bind h
    obtain rfl := Except.ok.inj h
    have hcontext := ih hr
    exact hcontext
  | sort input orderBy ih =>
    obtain ⟨r, hr, h⟩ := ok_of_bind h
    obtain rfl := Except.ok.inj h
    have hcontext := ih hr
    exact hcontext
  | limit input limit offset ih =>
    obtain ⟨r, hr, h⟩ := ok_of_bind h
    have hcontext := ih hr
    unfold executeLimit at h
    split at h
    · obtain rfl := Except.ok.inj h
      exact hcontext
    · cases h
  | project input columns ih =>
    obtain ⟨r, hr, h⟩ := ok_of_bind h
    obtain rfl := Except.ok.inj h
    rw [LogicalPlan.context, ← ih hr]
    rfl
  | aggregate input groupBy aggregates ih =>
    obtain ⟨r, hr, h⟩ := ok_of_bind h
    obtain rfl := Except.ok.inj h
    rw [LogicalPlan.context, ← ih hr]
    exact congrArg (fun width => EvalContext.mk r.tables [_ + width]) (List.length_map _)
  | join left right condition joinType outputTables ihLeft ihRight =>
    obtain ⟨l, hl, h⟩ := ok_of_bind h
    obtain ⟨r, hr, h⟩ := ok_of_bind h
    obtain rfl := Except.ok.inj h
    rw [LogicalPlan.context, ← ihLeft hl, ← ihRight hr]
    rfl
  | crossProduct left right ihLeft ihRight =>
    obtain ⟨l, hl, h⟩ := ok_of_bind h
    obtain ⟨r, hr, h⟩ := ok_of_bind h
    obtain rfl := Except.ok.inj h
    rw [LogicalPlan.context, ← ihLeft hl, ← ihRight hr]
    rfl
  | union left right all ihLeft ihRight =>
    obtain ⟨l, hl, h⟩ := ok_of_bind h
    obtain ⟨r, hr, h⟩ := ok_of_bind h
    have hcontext := ihLeft hl
    unfold executeUnion at h
    split at h
    · cases h
    · split at h
      · obtain rfl := Except.ok.inj h
        exact hcontext
      · obtain rfl := Except.ok.inj h
        exact hcontext
  | empty =>
    obtain rfl := Except.ok.inj h
    rfl

variable (runner format)

/-- A plan in whose place another one can stand. -/
structure Alike (plan plan' : LogicalPlan) : Prop where
  rows : SameResult (runner.evaluateLogical format plan) (runner.evaluateLogical format plan')
  context : plan.context runner.columnCount = plan'.context runner.columnCount
  tables : plan.collectTables = plan'.collectTables
  joinFree : plan.joinFree = plan'.joinFree

/-- A rewrite whose result other passes can go on with. -/
structure Rewrites (plan plan' : LogicalPlan) : Prop extends runner.Alike format plan plan' where
  wellFormed : plan'.All (runner.WellFormed format)

variable {runner format}

namespace Alike

variable {plan plan' plan'' : LogicalPlan}

theorem refl (plan : LogicalPlan) : runner.Alike format plan plan :=
  ⟨.refl _, rfl, rfl, rfl⟩

theorem symm (h : runner.Alike format plan plan') : runner.Alike format plan' plan :=
  ⟨h.rows.symm, h.context.symm, h.tables.symm, h.joinFree.symm⟩

theorem trans (h : runner.Alike format plan plan') (h' : runner.Alike format plan' plan'') :
    runner.Alike format plan plan'' :=
  ⟨h.rows.trans h'.rows, h.context.trans h'.context, h.tables.trans h'.tables,
    h.joinFree.trans h'.joinFree⟩

theorem crossProduct {left left' right right' : LogicalPlan}
    (hleft : runner.Alike format left left') (hright : runner.Alike format right right') :
    runner.Alike format (.crossProduct left right) (.crossProduct left' right') := by
  refine ⟨?_, ?_, congrArg₂ _ hleft.tables hright.tables, rfl⟩
  · exact hleft.rows.bind fun l l' hl => hright.rows.bind fun r r' hr =>
      same_executeCrossProduct hl hr
  · rw [LogicalPlan.context, LogicalPlan.context, hleft.context, hright.context]

theorem join {left left' right right' : LogicalPlan} (hleft : runner.Alike format left left')
    (hright : runner.Alike format right right') (condition : Expr) (joinType : JoinType)
    (outputTables : List TableName) :
    runner.Alike format (.join left right condition joinType outputTables)
      (.join left' right' condition joinType outputTables) := by
  refine ⟨?_, ?_, congrArg₂ _ hleft.tables hright.tables, rfl⟩
  · exact hleft.rows.bind fun l l' hl => hright.rows.bind fun r r' hr =>
      same_executeNestedLoopJoin hl hr condition joinType outputTables
  · rw [LogicalPlan.context, LogicalPlan.context, hleft.context, hright.context]

/-- Every operator yields the same rows of inputs that yield the same rows. -/
theorem mapInputs (hagg : runner.AggregatesValues) {f : LogicalPlan → LogicalPlan}
    (h : ∀ input ∈ plan.inputs, runner.Alike format input (f input)) :
    runner.Alike format plan (plan.mapInputs f) := by
  cases plan with
  | filter input predicate =>
    have hinput := h input List.mem_cons_self
    refine ⟨?_, hinput.context, hinput.tables, hinput.joinFree⟩
    exact hinput.rows.bind fun r r' hr => same_satisfying hr predicate
  | project input columns =>
    have hinput := h input List.mem_cons_self
    refine ⟨?_, ?_, hinput.tables, rfl⟩
    · exact hinput.rows.bind fun r r' hr => same_executeProject hr columns
    · rw [LogicalPlan.mapInputs, LogicalPlan.context, LogicalPlan.context, hinput.context]
  | aggregate input groupBy aggregates =>
    have hinput := h input List.mem_cons_self
    refine ⟨?_, ?_, hinput.tables, rfl⟩
    · exact hinput.rows.bind fun r r' hr => same_executeHashAggregate hagg hr groupBy aggregates
    · rw [LogicalPlan.mapInputs, LogicalPlan.context, LogicalPlan.context, hinput.context]
  | sort input orderBy =>
    have hinput := h input List.mem_cons_self
    refine ⟨?_, hinput.context, hinput.tables, hinput.joinFree⟩
    exact hinput.rows.bind fun r r' hr => same_executeSort hr orderBy
  | limit input limit offset =>
    have hinput := h input List.mem_cons_self
    refine ⟨?_, hinput.context, hinput.tables, rfl⟩
    exact hinput.rows.bind fun r r' hr => same_executeLimit hr limit offset
  | join left right condition joinType outputTables =>
    exact join (h left List.mem_cons_self) (h right (List.mem_cons_of_mem _ List.mem_cons_self))
      condition joinType outputTables
  | crossProduct left right =>
    exact crossProduct (h left List.mem_cons_self)
      (h right (List.mem_cons_of_mem _ List.mem_cons_self))
  | union left right all =>
    have hleft := h left List.mem_cons_self
    have hright := h right (List.mem_cons_of_mem _ List.mem_cons_self)
    refine ⟨?_, hleft.context, congrArg₂ _ hleft.tables hright.tables, rfl⟩
    exact hleft.rows.bind fun l l' hl => hright.rows.bind fun r r' hr =>
      same_executeUnion hl hr all
  | _ => exact .refl _

end Alike

theorem OrdersRows.of_same {cmp : Entry → Entry → Ordering} {rows rows' : List Entry}
    (h : OrdersRows cmp rows) (hrows : List.Forall₂ SameValues rows rows')
    (hcmp : ∀ a a' b b', SameValues a a' → SameValues b b' → cmp a b = cmp a' b') :
    OrdersRows cmp rows' := by
  have hmem : ∀ b ∈ rows', ∃ a ∈ rows, SameValues a b := by
    intro b hb
    have hvalues := List.mem_map_of_mem (f := Row.values) hb
    rw [← forall₂_sameValues.mp hrows] at hvalues
    exact List.mem_map.mp hvalues
  intro a' ha' b' hb' c' hc'
  obtain ⟨a, ha, haa'⟩ := hmem a' ha'
  obtain ⟨b, hb, hbb'⟩ := hmem b' hb'
  obtain ⟨c, hc, hcc'⟩ := hmem c' hc'
  rw [← hcmp _ _ _ _ haa' hbb', ← hcmp _ _ _ _ hbb' hcc', ← hcmp _ _ _ _ haa' hcc']
  exact h a ha b hb c hc

theorem wellFormed_filter_iff {input : LogicalPlan} {predicate : Expr} :
    runner.WellFormed format (.filter input predicate) ↔ input.joinFree = true ∨
      ∀ col ∈ exprColumns predicate, (input.context runner.columnCount).HasColumn col :=
  Iff.rfl

theorem wellFormed_join_iff {left right : LogicalPlan} {condition : Expr} {joinType : JoinType}
    {outputTables : List TableName} :
    runner.WellFormed format (.join left right condition joinType outputTables) ↔
      outputTables.Nodup ∧
        ∀ table ∈ outputTables, table ∈ left.collectTables ++ right.collectTables :=
  Iff.rfl

/-- A node stays well-formed over rewritten inputs. -/
theorem WellFormed.mapInputs {plan : LogicalPlan} {f : LogicalPlan → LogicalPlan}
    (hplan : runner.WellFormed format plan)
    (h : ∀ input ∈ plan.inputs, runner.Alike format input (f input)) :
    runner.WellFormed format (plan.mapInputs f) := by
  cases plan with
  | filter input predicate =>
    have hinput := h input List.mem_cons_self
    rw [wellFormed_filter_iff, hinput.joinFree, hinput.context] at hplan
    exact hplan
  | join left right condition joinType outputTables =>
    have hleft := h left List.mem_cons_self
    have hright := h right (List.mem_cons_of_mem _ List.mem_cons_self)
    rw [wellFormed_join_iff, hleft.tables, hright.tables] at hplan
    exact hplan
  | sort input orderBy =>
    have hinput := (h input List.mem_cons_self).rows
    intro relation hrelation
    rw [hrelation] at hinput
    cases hrun : runner.evaluateLogical format input with
    | error e =>
      rw [hrun] at hinput
      exact False.elim hinput
    | ok original =>
      rw [hrun] at hinput
      rw [← hinput.context]
      exact (hplan original hrun).of_same hinput.entries fun a a' b b' ha hb =>
        compareEntries_congr _ ha hb
  | _ => exact trivial

namespace Rewrites

variable {plan plan' plan'' : LogicalPlan}

theorem trans (h : runner.Rewrites format plan plan') (h' : runner.Rewrites format plan' plan'') :
    runner.Rewrites format plan plan'' :=
  ⟨h.toAlike.trans h'.toAlike, h'.wellFormed⟩

theorem mapInputs (hagg : runner.AggregatesValues) {f : LogicalPlan → LogicalPlan}
    (hplan : plan.All (runner.WellFormed format))
    (h : ∀ input ∈ plan.inputs, runner.Rewrites format input (f input)) :
    runner.Rewrites format plan (plan.mapInputs f) := by
  have halike := fun input hinput => (h input hinput).toAlike
  refine ⟨Alike.mapInputs hagg halike, .intro (hplan.here.mapInputs halike) ?_⟩
  intro input hinput
  rw [LogicalPlan.inputs_mapInputs] at hinput
  obtain ⟨input, hmem, rfl⟩ := List.mem_map.mp hinput
  exact (h input hmem).wellFormed

end Rewrites

end PhysicalPlanRunner

section Shown

variable {left right : EvalContext}

theorem mem_freeSegments {offset : Nat} {tables : List TableName} {counts : List Nat}
    {used : List Bool} {table : TableName}
    (h : table ∈ (freeSegments offset tables counts used).map Prod.fst) : table ∈ tables := by
  induction tables generalizing offset counts used with
  | nil => cases h
  | cons first tables ih =>
    rw [freeSegments] at h
    split at h
    · exact List.mem_cons_of_mem _ (ih h)
    · rw [List.map_cons] at h
      rcases List.mem_cons.mp h with rfl | h
      · exact List.mem_cons_self
      · exact List.mem_cons_of_mem _ (ih h)

theorem takeSegment_eq_none {offset : Nat} {tables : List TableName} {counts : List Nat}
    {used : List Bool} {table : TableName} (h : table ∉ tables) :
    takeSegment table offset tables counts used = none := by
  cases htake : takeSegment table offset tables counts used with
  | none => rfl
  | some taken =>
    obtain ⟨start, width, used'⟩ := taken
    obtain ⟨before, after, hfree, -, -⟩ := takeSegment_some htake
    refine absurd (@mem_freeSegments offset _ counts used _ ?_) h
    rw [hfree]
    simp

/-- Output tables that no side has are left out. -/
theorem layoutSegments_filter (outputTables : List TableName) (leftUsed rightUsed : List Bool) :
    layoutSegments left right (outputTables.filter fun table =>
        decide (table ∈ left.tables ++ right.tables)) leftUsed rightUsed =
      layoutSegments left right outputTables leftUsed rightUsed := by
  induction outputTables generalizing leftUsed rightUsed with
  | nil => rfl
  | cons table outputTables ih =>
    by_cases hmem : table ∈ left.tables ++ right.tables
    · rw [List.filter_cons_of_pos (by simpa using hmem), layoutSegments, layoutSegments]
      simp only [ih]
    · rw [List.filter_cons_of_neg (by simpa using hmem), ih, layoutSegments]
      rw [List.mem_append, not_or] at hmem
      rw [takeSegment_eq_none hmem.1]
      dsimp only
      rw [takeSegment_eq_none hmem.2]

theorem fromSources_of_filter {outputTables shown : List TableName}
    (h : (outputTables.filter fun table => decide (table ∈ left.tables ++ right.tables)) = shown) :
    JoinOutputLayout.fromSources left right outputTables = .fromSources left right shown := by
  have hsegments := @layoutSegments_filter left right outputTables
    (left.tables.map fun _ => false) (right.tables.map fun _ => false)
  rw [h] at hsegments
  exact congrArg (fun segments : List (TableName × JoinOutputSegment) =>
    (⟨segments.map Prod.fst, segments.map fun s => s.2.width, segments.map Prod.snd⟩ :
      JoinOutputLayout)) hsegments.symm

/-- Of different output tables, those that a side still has are shown. -/
theorem map_fst_layoutSegments {outputTables : List TableName} (hnodup : outputTables.Nodup)
    (leftUsed rightUsed : List Bool) :
    (layoutSegments left right outputTables leftUsed rightUsed).map Prod.fst =
      outputTables.filter fun table => decide
        (table ∈ (freeSegments 0 left.tables left.tableColumnCounts leftUsed).map Prod.fst ++
          (freeSegments 0 right.tables right.tableColumnCounts rightUsed).map Prod.fst) := by
  have htaken : ∀ {segments before after : List (TableName × Nat × Nat)} {table other : TableName}
      {start width : Nat}, segments = before ++ (table, start, width) :: after → other ≠ table →
      (other ∈ (before ++ after).map Prod.fst ↔ other ∈ segments.map Prod.fst) := by
    intro segments before after table other start width hsegments hne
    rw [hsegments]
    simp [hne]
  induction outputTables generalizing leftUsed rightUsed with
  | nil => rfl
  | cons table outputTables ih =>
    obtain ⟨htable, hnodup⟩ := List.nodup_cons.mp hnodup
    have hne : ∀ other ∈ outputTables, other ≠ table := by
      rintro other hother rfl
      exact htable hother
    rw [layoutSegments]
    split
    next offset width leftUsed' htake =>
      obtain ⟨before, after, hfree, -, hrest⟩ := takeSegment_some htake
      rw [List.filter_cons_of_pos (by rw [hfree]; simp), List.map_cons, ih hnodup, hrest]
      congr 1
      apply List.filter_congr
      intro other hother
      apply decide_eq_decide.mpr
      rw [List.mem_append, List.mem_append, htaken hfree (hne other hother)]
    next hleft =>
      split
      next offset width rightUsed' htake =>
        obtain ⟨before, after, hfree, -, hrest⟩ := takeSegment_some htake
        rw [List.filter_cons_of_pos (by rw [hfree]; simp), List.map_cons, ih hnodup, hrest]
        congr 1
        apply List.filter_congr
        intro other hother
        apply decide_eq_decide.mpr
        rw [List.mem_append, List.mem_append, htaken hfree (hne other hother)]
      next hright =>
        rw [List.filter_cons_of_neg, ih hnodup]
        rw [decide_eq_true_iff, List.mem_append, not_or]
        constructor
        · intro hmem
          obtain ⟨segment, hsegment, rfl⟩ := List.mem_map.mp hmem
          exact takeSegment_none hleft segment hsegment rfl
        · intro hmem
          obtain ⟨segment, hsegment, rfl⟩ := List.mem_map.mp hmem
          exact takeSegment_none hright segment hsegment rfl

theorem tables_fromSources {outputTables : List TableName} (hnodup : outputTables.Nodup) :
    (JoinOutputLayout.fromSources left right outputTables).context.tables =
      outputTables.filter fun table => decide (table ∈ left.tables ++ right.tables) := by
  have htables := @map_fst_layoutSegments left right _ hnodup
    (left.tables.map fun _ => false) (right.tables.map fun _ => false)
  rw [map_fst_freeSegments, map_fst_freeSegments] at htables
  exact htables

/-- How the tables that a plan reads, names as its output and shows go together. -/
structure Shows (columnCount : TableName → Nat) (plan : LogicalPlan) : Prop where
  context_subset : ∀ table ∈ (plan.context columnCount).tables, table ∈ plan.collectTables
  output_subset : ∀ table ∈ plan.outputTables, table ∈ plan.collectTables
  output_nodup : plan.outputTables.Nodup
  shown : (plan.outputTables.filter fun table =>
    decide (table ∈ (plan.context columnCount).tables)) = (plan.context columnCount).tables

theorem filter_mem_append {outputs other tables tables' : List TableName}
    (hdisjoint : ∀ table ∈ outputs, table ∉ other) (htables : ∀ table ∈ tables', table ∈ other) :
    (outputs.filter fun table => decide (table ∈ tables ++ tables')) =
      outputs.filter fun table => decide (table ∈ tables) := by
  apply List.filter_congr
  intro table htable
  apply decide_eq_decide.mpr
  rw [List.mem_append]
  exact or_iff_left fun hmem => hdisjoint table htable (htables table hmem)

/-- The outputs of two sides that share no table. -/
theorem Shows.filter_append {columnCount : TableName → Nat} {left right : LogicalPlan}
    (hleft : Shows columnCount left) (hright : Shows columnCount right)
    (hdisjoint : ∀ table ∈ left.collectTables, table ∉ right.collectTables) :
    ((left.outputTables ++ right.outputTables).filter fun table =>
        decide (table ∈ (left.context columnCount).tables ++ (right.context columnCount).tables)) =
      (left.context columnCount).tables ++ (right.context columnCount).tables := by
  have hflip : (right.outputTables.filter fun table =>
      decide (table ∈ (left.context columnCount).tables ++ (right.context columnCount).tables)) =
        right.outputTables.filter fun table =>
          decide (table ∈ (right.context columnCount).tables) := by
    apply List.filter_congr
    intro table htable
    apply decide_eq_decide.mpr
    rw [List.mem_append]
    exact or_iff_right fun hmem =>
      hdisjoint table (hleft.context_subset table hmem) (hright.output_subset table htable)
  rw [List.filter_append, hflip, hright.shown, filter_mem_append
    (fun table htable => hdisjoint table (hleft.output_subset table htable)) hright.context_subset,
    hleft.shown]

variable {runner : PhysicalPlanRunner} {format : Value Scalar → String}

theorem shows_of_wellFormed {plan : LogicalPlan} (hplan : plan.All (runner.WellFormed format))
    (hnodup : plan.collectTables.Nodup) : Shows runner.columnCount plan := by
  induction hplan with
  | @intro plan here inputs ih =>
    cases plan with
    | filter input | project input | aggregate input | sort input | limit input =>
      have hinput := ih input List.mem_cons_self hnodup
      exact ⟨hinput.context_subset, hinput.output_subset, hinput.output_nodup, hinput.shown⟩
    | join left right condition joinType outputTables =>
      obtain ⟨hout, hsides⟩ := here
      have htables := @tables_fromSources (left.context runner.columnCount)
        (right.context runner.columnCount) _ hout
      refine ⟨fun table htable => ?_, hsides, hout, ?_⟩
      · rw [LogicalPlan.context, htables] at htable
        exact hsides table (List.mem_of_mem_filter htable)
      · rw [LogicalPlan.context, htables]
        apply List.filter_congr
        intro table htable
        apply decide_eq_decide.mpr
        rw [List.mem_filter, decide_eq_true_iff]
        exact and_iff_right htable
    | crossProduct left right =>
      have hleft := ih left List.mem_cons_self (List.Nodup.of_append_left hnodup)
      have hright := ih right (List.mem_cons_of_mem _ List.mem_cons_self)
        (List.Nodup.of_append_right hnodup)
      have hdisjoint : ∀ table ∈ left.collectTables, table ∉ right.collectTables :=
        fun table hl hr => List.disjoint_of_nodup_append hnodup hl hr
      have htables := CrossProduct.tables_crossContext (left.context runner.columnCount)
        (right.context runner.columnCount)
      have houtput : ∀ table ∈ left.outputTables, table ∉ right.outputTables :=
        fun table hl hr => hdisjoint table (hleft.output_subset table hl)
          (hright.output_subset table hr)
      refine ⟨fun table htable => ?_, fun table htable => ?_, ?_, ?_⟩
      · rw [LogicalPlan.context, htables] at htable
        rw [LogicalPlan.collectTables]
        exact List.mem_append.mpr ((List.mem_append.mp htable).imp (hleft.context_subset table)
          (hright.context_subset table))
      · rw [LogicalPlan.collectTables]
        exact List.mem_append.mpr ((List.mem_append.mp htable).imp (hleft.output_subset table)
          (hright.output_subset table))
      · exact List.nodup_append.mpr ⟨hleft.output_nodup, hright.output_nodup,
          fun table hl table' hr heq => houtput table hl (heq ▸ hr)⟩
      · rw [LogicalPlan.context, htables]
        exact hleft.filter_append hright hdisjoint
    | union left right all =>
      have hleft := ih left List.mem_cons_self (List.Nodup.of_append_left hnodup)
      have hright := ih right (List.mem_cons_of_mem _ List.mem_cons_self)
        (List.Nodup.of_append_right hnodup)
      have hdisjoint : ∀ table ∈ left.collectTables, table ∉ right.collectTables :=
        fun table hl hr => List.disjoint_of_nodup_append hnodup hl hr
      refine ⟨fun table htable => ?_, fun table htable => ?_, ?_, ?_⟩
      · exact List.mem_append_left _ (hleft.context_subset table htable)
      · rw [LogicalPlan.collectTables]
        exact List.mem_append.mpr ((List.mem_append.mp htable).imp (hleft.output_subset table)
          (hright.output_subset table))
      · exact List.nodup_append.mpr ⟨hleft.output_nodup, hright.output_nodup,
          fun table hl table' hr heq => hdisjoint table (hleft.output_subset table hl)
            (hright.output_subset table (heq ▸ hr))⟩
      · rw [LogicalPlan.outputTables, List.filter_append]
        refine (congrArg₂ (· ++ ·) hleft.shown (List.filter_eq_nil_iff.mpr ?_)).trans
          (List.append_nil _)
        intro table htable hshown
        exact hdisjoint table (hleft.context_subset table (of_decide_eq_true hshown))
          (hright.output_subset table htable)
    | empty => exact ⟨nofun, nofun, .nil, rfl⟩
    | scan table | indexScan table | indexGet table | indexInGet table | ginIndexScan table
    | ginIndexScanMulti table =>
      refine ⟨fun _ => id, fun _ => id, List.nodup_singleton table, ?_⟩
      exact List.filter_eq_self.mpr fun table htable => decide_eq_true htable

end Shown

end Cynos.Query
