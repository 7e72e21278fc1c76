import Cynos.Optimizer.FilterRewrites

/-! Filters move towards the rows they are about: below a sort, into the side of a join that has
their columns, and together into one filter. -/
namespace Cynos.Query

open Core Join

namespace PredicatePushdown

def splitConjuncts : Expr → List Expr := AndPredicatePass.breakAndPredicate

/-- None where there is nothing to combine. -/
def combinePredicates : List Expr → Option Expr
  | [] => none
  | first :: rest => some (rest.foldl (fun left right => .binaryOp left .and right) first)

/-- The side of a join that takes a predicate, by whether it has columns of the left and of the
right side. -/
def sideOf (joinType : JoinType) (refsLeft refsRight : Bool) : Option JoinInputSide :=
  match joinType with
  | .inner =>
    if refsLeft && !refsRight then some .left
    else if refsRight && !refsLeft then some .right
    else none
  | .leftOuter => if refsLeft && !refsRight then some .left else none
  | .rightOuter => if refsRight && !refsLeft then some .right else none
  | .fullOuter | .cross => none

def refersTo (predicate : Expr) (plan : LogicalPlan) : Bool :=
  ((exprColumns predicate).map ColumnRef.table).any fun table => decide (table ∈ plan.collectTables)

def pushSide (joinType : JoinType) (left right : LogicalPlan) (predicate : Expr) :
    Option JoinInputSide :=
  sideOf joinType (refersTo predicate left) (refersTo predicate right)

/-- The plan, or the predicates pushed onto it where there are some. -/
def withPredicates (push : Expr → LogicalPlan) (plan : LogicalPlan) (predicates : List Expr) :
    LogicalPlan :=
  match combinePredicates predicates with
  | none => plan
  | some predicate => push predicate

/-- `pushLeft` and `pushRight` push a filter onto a side of the join. -/
def pushFilterIntoJoin (pushLeft pushRight : Expr → LogicalPlan) (left right : LogicalPlan)
    (condition : Expr) (joinType : JoinType) (outputTables : List TableName) (predicate : Expr) :
    LogicalPlan :=
  let conjuncts := splitConjuncts predicate
  let side := pushSide joinType left right
  let leftPredicates := conjuncts.filter fun term => side term = some .left
  let rightPredicates := conjuncts.filter fun term => side term = some .right
  let remainingPredicates := conjuncts.filter fun term => side term = none
  let left := withPredicates pushLeft left leftPredicates
  let right := withPredicates pushRight right rightPredicates
  let join := LogicalPlan.join left right condition joinType outputTables
  withPredicates (.filter join) join remainingPredicates

def tryPushFilter : LogicalPlan → Expr → LogicalPlan
  | .join left right condition joinType outputTables, predicate =>
    pushFilterIntoJoin (tryPushFilter left) (tryPushFilter right) left right condition joinType
      outputTables predicate
  | .sort input orderBy, predicate => .sort (tryPushFilter input predicate) orderBy
  | .filter input inner, predicate => .filter input (.binaryOp inner .and predicate)
  | input, predicate => .filter input predicate

def pushdown : LogicalPlan → LogicalPlan
  | .filter input predicate => tryPushFilter (pushdown input) predicate
  | .project input columns => .project (pushdown input) columns
  | .join left right condition joinType outputTables =>
    .join (pushdown left) (pushdown right) condition joinType outputTables
  | .aggregate input groupBy aggregates => .aggregate (pushdown input) groupBy aggregates
  | .sort input orderBy => .sort (pushdown input) orderBy
  | .limit input limit offset => .limit (pushdown input) limit offset
  | .crossProduct left right => .crossProduct (pushdown left) (pushdown right)
  | .union left right all => .union (pushdown left) (pushdown right) all
  | plan => plan

section Conjuncts

variable {runner : PhysicalPlanRunner} {format : Value Scalar → String}

theorem satisfies_combine {predicates : List Expr} {predicate : Expr}
    (h : combinePredicates predicates = some predicate) (ctx : Option EvalContext)
    (entry : Entry) :
    runner.satisfies ctx predicate entry =
      predicates.all fun term => runner.satisfies ctx term entry := by
  cases predicates with
  | nil => cases h
  | cons first rest =>
    obtain rfl := Option.some.inj h
    rw [List.all_cons]
    clear h
    induction rest generalizing first with
    | nil => rw [List.foldl_nil, List.all_nil, Bool.and_true]
    | cons second rest ih =>
      have hand : runner.satisfies ctx (.binaryOp first .and second) entry =
          (runner.satisfies ctx first entry && runner.satisfies ctx second entry) :=
        evalPredicate_and first second
      rw [List.foldl_cons, ih, hand, List.all_cons, Bool.and_assoc]

theorem exprColumns_of_combine {predicates : List Expr} {predicate : Expr}
    (h : combinePredicates predicates = some predicate) {col : ColumnRef}
    (hcol : col ∈ exprColumns predicate) : ∃ term ∈ predicates, col ∈ exprColumns term := by
  cases predicates with
  | nil => cases h
  | cons first rest =>
    obtain rfl := Option.some.inj h
    clear h
    induction rest generalizing first with
    | nil => exact ⟨first, List.mem_cons_self, hcol⟩
    | cons second rest ih =>
      obtain ⟨term, hterm, hcol⟩ := ih _ hcol
      rcases List.mem_cons.mp hterm with rfl | hterm
      · rcases List.mem_append.mp hcol with hcol | hcol
        · exact ⟨first, List.mem_cons_self, hcol⟩
        · exact ⟨second, List.mem_cons_of_mem _ List.mem_cons_self, hcol⟩
      · exact ⟨term, List.mem_cons_of_mem _ (List.mem_cons_of_mem _ hterm), hcol⟩

theorem alike_combine {predicates : List Expr} {predicate : Expr}
    (h : combinePredicates predicates = some predicate) (input : LogicalPlan) :
    runner.Alike format (AndPredicatePass.createFilterChain input predicates)
      (.filter input predicate) := by
  have hall : ∀ (ctx : Option EvalContext) entry,
      (predicates.all fun term => runner.satisfies ctx term entry) =
        [predicate].all fun term => runner.satisfies ctx term entry := by
    intro ctx entry
    rw [List.all_cons, List.all_nil, Bool.and_true, satisfies_combine h]
  exact AndPredicatePass.alike_chain_of_all (.refl input) hall

/-- Predicates that are pushed onto a plan filter its rows. -/
theorem rewrites_withPredicates {push : Expr → LogicalPlan} {plan : LogicalPlan}
    {predicates : List Expr} (hplan : plan.All (runner.WellFormed format))
    (hpredicates : ∀ term ∈ predicates, runner.WellFormed format (.filter plan term))
    (hpush : ∀ predicate, (LogicalPlan.filter plan predicate).All (runner.WellFormed format) →
      runner.Rewrites format (.filter plan predicate) (push predicate)) :
    runner.Rewrites format (AndPredicatePass.createFilterChain plan predicates)
      (withPredicates push plan predicates) := by
  unfold withPredicates
  cases hcombine : combinePredicates predicates with
  | none =>
    cases predicates with
    | nil => exact ⟨.refl plan, hplan⟩
    | cons => cases hcombine
  | some predicate =>
    have hhere : runner.WellFormed format (.filter plan predicate) := by
      by_cases hfree : plan.joinFree = true
      · exact .inl hfree
      · right
        intro col hcol
        obtain ⟨term, hterm, hcol⟩ := exprColumns_of_combine hcombine hcol
        exact (hpredicates term hterm).resolve_left hfree col hcol
    have hpushed := hpush predicate (.intro hhere fun input hinput => by
      rw [List.mem_singleton.mp hinput]
      exact hplan)
    exact ⟨(alike_combine hcombine plan).trans hpushed.toAlike, hpushed.wellFormed⟩

end Conjuncts

section Joins

variable {runner : PhysicalPlanRunner} {format : Value Scalar → String} {l r : Relation}
  {condition : Expr} {joinType : JoinType} {outputTables : List TableName} {terms : List Expr}

/-- A predicate on columns of the left side says of a joined row what it says of the left row. -/
theorem satisfies_left {term : Expr}
    (hcolumns : ∀ col ∈ exprColumns term, col.table ∈ l.tables ∧ col.table ∈ outputTables ∧
      (runner.executeNestedLoopJoin l r condition joinType outputTables).context.HasColumn col)
    (a : Entry) (b : Option Entry) :
    runner.satisfies
        (runner.executeNestedLoopJoin l r condition joinType outputTables).filterContext term
        ((JoinOutputLayout.fromSources l.context r.context outputTables).materializeRow
          (some a) b) =
      runner.satisfies l.filterContext term a := by
  have hsides : ∀ col ∈ exprColumns term, l.context.HasColumn col := by
    intro col hcol
    obtain ⟨htable, hout, hjoined⟩ := hcolumns col hcol
    exact hasColumn_left hjoined htable hout
  rw [PhysicalPlanRunner.satisfies_filterContext fun col hcol => (hcolumns col hcol).2.2,
    PhysicalPlanRunner.satisfies_filterContext hsides]
  apply evalPredicate_congr
  intro col hcol
  have hget := @getField_left l.context r.context outputTables col (hsides col hcol)
    (hcolumns col hcol).2.1 (some a) b
  have hvalue := congrArg (Option.getD · none) hget
  exact hvalue

/-- Likewise for columns of tables that only the right side has. -/
theorem satisfies_right {term : Expr}
    (hcolumns : ∀ col ∈ exprColumns term, col.table ∉ l.tables ∧ col.table ∈ r.tables ∧
      col.table ∈ outputTables ∧
      (runner.executeNestedLoopJoin l r condition joinType outputTables).context.HasColumn col)
    (a : Option Entry) (b : Entry) :
    runner.satisfies
        (runner.executeNestedLoopJoin l r condition joinType outputTables).filterContext term
        ((JoinOutputLayout.fromSources l.context r.context outputTables).materializeRow
          a (some b)) =
      runner.satisfies r.filterContext term b := by
  have hsides : ∀ col ∈ exprColumns term, r.context.HasColumn col := by
    intro col hcol
    obtain ⟨hleft, htable, hout, hjoined⟩ := hcolumns col hcol
    exact hasColumn_right hjoined hleft htable hout
  rw [PhysicalPlanRunner.satisfies_filterContext fun col hcol => (hcolumns col hcol).2.2.2,
    PhysicalPlanRunner.satisfies_filterContext hsides]
  apply evalPredicate_congr
  intro col hcol
  have hget := @getField_right l.context r.context outputTables col (hsides col hcol)
    (hcolumns col hcol).1 (hcolumns col hcol).2.2.1 a (some b)
  have hvalue := congrArg (Option.getD · none) hget
  exact hvalue

theorem satisfyingAll_nil (relation : Relation) : runner.satisfyingAll relation [] = relation := by
  unfold PhysicalPlanRunner.satisfyingAll Relation.filter
  simp

/-- Predicates on the left side of a join that keeps no unmatched right rows. -/
theorem satisfyingAll_join_left (hkeep : ∀ term ∈ terms, trackRightMatches joinType = false)
    (hcolumns : ∀ term ∈ terms, ∀ col ∈ exprColumns term,
      col.table ∈ l.tables ∧ col.table ∈ outputTables ∧
        (runner.executeNestedLoopJoin l r condition joinType outputTables).context.HasColumn col) :
    runner.satisfyingAll (runner.executeNestedLoopJoin l r condition joinType outputTables) terms =
      runner.executeNestedLoopJoin (runner.satisfyingAll l terms) r condition joinType
        outputTables := by
  have hall : ∀ (a : Entry) (b : Option Entry), (terms.all fun term => runner.satisfies
        (runner.executeNestedLoopJoin l r condition joinType outputTables).filterContext term
        ((JoinOutputLayout.fromSources l.context r.context outputTables).materializeRow
          (some a) b)) =
      terms.all fun term => runner.satisfies l.filterContext term a := by
    intro a b
    rw [Bool.eq_iff_iff, List.all_eq_true, List.all_eq_true]
    exact forall₂_congr fun term hterm =>
      iff_of_eq (congrArg (· = true) (satisfies_left (hcolumns term hterm) a b))
  by_cases hterms : terms = []
  · subst hterms
    rw [satisfyingAll_nil, satisfyingAll_nil]
  · obtain ⟨term, hterm⟩ := List.exists_mem_of_ne_nil terms hterms
    unfold PhysicalPlanRunner.satisfyingAll
    rw [PhysicalPlanRunner.executeNestedLoopJoin_eq, PhysicalPlanRunner.executeNestedLoopJoin_eq,
      hkeep term hterm]
    exact congrArg (PhysicalPlanRunner.joinRelation _) (filter_loopJoin_left hall _ _ _)

/-- Predicates on the right side of a join that keeps no unmatched left rows. -/
theorem satisfyingAll_join_right (hkeep : ∀ term ∈ terms, emitUnmatchedLeft joinType = false)
    (hcolumns : ∀ term ∈ terms, ∀ col ∈ exprColumns term,
      col.table ∉ l.tables ∧ col.table ∈ r.tables ∧ col.table ∈ outputTables ∧
        (runner.executeNestedLoopJoin l r condition joinType outputTables).context.HasColumn col) :
    runner.satisfyingAll (runner.executeNestedLoopJoin l r condition joinType outputTables) terms =
      runner.executeNestedLoopJoin l (runner.satisfyingAll r terms) condition joinType
        outputTables := by
  have hall : ∀ (a : Option Entry) (b : Entry), (terms.all fun term => runner.satisfies
        (runner.executeNestedLoopJoin l r condition joinType outputTables).filterContext term
        ((JoinOutputLayout.fromSources l.context r.context outputTables).materializeRow
          a (some b))) =
      terms.all fun term => runner.satisfies r.filterContext term b := by
    intro a b
    rw [Bool.eq_iff_iff, List.all_eq_true, List.all_eq_true]
    exact forall₂_congr fun term hterm =>
      iff_of_eq (congrArg (· = true) (satisfies_right (hcolumns term hterm) a b))
  by_cases hterms : terms = []
  · subst hterms
    rw [satisfyingAll_nil, satisfyingAll_nil]
  · obtain ⟨term, hterm⟩ := List.exists_mem_of_ne_nil terms hterms
    unfold PhysicalPlanRunner.satisfyingAll
    rw [PhysicalPlanRunner.executeNestedLoopJoin_eq, PhysicalPlanRunner.executeNestedLoopJoin_eq,
      hkeep term hterm]
    exact congrArg (PhysicalPlanRunner.joinRelation _) (filter_loopJoin_right hall _ _ _)

variable {left right : LogicalPlan}

/-- Filters on the left side of a join, above it and below it. -/
theorem alike_join_left (hkeep : ∀ term ∈ terms, trackRightMatches joinType = false)
    (hcolumns : ∀ term ∈ terms, ∀ col ∈ exprColumns term,
      col.table ∈ (left.context runner.columnCount).tables ∧ col.table ∈ outputTables ∧
        ((LogicalPlan.join left right condition joinType outputTables).context
          runner.columnCount).HasColumn col) :
    runner.Alike format
      (AndPredicatePass.createFilterChain (.join left right condition joinType outputTables) terms)
      (.join (AndPredicatePass.createFilterChain left terms) right condition joinType
        outputTables) := by
  obtain ⟨hcontext, htables, hfree⟩ := AndPredicatePass.createFilterChain_shows
    (.join left right condition joinType outputTables) terms runner.columnCount
  obtain ⟨hcontext', htables', -⟩ :=
    AndPredicatePass.createFilterChain_shows left terms runner.columnCount
  refine ⟨?_, ?_, ?_, hfree⟩
  · apply SameResult.of_eq
    rw [AndPredicatePass.evaluate_filterChain, PhysicalPlanRunner.evaluateLogical,
      PhysicalPlanRunner.evaluateLogical, AndPredicatePass.evaluate_filterChain]
    cases hl : runner.evaluateLogical format left with
    | error e => rfl
    | ok l =>
      cases hr : runner.evaluateLogical format right with
      | error e => rfl
      | ok r =>
        have hlctx := PhysicalPlanRunner.context_of_evaluate hl
        have hrctx := PhysicalPlanRunner.context_of_evaluate hr
        rw [LogicalPlan.context, ← hlctx, ← hrctx] at hcolumns
        exact congrArg Except.ok (satisfyingAll_join_left hkeep hcolumns)
  · rw [hcontext, LogicalPlan.context, LogicalPlan.context, hcontext']
  · rw [htables, LogicalPlan.collectTables, LogicalPlan.collectTables, htables']

theorem alike_join_right (hkeep : ∀ term ∈ terms, emitUnmatchedLeft joinType = false)
    (hcolumns : ∀ term ∈ terms, ∀ col ∈ exprColumns term,
      col.table ∉ (left.context runner.columnCount).tables ∧
      col.table ∈ (right.context runner.columnCount).tables ∧ col.table ∈ outputTables ∧
        ((LogicalPlan.join left right condition joinType outputTables).context
          runner.columnCount).HasColumn col) :
    runner.Alike format
      (AndPredicatePass.createFilterChain (.join left right condition joinType outputTables) terms)
      (.join left (AndPredicatePass.createFilterChain right terms) condition joinType
        outputTables) := by
  obtain ⟨hcontext, htables, hfree⟩ := AndPredicatePass.createFilterChain_shows
    (.join left right condition joinType outputTables) terms runner.columnCount
  obtain ⟨hcontext', htables', -⟩ :=
    AndPredicatePass.createFilterChain_shows right terms runner.columnCount
  refine ⟨?_, ?_, ?_, hfree⟩
  · apply SameResult.of_eq
    rw [AndPredicatePass.evaluate_filterChain, PhysicalPlanRunner.evaluateLogical,
      PhysicalPlanRunner.evaluateLogical, AndPredicatePass.evaluate_filterChain]
    cases hl : runner.evaluateLogical format left with
    | error e => rfl
    | ok l =>
      cases hr : runner.evaluateLogical format right with
      | error e => rfl
      | ok r =>
        have hlctx := PhysicalPlanRunner.context_of_evaluate hl
        have hrctx := PhysicalPlanRunner.context_of_evaluate hr
        rw [LogicalPlan.context, ← hlctx, ← hrctx] at hcolumns
        exact congrArg Except.ok (satisfyingAll_join_right hkeep hcolumns)
  · rw [hcontext, LogicalPlan.context, LogicalPlan.context, hcontext']
  · rw [htables, LogicalPlan.collectTables, LogicalPlan.collectTables, htables']

theorem not_mem_of_refersTo {term : Expr} {plan : LogicalPlan} (h : refersTo term plan = false)
    {col : ColumnRef} (hcol : col ∈ exprColumns term) : col.table ∉ plan.collectTables := by
  intro hmem
  have hfalse := List.any_eq_false.mp h col.table (List.mem_map_of_mem hcol)
  exact hfalse (decide_eq_true hmem)

/-- A join takes a predicate into its left side only if it has no column of the right one and
no unmatched right rows are kept. -/
theorem sideOf_left : ∀ {joinType : JoinType} {refsLeft refsRight : Bool},
    sideOf joinType refsLeft refsRight = some .left →
      refsRight = false ∧ trackRightMatches joinType = false := by
  intro joinType refsLeft refsRight
  cases joinType <;> revert refsLeft refsRight <;> decide

theorem sideOf_right : ∀ {joinType : JoinType} {refsLeft refsRight : Bool},
    sideOf joinType refsLeft refsRight = some .right →
      refsLeft = false ∧ emitUnmatchedLeft joinType = false := by
  intro joinType refsLeft refsRight
  cases joinType <;> revert refsLeft refsRight <;> decide

/-- Every conjunct goes to one side or stays. -/
theorem all_bySide (side : Expr → Option JoinInputSide) (holds : Expr → Bool) (terms : List Expr) :
    terms.all holds = ((terms.filter fun term => side term = none) ++
      ((terms.filter fun term => side term = some .right) ++
        terms.filter fun term => side term = some .left)).all holds := by
  rw [Bool.eq_iff_iff, List.all_eq_true, List.all_eq_true]
  constructor
  · intro h term hterm
    apply h
    simp only [List.mem_append, List.mem_filter] at hterm
    rcases hterm with hterm | hterm | hterm <;> exact hterm.1
  · intro h term hterm
    apply h
    simp only [List.mem_append, List.mem_filter, decide_eq_true_iff]
    cases hside : side term with
    | none => exact .inl ⟨hterm, rfl⟩
    | some s =>
      cases s with
      | left => exact .inr (.inr ⟨hterm, rfl⟩)
      | right => exact .inr (.inl ⟨hterm, rfl⟩)

/-- Columns of the left side of a join that the join shows. -/
abbrev OfLeft (runner : PhysicalPlanRunner) (left right : LogicalPlan) (condition : Expr)
    (joinType : JoinType) (outputTables : List TableName) (term : Expr) : Prop :=
  ∀ col ∈ exprColumns term, col.table ∈ (left.context runner.columnCount).tables ∧
    col.table ∈ outputTables ∧
    ((LogicalPlan.join left right condition joinType outputTables).context
      runner.columnCount).HasColumn col

/-- Columns of the right side that the left one does not have. -/
abbrev OfRight (runner : PhysicalPlanRunner) (left right : LogicalPlan) (condition : Expr)
    (joinType : JoinType) (outputTables : List TableName) (term : Expr) : Prop :=
  ∀ col ∈ exprColumns term, col.table ∉ (left.context runner.columnCount).tables ∧
    col.table ∈ (right.context runner.columnCount).tables ∧ col.table ∈ outputTables ∧
    ((LogicalPlan.join left right condition joinType outputTables).context
      runner.columnCount).HasColumn col

section Sides

variable {predicate : Expr}
  (hfilter : (LogicalPlan.filter (.join left right condition joinType outputTables)
    predicate).All (runner.WellFormed format))

include hfilter

/-- A column of the predicate is shown by the join and belongs to a side. -/
theorem columns_of_conjunct {term : Expr} (hterm : term ∈ splitConjuncts predicate)
    {col : ColumnRef} (hcol : col ∈ exprColumns term) :
    col.table ∈ outputTables ∧ (col.table ∈ (left.context runner.columnCount).tables ∨
      col.table ∈ (right.context runner.columnCount).tables) ∧
    ((LogicalPlan.join left right condition joinType outputTables).context
      runner.columnCount).HasColumn col := by
  have hout := (PhysicalPlanRunner.wellFormed_join_iff.mp (hfilter.of_mem List.mem_cons_self).here).1
  have hcolumns := hfilter.here.resolve_left Bool.false_ne_true
  have hcolumn := hcolumns col (AndPredicatePass.exprColumns_of_break hterm col hcol)
  have htable := hcolumn.table
  rw [LogicalPlan.context, tables_fromSources hout, List.mem_filter] at htable
  exact ⟨htable.1, List.mem_append.mp (of_decide_eq_true htable.2), hcolumn⟩

theorem pushSide_left (hright : Shows runner.columnCount right) {term : Expr}
    (hterm : term ∈ (splitConjuncts predicate).filter fun term =>
      pushSide joinType left right term = some .left) :
    trackRightMatches joinType = false ∧
      OfLeft runner left right condition joinType outputTables term := by
  rw [List.mem_filter, decide_eq_true_iff] at hterm
  obtain ⟨hrefs, hkeep⟩ := sideOf_left hterm.2
  refine ⟨hkeep, fun col hcol => ?_⟩
  obtain ⟨hmem, htables, hcolumn⟩ := columns_of_conjunct hfilter hterm.1 hcol
  refine ⟨htables.resolve_right fun hr => ?_, hmem, hcolumn⟩
  exact not_mem_of_refersTo hrefs hcol (hright.context_subset _ hr)

theorem pushSide_right (hleft : Shows runner.columnCount left) {term : Expr}
    (hterm : term ∈ (splitConjuncts predicate).filter fun term =>
      pushSide joinType left right term = some .right) :
    emitUnmatchedLeft joinType = false ∧
      OfRight runner left right condition joinType outputTables term := by
  rw [List.mem_filter, decide_eq_true_iff] at hterm
  obtain ⟨hrefs, hkeep⟩ := sideOf_right hterm.2
  refine ⟨hkeep, fun col hcol => ?_⟩
  obtain ⟨hmem, htables, hcolumn⟩ := columns_of_conjunct hfilter hterm.1 hcol
  have hnot : col.table ∉ (left.context runner.columnCount).tables := fun hl =>
    not_mem_of_refersTo hrefs hcol (hleft.context_subset _ hl)
  exact ⟨hnot, htables.resolve_left hnot, hmem, hcolumn⟩

end Sides

/-- A join over filtered sides in place of the filters over the join. -/
theorem rewrites_join_sides {leftTerms rightTerms : List Expr} {left' right' : LogicalPlan}
    (hjoin : runner.WellFormed format (.join left right condition joinType outputTables))
    (hleft : ∀ term ∈ leftTerms, trackRightMatches joinType = false ∧
      OfLeft runner left right condition joinType outputTables term)
    (hright : ∀ term ∈ rightTerms, emitUnmatchedLeft joinType = false ∧
      OfRight runner left right condition joinType outputTables term)
    (hpushedLeft : runner.Rewrites format (AndPredicatePass.createFilterChain left leftTerms) left')
    (hpushedRight :
      runner.Rewrites format (AndPredicatePass.createFilterChain right rightTerms) right') :
    runner.Rewrites format
      (AndPredicatePass.createFilterChain (.join left right condition joinType outputTables)
        (rightTerms ++ leftTerms))
      (.join left' right' condition joinType outputTables) := by
  obtain ⟨hcontextLeft, htablesLeft, -⟩ :=
    AndPredicatePass.createFilterChain_shows left leftTerms runner.columnCount
  have htablesRight := (AndPredicatePass.createFilterChain_shows right rightTerms
    runner.columnCount).2.1
  have habove : runner.Alike format _ _ := alike_join_left (fun term hterm => (hleft term hterm).1)
    fun term hterm => (hleft term hterm).2
  have hbelow : runner.Alike format _ (.join (AndPredicatePass.createFilterChain left leftTerms)
      (AndPredicatePass.createFilterChain right rightTerms) condition joinType outputTables) :=
    alike_join_right (fun term hterm => (hright term hterm).1) fun term hterm => by
      rw [LogicalPlan.context, hcontextLeft]
      exact (hright term hterm).2
  have hmoved := (AndPredicatePass.alike_chain_of_all habove fun _ _ => rfl).trans
    (hbelow.trans (hpushedLeft.toAlike.join hpushedRight.toAlike condition joinType outputTables))
  rw [AndPredicatePass.createFilterChain_append]
  refine ⟨hmoved, .intro ?_ fun input hinput => ?_⟩
  · rw [PhysicalPlanRunner.wellFormed_join_iff, ← htablesLeft, ← htablesRight, hpushedLeft.tables,
      hpushedRight.tables] at hjoin
    exact hjoin
  · rcases List.mem_cons.mp hinput with rfl | hinput
    · exact hpushedLeft.wellFormed
    · rw [List.mem_singleton.mp hinput]
      exact hpushedRight.wellFormed

/-- Conjuncts that are moved into the sides of a join keep its rows. -/
theorem rewrites_pushFilterIntoJoin {predicate : Expr} {pushLeft pushRight : Expr → LogicalPlan}
    (hfilter : (LogicalPlan.filter (.join left right condition joinType outputTables)
      predicate).All (runner.WellFormed format))
    (hnodup : (left.collectTables ++ right.collectTables).Nodup)
    (hpushLeft : ∀ term, (LogicalPlan.filter left term).All (runner.WellFormed format) →
      runner.Rewrites format (.filter left term) (pushLeft term))
    (hpushRight : ∀ term, (LogicalPlan.filter right term).All (runner.WellFormed format) →
      runner.Rewrites format (.filter right term) (pushRight term)) :
    runner.Rewrites format
      (.filter (.join left right condition joinType outputTables) predicate)
      (pushFilterIntoJoin pushLeft pushRight left right condition joinType outputTables
        predicate) := by
  have hjoin := hfilter.of_mem List.mem_cons_self
  have hleft := hjoin.of_mem List.mem_cons_self
  have hright := hjoin.of_mem (List.mem_cons_of_mem _ List.mem_cons_self)
  have hshowsLeft := shows_of_wellFormed hleft (List.Nodup.of_append_left hnodup)
  have hshowsRight := shows_of_wellFormed hright (List.Nodup.of_append_right hnodup)
  have hofLeft := fun term => @pushSide_left _ _ _ joinType _ _ _ _ hfilter hshowsRight term
  have hofRight := fun term => @pushSide_right _ _ _ joinType _ _ _ _ hfilter hshowsLeft term
  have hpushedLeft := rewrites_withPredicates hleft (fun term hterm => .inr fun col hcol =>
    have h := (hofLeft term hterm).2 col hcol
    hasColumn_left h.2.2 h.1 h.2.1) hpushLeft
  have hpushedRight := rewrites_withPredicates hright (fun term hterm => .inr fun col hcol =>
    have h := (hofRight term hterm).2 col hcol
    hasColumn_right h.2.2.2 h.1 h.2.1 h.2.2.1) hpushRight
  have hmoved := rewrites_join_sides hjoin.here hofLeft hofRight hpushedLeft hpushedRight
  have hcontext := hmoved.context
  rw [(AndPredicatePass.createFilterChain_shows _ _ runner.columnCount).1] at hcontext
  have hremaining : ∀ term ∈ (splitConjuncts predicate).filter fun term =>
      pushSide joinType left right term = none, ∀ {input : LogicalPlan},
      input.context runner.columnCount = (LogicalPlan.join left right condition joinType
        outputTables).context runner.columnCount →
      runner.WellFormed format (.filter input term) := by
    intro term hterm input hsame
    refine .inr fun col hcol => ?_
    rw [hsame]
    exact (columns_of_conjunct hfilter (List.mem_of_mem_filter hterm) hcol).2.2
  have hstay := rewrites_withPredicates hmoved.wellFormed
    (fun term hterm => hremaining term hterm hcontext.symm) fun term hterm => ⟨.refl _, hterm⟩
  have hsplit : runner.Alike format
      (AndPredicatePass.createFilterChain (.join left right condition joinType outputTables)
        (splitConjuncts predicate)) _ :=
    AndPredicatePass.alike_chain_of_all (.refl _) fun ctx entry =>
      all_bySide (pushSide joinType left right) (fun term => runner.satisfies ctx term entry)
        (splitConjuncts predicate)
  rw [AndPredicatePass.createFilterChain_append] at hsplit
  have hfirst := (AndPredicatePass.alike_chain _ predicate).trans
    (hsplit.trans (AndPredicatePass.alike_chain_of_all hmoved.toAlike fun _ _ => rfl))
  exact ⟨hfirst.trans hstay.toAlike, hstay.wellFormed⟩

end Joins

section Plans

variable {runner : PhysicalPlanRunner} {format : Value Scalar → String} {input : LogicalPlan}

/-- A filter below a sort. -/
theorem rewrites_sort {orderBy : List (Expr × SortOrder)} {predicate : Expr}
    (hfilter : (LogicalPlan.filter (.sort input orderBy) predicate).All
      (runner.WellFormed format)) :
    runner.Rewrites format (.filter (.sort input orderBy) predicate)
      (.sort (.filter input predicate) orderBy) := by
  have hsort := hfilter.of_mem List.mem_cons_self
  have hinput := hsort.of_mem List.mem_cons_self
  have hbelow : (LogicalPlan.filter input predicate).All (runner.WellFormed format) :=
    .intro hfilter.here fun plan hplan => by
      rw [List.mem_singleton.mp hplan]
      exact hinput
  refine ⟨⟨?_, rfl, rfl, rfl⟩, .intro ?_ fun plan hplan => ?_⟩
  · apply SameResult.of_eq
    simp only [PhysicalPlanRunner.evaluateLogical]
    cases hrun : runner.evaluateLogical format input with
    | error e => rfl
    | ok relation =>
      have hrows := PhysicalPlanRunner.filter_sortEntries (hsort.here relation hrun)
        (runner.satisfies relation.filterContext predicate)
      exact congrArg (fun entries => Except.ok { relation with entries }) hrows
  · intro relation hrelation
    obtain ⟨unfiltered, hrun, hrelation⟩ := ok_of_bind hrelation
    obtain rfl := Except.ok.inj hrelation
    have horders := hsort.here unfiltered hrun
    exact fun a ha b hb c hc => horders a (List.mem_of_mem_filter ha) b (List.mem_of_mem_filter hb)
      c (List.mem_of_mem_filter hc)
  · rw [List.mem_singleton.mp hplan]
    exact hbelow

/-- A filter merged into the filter below it. -/
theorem rewrites_filter {inner predicate : Expr}
    (hfilter : (LogicalPlan.filter (.filter input inner) predicate).All
      (runner.WellFormed format)) :
    runner.Rewrites format (.filter (.filter input inner) predicate)
      (.filter input (.binaryOp inner .and predicate)) := by
  have hinner := hfilter.of_mem List.mem_cons_self
  have hall : ∀ (ctx : Option EvalContext) entry,
      ([predicate, inner].all fun term => runner.satisfies ctx term entry) =
        [.binaryOp inner .and predicate].all fun term => runner.satisfies ctx term entry := by
    intro ctx entry
    have hand : runner.satisfies ctx (.binaryOp inner .and predicate) entry =
        (runner.satisfies ctx inner entry && runner.satisfies ctx predicate entry) :=
      evalPredicate_and inner predicate
    rw [List.all_cons, List.all_cons, List.all_cons, hand, List.all_nil, Bool.and_true,
      Bool.and_true, Bool.and_comm]
  refine ⟨AndPredicatePass.alike_chain_of_all (.refl input) hall, .intro ?_ fun plan hplan => ?_⟩
  · by_cases hfree : input.joinFree = true
    · exact .inl hfree
    · refine .inr fun col hcol => ?_
      rcases List.mem_append.mp hcol with hcol | hcol
      · exact hinner.here.resolve_left hfree col hcol
      · exact hfilter.here.resolve_left hfree col hcol
  · exact hinner.of_mem hplan

/-- Pushing a filter keeps every row. -/
theorem rewrites_tryPushFilter (hagg : runner.AggregatesValues) {predicate : Expr}
    (hfilter : (LogicalPlan.filter input predicate).All (runner.WellFormed format))
    (hnodup : input.collectTables.Nodup) :
    runner.Rewrites format (.filter input predicate) (tryPushFilter input predicate) := by
  induction input generalizing predicate with
  | join left right condition joinType outputTables ihLeft ihRight =>
    exact rewrites_pushFilterIntoJoin hfilter hnodup
      (fun term hterm => ihLeft hterm (List.Nodup.of_append_left hnodup))
      (fun term hterm => ihRight hterm (List.Nodup.of_append_right hnodup))
  | sort input orderBy ih =>
    have hbelow := rewrites_sort hfilter
    have hpush := ih (hbelow.wellFormed.of_mem List.mem_cons_self) hnodup
    refine hbelow.trans (.mapInputs (f := fun _ => tryPushFilter input predicate) hagg
      hbelow.wellFormed fun plan hplan => ?_)
    rw [List.mem_singleton.mp hplan]
    exact hpush
  | filter input inner ih => exact rewrites_filter hfilter
  | _ => exact ⟨.refl _, hfilter⟩

/-- Pushing filters down keeps every row of every plan over different tables. -/
theorem rewrites_pushdown (hagg : runner.AggregatesValues) {plan : LogicalPlan}
    (hplan : plan.All (runner.WellFormed format)) (hnodup : plan.collectTables.Nodup) :
    runner.Rewrites format plan (pushdown plan) := by
  induction hplan with
  | @intro plan here inputs ih =>
    have hall := LogicalPlan.All.intro here inputs
    have hmap := PhysicalPlanRunner.Rewrites.mapInputs hagg hall fun input hinput =>
      ih input hinput (LogicalPlan.nodup_of_mem_inputs hnodup hinput)
    cases plan with
    | filter input predicate =>
      have htables := hmap.tables
      rw [LogicalPlan.mapInputs, LogicalPlan.collectTables, LogicalPlan.collectTables] at htables
      exact hmap.trans (rewrites_tryPushFilter hagg hmap.wellFormed (htables ▸ hnodup))
    | _ => exact hmap

end Plans

end PredicatePushdown

end Cynos.Query
