import Cynos.Optimizer.PlanRewrites

/-! Passes that split a filter into the conjuncts of its predicate, that balance cross
products, and that turn a filter over a cross product into a join. -/
namespace Cynos.Query

open Core Join

namespace AndPredicatePass

def breakAndPredicate : Expr → List Expr
  | .binaryOp left .and right => breakAndPredicate left ++ breakAndPredicate right
  | predicate => [predicate]

/-- The first predicate is the outermost filter. -/
def createFilterChain (input : LogicalPlan) (predicates : List Expr) : LogicalPlan :=
  predicates.foldr (fun predicate result => .filter result predicate) input

def traverse : LogicalPlan → LogicalPlan
  | .filter input predicate => createFilterChain (traverse input) (breakAndPredicate predicate)
  | .project input columns => .project (traverse input) columns
  | .join left right condition joinType outputTables =>
    .join (traverse left) (traverse right) condition joinType outputTables
  | .aggregate input groupBy aggregates => .aggregate (traverse input) groupBy aggregates
  | .sort input orderBy => .sort (traverse input) orderBy
  | .limit input limit offset => .limit (traverse input) limit offset
  | .crossProduct left right => .crossProduct (traverse left) (traverse right)
  | .union left right all => .union (traverse left) (traverse right) all
  | plan => plan

/-- Only filters are treated on their own. -/
theorem traverse_eq_mapInputs {plan : LogicalPlan}
    (h : ∀ input predicate, plan ≠ .filter input predicate) :
    traverse plan = plan.mapInputs traverse := by
  cases plan with
  | filter input predicate => exact absurd rfl (h input predicate)
  | _ => rfl

theorem exprColumns_of_break {predicate term : Expr} (hterm : term ∈ breakAndPredicate predicate) :
    ∀ col ∈ exprColumns term, col ∈ exprColumns predicate := by
  induction predicate using breakAndPredicate.induct with
  | case1 left right ihLeft ihRight =>
    rw [breakAndPredicate, List.mem_append] at hterm
    intro col hcol
    rw [exprColumns]
    rcases hterm with hterm | hterm
    · exact List.mem_append_left _ (ihLeft hterm col hcol)
    · exact List.mem_append_right _ (ihRight hterm col hcol)
  | case2 predicate hne =>
    rw [breakAndPredicate.eq_2 _ hne, List.mem_singleton] at hterm
    rw [hterm]
    exact fun _ => id

variable {runner : PhysicalPlanRunner} {format : Value Scalar → String}

/-- A row passes a predicate when it passes all its conjuncts. -/
theorem satisfies_break (ctx : Option EvalContext) (predicate : Expr) (entry : Entry) :
    ((breakAndPredicate predicate).all fun term => runner.satisfies ctx term entry) =
      runner.satisfies ctx predicate entry := by
  induction predicate using breakAndPredicate.induct with
  | case1 left right ihLeft ihRight =>
    rw [breakAndPredicate, List.all_append, ihLeft, ihRight]
    exact (evalPredicate_and left right).symm
  | case2 predicate hne =>
    rw [breakAndPredicate.eq_2 _ hne, List.all_cons, List.all_nil, Bool.and_true]

theorem evaluate_filterChain (input : LogicalPlan) (predicates : List Expr) :
    runner.evaluateLogical format (createFilterChain input predicates) =
      (runner.evaluateLogical format input >>= fun relation =>
        .ok (runner.satisfyingAll relation predicates)) := by
  induction predicates with
  | nil =>
    rw [createFilterChain, List.foldr_nil]
    cases runner.evaluateLogical format input with
    | error e => rfl
    | ok relation =>
      rw [ok_bind]
      unfold PhysicalPlanRunner.satisfyingAll Relation.filter
      simp
  | cons predicate predicates ih =>
    unfold createFilterChain at ih ⊢
    rw [List.foldr_cons, PhysicalPlanRunner.evaluateLogical, ih]
    cases runner.evaluateLogical format input with
    | error e => rfl
    | ok relation =>
      rw [ok_bind, ok_bind, ok_bind]
      unfold PhysicalPlanRunner.satisfying PhysicalPlanRunner.satisfyingAll Relation.filter
      rw [List.filter_filter]
      rfl

/-- A chain of filters shows what its input shows. -/
theorem createFilterChain_shows (input : LogicalPlan) (predicates : List Expr)
    (columnCount : TableName → Nat) :
    (createFilterChain input predicates).context columnCount = input.context columnCount ∧
      (createFilterChain input predicates).collectTables = input.collectTables ∧
      (createFilterChain input predicates).joinFree = input.joinFree := by
  induction predicates with
  | nil => exact ⟨rfl, rfl, rfl⟩
  | cons _ _ ih => exact ih

theorem createFilterChain_append (input : LogicalPlan) (predicates predicates' : List Expr) :
    createFilterChain input (predicates ++ predicates') =
      createFilterChain (createFilterChain input predicates') predicates :=
  List.foldr_append

/-- Filters over inputs that are alike, on predicates that the same rows pass together. -/
theorem alike_chain_of_all {input input' : LogicalPlan} (h : runner.Alike format input input')
    {predicates predicates' : List Expr}
    (hall : ∀ (ctx : Option EvalContext) entry,
      (predicates.all fun term => runner.satisfies ctx term entry) =
        predicates'.all fun term => runner.satisfies ctx term entry) :
    runner.Alike format (createFilterChain input predicates)
      (createFilterChain input' predicates') := by
  obtain ⟨hcontext, htables, hfree⟩ := createFilterChain_shows input predicates runner.columnCount
  obtain ⟨hcontext', htables', hfree'⟩ :=
    createFilterChain_shows input' predicates' runner.columnCount
  refine ⟨?_, ?_, ?_, ?_⟩
  · rw [evaluate_filterChain, evaluate_filterChain]
    apply h.rows.bind
    intro r r' hr
    refine ⟨hr.context, ?_⟩
    unfold PhysicalPlanRunner.satisfyingAll
    rw [hr.filterContext]
    apply List.rel_filter _ hr.entries
    intro a b hab
    have hpasses : ∀ term, runner.satisfies r'.filterContext term a =
        runner.satisfies r'.filterContext term b := fun term =>
      PhysicalPlanRunner.satisfies_congr _ term hab
    dsimp only
    rw [hall, funext hpasses]
  · rw [hcontext, hcontext', h.context]
  · rw [htables, htables', h.tables]
  · rw [hfree, hfree', h.joinFree]

theorem alike_chain (input : LogicalPlan) (predicate : Expr) :
    runner.Alike format (.filter input predicate)
      (createFilterChain input (breakAndPredicate predicate)) := by
  have hall : ∀ (ctx : Option EvalContext) entry,
      ([predicate].all fun term => runner.satisfies ctx term entry) =
        (breakAndPredicate predicate).all fun term => runner.satisfies ctx term entry := by
    intro ctx entry
    rw [satisfies_break, List.all_cons, List.all_nil, Bool.and_true]
  exact alike_chain_of_all (.refl input) hall

theorem wellFormed_chain {input : LogicalPlan} (hinput : input.All (runner.WellFormed format))
    {predicates : List Expr}
    (h : ∀ predicate ∈ predicates, runner.WellFormed format (.filter input predicate)) :
    (createFilterChain input predicates).All (runner.WellFormed format) := by
  induction predicates with
  | nil => exact hinput
  | cons predicate predicates ih =>
    obtain ⟨hcontext, -, hfree⟩ := createFilterChain_shows input predicates runner.columnCount
    have hfilter := h predicate List.mem_cons_self
    rw [PhysicalPlanRunner.wellFormed_filter_iff, ← hcontext, ← hfree] at hfilter
    refine .intro hfilter fun plan hplan => ?_
    rw [List.mem_singleton.mp hplan]
    exact ih fun predicate hmem => h predicate (List.mem_cons_of_mem _ hmem)

/-- Splitting filters keeps every row of every plan. -/
theorem rewrites_traverse (hagg : runner.AggregatesValues) {plan : LogicalPlan}
    (hplan : plan.All (runner.WellFormed format)) : runner.Rewrites format plan (traverse plan) := by
  induction hplan with
  | @intro plan here inputs ih =>
    have hall := LogicalPlan.All.intro here inputs
    have hmap := PhysicalPlanRunner.Rewrites.mapInputs hagg hall ih
    cases plan with
    | filter input predicate =>
      refine ⟨hmap.toAlike.trans (alike_chain _ _), wellFormed_chain
        (ih input List.mem_cons_self).wellFormed fun term hterm => ?_⟩
      refine hmap.wellFormed.here.imp_right fun hcolumns col hcol => ?_
      exact hcolumns col (exprColumns_of_break hterm col hcol)
    | _ => exact hmap

end AndPredicatePass

namespace CrossProductPass

open CrossProduct

/-- One level of the tree: neighbours are paired, an odd last one is carried up. -/
def pairNeighbours : List LogicalPlan → List LogicalPlan
  | first :: second :: rest => .crossProduct first second :: pairNeighbours rest
  | rest => rest

theorem length_pairNeighbours (tables : List LogicalPlan) :
    (pairNeighbours tables).length = (tables.length + 1) / 2 := by
  induction tables using pairNeighbours.induct with
  | case1 first second rest ih =>
    rw [pairNeighbours, List.length_cons, List.length_cons, List.length_cons, ih]
    omega
  | case2 rest hne =>
    rw [pairNeighbours.eq_2 _ hne]
    cases rest with
    | nil => rfl
    | cons first rest =>
      cases rest with
      | nil => rw [List.length_singleton]
      | cons second rest => exact absurd rfl (hne first second rest)

def buildBinaryCrossProduct (tables : List LogicalPlan) : LogicalPlan :=
  match tables with
  | [] => .empty
  | [table] => table
  | first :: second :: rest => buildBinaryCrossProduct (pairNeighbours (first :: second :: rest))
termination_by tables.length
decreasing_by
  rw [length_pairNeighbours]
  simp only [List.length_cons]
  omega

/-- The children of nested cross products in order, each traversed; a plan that is no cross
product is its own only child. -/
def crossProductChildren : LogicalPlan → List LogicalPlan
  | .crossProduct left right => crossProductChildren left ++ crossProductChildren right
  | .filter input predicate =>
    [.filter (buildBinaryCrossProduct (crossProductChildren input)) predicate]
  | .project input columns =>
    [.project (buildBinaryCrossProduct (crossProductChildren input)) columns]
  | .join left right condition joinType outputTables =>
    [.join (buildBinaryCrossProduct (crossProductChildren left))
      (buildBinaryCrossProduct (crossProductChildren right)) condition joinType outputTables]
  | .aggregate input groupBy aggregates =>
    [.aggregate (buildBinaryCrossProduct (crossProductChildren input)) groupBy aggregates]
  | .sort input orderBy => [.sort (buildBinaryCrossProduct (crossProductChildren input)) orderBy]
  | .limit input limit offset =>
    [.limit (buildBinaryCrossProduct (crossProductChildren input)) limit offset]
  | .union left right all =>
    [.union (buildBinaryCrossProduct (crossProductChildren left))
      (buildBinaryCrossProduct (crossProductChildren right)) all]
  | plan => [plan]

def traverse (plan : LogicalPlan) : LogicalPlan :=
  buildBinaryCrossProduct (crossProductChildren plan)

theorem buildBinaryCrossProduct_singleton (plan : LogicalPlan) :
    buildBinaryCrossProduct [plan] = plan := by
  rw [buildBinaryCrossProduct]

theorem traverse_eq_mapInputs {plan : LogicalPlan}
    (h : ∀ left right, plan ≠ .crossProduct left right) :
    crossProductChildren plan = [plan.mapInputs traverse] := by
  cases plan with
  | crossProduct left right => exact absurd rfl (h left right)
  | _ => rfl

section Products

variable {runner : PhysicalPlanRunner} {format : Value Scalar → String}

theorem alike_assoc (a b c : LogicalPlan) :
    runner.Alike format (.crossProduct (.crossProduct a b) c)
      (.crossProduct a (.crossProduct b c)) := by
  refine ⟨?_, crossContext_assoc _ _ _, List.append_assoc _ _ _, rfl⟩
  simp only [PhysicalPlanRunner.evaluateLogical]
  cases runner.evaluateLogical format a with
  | error e => rfl
  | ok a =>
    cases runner.evaluateLogical format b with
    | error e => rfl
    | ok b =>
      cases runner.evaluateLogical format c with
      | error e => rfl
      | ok c => exact executeCrossProduct_assoc a b c

/-- The product of plans from the left. -/
def product : List LogicalPlan → LogicalPlan
  | [] => .empty
  | first :: rest => rest.foldl .crossProduct first

theorem alike_foldl {a a' : LogicalPlan} (h : runner.Alike format a a') (plans : List LogicalPlan) :
    runner.Alike format (plans.foldl .crossProduct a) (plans.foldl .crossProduct a') := by
  induction plans generalizing a a' with
  | nil => exact h
  | cons plan plans ih => exact ih (h.crossProduct (.refl plan))

theorem alike_crossProduct_foldl (a b : LogicalPlan) (plans : List LogicalPlan) :
    runner.Alike format (.crossProduct a (plans.foldl .crossProduct b))
      (plans.foldl .crossProduct (.crossProduct a b)) := by
  induction plans generalizing b with
  | nil => exact .refl _
  | cons plan plans ih =>
    exact (ih (.crossProduct b plan)).trans (alike_foldl (alike_assoc a b plan).symm plans)

theorem alike_product_append {left right : List LogicalPlan} (hleft : left ≠ [])
    (hright : right ≠ []) :
    runner.Alike format (.crossProduct (product left) (product right))
      (product (left ++ right)) := by
  cases left with
  | nil => exact absurd rfl hleft
  | cons first rest =>
    cases right with
    | nil => exact absurd rfl hright
    | cons first' rest' =>
      rw [List.cons_append, product, product, product, List.foldl_append, List.foldl_cons]
      exact alike_crossProduct_foldl _ _ _

theorem alike_foldl_pairNeighbours (a : LogicalPlan) (plans : List LogicalPlan) :
    runner.Alike format (plans.foldl .crossProduct a)
      ((pairNeighbours plans).foldl .crossProduct a) := by
  induction plans using pairNeighbours.induct generalizing a with
  | case1 first second rest ih =>
    rw [pairNeighbours, List.foldl_cons, List.foldl_cons, List.foldl_cons]
    exact (alike_foldl (alike_assoc a first second) rest).trans (ih _)
  | case2 rest hne =>
    rw [pairNeighbours.eq_2 _ hne]
    exact .refl _

theorem alike_build (plans : List LogicalPlan) :
    runner.Alike format (product plans) (buildBinaryCrossProduct plans) := by
  induction plans using buildBinaryCrossProduct.induct with
  | case1 =>
    rw [buildBinaryCrossProduct]
    exact .refl _
  | case2 plan =>
    rw [buildBinaryCrossProduct_singleton]
    exact .refl _
  | case3 first second rest ih =>
    rw [buildBinaryCrossProduct]
    refine .trans ?_ ih
    rw [pairNeighbours, product, product, List.foldl_cons]
    exact alike_foldl_pairNeighbours _ rest

theorem wellFormed_pairNeighbours {plans : List LogicalPlan}
    (h : ∀ plan ∈ plans, plan.All (runner.WellFormed format)) :
    ∀ plan ∈ pairNeighbours plans, plan.All (runner.WellFormed format) := by
  induction plans using pairNeighbours.induct with
  | case1 first second rest ih =>
    rw [pairNeighbours]
    intro plan hplan
    rcases List.mem_cons.mp hplan with rfl | hplan
    · refine .intro trivial fun input hinput => h input ?_
      exact List.mem_append_left rest hinput
    · exact ih (fun plan hmem => h plan (List.mem_cons_of_mem _ (List.mem_cons_of_mem _ hmem)))
        plan hplan
  | case2 rest hne =>
    rw [pairNeighbours.eq_2 _ hne]
    exact h

theorem wellFormed_build {plans : List LogicalPlan}
    (h : ∀ plan ∈ plans, plan.All (runner.WellFormed format)) :
    (buildBinaryCrossProduct plans).All (runner.WellFormed format) := by
  induction plans using buildBinaryCrossProduct.induct with
  | case1 =>
    rw [buildBinaryCrossProduct]
    exact .intro trivial nofun
  | case2 plan =>
    rw [buildBinaryCrossProduct_singleton]
    exact h plan List.mem_cons_self
  | case3 first second rest ih =>
    rw [buildBinaryCrossProduct]
    exact ih (wellFormed_pairNeighbours h)

/-- The children of a plan, multiplied in order, yield its rows. -/
structure Children (runner : PhysicalPlanRunner) (format : Value Scalar → String)
    (plan : LogicalPlan) (children : List LogicalPlan) : Prop where
  ne_nil : children ≠ []
  alike : runner.Alike format plan (product children)
  wellFormed : ∀ child ∈ children, child.All (runner.WellFormed format)

theorem Children.rewrites {plan : LogicalPlan} {children : List LogicalPlan}
    (h : Children runner format plan children) :
    runner.Rewrites format plan (buildBinaryCrossProduct children) :=
  ⟨h.alike.trans (alike_build children), wellFormed_build h.wellFormed⟩

theorem children_of_wellFormed (hagg : runner.AggregatesValues) {plan : LogicalPlan}
    (hplan : plan.All (runner.WellFormed format)) :
    Children runner format plan (crossProductChildren plan) := by
  induction hplan with
  | @intro plan here inputs ih =>
    have hmap := PhysicalPlanRunner.Rewrites.mapInputs hagg (.intro here inputs)
      fun input hinput => (ih input hinput).rewrites
    by_cases hcross : ∃ left right, plan = .crossProduct left right
    · obtain ⟨left, right, rfl⟩ := hcross
      have hleft := ih left List.mem_cons_self
      have hright := ih right (List.mem_cons_of_mem _ List.mem_cons_self)
      refine ⟨?_, ?_, ?_⟩
      · rw [crossProductChildren]
        exact List.append_ne_nil_of_left_ne_nil hleft.ne_nil _
      · rw [crossProductChildren]
        exact (hleft.alike.crossProduct hright.alike).trans
          (alike_product_append hleft.ne_nil hright.ne_nil)
      · rw [crossProductChildren]
        intro child hchild
        rcases List.mem_append.mp hchild with hchild | hchild
        · exact hleft.wellFormed child hchild
        · exact hright.wellFormed child hchild
    · have hchildren := traverse_eq_mapInputs fun left right heq => hcross ⟨left, right, heq⟩
      rw [hchildren]
      refine ⟨List.cons_ne_nil _ _, hmap.toAlike, fun child hchild => ?_⟩
      rw [List.mem_singleton.mp hchild]
      exact hmap.wellFormed

/-- Balancing cross products keeps every row of every plan. -/
theorem rewrites_traverse (hagg : runner.AggregatesValues) {plan : LogicalPlan}
    (hplan : plan.All (runner.WellFormed format)) : runner.Rewrites format plan (traverse plan) :=
  (children_of_wellFormed hagg hplan).rewrites

end Products

end CrossProductPass

namespace ImplicitJoinsPass

/-- The predicate has columns of both sides. -/
def isJoinPredicate (predicate : Expr) (left right : LogicalPlan) : Bool :=
  let predicateTables := (exprColumns predicate).map ColumnRef.table
  let refsLeft := predicateTables.any fun table => decide (table ∈ left.collectTables)
  let refsRight := predicateTables.any fun table => decide (table ∈ right.collectTables)
  refsLeft && refsRight

/-- A filter over an input that was traversed. -/
def convertFilter (predicate : Expr) : LogicalPlan → LogicalPlan
  | .crossProduct left right =>
    if isJoinPredicate predicate left right then
      .join left right predicate .inner (left.outputTables ++ right.outputTables)
    else .filter (.crossProduct left right) predicate
  | input => .filter input predicate

def traverse : LogicalPlan → LogicalPlan
  | .filter input predicate => convertFilter predicate (traverse input)
  | .crossProduct left right => .crossProduct (traverse left) (traverse right)
  | .project input columns => .project (traverse input) columns
  | .join left right condition joinType outputTables =>
    .join (traverse left) (traverse right) condition joinType outputTables
  | .aggregate input groupBy aggregates => .aggregate (traverse input) groupBy aggregates
  | .sort input orderBy => .sort (traverse input) orderBy
  | .limit input limit offset => .limit (traverse input) limit offset
  | .union left right all => .union (traverse left) (traverse right) all
  | plan => plan

variable {runner : PhysicalPlanRunner} {format : Value Scalar → String}

/-- An inner join on a predicate is a filter over the cross product. -/
theorem satisfying_crossProduct {l r : Relation} {predicate : Expr}
    {outputTables : List TableName}
    (hcolumns : ∀ col ∈ exprColumns predicate,
      (PhysicalPlanRunner.executeCrossProduct l r).context.HasColumn col)
    (hout : (outputTables.filter fun table => decide (table ∈ l.tables ++ r.tables)) =
      l.tables ++ r.tables) :
    runner.satisfying (PhysicalPlanRunner.executeCrossProduct l r) predicate =
      runner.executeNestedLoopJoin l r predicate .inner outputTables := by
  have hlayout := @fromSources_of_filter l.context r.context _ _ hout
  have hinner : emitUnmatchedLeft .inner = false := rfl
  have hholds := @PhysicalPlanRunner.satisfies_filterContext runner _ _ hcolumns
  unfold PhysicalPlanRunner.satisfying
  rw [funext hholds, PhysicalPlanRunner.executeNestedLoopJoin_eq, hlayout]
  unfold PhysicalPlanRunner.executeCrossProduct emitCrossProductEntries Relation.filter loopJoin
  rw [if_neg (by decide), List.append_nil]
  unfold PhysicalPlanRunner.joinRelation
  dsimp only
  rw [List.filter_flatMap]
  congr 1
  apply List.flatMap_congr
  intro a _
  rw [List.filter_map, hinner, probe_of_not_keepLeft]
  rfl

theorem alike_convertFilter {input : LogicalPlan} {predicate : Expr}
    (hfilter : (LogicalPlan.filter input predicate).All (runner.WellFormed format))
    (hnodup : input.collectTables.Nodup) :
    runner.Rewrites format (.filter input predicate) (convertFilter predicate input) := by
  have hsame : runner.Rewrites format (.filter input predicate) (.filter input predicate) :=
    ⟨.refl _, hfilter⟩
  cases input with
  | crossProduct left right =>
    rw [convertFilter]
    split
    · have hinput := hfilter.of_mem List.mem_cons_self
      have hleft := shows_of_wellFormed (hinput.of_mem List.mem_cons_self)
        (List.Nodup.of_append_left hnodup)
      have hright := shows_of_wellFormed
        (hinput.of_mem (List.mem_cons_of_mem _ List.mem_cons_self))
        (List.Nodup.of_append_right hnodup)
      have hdisjoint : ∀ table ∈ left.collectTables, table ∉ right.collectTables :=
        fun table hl hr => List.disjoint_of_nodup_append hnodup hl hr
      have hout := hleft.filter_append hright hdisjoint
      have hcolumns := hfilter.here.resolve_left Bool.false_ne_true
      have hshows := shows_of_wellFormed hinput hnodup
      refine ⟨⟨?_, ?_, rfl, rfl⟩, .intro ⟨hshows.output_nodup, hshows.output_subset⟩ fun plan hplan =>
        hinput.of_mem hplan⟩
      · apply SameResult.of_eq
        simp only [PhysicalPlanRunner.evaluateLogical]
        cases hl : runner.evaluateLogical format left with
        | error e => rfl
        | ok l =>
          cases hr : runner.evaluateLogical format right with
          | error e => rfl
          | ok r =>
            have hlctx := PhysicalPlanRunner.context_of_evaluate hl
            have hrctx := PhysicalPlanRunner.context_of_evaluate hr
            rw [LogicalPlan.context, ← hlctx, ← hrctx] at hcolumns
            rw [← hlctx, ← hrctx] at hout
            exact congrArg Except.ok (satisfying_crossProduct hcolumns hout)
      · exact congrArg JoinOutputLayout.context (fromSources_of_filter hout).symm
    · exact hsame
  | _ => exact hsame

/-- Only filters are treated on their own. -/
theorem traverse_eq_mapInputs {plan : LogicalPlan}
    (h : ∀ input predicate, plan ≠ .filter input predicate) :
    traverse plan = plan.mapInputs traverse := by
  cases plan with
  | filter input predicate => exact absurd rfl (h input predicate)
  | _ => rfl

/-- Turning filters into joins keeps every row of every plan over different tables. -/
theorem rewrites_traverse (hagg : runner.AggregatesValues) {plan : LogicalPlan}
    (hplan : plan.All (runner.WellFormed format)) (hnodup : plan.collectTables.Nodup) :
    runner.Rewrites format plan (traverse plan) := by
  induction hplan with
  | @intro plan here inputs ih =>
    have hall := LogicalPlan.All.intro here inputs
    have hmap := PhysicalPlanRunner.Rewrites.mapInputs hagg hall fun input hinput =>
      ih input hinput (LogicalPlan.nodup_of_mem_inputs hnodup hinput)
    cases plan with
    | filter input predicate =>
      have htables := hmap.tables
      rw [LogicalPlan.mapInputs, LogicalPlan.collectTables, LogicalPlan.collectTables] at htables
      have hconvert := alike_convertFilter hmap.wellFormed (htables ▸ hnodup)
      exact hmap.trans hconvert
    | _ => exact hmap

end ImplicitJoinsPass

end Cynos.Query
