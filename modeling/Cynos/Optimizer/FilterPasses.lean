import Cynos.Optimizer.OuterJoinSimplification
import Cynos.Optimizer.PredicatePushdown
import Cynos.Query.Aggregate

/-! The passes that move filters, one after the other: the rows and columns of a plan stay, and
no conjunct comes below a limit or an aggregate, or into a side that an outer join pads. -/
namespace Cynos.Query

open Core Join

namespace LogicalPlan

/-- The inputs of limits and aggregates and the padded sides of outer joins. -/
def guarded : LogicalPlan → List LogicalPlan
  | .filter input _ | .project input _ | .sort input _ => guarded input
  | .aggregate input _ _ | .limit input _ _ => [input]
  | .join left right _ joinType _ =>
    (if trackRightMatches joinType then [left] else guarded left) ++
      if emitUnmatchedLeft joinType then [right] else guarded right
  | .crossProduct left right | .union left right _ => guarded left ++ guarded right
  | _ => []

/-- What stands below a guard after a pass is what the pass makes of what stood there. -/
theorem guarded_of_mapInputs {f : LogicalPlan → LogicalPlan}
    (h : ∀ plan, (f plan).guarded = (plan.mapInputs f).guarded) (plan : LogicalPlan) :
    (f plan).guarded = plan.guarded.map f := by
  rw [h]
  induction plan with
  | filter input _ ih | project input _ ih | sort input _ ih => exact (h input).trans ih
  | aggregate | limit => rfl
  | join left right condition joinType outputTables ihLeft ihRight =>
    rw [← h] at ihLeft ihRight
    rw [mapInputs, guarded, guarded, List.map_append, ihLeft, ihRight]
    cases trackRightMatches joinType <;> cases emitUnmatchedLeft joinType <;> rfl
  | crossProduct left right ihLeft ihRight | union left right _ ihLeft ihRight =>
    rw [← h] at ihLeft ihRight
    rw [mapInputs, guarded, guarded, List.map_append, ihLeft, ihRight]
  | _ => rfl

end LogicalPlan

section Guards

theorem guarded_createFilterChain (input : LogicalPlan) (predicates : List Expr) :
    (AndPredicatePass.createFilterChain input predicates).guarded = input.guarded := by
  induction predicates with
  | nil => rfl
  | cons _ _ ih => exact ih

theorem guarded_andPredicatePass (plan : LogicalPlan) :
    (AndPredicatePass.traverse plan).guarded = plan.guarded.map AndPredicatePass.traverse := by
  apply LogicalPlan.guarded_of_mapInputs
  intro plan
  cases plan with
  | filter input predicate => exact guarded_createFilterChain _ _
  | _ => rfl

theorem guarded_build (plans : List LogicalPlan) :
    (CrossProductPass.buildBinaryCrossProduct plans).guarded =
      plans.flatMap LogicalPlan.guarded := by
  have hpairs : ∀ plans : List LogicalPlan, (CrossProductPass.pairNeighbours plans).flatMap
      LogicalPlan.guarded = plans.flatMap LogicalPlan.guarded := by
    intro plans
    induction plans using CrossProductPass.pairNeighbours.induct with
    | case1 first second rest ih =>
      rw [CrossProductPass.pairNeighbours, List.flatMap_cons, List.flatMap_cons, List.flatMap_cons,
        ih, LogicalPlan.guarded, List.append_assoc]
    | case2 rest hne => rw [CrossProductPass.pairNeighbours.eq_2 _ hne]
  induction plans using CrossProductPass.buildBinaryCrossProduct.induct with
  | case1 =>
    rw [CrossProductPass.buildBinaryCrossProduct]
    rfl
  | case2 plan =>
    rw [CrossProductPass.buildBinaryCrossProduct_singleton]
    exact (List.append_nil _).symm
  | case3 first second rest ih =>
    rw [CrossProductPass.buildBinaryCrossProduct, ih, hpairs]

theorem guarded_crossProductPass (plan : LogicalPlan) :
    (CrossProductPass.traverse plan).guarded = plan.guarded.map CrossProductPass.traverse := by
  apply LogicalPlan.guarded_of_mapInputs
  intro plan
  by_cases hcross : ∃ left right, plan = .crossProduct left right
  · obtain ⟨left, right, rfl⟩ := hcross
    rw [CrossProductPass.traverse, CrossProductPass.crossProductChildren, guarded_build,
      List.flatMap_append, ← guarded_build, ← guarded_build]
    rfl
  · have hchildren :=
      CrossProductPass.traverse_eq_mapInputs fun left right heq => hcross ⟨left, right, heq⟩
    rw [CrossProductPass.traverse, hchildren, CrossProductPass.buildBinaryCrossProduct_singleton]

theorem guarded_implicitJoinsPass (plan : LogicalPlan) :
    (ImplicitJoinsPass.traverse plan).guarded = plan.guarded.map ImplicitJoinsPass.traverse := by
  apply LogicalPlan.guarded_of_mapInputs
  intro plan
  cases plan with
  | filter input predicate =>
    rw [ImplicitJoinsPass.traverse, LogicalPlan.mapInputs, LogicalPlan.guarded]
    generalize ImplicitJoinsPass.traverse input = input
    cases input with
    | crossProduct left right =>
      rw [ImplicitJoinsPass.convertFilter]
      split <;> rfl
    | _ => rfl
  | _ => rfl

theorem guarded_withPredicates {push : Expr → LogicalPlan} {plan : LogicalPlan}
    (h : ∀ predicate, (push predicate).guarded = plan.guarded) (predicates : List Expr) :
    (PredicatePushdown.withPredicates push plan predicates).guarded = plan.guarded := by
  unfold PredicatePushdown.withPredicates
  split
  · rfl
  · exact h _

theorem guarded_tryPushFilter (input : LogicalPlan) (predicate : Expr) :
    (PredicatePushdown.tryPushFilter input predicate).guarded = input.guarded := by
  induction input generalizing predicate with
  | join left right condition joinType outputTables ihLeft ihRight =>
    unfold PredicatePushdown.tryPushFilter PredicatePushdown.pushFilterIntoJoin
    dsimp only
    have hstay : ∀ (join : LogicalPlan) predicates,
        (PredicatePushdown.withPredicates (.filter join) join predicates).guarded =
          join.guarded := fun join =>
      guarded_withPredicates fun _ => rfl
    rw [hstay, LogicalPlan.guarded, LogicalPlan.guarded]
    congr 1
    · split
      next htrack =>
        rw [List.filter_eq_nil_iff.mpr fun term _ hside => ?_]
        · rfl
        · have hkeep := (PredicatePushdown.sideOf_left (of_decide_eq_true hside)).2
          exact Bool.false_ne_true (hkeep.symm.trans htrack)
      next => exact guarded_withPredicates ihLeft _
    · split
      next hemit =>
        rw [List.filter_eq_nil_iff.mpr fun term _ hside => ?_]
        · rfl
        · have hkeep := (PredicatePushdown.sideOf_right (of_decide_eq_true hside)).2
          exact Bool.false_ne_true (hkeep.symm.trans hemit)
      next => exact guarded_withPredicates ihRight _
  | sort input orderBy ih => exact ih predicate
  | _ => rfl

theorem guarded_pushdown (plan : LogicalPlan) :
    (PredicatePushdown.pushdown plan).guarded = plan.guarded.map PredicatePushdown.pushdown := by
  apply LogicalPlan.guarded_of_mapInputs
  intro plan
  cases plan with
  | filter input predicate => exact guarded_tryPushFilter _ _
  | _ => rfl

end Guards

/-- The four passes in the order of the planner. -/
def rewriteFilters (plan : LogicalPlan) : LogicalPlan :=
  PredicatePushdown.pushdown
    (ImplicitJoinsPass.traverse (CrossProductPass.traverse (AndPredicatePass.traverse plan)))

theorem guarded_rewriteFilters (plan : LogicalPlan) :
    (rewriteFilters plan).guarded = plan.guarded.map rewriteFilters := by
  rw [rewriteFilters, guarded_pushdown, guarded_implicitJoinsPass, guarded_crossProductPass,
    guarded_andPredicatePass, List.map_map, List.map_map, List.map_map]
  rfl

variable {runner : PhysicalPlanRunner} {format : Value Scalar → String}

/-- Together the passes keep every row of every plan over different tables. -/
theorem rewrites_rewriteFilters (hagg : runner.AggregatesValues) {plan : LogicalPlan}
    (hplan : plan.All (runner.WellFormed format)) (hnodup : plan.collectTables.Nodup) :
    runner.Rewrites format plan (rewriteFilters plan) := by
  have hand := AndPredicatePass.rewrites_traverse hagg hplan
  have hcross := hand.trans (CrossProductPass.rewrites_traverse hagg hand.wellFormed)
  have himplicit := hcross.trans (ImplicitJoinsPass.rewrites_traverse hagg hcross.wellFormed
    (hcross.tables ▸ hnodup))
  exact himplicit.trans (PredicatePushdown.rewrites_pushdown hagg himplicit.wellFormed
    (himplicit.tables ▸ hnodup))


/-- Moving filters keeps the rows, their order and the columns of every plan over different
tables, and nothing comes below a guard. -/
theorem rewriteFilters_sameResult (groupRowId : List (Value Scalar) → Index.RowId)
    (hagg : runner.aggregateExecutor = AggregateExecutor.execute groupRowId) {plan : LogicalPlan}
    (hplan : plan.All (runner.WellFormed format)) (hnodup : plan.collectTables.Nodup) :
    SameResult (runner.evaluateLogical format plan)
        (runner.evaluateLogical format (rewriteFilters plan)) ∧
      (rewriteFilters plan).guarded = plan.guarded.map rewriteFilters := by
  refine ⟨(rewrites_rewriteFilters ?_ hplan hnodup).rows, guarded_rewriteFilters plan⟩
  intro groupBy aggregates rows rows' hrows
  rw [hagg]
  exact AggregateExecutor.sameValues_execute groupRowId groupBy aggregates hrows

section Samples

def ordersRunner : PhysicalPlanRunner :=
  { PhysicalPlanRunner.ofSource ordersSource with
    aggregateExecutor := AggregateExecutor.execute fun _ => 0 }

theorem rewriteFilters_sameResult_orders :
    SameResult
        (ordersRunner.evaluateLogical noFormat
          (.sort (ordersOfAmount .leftOuter) [(.column ⟨"users", "id", 0⟩, .asc)]))
        (ordersRunner.evaluateLogical noFormat
          (rewriteFilters (.sort (ordersOfAmount .leftOuter) [(.column ⟨"users", "id", 0⟩, .asc)]))) ∧
      (rewriteFilters (.sort (ordersOfAmount .leftOuter)
          [(.column ⟨"users", "id", 0⟩, .asc)])).guarded =
        [rewriteFilters (.scan "orders")] := by
  refine rewriteFilters_sameResult (fun _ => 0) rfl ?_ (by decide)
  have hscan : ∀ table, (LogicalPlan.scan table).All (ordersRunner.WellFormed noFormat) :=
    fun _ => .intro trivial nofun
  refine .intro ?_ fun _ hmem => ?_
  · intro relation hrelation
    obtain rfl := Except.ok.inj hrelation
    exact nofun
  obtain rfl := List.mem_singleton.mp hmem
  refine .intro ?_ fun _ hmem => ?_
  · refine .inr fun col hcol => ?_
    obtain rfl := List.mem_singleton.mp hcol
    exact ⟨by decide, by decide⟩
  obtain rfl := List.mem_singleton.mp hmem
  refine .intro ⟨by decide, by decide⟩ fun _ hmem => ?_
  rcases List.mem_cons.mp hmem with rfl | hmem
  · exact hscan "users"
  · obtain rfl := List.mem_singleton.mp hmem
    exact hscan "orders"

/-- A column beyond those of its table is read from the next one until the filter moves. -/
def usersBeyond : LogicalPlan :=
  .filter (.join (.scan "users") (.scan "orders")
      (.binaryOp (.literal (some (.int32 1))) .eq (.literal (some (.int32 1)))) .inner
      ["users", "orders"])
    (.binaryOp (.column ⟨"users", "age", 1⟩) .eq (.literal (some (.int32 2))))

theorem movedFilter_drops :
    ¬ ∀ (runner : PhysicalPlanRunner) (format : Value Scalar → String) (plan : LogicalPlan)
      (relation rewritten : Relation), plan.collectTables.Nodup →
      runner.evaluateLogical format plan = .ok relation →
      runner.evaluateLogical format (rewriteFilters plan) = .ok rewritten →
      SameRows rewritten.entries relation.entries := by
  intro h
  have hcross : CrossProductPass.traverse usersBeyond = usersBeyond := by
    unfold usersBeyond CrossProductPass.traverse
    simp only [CrossProductPass.crossProductChildren,
      CrossProductPass.buildBinaryCrossProduct_singleton]
  have hpasses : rewriteFilters usersBeyond = PredicatePushdown.pushdown
      (ImplicitJoinsPass.traverse usersBeyond) :=
    congrArg (fun plan => PredicatePushdown.pushdown (ImplicitJoinsPass.traverse plan)) hcross
  have hrewritten := congrArg (ordersRunner.evaluateLogical noFormat) hpasses
  have hsame := h ordersRunner noFormat usersBeyond _ _ (by decide) rfl (hrewritten.trans rfl)
  exact absurd hsame.length_eq (by decide)

end Samples

end Cynos.Query
