import Cynos.Lib.Sort
import Cynos.Query.JoinLayout
import Cynos.Query.Logical

/-! Logical plans whose filters keep the rows their predicate evaluates to true on, and when
two plans yield the same rows. The tables and widths of a result are known from the plan. -/
namespace Cynos.Query

open Core Join

section Columns

mutual

/-- The columns that an expression reads. -/
def exprColumns : Expr → List ColumnRef
  | .column col => [col]
  | .literal _ | .aggregate _ none _ => []
  | .binaryOp left _ right => exprColumns left ++ exprColumns right
  | .unaryOp _ expr | .aggregate _ (some expr) _ | .like expr _ | .notLike expr _ | .match expr _
  | .notMatch expr _ => exprColumns expr
  | .function _ args => exprsColumns args
  | .between expr low high | .notBetween expr low high =>
    exprColumns expr ++ exprColumns low ++ exprColumns high
  | .in expr list | .notIn expr list => exprColumns expr ++ exprsColumns list

def exprsColumns : List Expr → List ColumnRef
  | [] => []
  | expr :: exprs => exprColumns expr ++ exprsColumns exprs

end

variable {functions : Functions} {get get' : Nat → Option (Value Scalar)}
  {ctx ctx' : Option EvalContext}

mutual

/-- An expression has one value wherever its columns have the same values. -/
theorem evalAccessorExpr_congr : ∀ (expr : Expr),
    (∀ col ∈ exprColumns expr, evalColumn get ctx col = evalColumn get' ctx' col) →
    evalAccessorExpr functions get ctx expr = evalAccessorExpr functions get' ctx' expr
  | .column col, h => h col List.mem_cons_self
  | .literal _, _ => rfl
  | .aggregate _ none _, _ => rfl
  | .binaryOp left op right, h => by
    have hleft := evalAccessorExpr_congr left fun col hcol => h col (List.mem_append_left _ hcol)
    have hright := evalAccessorExpr_congr right fun col hcol => h col (List.mem_append_right _ hcol)
    rw [evalAccessorExpr, evalAccessorExpr, hleft, hright]
  | .unaryOp op expr, h => by
    rw [evalAccessorExpr, evalAccessorExpr, evalAccessorExpr_congr expr h]
  | .aggregate _ (some expr) _, h => by
    rw [evalAccessorExpr, evalAccessorExpr, evalAccessorExpr_congr expr h]
  | .like expr pattern, h => by
    rw [evalAccessorExpr, evalAccessorExpr, evalAccessorExpr_congr expr h]
  | .notLike expr pattern, h => by
    rw [evalAccessorExpr, evalAccessorExpr, evalAccessorExpr_congr expr h]
  | .match expr pattern, h => by
    rw [evalAccessorExpr, evalAccessorExpr, evalAccessorExpr_congr expr h]
  | .notMatch expr pattern, h => by
    rw [evalAccessorExpr, evalAccessorExpr, evalAccessorExpr_congr expr h]
  | .function name args, h => by
    rw [evalAccessorExpr, evalAccessorExpr, evalAccessorExprs_congr args h]
  | .between expr low high, h => by
    have hexpr := evalAccessorExpr_congr expr fun col hcol =>
      h col (List.mem_append_left _ (List.mem_append_left _ hcol))
    have hlow := evalAccessorExpr_congr low fun col hcol =>
      h col (List.mem_append_left _ (List.mem_append_right _ hcol))
    have hhigh := evalAccessorExpr_congr high fun col hcol => h col (List.mem_append_right _ hcol)
    rw [evalAccessorExpr, evalAccessorExpr, hexpr, hlow, hhigh]
  | .notBetween expr low high, h => by
    have hexpr := evalAccessorExpr_congr expr fun col hcol =>
      h col (List.mem_append_left _ (List.mem_append_left _ hcol))
    have hlow := evalAccessorExpr_congr low fun col hcol =>
      h col (List.mem_append_left _ (List.mem_append_right _ hcol))
    have hhigh := evalAccessorExpr_congr high fun col hcol => h col (List.mem_append_right _ hcol)
    rw [evalAccessorExpr, evalAccessorExpr, hexpr, hlow, hhigh]
  | .in expr list, h => by
    have hexpr := evalAccessorExpr_congr expr fun col hcol => h col (List.mem_append_left _ hcol)
    have hlist := evalAccessorExprs_congr list fun col hcol => h col (List.mem_append_right _ hcol)
    rw [evalAccessorExpr, evalAccessorExpr, hexpr, hlist]
  | .notIn expr list, h => by
    have hexpr := evalAccessorExpr_congr expr fun col hcol => h col (List.mem_append_left _ hcol)
    have hlist := evalAccessorExprs_congr list fun col hcol => h col (List.mem_append_right _ hcol)
    rw [evalAccessorExpr, evalAccessorExpr, hexpr, hlist]

theorem evalAccessorExprs_congr : ∀ (exprs : List Expr),
    (∀ col ∈ exprsColumns exprs, evalColumn get ctx col = evalColumn get' ctx' col) →
    evalAccessorExprs functions get ctx exprs = evalAccessorExprs functions get' ctx' exprs
  | [], _ => rfl
  | expr :: exprs, h => by
    have hexpr := evalAccessorExpr_congr expr fun col hcol => h col (List.mem_append_left _ hcol)
    have hexprs := evalAccessorExprs_congr exprs fun col hcol =>
      h col (List.mem_append_right _ hcol)
    rw [evalAccessorExprs, evalAccessorExprs, hexpr, hexprs]

end

theorem evalPredicate_congr (expr : Expr)
    (h : ∀ col ∈ exprColumns expr, evalColumn get ctx col = evalColumn get' ctx' col) :
    evalPredicate functions get ctx expr = evalPredicate functions get' ctx' expr := by
  unfold evalPredicate
  rw [evalAccessorExpr_congr expr h]

/-- A row passes an AND when it passes both sides. -/
theorem evalPredicate_and (left right : Expr) :
    evalPredicate functions get ctx (.binaryOp left .and right) =
      (evalPredicate functions get ctx left && evalPredicate functions get ctx right) := by
  unfold evalPredicate
  rw [evalAccessorExpr]
  generalize evalAccessorExpr functions get ctx left = a
  generalize evalAccessorExpr functions get ctx right = b
  unfold evalBinaryOp
  rcases a with _ | a <;> rcases b with _ | b
  · rfl
  · cases b with
    | boolean b => cases b <;> rfl
    | _ => rfl
  · cases a with
    | boolean a => cases a <;> rfl
    | _ => rfl
  · rfl

/-- With at most one table, a column of it is found by its index alone. -/
theorem evalColumn_of_single {ctx : EvalContext} (hsingle : ctx.tables.length ≤ 1)
    {col : ColumnRef} (hcol : col.table ∈ ctx.tables) :
    evalColumn get none col = evalColumn get (some ctx) col := by
  obtain ⟨tables, counts⟩ := ctx
  match tables, hsingle, hcol with
  | [table], _, hcol =>
    obtain rfl := List.mem_singleton.mp hcol
    unfold evalColumn EvalContext.resolveColumnIndex EvalContext.resolveFrom
    dsimp only
    rw [if_pos rfl, Nat.zero_add]

end Columns

section Rows

/-- The same values, whatever the ids. -/
abbrev SameValues (a b : Entry) : Prop := a.values = b.values

namespace Relation

/-- A filter over at most one table reads columns by their index. -/
def filterContext (relation : Relation) : Option EvalContext :=
  if relation.tables.length ≤ 1 then none else some relation.context

/-- The same rows in the same order under the same columns. -/
structure Same (relation relation' : Relation) : Prop where
  context : relation.context = relation'.context
  entries : List.Forall₂ SameValues relation.entries relation'.entries

end Relation

namespace PhysicalPlanRunner

variable (runner : PhysicalPlanRunner) (format : Value Scalar → String)

def satisfies (ctx : Option EvalContext) (predicate : Expr) (entry : Entry) : Bool :=
  evalPredicate runner.functions (Entry.getField entry) ctx predicate

/-- The rows on which a predicate evaluates to true. -/
def satisfying (input : Relation) (predicate : Expr) : Relation :=
  input.filter (runner.satisfies input.filterContext predicate)

/-- The rows on which all of some predicates do. -/
def satisfyingAll (input : Relation) (predicates : List Expr) : Relation :=
  input.filter fun entry =>
    predicates.all fun term => runner.satisfies input.filterContext term entry

def evaluateLogical : LogicalPlan → ExecutionResult Relation
  | .scan table => runner.executeTableScan table
  | .indexScan table index bounds => runner.executeIndexScan table index bounds none none false
  | .indexGet table index key => runner.executeIndexGet table index key none
  | .indexInGet table index keys => runner.executeIndexInGet table index keys
  | .ginIndexScan table index _ _ path value queryType _ =>
    runner.executeGinIndexScan table index (ginPathToKey path)
      (value.map (ginLookupValueToString format)) queryType
  | .ginIndexScanMulti table index _ pairs matchAll _ =>
    runner.executeGinIndexScanMulti table index
      (pairs.map fun (path, value) => (ginPathToKey path, ginLookupValueToString format value))
      matchAll
  | .filter input predicate => do return runner.satisfying (← evaluateLogical input) predicate
  | .project input columns => do return runner.executeProject (← evaluateLogical input) columns
  | .join left right condition joinType outputTables => do
    return runner.executeNestedLoopJoin (← evaluateLogical left) (← evaluateLogical right) condition
      joinType outputTables
  | .aggregate input groupBy aggregates => do
    return runner.executeHashAggregate (← evaluateLogical input) groupBy aggregates
  | .sort input orderBy => do return executeSort (← evaluateLogical input) orderBy
  | .limit input limit offset => do executeLimit (← evaluateLogical input) limit offset
  | .crossProduct left right => do
    return executeCrossProduct (← evaluateLogical left) (← evaluateLogical right)
  | .union left right all => do
    executeUnion (← evaluateLogical left) (← evaluateLogical right) all
  | .empty => return .empty

/-- Comparisons of a column with a literal come out of their kernel as the evaluator says. -/
def FiltersEvaluate : LogicalPlan → Prop
  | .filter input predicate => ∀ relation, runner.executeLogical format input = .ok relation →
      ∀ entry ∈ relation.entries, runner.filterHolds relation predicate entry =
        runner.satisfies relation.filterContext predicate entry
  | _ => True

variable {runner format}

/-- Where every column of the predicate is found, the number of tables does not matter. -/
theorem satisfies_filterContext {relation : Relation} {predicate : Expr}
    (h : ∀ col ∈ exprColumns predicate, relation.context.HasColumn col) (entry : Entry) :
    runner.satisfies relation.filterContext predicate entry =
      runner.satisfies (some relation.context) predicate entry := by
  unfold satisfies Relation.filterContext
  split
  · next hsingle =>
    exact evalPredicate_congr predicate fun col hcol =>
      evalColumn_of_single hsingle (h col hcol).table
  · rfl

/-- The runner's filters are those of the evaluator where the kernels agree with it. -/
theorem executeLogical_eq_evaluateLogical {plan : LogicalPlan}
    (h : plan.All (runner.FiltersEvaluate format)) :
    runner.executeLogical format plan = runner.evaluateLogical format plan := by
  induction h with
  | @intro plan here inputs ih =>
    cases plan with
    | filter input predicate =>
      have hinput := ih input List.mem_cons_self
      rw [executeLogical, evaluateLogical, ← hinput]
      cases hrun : runner.executeLogical format input with
      | error e => rfl
      | ok relation =>
        rw [ok_bind, ok_bind, executeFilter_eq]
        unfold satisfying Relation.filter
        rw [List.filter_congr (here relation hrun)]
    | project input | aggregate input | sort input | limit input =>
      rw [executeLogical, evaluateLogical, ih input List.mem_cons_self]
    | join left right | crossProduct left right | union left right =>
      rw [executeLogical, evaluateLogical, ih left List.mem_cons_self,
        ih right (List.mem_cons_of_mem _ List.mem_cons_self)]
    | _ => rfl

end PhysicalPlanRunner

end Rows

section Same

/-- Two executions that fail alike or yield the same rows. -/
def SameResult : ExecutionResult Relation → ExecutionResult Relation → Prop
  | .ok relation, .ok relation' => relation.Same relation'
  | .error e, .error e' => e = e'
  | _, _ => False

theorem forall₂_sameValues {rows rows' : List Entry} :
    List.Forall₂ SameValues rows rows' ↔ rows.map Row.values = rows'.map Row.values := by
  rw [← List.forall₂_eq_eq_eq, List.forall₂_map_left_iff, List.forall₂_map_right_iff]

namespace Relation.Same

variable {r r' r'' : Relation}

theorem refl (r : Relation) : r.Same r := ⟨rfl, forall₂_sameValues.mpr rfl⟩

theorem symm (h : r.Same r') : r'.Same r :=
  ⟨h.context.symm, forall₂_sameValues.mpr (forall₂_sameValues.mp h.entries).symm⟩

theorem trans (h : r.Same r') (h' : r'.Same r'') : r.Same r'' :=
  ⟨h.context.trans h'.context, forall₂_sameValues.mpr
    ((forall₂_sameValues.mp h.entries).trans (forall₂_sameValues.mp h'.entries))⟩

theorem tables (h : r.Same r') : r.tables = r'.tables := congrArg EvalContext.tables h.context

theorem filterContext (h : r.Same r') : r.filterContext = r'.filterContext := by
  unfold Relation.filterContext
  rw [h.tables, h.context]

end Relation.Same

namespace SameResult

variable {a b c : ExecutionResult Relation}

theorem refl (a : ExecutionResult Relation) : SameResult a a := by
  cases a with
  | ok r => exact Relation.Same.refl r
  | error e => rfl

theorem of_eq (h : a = b) : SameResult a b := h ▸ refl a

theorem symm (h : SameResult a b) : SameResult b a := by
  cases a with
  | ok r =>
    cases b with
    | ok r' => exact h.symm
    | error e => exact h
  | error e =>
    cases b with
    | ok r' => exact h
    | error e' => exact Eq.symm h

theorem trans (h : SameResult a b) (h' : SameResult b c) : SameResult a c := by
  cases a <;> cases b <;> cases c <;> first
    | exact False.elim h
    | exact False.elim h'
    | exact Relation.Same.trans h h'
    | exact Eq.trans h h'

theorem bind {f g : Relation → ExecutionResult Relation} (h : SameResult a b)
    (hf : ∀ r r', r.Same r' → SameResult (f r) (g r')) : SameResult (a >>= f) (b >>= g) := by
  cases a with
  | ok r =>
    cases b with
    | ok r' => exact hf r r' h
    | error e => exact False.elim h
  | error e =>
    cases b with
    | ok r' => exact False.elim h
    | error e' => exact h

end SameResult

namespace PhysicalPlanRunner

variable {runner : PhysicalPlanRunner} {r r' l l' : Relation}

theorem satisfies_congr (ctx : Option EvalContext) (predicate : Expr) {a b : Entry}
    (h : SameValues a b) : runner.satisfies ctx predicate a = runner.satisfies ctx predicate b := by
  unfold satisfies
  rw [getField_congr' h]

theorem same_satisfying (h : r.Same r') (predicate : Expr) :
    (runner.satisfying r predicate).Same (runner.satisfying r' predicate) := by
  refine ⟨h.context, ?_⟩
  unfold satisfying
  rw [h.filterContext]
  apply List.rel_filter _ h.entries
  intro a b hab
  exact iff_of_eq (congrArg (· = true) (satisfies_congr _ predicate hab))

theorem same_executeProject (h : r.Same r') (columns : List Expr) :
    (runner.executeProject r columns).Same (runner.executeProject r' columns) := by
  constructor
  · unfold executeProject Relation.context
    rw [h.tables]
  · unfold executeProject
    rw [h.context]
    apply List.rel_map _ h.entries
    intro a b hab
    unfold projectEntry
    rw [getField_congr' hab]
    rfl

theorem same_executeLimit (h : r.Same r') (limit offset : Nat) :
    SameResult (executeLimit r limit offset) (executeLimit r' limit offset) := by
  unfold executeLimit
  split
  · exact ⟨h.context, List.forall₂_take _ (List.forall₂_drop _ h.entries)⟩
  · rfl

/-- Rows that the comparison of a sort puts in one order. -/
def OrdersRows (cmp : Entry → Entry → Ordering) (rows : List Entry) : Prop :=
  ∀ a ∈ rows, ∀ b ∈ rows, ∀ c ∈ rows, cmp a b ≠ .gt → cmp b c ≠ .gt → cmp a c ≠ .gt

theorem compareEntries_congr (orderBy : List (Nat × SortOrder)) {a a' b b' : Entry}
    (ha : SameValues a a') (hb : SameValues b b') :
    compareEntries orderBy a b = compareEntries orderBy a' b' := by
  induction orderBy with
  | nil => rfl
  | cons key orderBy ih =>
    rw [compareEntries, compareEntries, ih, getField_congr ha, getField_congr hb]

/-- The other way round, the comparison of a sort says the opposite. -/
theorem compareEntries_swap (orderBy : List (Nat × SortOrder)) (a b : Entry) :
    compareEntries orderBy b a = (compareEntries orderBy a b).swap := by
  have hfields : ∀ x y : Option (Value Scalar), compareFields y x = (compareFields x y).swap := by
    intro x y
    cases x <;> cases y <;> first | rfl | exact Value.cmp_swap _ _
  induction orderBy with
  | nil => rfl
  | cons key orderBy ih =>
    rw [compareEntries, compareEntries, ih, hfields, Ordering.swap_then]
    cases key.2 <;> rfl

/-- A filter before a sort whose comparison puts the rows in one order. -/
theorem filter_sortEntries {orderBy : List (Nat × SortOrder)} {rows : List Entry}
    (h : OrdersRows (compareEntries orderBy) rows) (keep : Entry → Bool) :
    (sortEntries (compareEntries orderBy) rows).filter keep =
      sortEntries (compareEntries orderBy) (rows.filter keep) := by
  apply Sort.filter_mergeSort_of_mem
  · intro a ha b hb c hc hab hbc
    rw [bne_iff_ne] at hab hbc ⊢
    exact h a ha b hb c hc hab hbc
  · intro a b
    rw [compareEntries_swap orderBy a b]
    cases compareEntries orderBy a b <;> rfl

theorem same_executeSort (h : r.Same r') (orderBy : List (Expr × SortOrder)) :
    (executeSort r orderBy).Same (executeSort r' orderBy) := by
  refine ⟨h.context, ?_⟩
  unfold executeSort sortEntries
  rw [h.context]
  apply Sort.forall₂_mergeSort h.entries
  intro a a' b b' hab hab'
  rw [compareEntries_congr _ hab hab']

theorem forall₂_distinctEntries {rows rows' : List Entry} (h : List.Forall₂ SameValues rows rows')
    (seen : List (List (Value Scalar))) :
    List.Forall₂ SameValues (distinctEntries seen rows) (distinctEntries seen rows') := by
  induction h generalizing seen with
  | nil => exact .nil
  | cons hab _ ih =>
    rw [distinctEntries, distinctEntries, show _ = _ from hab]
    split
    · exact ih seen
    · exact .cons hab (ih _)

theorem same_executeUnion (hl : l.Same l') (hr : r.Same r') (all : Bool) :
    SameResult (executeUnion l r all) (executeUnion l' r' all) := by
  have hcounts : ∀ {r r' : Relation}, r.Same r' → r.tableColumnCounts = r'.tableColumnCounts :=
    fun h => congrArg EvalContext.tableColumnCounts h.context
  obtain ⟨entries, tables, counts⟩ := l
  obtain ⟨entries', tables', counts'⟩ := l'
  obtain rfl : tables = tables' := hl.tables
  obtain rfl : counts = counts' := hcounts hl
  have happend : List.Forall₂ SameValues (entries ++ r.entries) (entries' ++ r'.entries) :=
    List.rel_append hl.entries hr.entries
  unfold executeUnion
  rw [hcounts hr]
  split
  · rfl
  · split
    · exact ⟨rfl, happend⟩
    · exact ⟨rfl, forall₂_distinctEntries happend []⟩

theorem sameValues_materializeRow (layout : JoinOutputLayout) {a b a' b' : Option Entry}
    (ha : Option.Rel SameValues a a') (hb : Option.Rel SameValues b b') :
    SameValues (layout.materializeRow a b) (layout.materializeRow a' b') := by
  have hmap : ∀ {a a' : Option Entry}, Option.Rel SameValues a a' →
      a.map Row.values = a'.map Row.values := by
    intro a a' h
    cases h with
    | none => rfl
    | some h => exact congrArg some h
  exact materializeRow_values_congr layout (hmap ha) (hmap hb)

theorem same_executeNestedLoopJoin (hl : l.Same l') (hr : r.Same r') (condition : Expr)
    (joinType : JoinType) (outputTables : List TableName) :
    (runner.executeNestedLoopJoin l r condition joinType outputTables).Same
      (runner.executeNestedLoopJoin l' r' condition joinType outputTables) := by
  rw [executeNestedLoopJoin_eq, executeNestedLoopJoin_eq, hl.context, hr.context]
  refine ⟨rfl, loopJoin_forall₂ _ _ hl.entries hr.entries ?_ ?_⟩
  · intro a a' b b' ha hb
    unfold joinHolds
    rw [getField_congr' (sameValues_materializeRow _ (.some ha) (.some hb))]
  · intro a a' b b' ha hb
    exact sameValues_materializeRow _ ha hb

theorem same_executeCrossProduct (hl : l.Same l') (hr : r.Same r') :
    (executeCrossProduct l r).Same (executeCrossProduct l' r') := by
  unfold executeCrossProduct emitCrossProductEntries
  rw [hl.context, hr.context, hl.tables, hr.tables]
  refine ⟨rfl, List.rel_flatMap hl.entries ?_⟩
  intro a a' ha
  apply List.rel_map _ hr.entries
  intro b b' hb
  exact sameValues_materializeRow _ (.some ha) (.some hb)

/-- What the rows of an aggregate hold depends on what its input rows hold. -/
def AggregatesValues (runner : PhysicalPlanRunner) : Prop :=
  ∀ groupBy aggregates rows rows', List.Forall₂ SameValues rows rows' →
    List.Forall₂ SameValues (runner.aggregateExecutor groupBy aggregates rows)
      (runner.aggregateExecutor groupBy aggregates rows')

theorem same_executeHashAggregate (hagg : runner.AggregatesValues) (h : r.Same r')
    (groupBy : List Expr) (aggregates : List (AggregateFunc × Expr)) :
    (runner.executeHashAggregate r groupBy aggregates).Same
      (runner.executeHashAggregate r' groupBy aggregates) := by
  unfold executeHashAggregate
  rw [h.context]
  constructor
  · unfold Relation.context
    rw [h.tables]
  · exact hagg _ _ _ _ h.entries

end PhysicalPlanRunner

end Same

end Cynos.Query
