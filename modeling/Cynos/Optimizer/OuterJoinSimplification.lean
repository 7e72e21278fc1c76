import Cynos.Query.Faithful
import Cynos.Query.Logical

/-! Outer joins whose kept rows a filter above them rejects, and what the filter really
rejects. -/
namespace Cynos.Query

open Core Join

section Pass

variable (tables : List TableName)

mutual

def exprReferencesTables : Expr → Bool
  | .column col => decide (col.table ∈ tables)
  | .binaryOp left _ right => exprReferencesTables left || exprReferencesTables right
  | .unaryOp _ expr => exprReferencesTables expr
  | .function _ args => exprsReferenceTables args
  | .aggregate _ none _ => false
  | .aggregate _ (some expr) _ => exprReferencesTables expr
  | .between expr low high | .notBetween expr low high =>
    exprReferencesTables expr || exprReferencesTables low || exprReferencesTables high
  | .in expr list | .notIn expr list => exprReferencesTables expr || exprsReferenceTables list
  | .like expr _ | .notLike expr _ | .match expr _ | .notMatch expr _ => exprReferencesTables expr
  | .literal _ => false

def exprsReferenceTables : List Expr → Bool
  | [] => false
  | expr :: exprs => exprReferencesTables expr || exprsReferenceTables exprs

end

def isLiteral : Expr → Bool
  | .literal _ => true
  | _ => false

def predicateRejectsNull : Expr → Bool
  | .unaryOp .isNotNull expr => exprReferencesTables tables expr
  | .binaryOp left .and right => predicateRejectsNull left || predicateRejectsNull right
  | .binaryOp left .or right => predicateRejectsNull left && predicateRejectsNull right
  | .binaryOp left op right =>
    match op with
    | .eq | .ne | .lt | .le | .gt | .ge =>
      let leftRefsTables := exprReferencesTables tables left
      let rightRefsTables := exprReferencesTables tables right
      (leftRefsTables && isLiteral right) || (rightRefsTables && isLiteral left) ||
        (leftRefsTables && rightRefsTables)
    | .like | .in | .between => exprReferencesTables tables left
    | _ => false
  | .in expr _ | .between expr _ _ | .like expr _ => exprReferencesTables tables expr
  | .unaryOp .not (.unaryOp .isNull inner) => exprReferencesTables tables inner
  | _ => false

def trySimplifyJoin (predicate : Expr) (left right : LogicalPlan) : JoinType → Option JoinType
  | .leftOuter =>
    if predicateRejectsNull right.collectTables predicate then some .inner else none
  | .rightOuter =>
    if predicateRejectsNull left.collectTables predicate then some .inner else none
  | .fullOuter =>
    let rejectsLeftNull := predicateRejectsNull left.collectTables predicate
    let rejectsRightNull := predicateRejectsNull right.collectTables predicate
    if rejectsLeftNull && rejectsRightNull then some .inner
    else if rejectsRightNull then some .leftOuter
    else if rejectsLeftNull then some .rightOuter
    else none
  | .inner | .cross => none

/-- A filter looks at the join that is its input. -/
def simplifyFilter (predicate : Expr) : LogicalPlan → LogicalPlan
  | .join left right condition joinType outputTables =>
    .filter (.join left right condition
      ((trySimplifyJoin predicate left right joinType).getD joinType) outputTables) predicate
  | input => .filter input predicate

def simplify : LogicalPlan → LogicalPlan
  | .filter input predicate => simplifyFilter predicate (simplify input)
  | .project input columns => .project (simplify input) columns
  | .join left right condition joinType outputTables =>
    .join (simplify left) (simplify right) condition joinType outputTables
  | .aggregate input groupBy aggregates => .aggregate (simplify input) groupBy aggregates
  | .sort input orderBy => .sort (simplify input) orderBy
  | .limit input limit offset => .limit (simplify input) limit offset
  | .crossProduct left right => .crossProduct (simplify left) (simplify right)
  | .union left right all => .union (simplify left) (simplify right) all
  | plan => plan

@[simp] theorem collectTables_simplifyFilter (predicate : Expr) (input : LogicalPlan) :
    (simplifyFilter predicate input).collectTables = input.collectTables := by
  cases input <;> rfl

@[simp] theorem collectTables_simplify (plan : LogicalPlan) :
    (simplify plan).collectTables = plan.collectTables := by
  induction plan with
  | filter input predicate ih => rw [simplify, collectTables_simplifyFilter, ih]; rfl
  | project | aggregate | sort | limit => assumption
  | join left right condition joinType outputTables ihLeft ihRight =>
    exact congrArg₂ (· ++ ·) ihLeft ihRight
  | crossProduct left right ihLeft ihRight | union left right all ihLeft ihRight =>
    exact congrArg₂ (· ++ ·) ihLeft ihRight
  | _ => rfl

theorem trySimplifyJoin_simplify (predicate : Expr) (left right : LogicalPlan)
    (joinType : JoinType) :
    trySimplifyJoin predicate (simplify left) (simplify right) joinType =
      trySimplifyJoin predicate left right joinType := by
  unfold trySimplifyJoin
  simp only [collectTables_simplify]

/-- A join that is simplified keeps no rows that it did not keep before. -/
theorem trySimplifyJoin_keeps {predicate : Expr} {left right : LogicalPlan}
    {joinType newJoinType : JoinType}
    (h : trySimplifyJoin predicate left right joinType = some newJoinType) :
    (emitUnmatchedLeft newJoinType = true → emitUnmatchedLeft joinType = true) ∧
      (trackRightMatches newJoinType = true → trackRightMatches joinType = true) := by
  cases joinType with
  | fullOuter => exact ⟨fun _ => rfl, fun _ => rfl⟩
  | leftOuter =>
    rw [trySimplifyJoin] at h
    split at h
    · obtain rfl := Option.some.inj h
      exact ⟨fun _ => rfl, id⟩
    · cases h
  | rightOuter =>
    rw [trySimplifyJoin] at h
    split at h
    · obtain rfl := Option.some.inj h
      exact ⟨id, fun _ => rfl⟩
    · cases h
  | inner | cross => cases h

end Pass

namespace PhysicalPlanRunner

variable (runner : PhysicalPlanRunner) (format : Value Scalar → String)

section Drops

/-- A row that the new join type does not keep any more passes the filter. -/
def JoinDrops (l r : Relation) (condition predicate : Expr) (outputTables : List TableName)
    (joinType newJoinType : JoinType) : Prop :=
  let layout := JoinOutputLayout.fromSources l.context r.context outputTables
  let joins (a b : Entry) :=
    runner.joinHolds layout condition (layout.materializeRow (some a) (some b))
  let passes := runner.filterHolds (joinRelation layout []) predicate
  (emitUnmatchedLeft joinType = true ∧ emitUnmatchedLeft newJoinType = false ∧
    ∃ a ∈ l.entries, (∀ b ∈ r.entries, joins a b = false) ∧
      passes (layout.materializeRow (some a) none) = true) ∨
  (trackRightMatches joinType = true ∧ trackRightMatches newJoinType = false ∧
    ∃ b ∈ r.entries, (∀ a ∈ l.entries, joins a b = false) ∧
      passes (layout.materializeRow none (some b)) = true)

/-- A node whose rows the pass changes: a filter over a join. -/
def DropsRows : LogicalPlan → Prop
  | .filter (.join left right condition joinType outputTables) predicate =>
    ∃ l r newJoinType, runner.executeLogical format left = .ok l ∧
      runner.executeLogical format right = .ok r ∧
      trySimplifyJoin predicate left right joinType = some newJoinType ∧
      runner.JoinDrops l r condition predicate outputTables joinType newJoinType
  | _ => False

variable {runner format}

/-- A filter over a simplified join yields the same rows, in the same order, or fewer. -/
theorem executeFilter_simplified {l r : Relation} {condition predicate : Expr}
    {joinType newJoinType : JoinType} {outputTables : List TableName}
    (hleft : emitUnmatchedLeft newJoinType = true → emitUnmatchedLeft joinType = true)
    (hright : trackRightMatches newJoinType = true → trackRightMatches joinType = true) :
    let filtered joinType := runner.executeFilter
      (runner.executeNestedLoopJoin l r condition joinType outputTables) predicate
    (¬ runner.JoinDrops l r condition predicate outputTables joinType newJoinType →
        filtered newJoinType = filtered joinType) ∧
      ((filtered newJoinType).entries.length = (filtered joinType).entries.length →
        ¬ runner.JoinDrops l r condition predicate outputTables joinType newJoinType) := by
  intro filtered
  let layout := JoinOutputLayout.fromSources l.context r.context outputTables
  let joins (a b : Entry) :=
    runner.joinHolds layout condition (layout.materializeRow (some a) (some b))
  let passes := runner.filterHolds (joinRelation layout []) predicate
  have hfiltered : ∀ joinType, filtered joinType = joinRelation layout ((loopJoin joins
      layout.materializeRow (emitUnmatchedLeft joinType) (trackRightMatches joinType) l.entries
        r.entries).filter passes) := by
    intro joinType
    dsimp only [filtered]
    rw [executeFilter_eq]
    rfl
  have hdrops : ¬ runner.JoinDrops l r condition predicate outputTables joinType newJoinType ↔
      Rejected passes (emitUnmatchedLeft joinType) (emitUnmatchedLeft newJoinType)
        (unmatchedLeft joins layout.materializeRow l.entries r.entries) ∧
      Rejected passes (trackRightMatches joinType) (trackRightMatches newJoinType)
        (unmatchedRight joins layout.materializeRow l.entries r.entries) := by
    rw [rejected_unmatchedLeft_iff, rejected_unmatchedRight_iff]
    exact not_or
  rw [hdrops, hfiltered, hfiltered]
  exact ⟨fun h => congrArg _ (filter_loopJoin_eq passes _ _ hleft hright h.1 h.2),
    (length_filter_loopJoin_iff passes _ _ hleft hright).mp⟩

/-- A filter over a join, simplified: only the join type may differ. -/
theorem executeLogical_simplify_filterJoin {left right : LogicalPlan}
    (hleft : runner.executeLogical format (simplify left) = runner.executeLogical format left)
    (hright : runner.executeLogical format (simplify right) = runner.executeLogical format right)
    (condition predicate : Expr) (joinType : JoinType) (outputTables : List TableName) :
    runner.executeLogical format
        (simplify (.filter (.join left right condition joinType outputTables) predicate)) =
      runner.executeLogical format (.filter (.join left right condition
        ((trySimplifyJoin predicate left right joinType).getD joinType) outputTables) predicate) := by
  rw [simplify, simplify, simplifyFilter, trySimplifyJoin_simplify]
  simp only [executeLogical, hleft, hright]

theorem simplifyFilter_of_not_join {input : LogicalPlan} (predicate : Expr)
    (h : ∀ left right condition joinType outputTables,
      input ≠ .join left right condition joinType outputTables) :
    simplifyFilter predicate input = .filter input predicate := by
  cases input with
  | join left right condition joinType outputTables => exact absurd rfl (h _ _ _ _ _)
  | _ => rfl

theorem simplify_ne_join {input : LogicalPlan} (h : ∀ left right condition joinType outputTables,
      input ≠ .join left right condition joinType outputTables)
    (left right : LogicalPlan) (condition : Expr) (joinType : JoinType)
    (outputTables : List TableName) :
    simplify input ≠ .join left right condition joinType outputTables := by
  cases input with
  | join => exact absurd rfl (h _ _ _ _ _)
  | filter input predicate =>
    rw [simplify]
    cases simplify input <;> exact fun heq => by cases heq
  | _ => exact fun heq => by cases heq

/-- Any other node is carried over to the simplified inputs. -/
theorem executeLogical_simplify_node {plan : LogicalPlan}
    (hplan : ∀ left right condition joinType outputTables predicate,
      plan ≠ .filter (.join left right condition joinType outputTables) predicate)
    (hinputs : ∀ input ∈ plan.inputs,
      runner.executeLogical format (simplify input) = runner.executeLogical format input) :
    runner.executeLogical format (simplify plan) = runner.executeLogical format plan := by
  cases plan with
  | filter input predicate =>
    have hinput := hinputs input List.mem_cons_self
    have hjoin : ∀ left right condition joinType outputTables,
        input ≠ .join left right condition joinType outputTables := by
      rintro left right condition joinType outputTables rfl
      exact hplan _ _ _ _ _ _ rfl
    rw [simplify, simplifyFilter_of_not_join _ (simplify_ne_join hjoin)]
    simp only [executeLogical, hinput]
  | project input | aggregate input | sort input | limit input =>
    simp only [simplify, executeLogical, hinputs input List.mem_cons_self]
  | join left right | crossProduct left right | union left right =>
    simp only [simplify, executeLogical, hinputs left List.mem_cons_self,
      hinputs right (List.mem_cons_of_mem _ List.mem_cons_self)]
  | _ => rfl

/-- A filter over a join: the rows are the same unless some are dropped. -/
theorem executeLogical_simplify_filter {left right : LogicalPlan} {condition predicate : Expr}
    {joinType : JoinType} {outputTables : List TableName}
    (hleft : runner.executeLogical format (simplify left) = runner.executeLogical format left)
    (hright : runner.executeLogical format (simplify right) = runner.executeLogical format right)
    (hdrops : ¬ runner.DropsRows format
      (.filter (.join left right condition joinType outputTables) predicate)) :
    runner.executeLogical format
        (simplify (.filter (.join left right condition joinType outputTables) predicate)) =
      runner.executeLogical format
        (.filter (.join left right condition joinType outputTables) predicate) := by
  rw [executeLogical_simplify_filterJoin hleft hright]
  cases htry : trySimplifyJoin predicate left right joinType with
  | none => rfl
  | some newJoinType =>
    simp only [executeLogical]
    cases hl : runner.executeLogical format left with
    | error e => rfl
    | ok l =>
      cases hr : runner.executeLogical format right with
      | error e => rfl
      | ok r =>
        obtain ⟨hkeepsLeft, hkeepsRight⟩ := trySimplifyJoin_keeps htry
        exact congrArg Except.ok ((executeFilter_simplified hkeepsLeft hkeepsRight).1
          fun h => hdrops ⟨l, r, newJoinType, hl, hr, htry, h⟩)

/-- Where nothing is dropped, the pass changes neither the rows nor their order. -/
theorem executeLogical_simplify {plan : LogicalPlan}
    (h : plan.All fun node => ¬ runner.DropsRows format node) :
    runner.executeLogical format (simplify plan) = runner.executeLogical format plan ∧
      ∀ input ∈ plan.inputs,
        runner.executeLogical format (simplify input) = runner.executeLogical format input := by
  induction h with
  | @intro plan here inputs ih =>
    have hinputs := fun input hmem => (ih input hmem).1
    refine ⟨?_, hinputs⟩
    by_cases hplan : ∃ left right condition joinType outputTables predicate,
        plan = .filter (.join left right condition joinType outputTables) predicate
    · obtain ⟨left, right, condition, joinType, outputTables, predicate, rfl⟩ := hplan
      have hjoin := (ih _ List.mem_cons_self).2
      exact executeLogical_simplify_filter (hjoin left List.mem_cons_self)
        (hjoin right (List.mem_cons_of_mem _ List.mem_cons_self)) here
    · exact executeLogical_simplify_node (fun _ _ _ _ _ _ heq => hplan ⟨_, _, _, _, _, _, heq⟩)
        hinputs

end Drops

end PhysicalPlanRunner

section Rejection

def JoinInputSide.other : JoinInputSide → JoinInputSide
  | .left => .right
  | .right => .left

/-- The side that a place of a joined row is filled from. -/
def segmentSide : List JoinOutputSegment → Nat → Option JoinInputSide
  | [], _ => none
  | segment :: segments, index =>
    if index < segment.width then some segment.side else segmentSide segments (index - segment.width)

def columnSide (layout : JoinOutputLayout) (col : ColumnRef) : Option JoinInputSide :=
  segmentSide layout.segments (layout.context.resolveColumnIndex col.table col.index)

variable (layout : JoinOutputLayout) (side : JoinInputSide)

/-- An expression that is `Null` where one side of a joined row is. -/
def nullOn : Expr → Bool
  | .column col => columnSide layout col != some side.other
  | .literal value => Value.isNull value
  | .binaryOp _ .and _ | .binaryOp _ .or _ => false
  | .binaryOp _ .like _ | .binaryOp _ .in _ | .binaryOp _ .between _ => true
  | .binaryOp left _ right => nullOn left || nullOn right
  | .unaryOp .not expr | .unaryOp .neg expr => nullOn expr
  | _ => false

def isNonNullLiteral : Expr → Bool
  | .literal value => !Value.isNull value
  | _ => false

/-- A predicate that is not true where one side of a joined row is `Null`, because its operands
pass the `Null` on. -/
def rejectsNullOn : Expr → Bool
  | .unaryOp .isNotNull expr => nullOn layout side expr
  | .unaryOp .not (.unaryOp .isNull inner) => nullOn layout side inner
  | .binaryOp left .and right => rejectsNullOn left || rejectsNullOn right
  | .binaryOp left .or right => rejectsNullOn left && rejectsNullOn right
  | .in expr list => nullOn layout side expr && list.all isNonNullLiteral
  | .between expr low _ => nullOn layout side expr && isNonNullLiteral low
  | .like expr _ => nullOn layout side expr
  | expr => nullOn layout side expr

variable {layout side} {left right : Option Entry}

theorem segmentValues_length (segment : JoinOutputSegment) :
    (segmentValues left right segment).length = segment.width := by
  unfold segmentValues
  split <;> simp

/-- What a joined row takes from one side. -/
def JoinInputSide.pick (left right : Option Entry) : JoinInputSide → Option Entry
  | .left => left
  | .right => right

theorem segmentValues_null {segment : JoinOutputSegment}
    (h : segment.side.pick left right = none) :
    segmentValues left right segment = List.replicate segment.width Value.null := by
  obtain ⟨side, sourceOffset, width⟩ := segment
  cases side with
  | left =>
    cases left with
    | none => rfl
    | some entry => cases h
  | right =>
    cases right with
    | none => rfl
    | some entry => cases h

theorem getElem?_segments_null (hside : side.pick left right = none)
    (segments : List JoinOutputSegment) {index : Nat}
    (h : segmentSide segments index ≠ some side.other) :
    ((segments.flatMap (segmentValues left right))[index]?).getD Value.null = Value.null := by
  induction segments generalizing index with
  | nil => rfl
  | cons segment segments ih =>
    rw [segmentSide] at h
    rw [List.flatMap_cons]
    split at h
    · rename_i hlt
      have hsegment : segment.side = side := by
        cases hs : segment.side <;> cases side <;> rw [hs] at h <;>
          first | rfl | exact absurd rfl h
      rw [List.getElem?_append_left (by rw [segmentValues_length]; exact hlt),
        segmentValues_null (hsegment ▸ hside), List.getElem?_replicate, if_pos hlt]
      rfl
    · rename_i hlt
      rw [List.getElem?_append_right (by rw [segmentValues_length]; omega), segmentValues_length]
      exact ih h

variable (hside : side.pick left right = none) (functions : Functions)
include hside

/-- A column that is not one of the other side's is `Null`. -/
theorem evalColumn_null {col : ColumnRef} (h : columnSide layout col ≠ some side.other) :
    evalColumn (Entry.getField (layout.materializeRow left right)) (some layout.context) col =
      none :=
  getElem?_segments_null hside layout.segments h

omit hside in
theorem evalBinaryOp_null_of {op : BinaryOp} {a b : Expr} {x y : Value Scalar}
    (ha : nullOn layout side a = true → x = none) (hb : nullOn layout side b = true → y = none)
    (h : nullOn layout side (.binaryOp a op b) = true) : evalBinaryOp op x y = none := by
  have hpass : op ≠ .and ∧ op ≠ .or → (nullOn layout side a || nullOn layout side b) = true →
      evalBinaryOp op x y = none := by
    intro hop hab
    refine evalBinaryOp_null hop ?_
    rcases (Bool.or_eq_true _ _).mp hab with hnull | hnull
    · exact .inl (ha hnull)
    · exact .inr (hb hnull)
  cases op
  case and | or => exact absurd h Bool.false_ne_true
  case like | «in» | between => rcases x with _ | x <;> rcases y with _ | y <;> rfl
  all_goals exact hpass ⟨nofun, nofun⟩ h

/-- What passes `Null` on is `Null` where the side is. -/
theorem eval_nullOn : (expr : Expr) → nullOn layout side expr = true →
    evalAccessorExpr functions (Entry.getField (layout.materializeRow left right))
      (some layout.context) expr = none
  | .column col, h => by
    rw [evalAccessorExpr]
    exact evalColumn_null hside fun heq => by
      rw [nullOn, heq, bne_self_eq_false] at h
      exact Bool.false_ne_true h
  | .literal value, h => by
    rw [evalAccessorExpr]
    cases value with
    | none => rfl
    | some a => exact absurd h Bool.false_ne_true
  | .binaryOp a op b, h => by
    rw [evalAccessorExpr]
    exact evalBinaryOp_null_of (eval_nullOn a) (eval_nullOn b) h
  | .unaryOp .not expr, h | .unaryOp .neg expr, h => by
    rw [evalAccessorExpr, eval_nullOn expr h]
    rfl

omit hside in
theorem exists_literal {expr : Expr} (h : isNonNullLiteral expr = true) :
    ∃ value, expr = .literal value ∧ Value.isNull value = false := by
  cases expr with
  | literal value => exact ⟨value, rfl, (Bool.not_eq_true' _).mp h⟩
  | _ => exact absurd h Bool.false_ne_true

omit hside in
theorem eq_ge_null {value other : Value Scalar} (hvalue : value = none)
    (hother : Value.isNull other = false) :
    Value.eq other value = false ∧ Value.ge value other = false := by
  subst hvalue
  rcases other with _ | other
  · cases hother
  · exact ⟨rfl, rfl⟩

omit hside in
/-- No literal of a list without `Null` equals `Null`. -/
theorem any_eq_null {get : Nat → Option (Value Scalar)} {ctx : Option EvalContext}
    {list : List Expr} (h : list.all isNonNullLiteral = true) {value : Value Scalar}
    (hvalue : value = none) :
    ((evalAccessorExprs functions get ctx list).any fun item => Value.eq item value) = false := by
  induction list with
  | nil => rw [evalAccessorExprs]; rfl
  | cons expr list ih =>
    rw [List.all_cons, Bool.and_eq_true] at h
    obtain ⟨literal, rfl, hliteral⟩ := exists_literal h.1
    rw [evalAccessorExprs, List.any_cons, ih h.2, Bool.or_false, evalAccessorExpr]
    exact (eq_ge_null hvalue hliteral).1

omit hside in
theorem isTrue_null {value : Value Scalar} (h : value = none) : Value.isTrue value = false := by
  subst h
  rfl

theorem evalPredicate_nullOn {predicate : Expr} (h : nullOn layout side predicate = true) :
    evalPredicate functions (Entry.getField (layout.materializeRow left right))
      (some layout.context) predicate = false :=
  isTrue_null (eval_nullOn hside functions predicate h)

/-- A row that is `Null` on the side does not pass. -/
theorem evalPredicate_rejects : (predicate : Expr) →
    rejectsNullOn layout side predicate = true →
    evalPredicate functions (Entry.getField (layout.materializeRow left right))
      (some layout.context) predicate = false
  | .unaryOp op expr, h => by
    cases op with
    | isNotNull =>
      rw [evalPredicate, evalAccessorExpr, eval_nullOn hside functions expr h]
      rfl
    | neg | isNull => exact evalPredicate_nullOn hside functions h
    | not =>
      cases expr with
      | unaryOp op inner =>
        cases op with
        | isNull =>
          rw [evalPredicate, evalAccessorExpr, evalAccessorExpr, eval_nullOn hside functions inner h]
          rfl
        | _ => exact evalPredicate_nullOn hside functions h
      | _ => exact evalPredicate_nullOn hside functions h
  | .binaryOp a op b, h => by
    cases op with
    | and =>
      rw [evalPredicate, evalAccessorExpr, isTrue_evalBinaryOp_and, Bool.and_eq_false_iff]
      rw [rejectsNullOn, Bool.or_eq_true] at h
      exact h.imp (evalPredicate_rejects a) (evalPredicate_rejects b)
    | or =>
      rw [evalPredicate, evalAccessorExpr, isTrue_evalBinaryOp_or, Bool.or_eq_false_iff]
      rw [rejectsNullOn, Bool.and_eq_true] at h
      exact h.imp (evalPredicate_rejects a) (evalPredicate_rejects b)
    | _ => exact evalPredicate_nullOn hside functions h
  | .in expr list, h => by
    rw [rejectsNullOn, Bool.and_eq_true] at h
    rw [evalPredicate, evalAccessorExpr]
    exact any_eq_null functions h.2 (eval_nullOn hside functions expr h.1)
  | .between expr low high, h => by
    rw [rejectsNullOn, Bool.and_eq_true] at h
    obtain ⟨literal, rfl, hliteral⟩ := exists_literal h.2
    have hge := (eq_ge_null (eval_nullOn hside functions expr h.1) hliteral).2
    rw [evalPredicate, evalAccessorExpr, evalAccessorExpr]
    change (Value.ge _ literal && _) = false
    rw [hge]
    rfl
  | .like expr pattern, h => by
    rw [evalPredicate, evalAccessorExpr, eval_nullOn hside functions expr h]
    rfl
  | .column _, h | .literal _, h | .function _ _, h | .aggregate _ _ _, h | .notBetween _ _ _, h
  | .notIn _ _, h | .notLike _ _, h | .match _ _, h | .notMatch _ _, h =>
    evalPredicate_nullOn hside functions h

end Rejection

namespace PhysicalPlanRunner

variable (runner : PhysicalPlanRunner) (format : Value Scalar → String)

/-- A filter that itself rejects the rows that the pass no longer keeps in the join below. -/
def RejectsDropped : LogicalPlan → Prop
  | .filter (.join left right _ joinType outputTables) predicate =>
    ∀ l r newJoinType, runner.executeLogical format left = .ok l →
      runner.executeLogical format right = .ok r →
      trySimplifyJoin predicate left right joinType = some newJoinType →
      let layout := JoinOutputLayout.fromSources l.context r.context outputTables
      1 < layout.tables.length ∧
        (emitUnmatchedLeft joinType = true → emitUnmatchedLeft newJoinType = false →
          rejectsNullOn layout .right predicate = true) ∧
        (trackRightMatches joinType = true → trackRightMatches newJoinType = false →
          rejectsNullOn layout .left predicate = true)
  | _ => True

variable {runner format}

theorem filterHolds_rejects {layout : JoinOutputLayout} (htables : 1 < layout.tables.length)
    {side : JoinInputSide} {left right : Option Entry} (hside : side.pick left right = none)
    {predicate : Expr} (h : rejectsNullOn layout side predicate = true) :
    runner.filterHolds (joinRelation layout []) predicate (layout.materializeRow left right) =
      false := by
  have hmany : ¬ (joinRelation layout []).tables.length ≤ 1 := Nat.not_le.mpr htables
  unfold filterHolds
  exact (if_neg hmany).trans (evalPredicate_rejects hside runner.functions predicate h)

theorem not_dropsRows {plan : LogicalPlan} (h : runner.RejectsDropped format plan) :
    ¬ runner.DropsRows format plan := by
  unfold DropsRows
  split
  · rintro ⟨l, r, newJoinType, hl, hr, htry, hdrops⟩
    obtain ⟨htables, hleft, hright⟩ := h l r newJoinType hl hr htry
    rcases hdrops with ⟨hkeep, hkeep', a, -, -, hpass⟩ | ⟨hkeep, hkeep', b, -, -, hpass⟩
    · have hrejects := @filterHolds_rejects runner _ htables _ (some a) none rfl _
        (hleft hkeep hkeep')
      exact Bool.false_ne_true (hrejects.symm.trans hpass)
    · have hrejects := @filterHolds_rejects runner _ htables _ none (some b) rfl _
        (hright hkeep hkeep')
      exact Bool.false_ne_true (hrejects.symm.trans hpass)
  · exact id

/-- A filter whose rows are dropped yields fewer of them. -/
theorem executeLogical_simplify_of_drops {left right : LogicalPlan} {condition predicate : Expr}
    {joinType : JoinType} {outputTables : List TableName} {relation simplified : Relation}
    (hleft : runner.executeLogical format (simplify left) = runner.executeLogical format left)
    (hright : runner.executeLogical format (simplify right) = runner.executeLogical format right)
    (h : runner.executeLogical format
      (.filter (.join left right condition joinType outputTables) predicate) = .ok relation)
    (hsimplified : runner.executeLogical format
      (simplify (.filter (.join left right condition joinType outputTables) predicate)) =
        .ok simplified)
    (hdrops : runner.DropsRows format
      (.filter (.join left right condition joinType outputTables) predicate)) :
    simplified.entries.length ≠ relation.entries.length := by
  obtain ⟨l, r, newJoinType, hl, hr, htry, hdrops⟩ := hdrops
  rw [executeLogical_simplify_filterJoin hleft hright, htry] at hsimplified
  simp only [executeLogical, hl, hr, ok_bind, pure_eq_ok, Option.getD_some] at h hsimplified
  obtain rfl := Except.ok.inj h
  obtain rfl := Except.ok.inj hsimplified
  obtain ⟨hkeepsLeft, hkeepsRight⟩ := trySimplifyJoin_keeps htry
  exact fun hlength => (executeFilter_simplified hkeepsLeft hkeepsRight).2 hlength hdrops

/-- The pass keeps the rows of a plan whose inputs it keeps exactly when it drops none; it
drops none where filters themselves reject the rows that are no longer kept. -/
theorem simplify_rows_iff {plan : LogicalPlan} {relation : Relation}
    (hinputs : ∀ input ∈ plan.inputs, input.All fun node => ¬ runner.DropsRows format node)
    (h : runner.executeLogical format plan = .ok relation) :
    ((∃ simplified, runner.executeLogical format (simplify plan) = .ok simplified ∧
        SameRows simplified.entries relation.entries) ↔ ¬ runner.DropsRows format plan) ∧
      (runner.RejectsDropped format plan → ¬ runner.DropsRows format plan) := by
  refine ⟨⟨?_, fun hdrops => ?_⟩, not_dropsRows⟩
  · rintro ⟨simplified, hsimplified, hsame⟩ hdrops
    cases plan with
    | filter input predicate =>
      cases input with
      | join left right condition joinType outputTables =>
        have hjoin := executeLogical_simplify (hinputs _ List.mem_cons_self)
        exact executeLogical_simplify_of_drops (hjoin.2 left List.mem_cons_self)
          (hjoin.2 right (List.mem_cons_of_mem _ List.mem_cons_self)) h hsimplified hdrops
          hsame.length_eq
      | _ => exact hdrops
    | _ => exact hdrops
  · exact ⟨relation, (executeLogical_simplify (.intro hdrops hinputs)).1.trans h, .refl _⟩

end PhysicalPlanRunner

section Samples

/-- A user and an order of another user. -/
def ordersSource : DataSource where
  getTableRows
    | "users" => .ok [.newWithVersion 1 1 [some (.int32 1)]]
    | "orders" => .ok [.newWithVersion 1 1 [some (.int32 2), some (.int32 100)]]
    | table => .error (.tableNotFound table)
  getColumnCount
    | "users" => .ok 1
    | "orders" => .ok 2
    | table => .error (.tableNotFound table)
  getIndexRange _ _ _ _ := .ok []
  getGinIndexRows _ _ _ _ := .ok []
  getGinIndexRowsByKey _ _ _ := .ok []
  getGinIndexRowsMulti _ _ _ _ := .ok []

/-- The orders of an amount, with the users they join. -/
def ordersOfAmount (joinType : JoinType) : LogicalPlan :=
  .filter (.join (.scan "users") (.scan "orders")
      (.binaryOp (.column ⟨"users", "id", 0⟩) .eq (.column ⟨"orders", "user_id", 0⟩)) joinType
      ["users", "orders"])
    (.binaryOp (.column ⟨"orders", "amount", 1⟩) .eq (.literal (some (.int32 100))))

def noFormat : Value Scalar → String := fun _ => ""

/-- A left join whose filter rejects the users without orders. -/
theorem simplify_rows_iff_left :
    ((∃ simplified, (PhysicalPlanRunner.ofSource ordersSource).executeLogical noFormat
          (simplify (ordersOfAmount .leftOuter)) = .ok simplified ∧
        SameRows simplified.entries []) ↔
      ¬ (PhysicalPlanRunner.ofSource ordersSource).DropsRows noFormat
        (ordersOfAmount .leftOuter)) ∧
      ((PhysicalPlanRunner.ofSource ordersSource).RejectsDropped noFormat
          (ordersOfAmount .leftOuter) →
        ¬ (PhysicalPlanRunner.ofSource ordersSource).DropsRows noFormat
          (ordersOfAmount .leftOuter)) := by
  have hrun : (PhysicalPlanRunner.ofSource ordersSource).executeLogical noFormat
      (ordersOfAmount .leftOuter) = .ok ⟨[], ["users", "orders"], [1, 2]⟩ := rfl
  refine PhysicalPlanRunner.simplify_rows_iff (fun input hmem => ?_) hrun
  obtain rfl := List.mem_singleton.mp hmem
  refine .intro id fun table htable => ?_
  rcases List.mem_cons.mp htable with rfl | htable
  · exact .intro id nofun
  · obtain rfl := List.mem_singleton.mp htable
    exact .intro id nofun

/-- A full join becomes a left join and loses the order without a user. -/
theorem simplifiedFullJoin_drops :
    ¬ ∀ (runner : PhysicalPlanRunner) (format : Value Scalar → String) (plan : LogicalPlan)
      (relation simplified : Relation), runner.executeLogical format plan = .ok relation →
      runner.executeLogical format (simplify plan) = .ok simplified →
      SameRows simplified.entries relation.entries := by
  intro h
  have hsame := h (.ofSource ordersSource) noFormat (ordersOfAmount .fullOuter) _ _ rfl rfl
  exact absurd hsame.length_eq (by decide)

end Samples

end Cynos.Query
