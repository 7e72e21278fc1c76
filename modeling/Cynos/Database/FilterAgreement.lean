import Cynos.Database.CompileLayout
import Cynos.Database.OperatorAgreement
import Cynos.Query.Faithful
import Cynos.Query.PlainSteps

/-! Filters of live queries against those of the runner. A node of a predicate is alike in
both evaluators where its operator is, on the values that the runner finds for its operands;
of a node of which only the truth counts less is asked. -/
namespace Cynos.Database

open Core Query
open Incremental (TraceTupleHandle)

section Compiled

variable (functions : DataflowFunctions) (valueAt : Nat → Option (Value Scalar))

/-- A compiled predicate holds where an expression is true; if it puts out a Boolean, so does
the expression. -/
structure Compiles (predicate : CompiledDataflowPredicate) (value : Value Scalar) : Prop where
  eval : predicate.evalWith functions valueAt = value.isTrue
  boolean : predicate.isBooleanOutput = true → ∃ b, value = Value.boolean b

variable {functions valueAt}

theorem Compiles.of_boolean {predicate : CompiledDataflowPredicate} {value : Value Scalar}
    (h : value = Value.boolean (predicate.evalWith functions valueAt)) :
    Compiles functions valueAt predicate value := by
  subst h
  exact ⟨rfl, fun _ => ⟨_, rfl⟩⟩

theorem Compiles.generic {expr : Expr} :
    Compiles functions valueAt (.generic expr) (evalExprWith functions valueAt expr) :=
  ⟨rfl, nofun⟩

/-- A path that was found to be simple at compile time is evaluated as one. -/
theorem compiles_jsonFunction {name : String} {args : List Expr}
    {predicate : CompiledDataflowPredicate}
    (h : CompiledDataflowPredicate.compileJsonFunction functions name args = some predicate) :
    Compiles functions valueAt predicate
      (evalFunction functions name (evalExprsWith functions valueAt args)) := by
  unfold CompiledDataflowPredicate.compileJsonFunction at h
  apply Compiles.of_boolean
  unfold evalFunction
  split at h
  case h_4 => cases h
  case h_3 column path rest hname =>
    obtain ⟨hparses, ⟨⟩⟩ := Option.ite_none_right_eq_some.mp h
    rw [hname]
    simp only [evalExprsWith, evalExprWith, CompiledDataflowPredicate.evalWith]
    cases valueAt column.index with
    | none => rfl
    | some value =>
      rcases value with _ | scalar
      · rfl
      · cases scalar <;> first | rfl | exact if_pos hparses
  all_goals
    next column path expected rest hname =>
      obtain ⟨hparses, ⟨⟩⟩ := Option.ite_none_right_eq_some.mp h
      rw [hname]
      simp only [evalExprsWith, evalExprWith, CompiledDataflowPredicate.evalWith]
      cases valueAt column.index with
      | none => rfl
      | some value =>
        rcases value with _ | scalar
        · rfl
        · cases scalar <;> first | rfl | exact if_pos hparses

/-- Compilation keeps the truth of a predicate. -/
theorem compiles_compile (expr : Expr) :
    Compiles functions valueAt (CompiledDataflowPredicate.compile functions expr)
      (evalExprWith functions valueAt expr) := by
  match expr with
  | .function name args =>
    rw [CompiledDataflowPredicate.compile]
    cases h : CompiledDataflowPredicate.compileJsonFunction functions name args with
    | none => exact .generic
    | some predicate =>
      rw [evalExprWith]
      exact compiles_jsonFunction h
  | .binaryOp left op right =>
    cases op
    case and =>
      rw [CompiledDataflowPredicate.compile, evalExprWith]
      refine .of_boolean ?_
      change Value.boolean _ = Value.boolean (_ && _)
      rw [(compiles_compile left).eval, (compiles_compile right).eval]
    case or =>
      rw [CompiledDataflowPredicate.compile, evalExprWith]
      refine .of_boolean ?_
      change Value.boolean _ = Value.boolean (_ || _)
      rw [(compiles_compile left).eval, (compiles_compile right).eval]
    all_goals exact .generic
  | .unaryOp op inner =>
    cases op
    case not =>
      have ih := compiles_compile inner
      rw [CompiledDataflowPredicate.compile]
      split
      next hboolean =>
        rw [evalExprWith]
        obtain ⟨b, hb⟩ := ih.boolean hboolean
        refine .of_boolean ?_
        change _ = Value.boolean !_
        rw [ih.eval, hb]
        rfl
      next => exact .generic
    all_goals exact .generic
  | .column _ | .literal _ | .aggregate _ _ _ | .in _ _ | .notIn _ _ | .between _ _ _
  | .notBetween _ _ _ | .like _ _ | .notLike _ _ | .match _ _ | .notMatch _ _ => exact .generic

end Compiled

section Alike

variable (functions : DataflowFunctions) (get : Nat → Option (Value Scalar))

/-- The value that the runner finds. -/
abbrev runnerValue (expr : Expr) : Value Scalar :=
  evalAccessorExpr functions.toFunctions get none expr

abbrev runnerValues (exprs : List Expr) : List (Value Scalar) :=
  evalAccessorExprs functions.toFunctions get none exprs

/-- The two regular expression engines match a text alike. -/
def SamePattern (value : Value Scalar) (pattern : String) : Prop :=
  match value with
  | some (.string s) => functions.regex s pattern = functions.matchRegexPattern s pattern
  | _ => True

mutual

/-- Every node of an expression has the same value in both evaluators. -/
def SameValue : Expr → Prop
  | .column _ | .literal _ => True
  | .binaryOp left op right => SameValue left ∧ SameValue right ∧
      SameResult op (runnerValue functions get left) (runnerValue functions get right)
  | .unaryOp _ expr => SameValue expr
  | .function name args =>
    SameValues args ∧ SameFunction functions Eq name (runnerValues functions get args)
  | .aggregate _ none _ => False
  | .aggregate _ (some expr) _ => runnerValue functions get expr = none
  | .between expr low high | .notBetween expr low high =>
    SameValue expr ∧ SameValue low ∧ SameValue high
  | .in expr list | .notIn expr list => SameValue expr ∧ SameValues list
  | .like expr _ | .notLike expr _ => SameValue expr
  | .match expr pattern | .notMatch expr pattern =>
    SameValue expr ∧ SamePattern functions (runnerValue functions get expr) pattern

def SameValues : List Expr → Prop
  | [] => True
  | expr :: exprs => SameValue expr ∧ SameValues exprs

end

/-- A node itself, of which truth `b` is asked. -/
def RootAlike (b : Bool) : Expr → Prop
  | .binaryOp left op right =>
    SameTruthOf b op (runnerValue functions get left) (runnerValue functions get right)
  | .unaryOp .not expr => RootAlike (!b) expr
  | .function name args => SameFunction functions (Agree b) name (runnerValues functions get args)
  | .aggregate _ (some expr) _ => runnerValue functions get expr ≠ Value.boolean b
  | .match expr pattern | .notMatch expr pattern =>
    SamePattern functions (runnerValue functions get expr) pattern
  | _ => True

/-- The nodes below it; only truths count below AND and OR. -/
def OperandsAlike (b : Bool) : Expr → Prop
  | .column _ | .literal _ | .aggregate _ _ _ => True
  | .binaryOp left op right =>
    match op with
    | .and | .or =>
      (OperandsAlike true left ∧ RootAlike functions get true left) ∧
        OperandsAlike true right ∧ RootAlike functions get true right
    | _ => SameValue functions get left ∧ SameValue functions get right
  | .unaryOp op expr =>
    match op with
    | .not => OperandsAlike (!b) expr
    | _ => SameValue functions get expr
  | .function _ args => SameValues functions get args
  | .between expr low high | .notBetween expr low high =>
    SameValue functions get expr ∧ SameValue functions get low ∧ SameValue functions get high
  | .in expr list | .notIn expr list => SameValue functions get expr ∧ SameValues functions get list
  | .like expr _ | .notLike expr _ | .match expr _ | .notMatch expr _ =>
    SameValue functions get expr

/-- A predicate of which truth `b` is asked. -/
def SameTruth (b : Bool) (expr : Expr) : Prop :=
  OperandsAlike functions get b expr ∧ RootAlike functions get b expr

variable {functions get}

theorem evalFunction_eq {name : String} {args : List (Value Scalar)}
    {alike : Value Scalar → Value Scalar → Prop} (hrefl : ∀ v, alike v v) :
    alike (evalFunction functions name args) (Query.evalFunction functions.toFunctions name args) ↔
      SameFunction functions alike name args := by
  unfold SameFunction
  split
  next hascii => exact evalFunction_of_ascii functions hrefl hascii args
  next hascii => rw [evalFunction_of_not_ascii functions (Bool.not_eq_true _ ▸ hascii)]

/-- What a pattern makes of a value: a text is matched, and nothing else is. -/
def matched (engine : String → String → Bool) (pattern : String) (f : Bool → Bool)
    (value : Value Scalar) : Value Scalar :=
  match value with
  | some (.string s) => Value.boolean (f (engine s pattern))
  | _ => Value.boolean (f false)

theorem agree_matched_iff {f : Bool → Bool} (hf : f.Injective) {b : Bool} {value : Value Scalar}
    {pattern : String} :
    Agree b (matched functions.regex pattern f value)
        (matched functions.matchRegexPattern pattern f value) ↔
      SamePattern functions value pattern := by
  rcases value with _ | scalar
  · exact iff_of_true (.of_eq rfl) trivial
  · cases scalar with
    | string s => exact agree_boolean_iff.trans hf.eq_iff
    | _ => exact iff_of_true (.of_eq rfl) trivial

theorem SamePattern.matched {value : Value Scalar} {pattern : String}
    (h : SamePattern functions value pattern) (f : Bool → Bool) :
    matched functions.regex pattern f value =
      matched functions.matchRegexPattern pattern f value := by
  rcases value with _ | scalar
  · rfl
  · cases scalar with
    | string s => exact congrArg (fun m => Value.boolean (f m)) h
    | _ => rfl

mutual

theorem evalExprWith_eq (expr : Expr) (h : SameValue functions get expr) :
    evalExprWith functions get expr = runnerValue functions get expr := by
  match expr with
  | .column col => rfl
  | .literal value => rfl
  | .binaryOp left op right =>
    rw [SameValue] at h
    obtain ⟨hleft, hright, hop⟩ := h
    rw [evalExprWith, runnerValue, evalAccessorExpr, evalExprWith_eq left hleft, evalExprWith_eq right hright]
    exact (evalBinaryOp_eq_iff functions op _ _).mpr hop
  | .unaryOp op expr =>
    rw [SameValue] at h
    rw [evalExprWith, runnerValue, evalAccessorExpr, evalExprWith_eq expr h]
    rfl
  | .function name args =>
    rw [SameValue] at h
    rw [evalExprWith, runnerValue, evalAccessorExpr, evalExprsWith_eq args h.1]
    exact (evalFunction_eq fun _ => rfl).mpr h.2
  | .aggregate _ none _ =>
    rw [SameValue] at h
    exact h.elim
  | .aggregate _ (some expr) _ =>
    rw [SameValue] at h
    rw [evalExprWith, runnerValue, evalAccessorExpr]
    exact h.symm
  | .between expr low high | .notBetween expr low high =>
    rw [SameValue] at h
    obtain ⟨hexpr, hlow, hhigh⟩ := h
    rw [evalExprWith, runnerValue, evalAccessorExpr, evalExprWith_eq expr hexpr, evalExprWith_eq low hlow,
      evalExprWith_eq high hhigh]
  | .in expr list | .notIn expr list =>
    rw [SameValue] at h
    rw [evalExprWith, runnerValue, evalAccessorExpr, evalExprWith_eq expr h.1, evalExprsWith_eq list h.2]
  | .like expr pattern | .notLike expr pattern =>
    rw [SameValue] at h
    rw [evalExprWith, runnerValue, evalAccessorExpr, evalExprWith_eq expr h] <;> rfl
  | .match expr pattern =>
    rw [SameValue] at h
    rw [evalExprWith, runnerValue, evalAccessorExpr, evalExprWith_eq expr h.1]
    exact h.2.matched id
  | .notMatch expr pattern =>
    rw [SameValue] at h
    rw [evalExprWith, runnerValue, evalAccessorExpr, evalExprWith_eq expr h.1]
    exact h.2.matched not

theorem evalExprsWith_eq (exprs : List Expr) (h : SameValues functions get exprs) :
    evalExprsWith functions get exprs = runnerValues functions get exprs := by
  match exprs with
  | [] => rfl
  | expr :: exprs =>
    rw [SameValues] at h
    rw [evalExprsWith, runnerValues, evalAccessorExprs, evalExprWith_eq expr h.1, evalExprsWith_eq exprs h.2]

end

/-- Where the nodes below are alike, the whole predicate is if and only if its root is. -/
theorem agree_evalExprWith_iff {b : Bool} (expr : Expr) (h : OperandsAlike functions get b expr) :
    Agree b (evalExprWith functions get expr) (runnerValue functions get expr) ↔
      RootAlike functions get b expr := by
  match expr with
  | .column col => exact iff_of_true (.of_eq rfl) trivial
  | .literal value => exact iff_of_true (.of_eq rfl) trivial
  | .binaryOp left op right =>
    rw [RootAlike, evalExprWith, runnerValue, evalAccessorExpr,
      ← agree_evalBinaryOp_iff functions]
    have hlogical : ∀ {e : Expr}, OperandsAlike functions get true e ∧ RootAlike functions get true e →
        (Agree true (evalExprWith functions get e) (runnerValue functions get e) ↔
          RootAlike functions get true e) →
        (evalExprWith functions get e).isTrue = (runnerValue functions get e).isTrue :=
      fun he ih => agree_isTrue_iff.mp (ih.mpr he.2)
    have hop : evalBinaryOp functions (evalExprWith functions get left) op
          (evalExprWith functions get right) =
        evalBinaryOp functions (runnerValue functions get left) op
          (runnerValue functions get right) := by
      cases op
      case and =>
        rw [OperandsAlike] at h
        have hleft := hlogical h.1 (agree_evalExprWith_iff left h.1.1)
        have hright := hlogical h.2 (agree_evalExprWith_iff right h.2.1)
        change Value.boolean (_ && _) = Value.boolean (_ && _)
        rw [hleft, hright]
      case or =>
        rw [OperandsAlike] at h
        have hleft := hlogical h.1 (agree_evalExprWith_iff left h.1.1)
        have hright := hlogical h.2 (agree_evalExprWith_iff right h.2.1)
        change Value.boolean (_ || _) = Value.boolean (_ || _)
        rw [hleft, hright]
      all_goals
        rw [OperandsAlike] at h
        rw [evalExprWith_eq left h.1, evalExprWith_eq right h.2]
        all_goals
          intro heq
          cases heq
    rw [hop]
  | .unaryOp op expr =>
    cases op
    case not =>
      rw [OperandsAlike] at h
      rw [RootAlike, evalExprWith, runnerValue, evalAccessorExpr, agree_not_iff]
      exact agree_evalExprWith_iff expr h
    all_goals
      rw [OperandsAlike] at h
      rw [evalExprWith, runnerValue, evalAccessorExpr, evalExprWith_eq expr h]
      exact iff_of_true (.of_eq rfl) trivial
      intro heq
      cases heq
  | .function name args =>
    rw [OperandsAlike] at h
    rw [RootAlike, evalExprWith, runnerValue, evalAccessorExpr, evalExprsWith_eq args h]
    exact evalFunction_eq fun _ => .of_eq rfl
  | .aggregate _ none _ =>
    rw [evalExprWith, runnerValue, evalAccessorExpr]
    exact iff_of_true (agree_of_ne (fun heq => (by cases heq)) fun heq => (by cases heq)) trivial
  | .aggregate _ (some expr) _ =>
    rw [RootAlike, evalExprWith, runnerValue, evalAccessorExpr]
    exact ⟨fun hagree hb => (by cases hagree.mpr hb), fun hne =>
      agree_of_ne (fun heq => (by cases heq)) hne⟩
  | .between expr low high | .notBetween expr low high =>
    rw [OperandsAlike] at h
    obtain ⟨hexpr, hlow, hhigh⟩ := h
    rw [evalExprWith, runnerValue, evalAccessorExpr, evalExprWith_eq expr hexpr,
      evalExprWith_eq low hlow, evalExprWith_eq high hhigh]
    exact iff_of_true (.of_eq rfl) trivial
  | .in expr list | .notIn expr list =>
    rw [OperandsAlike] at h
    rw [evalExprWith, runnerValue, evalAccessorExpr, evalExprWith_eq expr h.1,
      evalExprsWith_eq list h.2]
    exact iff_of_true (.of_eq rfl) trivial
  | .like expr pattern | .notLike expr pattern =>
    rw [OperandsAlike] at h
    rw [evalExprWith, runnerValue, evalAccessorExpr, evalExprWith_eq expr h]
    exact iff_of_true (.of_eq rfl) trivial
  | .match expr pattern =>
    rw [OperandsAlike] at h
    rw [RootAlike, evalExprWith, runnerValue, evalAccessorExpr, evalExprWith_eq expr h]
    exact agree_matched_iff Function.injective_id
  | .notMatch expr pattern =>
    rw [OperandsAlike] at h
    rw [RootAlike, evalExprWith, runnerValue, evalAccessorExpr, evalExprWith_eq expr h]
    exact agree_matched_iff fun _ _ => Bool.not_inj

end Alike

section Filters

variable (functions : DataflowFunctions) (expr : Expr) (layout : CompileLayout)

/-- The compiled filter takes a row, and a tuple that stands for it, where the runner does:
the runner's test of the bound expression, or of the expression in its context. -/
structure FiltersAgree (row : Row Scalar) (handle : TraceTupleHandle Scalar) : Prop where
  onRow : (CompiledDataflowPredicate.compile functions (bindExprToLayout expr layout)).evalRow
      functions row =
    evalPredicate functions.toFunctions row.get none (bindExprToLayout expr layout)
  onTrace : (CompiledDataflowPredicate.compile functions (bindExprToLayout expr layout)).evalTrace
      functions handle =
    evalPredicate functions.toFunctions row.get none (bindExprToLayout expr layout)
  inContext : "" ∉ layout.tables →
    (CompiledDataflowPredicate.compile functions (bindExprToLayout expr layout)).evalRow
      functions row = evalPredicate functions.toFunctions row.get (some layout) expr

variable {functions expr layout}

/-- Functions of which no predicate here makes use. -/
def sampleDataflowFunctions : DataflowFunctions where
  toFunctions := sampleFunctions
  regex _ _ := false
  queryFirstEq _ _ _ := false
  queryFirstContains _ _ _ := false
  queryFirstExists _ _ := false
  rem a _ := a

/-- A reading of more than one. -/
def aboveOne : Expr := .binaryOp (.column ⟨"a", "value", 0⟩) .gt (.literal (some (.int64 1)))

def otherThanOne : Expr := .binaryOp (.column ⟨"a", "value", 0⟩) .ne (.literal (some (.int64 1)))

end Filters

end Cynos.Database
