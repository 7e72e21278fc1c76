import Cynos.Query.Faithful

/-! NOT moved inwards. A negated comparison becomes the opposite one, De Morgan turns
AND into OR, and what has no opposite keeps its NOT. -/
namespace Cynos.Query

open Core

def simplifyNot : Expr → Expr
  | .unaryOp .not expr => expr
  | .binaryOp left .and right => .binaryOp (simplifyNot left) .or (simplifyNot right)
  | .binaryOp left .or right => .binaryOp (simplifyNot left) .and (simplifyNot right)
  | .binaryOp left .eq right => .binaryOp left .ne right
  | .binaryOp left .ne right => .binaryOp left .eq right
  | .binaryOp left .lt right => .binaryOp left .ge right
  | .binaryOp left .le right => .binaryOp left .gt right
  | .binaryOp left .gt right => .binaryOp left .le right
  | .binaryOp left .ge right => .binaryOp left .lt right
  | .in expr list => .notIn expr list
  | .notIn expr list => .in expr list
  | .between expr low high => .notBetween expr low high
  | .notBetween expr low high => .between expr low high
  | .like expr pattern => .notLike expr pattern
  | .notLike expr pattern => .like expr pattern
  | .match expr pattern => .notMatch expr pattern
  | .notMatch expr pattern => .match expr pattern
  | .unaryOp .isNull expr => .unaryOp .isNotNull expr
  | .unaryOp .isNotNull expr => .unaryOp .isNull expr
  | other => .unaryOp .not other

mutual

def simplifyExpr : Expr → Expr
  | .unaryOp .not inner => simplifyNot (simplifyExpr inner)
  | .binaryOp left op right => .binaryOp (simplifyExpr left) op (simplifyExpr right)
  | .unaryOp op expr => .unaryOp op (simplifyExpr expr)
  | .between expr low high => .between (simplifyExpr expr) (simplifyExpr low) (simplifyExpr high)
  | .notBetween expr low high =>
    .notBetween (simplifyExpr expr) (simplifyExpr low) (simplifyExpr high)
  | .in expr list => .in (simplifyExpr expr) (simplifyExprs list)
  | .notIn expr list => .notIn (simplifyExpr expr) (simplifyExprs list)
  | .like expr pattern => .like (simplifyExpr expr) pattern
  | .notLike expr pattern => .notLike (simplifyExpr expr) pattern
  | .match expr pattern => .match (simplifyExpr expr) pattern
  | .notMatch expr pattern => .notMatch (simplifyExpr expr) pattern
  | .function name args => .function name (simplifyExprs args)
  | .aggregate func (some expr) distinct => .aggregate func (some (simplifyExpr expr)) distinct
  | other => other

def simplifyExprs : List Expr → List Expr
  | [] => []
  | expr :: exprs => simplifyExpr expr :: simplifyExprs exprs

end

section Negation

/-- A boolean or `Null`. -/
def isLogical : Value Scalar → Bool
  | none => true
  | some (.boolean _) => true
  | some _ => false

@[simp] theorem isLogical_boolean (b : Bool) : isLogical (Value.boolean b) = true := rfl

theorem isLogical_iff {value : Value Scalar} :
    isLogical value = true ↔ value = none ∨ ∃ b, value = Value.boolean b := by
  constructor
  · intro h
    rcases value with _ | (b | _ | _ | _ | _ | _ | _ | _)
    · exact .inl rfl
    · exact .inr ⟨b, rfl⟩
    all_goals cases h
  · rintro (rfl | ⟨b, rfl⟩)
    · rfl
    · rfl

@[simp] theorem evalNot_boolean (b : Bool) :
    evalUnaryOp .not (Value.boolean b) = Value.boolean !b := rfl

@[simp] theorem isLogical_evalNot (value : Value Scalar) :
    isLogical (evalUnaryOp .not value) = true := by
  rcases value with _ | (_ | _ | _ | _ | _ | _ | _ | _) <;> rfl

theorem evalNot_evalNot {value : Value Scalar} (h : isLogical value = true) :
    evalUnaryOp .not (evalUnaryOp .not value) = value := by
  rcases isLogical_iff.mp h with rfl | ⟨b, rfl⟩
  · rfl
  · rw [evalNot_boolean, evalNot_boolean, Bool.not_not]

variable {a b : Value Scalar}

theorem evalBinaryOp_and_not (ha : isLogical a = true) (hb : isLogical b = true) :
    evalBinaryOp .and (evalUnaryOp .not a) (evalUnaryOp .not b) =
      evalUnaryOp .not (evalBinaryOp .or a b) := by
  rcases isLogical_iff.mp ha with rfl | ⟨a, rfl⟩ <;> rcases isLogical_iff.mp hb with rfl | ⟨b, rfl⟩
  · rfl
  · cases b <;> rfl
  · cases a <;> rfl
  · cases a <;> cases b <;> rfl

theorem evalBinaryOp_or_not (ha : isLogical a = true) (hb : isLogical b = true) :
    evalBinaryOp .or (evalUnaryOp .not a) (evalUnaryOp .not b) =
      evalUnaryOp .not (evalBinaryOp .and a b) := by
  rcases isLogical_iff.mp ha with rfl | ⟨a, rfl⟩ <;> rcases isLogical_iff.mp hb with rfl | ⟨b, rfl⟩
  · rfl
  · cases b <;> rfl
  · cases a <;> rfl
  · cases a <;> cases b <;> rfl

/-- Comparisons that are opposite on values are opposite under `Null`, too. -/
theorem evalBinaryOp_not {op op' : BinaryOp} {test : Scalar → Scalar → Bool}
    (hop : op ≠ .and ∧ op ≠ .or) (hop' : op' ≠ .and ∧ op' ≠ .or)
    (h : ∀ a b : Scalar, evalBinaryOp op (some a) (some b) = Value.boolean (test a b))
    (h' : ∀ a b : Scalar, evalBinaryOp op' (some a) (some b) = Value.boolean !(test a b)) :
    evalBinaryOp op' a b = evalUnaryOp .not (evalBinaryOp op a b) := by
  by_cases hnull : a = none ∨ b = none
  · rw [evalBinaryOp_null hop hnull, evalBinaryOp_null hop' hnull]
    rfl
  · rcases a with _ | a
    · exact absurd (.inl rfl) hnull
    rcases b with _ | b
    · exact absurd (.inr rfl) hnull
    exact (h' a b).trans (congrArg (evalUnaryOp .not) (h a b)).symm

theorem not_valueGe (a b : Value Scalar) : (!Value.ge a b) = Value.lt a b := Bool.not_not _

theorem not_valueLe (a b : Value Scalar) : (!Value.le a b) = Value.gt a b := Bool.not_not _

/-- The comparison that holds where `op` does not. -/
def opposite : BinaryOp → Option BinaryOp
  | .eq => some .ne
  | .ne => some .eq
  | .lt => some .ge
  | .le => some .gt
  | .gt => some .le
  | .ge => some .lt
  | _ => none

/-- The order of values is total, also between types and on NaN. -/
theorem evalBinaryOp_opposite {op op' : BinaryOp} (h : opposite op = some op') :
    evalBinaryOp op' a b = evalUnaryOp .not (evalBinaryOp op a b) := by
  cases op
  case eq =>
    obtain rfl := Option.some.inj h
    exact evalBinaryOp_not (by decide) (by decide) (fun _ _ => rfl) fun _ _ => rfl
  case ne =>
    obtain rfl := Option.some.inj h
    refine evalBinaryOp_not (by decide) (by decide) (fun _ _ => rfl) fun a b => ?_
    exact congrArg Value.boolean (Bool.not_not (Value.sqlEq (some a) (some b))).symm
  case lt =>
    obtain rfl := Option.some.inj h
    exact evalBinaryOp_not (by decide) (by decide) (fun _ _ => rfl) fun _ _ => rfl
  case gt =>
    obtain rfl := Option.some.inj h
    exact evalBinaryOp_not (by decide) (by decide) (fun _ _ => rfl) fun _ _ => rfl
  case le =>
    obtain rfl := Option.some.inj h
    refine evalBinaryOp_not (by decide) (by decide) (fun _ _ => rfl) fun a b => ?_
    exact congrArg Value.boolean (not_valueLe (some a) (some b)).symm
  case ge =>
    obtain rfl := Option.some.inj h
    refine evalBinaryOp_not (by decide) (by decide) (fun _ _ => rfl) fun a b => ?_
    exact congrArg Value.boolean (not_valueGe (some a) (some b)).symm
  all_goals cases h

end Negation

section Simplification

variable (functions : Functions) (get : Nat → Option (Value Scalar)) (ctx : Option EvalContext)

mutual

/-- The operands of NOT, AND and OR evaluate to a boolean or `Null`. -/
def LogicalOperands : Expr → Prop
  | .binaryOp left op right =>
    (op = .and ∨ op = .or →
      isLogical (evalAccessorExpr functions get ctx left) = true ∧
        isLogical (evalAccessorExpr functions get ctx right) = true) ∧
      LogicalOperands left ∧ LogicalOperands right
  | .unaryOp op expr =>
    (op = .not → isLogical (evalAccessorExpr functions get ctx expr) = true) ∧
      LogicalOperands expr
  | .between expr low high | .notBetween expr low high =>
    LogicalOperands expr ∧ LogicalOperands low ∧ LogicalOperands high
  | .in expr list | .notIn expr list => LogicalOperands expr ∧ LogicalOperandsAll list
  | .like expr _ | .notLike expr _ | .match expr _ | .notMatch expr _ => LogicalOperands expr
  | .function _ args => LogicalOperandsAll args
  | .aggregate _ (some expr) _ => LogicalOperands expr
  | .aggregate _ none _ | .column _ | .literal _ => True

def LogicalOperandsAll : List Expr → Prop
  | [] => True
  | expr :: exprs => LogicalOperands expr ∧ LogicalOperandsAll exprs

end

variable {functions get ctx}

/-- A comparison and its opposite have the same operands. -/
theorem simplifyNot_opposite {left right : Expr} {op op' : BinaryOp} (hop : opposite op = some op')
    (h : LogicalOperands functions get ctx (.binaryOp left op right)) :
    evalAccessorExpr functions get ctx (.binaryOp left op' right) =
        evalUnaryOp .not (evalAccessorExpr functions get ctx (.binaryOp left op right)) ∧
      LogicalOperands functions get ctx (.binaryOp left op' right) := by
  refine ⟨?_, ?_, h.2⟩
  · simp only [evalAccessorExpr]
    exact evalBinaryOp_opposite hop
  · rintro (rfl | rfl)
    · cases op <;> cases hop
    · cases op <;> cases hop

/-- What `simplify_not` yields is the negation, and again of the kind that it asks for. -/
theorem simplifyNot_spec {expr : Expr} (h : LogicalOperands functions get ctx expr)
    (hvalue : isLogical (evalAccessorExpr functions get ctx expr) = true) :
    evalAccessorExpr functions get ctx (simplifyNot expr) =
        evalUnaryOp .not (evalAccessorExpr functions get ctx expr) ∧
      LogicalOperands functions get ctx (simplifyNot expr) := by
  fun_induction simplifyNot expr with
  | case1 expr =>
    rw [evalAccessorExpr, evalNot_evalNot (h.1 rfl)]
    exact ⟨rfl, h.2⟩
  | case2 left right ihLeft ihRight =>
    obtain ⟨hoperands, hleft, hright⟩ := h
    obtain ⟨hvalueLeft, hvalueRight⟩ := hoperands (.inl rfl)
    obtain ⟨hevalLeft, hleft'⟩ := ihLeft hleft hvalueLeft
    obtain ⟨hevalRight, hright'⟩ := ihRight hright hvalueRight
    refine ⟨?_, fun _ => ?_, hleft', hright'⟩
    · rw [evalAccessorExpr, evalAccessorExpr, hevalLeft, hevalRight,
        evalBinaryOp_or_not hvalueLeft hvalueRight]
    · rw [hevalLeft, hevalRight]
      exact ⟨isLogical_evalNot _, isLogical_evalNot _⟩
  | case3 left right ihLeft ihRight =>
    obtain ⟨hoperands, hleft, hright⟩ := h
    obtain ⟨hvalueLeft, hvalueRight⟩ := hoperands (.inr rfl)
    obtain ⟨hevalLeft, hleft'⟩ := ihLeft hleft hvalueLeft
    obtain ⟨hevalRight, hright'⟩ := ihRight hright hvalueRight
    refine ⟨?_, fun _ => ?_, hleft', hright'⟩
    · rw [evalAccessorExpr, evalAccessorExpr, hevalLeft, hevalRight,
        evalBinaryOp_and_not hvalueLeft hvalueRight]
    · rw [hevalLeft, hevalRight]
      exact ⟨isLogical_evalNot _, isLogical_evalNot _⟩
  | case4 | case5 | case6 | case7 | case8 | case9 => exact simplifyNot_opposite rfl h
  | case10 expr list => exact ⟨rfl, h⟩
  | case11 expr list =>
    refine ⟨?_, h⟩
    simp only [evalAccessorExpr, evalNot_boolean, Bool.not_not]
  | case12 expr low high =>
    refine ⟨?_, h⟩
    simp only [evalAccessorExpr, evalNot_boolean, Bool.not_and, not_valueGe, not_valueLe]
  | case13 expr low high =>
    refine ⟨?_, h⟩
    simp only [evalAccessorExpr, evalNot_boolean, Bool.not_or]
    rfl
  | case14 expr pattern | case15 expr pattern | case16 expr pattern | case17 expr pattern =>
    refine ⟨?_, h⟩
    simp only [evalAccessorExpr]
    generalize evalAccessorExpr functions get ctx expr = value
    rcases value with _ | (_ | _ | _ | _ | _ | _ | _ | _) <;> first | rfl | simp
  | case18 expr => exact ⟨rfl, fun hop => (by cases hop), h.2⟩
  | case19 expr =>
    refine ⟨?_, fun hop => (by cases hop), h.2⟩
    rw [evalAccessorExpr, evalAccessorExpr]
    exact congrArg Value.boolean (Bool.not_not _).symm
  | case20 other =>
    rw [evalAccessorExpr, LogicalOperands]
    exact ⟨rfl, fun _ => hvalue, h⟩

mutual

theorem simplifyExpr_spec (expr : Expr) (h : LogicalOperands functions get ctx expr) :
    evalAccessorExpr functions get ctx (simplifyExpr expr) =
        evalAccessorExpr functions get ctx expr ∧
      LogicalOperands functions get ctx (simplifyExpr expr) := by
  cases expr with
  | column col => exact ⟨rfl, h⟩
  | literal value => exact ⟨rfl, h⟩
  | binaryOp left op right =>
    obtain ⟨hoperands, hleft, hright⟩ := h
    obtain ⟨hevalLeft, hleft'⟩ := simplifyExpr_spec left hleft
    obtain ⟨hevalRight, hright'⟩ := simplifyExpr_spec right hright
    rw [simplifyExpr]
    refine ⟨?_, ?_, hleft', hright'⟩
    · rw [evalAccessorExpr, evalAccessorExpr, hevalLeft, hevalRight]
    · rw [hevalLeft, hevalRight]
      exact hoperands
  | unaryOp op expr =>
    obtain ⟨hoperand, hexpr⟩ := h
    obtain ⟨heval, hexpr'⟩ := simplifyExpr_spec expr hexpr
    by_cases hop : op = .not
    · subst hop
      rw [simplifyExpr, evalAccessorExpr, ← heval]
      exact simplifyNot_spec hexpr' (by rw [heval]; exact hoperand rfl)
    · rw [simplifyExpr.eq_def]
      cases op with
      | not => exact absurd rfl hop
      | neg | isNull | isNotNull =>
        refine ⟨?_, fun hop => (by cases hop), hexpr'⟩
        dsimp only
        rw [evalAccessorExpr, evalAccessorExpr, heval]
  | function name args =>
    obtain ⟨heval, hargs⟩ := simplifyExprs_spec args h
    rw [simplifyExpr]
    exact ⟨by rw [evalAccessorExpr, evalAccessorExpr, heval], hargs⟩
  | aggregate func expr distinct =>
    cases expr with
    | none => exact ⟨rfl, h⟩
    | some expr =>
      obtain ⟨heval, hexpr⟩ := simplifyExpr_spec expr h
      rw [simplifyExpr]
      exact ⟨by rw [evalAccessorExpr, evalAccessorExpr, heval], hexpr⟩
  | between expr low high =>
    obtain ⟨hexpr, hlow, hhigh⟩ := h
    obtain ⟨heval, hexpr'⟩ := simplifyExpr_spec expr hexpr
    obtain ⟨hevalLow, hlow'⟩ := simplifyExpr_spec low hlow
    obtain ⟨hevalHigh, hhigh'⟩ := simplifyExpr_spec high hhigh
    rw [simplifyExpr]
    exact ⟨by simp only [evalAccessorExpr, heval, hevalLow, hevalHigh], hexpr', hlow', hhigh'⟩
  | notBetween expr low high =>
    obtain ⟨hexpr, hlow, hhigh⟩ := h
    obtain ⟨heval, hexpr'⟩ := simplifyExpr_spec expr hexpr
    obtain ⟨hevalLow, hlow'⟩ := simplifyExpr_spec low hlow
    obtain ⟨hevalHigh, hhigh'⟩ := simplifyExpr_spec high hhigh
    rw [simplifyExpr]
    exact ⟨by simp only [evalAccessorExpr, heval, hevalLow, hevalHigh], hexpr', hlow', hhigh'⟩
  | «in» expr list =>
    obtain ⟨hexpr, hlist⟩ := h
    obtain ⟨heval, hexpr'⟩ := simplifyExpr_spec expr hexpr
    obtain ⟨hevalList, hlist'⟩ := simplifyExprs_spec list hlist
    rw [simplifyExpr]
    exact ⟨by simp only [evalAccessorExpr, heval, hevalList], hexpr', hlist'⟩
  | notIn expr list =>
    obtain ⟨hexpr, hlist⟩ := h
    obtain ⟨heval, hexpr'⟩ := simplifyExpr_spec expr hexpr
    obtain ⟨hevalList, hlist'⟩ := simplifyExprs_spec list hlist
    rw [simplifyExpr]
    exact ⟨by simp only [evalAccessorExpr, heval, hevalList], hexpr', hlist'⟩
  | like expr pattern | notLike expr pattern | «match» expr pattern | notMatch expr pattern =>
    obtain ⟨heval, hexpr⟩ := simplifyExpr_spec expr h
    rw [simplifyExpr]
    exact ⟨by simp only [evalAccessorExpr, heval], hexpr⟩

theorem simplifyExprs_spec (exprs : List Expr) (h : LogicalOperandsAll functions get ctx exprs) :
    evalAccessorExprs functions get ctx (simplifyExprs exprs) =
        evalAccessorExprs functions get ctx exprs ∧
      LogicalOperandsAll functions get ctx (simplifyExprs exprs) := by
  cases exprs with
  | nil => exact ⟨rfl, h⟩
  | cons expr exprs =>
    obtain ⟨heval, hexpr⟩ := simplifyExpr_spec expr h.1
    obtain ⟨hevals, hexprs⟩ := simplifyExprs_spec exprs h.2
    rw [simplifyExprs]
    exact ⟨by rw [evalAccessorExprs, evalAccessorExprs, heval, hevals], hexpr, hexprs⟩

end

/-- The simplified expression means what the expression means. -/
theorem evalAccessorExpr_simplifyExpr {expr : Expr}
    (h : LogicalOperands functions get ctx expr) :
    evalAccessorExpr functions get ctx (simplifyExpr expr) =
      evalAccessorExpr functions get ctx expr :=
  (simplifyExpr_spec expr h).1

/-- `NOT (a = 1 AND NOT (b < 2))` where `a` is `Null`. -/
theorem evalAccessorExpr_simplifyExpr_null :
    let a : Expr := .column ⟨"t", "a", 0⟩
    let b : Expr := .column ⟨"t", "b", 1⟩
    let expr : Expr := .unaryOp .not (.binaryOp (.binaryOp a .eq (.literal (some (.int64 1)))) .and
      (.unaryOp .not (.binaryOp b .lt (.literal (some (.int64 2))))))
    let get (index : Nat) : Option (Value Scalar) := [none, some (.int64 5)][index]?
    simplifyExpr expr = .binaryOp (.binaryOp a .ne (.literal (some (.int64 1)))) .or
        (.binaryOp b .lt (.literal (some (.int64 2)))) ∧
      evalAccessorExpr sampleFunctions get none (simplifyExpr expr) =
        evalAccessorExpr sampleFunctions get none expr :=
  ⟨rfl, evalAccessorExpr_simplifyExpr ⟨fun _ => rfl, fun _ => ⟨rfl, rfl⟩,
    ⟨nofun, trivial, trivial⟩, fun _ => rfl, nofun, trivial, trivial⟩⟩

end Simplification

end Cynos.Query
