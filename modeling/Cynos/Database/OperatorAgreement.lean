import Cynos.Database.DataflowPredicate
import Cynos.Query.Compiled

/-! The operators of the evaluator of live queries against those of the runner: on which
operands they have the same value, and on which the same truth. -/
namespace Cynos.Database

open Core Query

section Values

/-- The same integer in two widths, which `sql_eq` takes for equal and `Eq` does not. -/
def WidthsDiffer : Value Scalar → Value Scalar → Prop
  | some (.int32 a), some (.int64 b) => a.toInt64 = b
  | some (.int64 a), some (.int32 b) => a = b.toInt64
  | _, _ => False

/-- Integers of one width, on which the runner computes with integers. -/
def SameIntType : Value Scalar → Value Scalar → Prop
  | some (.int32 _), some (.int32 _) => True
  | some (.int64 _), some (.int64 _) => True
  | _, _ => False

def IsNumeric : Value Scalar → Prop
  | some (.int32 _) => True
  | some (.int64 _) => True
  | some (.float64 _) => True
  | _ => False

def IsZero : Value Scalar → Prop
  | some (.int32 a) => a = 0
  | some (.int64 a) => a = 0
  | some (.float64 a) => (a == 0) = true
  | _ => False

theorem scalar_eq_iff (a b : Scalar) : a.eq b = a.sqlEq b ↔ ¬ WidthsDiffer (some a) (some b) := by
  cases a <;> cases b
  case int32.int64 a b =>
    change false = (a.toInt64 == b) ↔ ¬ a.toInt64 = b
    rw [eq_comm, beq_eq_false_iff_ne]
  case int64.int32 a b =>
    change false = (a == b.toInt64) ↔ ¬ a = b.toInt64
    rw [eq_comm, beq_eq_false_iff_ne]
  all_goals exact iff_of_true rfl not_false

end Values

section Results

/-- On which operands an operator has the same value in both evaluators. -/
def SameResult (op : BinaryOp) (left right : Value Scalar) : Prop :=
  match op with
  | .eq | .ne => left ≠ none ∧ right ≠ none ∧ ¬ WidthsDiffer left right
  | .lt | .le | .gt | .ge => left ≠ none ∧ right ≠ none
  | .and => (left ≠ none ∧ right ≠ none) ∨ left = Value.boolean false ∨ right = Value.boolean false
  | .or => (left ≠ none ∧ right ≠ none) ∨ left = Value.boolean true ∨ right = Value.boolean true
  | .add | .sub | .mul => ¬ SameIntType left right
  | .div => ¬ SameIntType left right ∧ ¬ (IsNumeric left ∧ IsZero right)
  | .mod => ¬ (IsNumeric left ∧ IsNumeric right)
  | .like | .in | .between => True

variable (functions : DataflowFunctions)

theorem numericOp_eq_iff (left right : Value Scalar) (op : Float → Float → Float) :
    numericOp left right op = evalArithmetic left right op ↔ ¬ SameIntType left right := by
  rcases left with _ | a
  · exact iff_of_true rfl not_false
  rcases right with _ | b
  · cases a <;> exact iff_of_true rfl not_false
  cases a <;> cases b <;> first
    | exact iff_of_true rfl not_false
    | exact iff_of_false (fun h => by cases h) (not_not_intro trivial)

theorem evalArithmetic_null {left right : Value Scalar} (h : left = none ∨ right = none)
    (op : Float → Float → Float) : evalArithmetic left right op = none := by
  obtain rfl | rfl := h
  · rfl
  · rcases left with _ | a
    · rfl
    · cases a <;> rfl

/-- A division by zero is `Null`, else it is computed. -/
theorem evalDivision_eq (left right : Value Scalar) :
    (IsZero right → evalDivision left right = none) ∧
      (¬ IsZero right → evalDivision left right =
        evalArithmetic left right fun a b => if b != 0 then a / b else 0) := by
  rcases right with _ | b
  · exact ⟨fun h => h.elim, fun _ => rfl⟩
  · cases b with
    | int32 b => exact ⟨fun h => if_pos h, fun h => if_neg h⟩
    | int64 b => exact ⟨fun h => if_pos h, fun h => if_neg h⟩
    | float64 b => exact ⟨fun h => if_pos h, fun h => if_neg h⟩
    | _ => exact ⟨fun h => h.elim, fun _ => rfl⟩

theorem evalDivision_null {left right : Value Scalar} (h : left = none ∨ right = none) :
    evalDivision left right = none := by
  by_cases hzero : IsZero right
  · exact (evalDivision_eq left right).1 hzero
  · exact ((evalDivision_eq left right).2 hzero).trans (evalArithmetic_null h _)

/-- The runner's arithmetic passes `Null` on by itself. -/
theorem evalBinaryOp_arithmetic (left right : Value Scalar) :
    Query.evalBinaryOp .add left right = evalArithmetic left right (· + ·) ∧
      Query.evalBinaryOp .sub left right = evalArithmetic left right (· - ·) ∧
      Query.evalBinaryOp .mul left right = evalArithmetic left right (· * ·) ∧
      Query.evalBinaryOp .div left right = evalDivision left right := by
  by_cases h : left = none ∨ right = none
  · rw [evalBinaryOp_null (by simp) h, evalBinaryOp_null (by simp) h,
      evalBinaryOp_null (by simp) h, evalBinaryOp_null (by simp) h, evalArithmetic_null h,
      evalArithmetic_null h, evalArithmetic_null h, evalDivision_null h]
    exact ⟨rfl, rfl, rfl, rfl⟩
  · rcases left with _ | a
    · exact absurd (.inl rfl) h
    · rcases right with _ | b
      · exact absurd (.inr rfl) h
      · exact ⟨rfl, rfl, rfl, rfl⟩

theorem numericOp_eq_none_iff (left right : Value Scalar) (op : Float → Float → Float) :
    numericOp left right op = none ↔ ¬ (IsNumeric left ∧ IsNumeric right) := by
  rcases left with _ | a
  · exact iff_of_true rfl fun h => h.1
  rcases right with _ | b
  · cases a <;> exact iff_of_true rfl fun h => h.2
  cases a <;> cases b <;> first
    | exact iff_of_true rfl fun h => h.1
    | exact iff_of_true rfl fun h => h.2
    | exact iff_of_false (fun h => by cases h) (not_not_intro ⟨trivial, trivial⟩)

theorem IsZero.isNumeric {value : Value Scalar} (h : IsZero value) : IsNumeric value := by
  rcases value with _ | a
  · exact h
  · cases a <;> first | exact trivial | exact h

theorem SameIntType.isNumeric {left right : Value Scalar} (h : SameIntType left right) :
    IsNumeric left ∧ IsNumeric right := by
  rcases left with _ | a
  · exact h.elim
  rcases right with _ | b
  · cases a <;> exact h.elim
  cases a <;> cases b <;> first | exact ⟨trivial, trivial⟩ | exact h.elim

theorem evalMod_eq (left right : Value Scalar) :
    ¬ (IsNumeric left ∧ IsNumeric right) → Query.evalBinaryOp .mod left right = none := by
  intro h
  rcases left with _ | a
  · rfl
  rcases right with _ | b
  · cases a <;> rfl
  cases a <;> cases b <;> first | rfl | exact absurd ⟨trivial, trivial⟩ h

/-- A remainder is an integer. -/
theorem evalMod_cases (left right : Value Scalar) :
    Query.evalBinaryOp .mod left right = none ∨
      (∃ a, Query.evalBinaryOp .mod left right = some (.int32 a)) ∨
      ∃ a, Query.evalBinaryOp .mod left right = some (.int64 a) := by
  rcases left with _ | a
  · exact .inl rfl
  rcases right with _ | b
  · cases a <;> exact .inl rfl
  cases a <;> cases b <;> first | exact .inl rfl | skip
  case int32.int32 a b =>
    change (if b ≠ 0 then some (Scalar.int32 (a % b)) else none) = _ ∨ _
    by_cases hzero : b = 0
    · exact .inl (if_neg (not_not_intro hzero))
    · exact .inr (.inl ⟨_, if_pos hzero⟩)
  case int64.int64 a b =>
    by_cases hzero : b = 0
    · exact .inl (if_neg (not_not_intro hzero))
    · exact .inr (.inr ⟨_, if_pos hzero⟩)

theorem numericOp_cases (left right : Value Scalar) (op : Float → Float → Float) :
    numericOp left right op = none ∨ ∃ f, numericOp left right op = some (.float64 f) := by
  unfold numericOp
  cases asF64 left <;> cases asF64 right <;> first | exact .inl rfl | exact .inr ⟨_, rfl⟩

theorem boolean_inj {a b : Bool} : Value.boolean a = Value.boolean b ↔ a = b := by
  constructor
  · intro h
    cases h
    rfl
  · exact congrArg _

/-- A conjunction with `Null` is false where the other operand is. -/
theorem evalAnd_null {left right : Value Scalar} (h : left = none ∨ right = none) :
    (left = Value.boolean false ∨ right = Value.boolean false →
        Query.evalBinaryOp .and left right = Value.boolean false) ∧
      (¬ (left = Value.boolean false ∨ right = Value.boolean false) →
        Query.evalBinaryOp .and left right = none) := by
  obtain rfl | rfl := h
  · rcases right with _ | b
    · exact ⟨fun h => (by rcases h with h | h <;> cases h), fun _ => rfl⟩
    · rcases b with (_ | _) | _ <;> first
        | exact ⟨fun _ => rfl, fun h => absurd (.inr rfl) h⟩
        | exact ⟨fun h => (by rcases h with h | h <;> cases h), fun _ => rfl⟩
  · rcases left with _ | a
    · exact ⟨fun h => (by rcases h with h | h <;> cases h), fun _ => rfl⟩
    · rcases a with (_ | _) | _ <;> first
        | exact ⟨fun _ => rfl, fun h => absurd (.inl rfl) h⟩
        | exact ⟨fun h => (by rcases h with h | h <;> cases h), fun _ => rfl⟩

theorem evalOr_null {left right : Value Scalar} (h : left = none ∨ right = none) :
    (left = Value.boolean true ∨ right = Value.boolean true →
        Query.evalBinaryOp .or left right = Value.boolean true) ∧
      (¬ (left = Value.boolean true ∨ right = Value.boolean true) →
        Query.evalBinaryOp .or left right = none) := by
  obtain rfl | rfl := h
  · rcases right with _ | b
    · exact ⟨fun h => (by rcases h with h | h <;> cases h), fun _ => rfl⟩
    · rcases b with (_ | _) | _ <;> first
        | exact ⟨fun _ => rfl, fun h => absurd (.inr rfl) h⟩
        | exact ⟨fun h => (by rcases h with h | h <;> cases h), fun _ => rfl⟩
  · rcases left with _ | a
    · exact ⟨fun h => (by rcases h with h | h <;> cases h), fun _ => rfl⟩
    · rcases a with (_ | _) | _ <;> first
        | exact ⟨fun _ => rfl, fun h => absurd (.inl rfl) h⟩
        | exact ⟨fun h => (by rcases h with h | h <;> cases h), fun _ => rfl⟩

theorem isTrue_of_eq {value : Value Scalar} (h : Value.isTrue value = true) :
    value = Value.boolean true := by
  rcases value with _ | a
  · cases h
  · rcases a with (_ | _) | _ <;> first | rfl | cases h

/-- Where they differ, the one is false and the other `Null`. -/
theorem evalAnd_of_not {left right : Value Scalar} (h : ¬ SameResult .and left right) :
    evalBinaryOp functions left .and right = Value.boolean false ∧
      Query.evalBinaryOp .and left right = none := by
  obtain ⟨hsome, hlit⟩ := not_or.mp h
  have hnull : left = none ∨ right = none := by
    by_contra hne
    exact hsome (not_or.mp hne)
  refine ⟨?_, (evalAnd_null hnull).2 hlit⟩
  obtain rfl | rfl := hnull
  · rfl
  · exact congrArg Value.boolean (Bool.and_false _)

theorem evalOr_of_not {left right : Value Scalar} (h : ¬ SameResult .or left right) :
    evalBinaryOp functions left .or right = Value.boolean false ∧
      Query.evalBinaryOp .or left right = none := by
  obtain ⟨hsome, hlit⟩ := not_or.mp h
  have hnull : left = none ∨ right = none := by
    by_contra hne
    exact hsome (not_or.mp hne)
  have hfalse : ∀ v : Value Scalar, v ≠ Value.boolean true → v.isTrue = false := fun v hv =>
    Bool.eq_false_iff.mpr fun htrue => hv (isTrue_of_eq htrue)
  refine ⟨congrArg Value.boolean ?_, (evalOr_null hnull).2 hlit⟩
  rw [not_or] at hlit
  rw [hfalse left hlit.1, hfalse right hlit.2]
  rfl

theorem evalAnd_eq_iff (left right : Value Scalar) :
    evalBinaryOp functions left .and right = Query.evalBinaryOp .and left right ↔
      SameResult .and left right := by
  constructor
  · intro heq
    by_contra h
    obtain ⟨hfalse, hnone⟩ := evalAnd_of_not functions h
    cases hfalse.symm.trans (heq.trans hnone)
  · rintro (⟨hleft, hright⟩ | hlit)
    · obtain ⟨a, rfl⟩ := Option.ne_none_iff_exists'.mp hleft
      obtain ⟨b, rfl⟩ := Option.ne_none_iff_exists'.mp hright
      rfl
    · obtain rfl | rfl := hlit
      · rcases right with _ | b <;> rfl
      · rcases left with _ | (_ | _) | _ <;> rfl

theorem evalOr_eq_iff (left right : Value Scalar) :
    evalBinaryOp functions left .or right = Query.evalBinaryOp .or left right ↔
      SameResult .or left right := by
  constructor
  · intro heq
    by_contra h
    obtain ⟨hfalse, hnone⟩ := evalOr_of_not functions h
    cases hfalse.symm.trans (heq.trans hnone)
  · rintro (⟨hleft, hright⟩ | hlit)
    · obtain ⟨a, rfl⟩ := Option.ne_none_iff_exists'.mp hleft
      obtain ⟨b, rfl⟩ := Option.ne_none_iff_exists'.mp hright
      rfl
    · obtain rfl | rfl := hlit
      · rcases right with _ | b <;> rfl
      · rcases left with _ | (_ | _) | _ <;> rfl

/-- The operators have the same value on exactly these operands. -/
theorem evalBinaryOp_eq_iff (op : BinaryOp) (left right : Value Scalar) :
    evalBinaryOp functions left op right = Query.evalBinaryOp op left right ↔
      SameResult op left right := by
  obtain ⟨hadd, hsub, hmul, hdiv⟩ := evalBinaryOp_arithmetic left right
  cases op with
  | add => exact hadd ▸ numericOp_eq_iff left right _
  | sub => exact hsub ▸ numericOp_eq_iff left right _
  | mul => exact hmul ▸ numericOp_eq_iff left right _
  | div =>
    rw [hdiv]
    change numericOp left right _ = _ ↔ _
    by_cases hzero : IsZero right
    · rw [(evalDivision_eq left right).1 hzero, numericOp_eq_none_iff]
      constructor
      · exact fun h => ⟨fun hsame => h hsame.isNumeric, fun hnum => h ⟨hnum.1, hzero.isNumeric⟩⟩
      · exact fun h hnum => h.2 ⟨hnum.1, hzero⟩
    · rw [(evalDivision_eq left right).2 hzero, numericOp_eq_iff]
      exact (and_iff_left fun h => hzero h.2).symm
  | mod =>
    change numericOp left right _ = _ ↔ _
    by_cases hnum : IsNumeric left ∧ IsNumeric right
    · refine iff_of_false (fun heq => ?_) (not_not_intro hnum)
      obtain hnone | ⟨f, hf⟩ := numericOp_cases left right _
      · exact (numericOp_eq_none_iff left right _).mp hnone hnum
      · obtain hmod | ⟨a, hmod⟩ | ⟨a, hmod⟩ := evalMod_cases left right <;>
          cases hf.symm.trans (heq.trans hmod)
    · exact iff_of_true (((numericOp_eq_none_iff left right _).mpr hnum).trans
        (evalMod_eq left right hnum).symm) hnum
  | eq | ne =>
    rcases left with _ | a
    · exact iff_of_false (fun h => by cases h) fun h => h.1 rfl
    rcases right with _ | b
    · exact iff_of_false (fun h => by cases h) fun h => h.2.1 rfl
    have hsame : SameResult .eq (some a) (some b) ↔ ¬ WidthsDiffer (some a) (some b) :=
      ⟨fun h => h.2.2, fun h => ⟨nofun, nofun, h⟩⟩
    first
      | exact boolean_inj.trans ((scalar_eq_iff a b).trans hsame.symm)
      | exact boolean_inj.trans (Bool.not_inj_iff.trans ((scalar_eq_iff a b).trans hsame.symm))
  | lt | le | gt | ge =>
    rcases left with _ | a
    · exact iff_of_false (fun h => by cases h) fun h => h.1 rfl
    rcases right with _ | b
    · exact iff_of_false (fun h => by cases h) fun h => h.2 rfl
    exact iff_of_true rfl ⟨nofun, nofun⟩
  | and => exact evalAnd_eq_iff functions left right
  | or => exact evalOr_eq_iff functions left right
  | like =>
    rcases left with _ | a <;> rcases right with _ | b <;> exact iff_of_true rfl trivial
  | «in» =>
    rcases left with _ | a <;> rcases right with _ | b <;> exact iff_of_true rfl trivial
  | between =>
    rcases left with _ | a <;> rcases right with _ | b <;> exact iff_of_true rfl trivial

end Results

section Truth

/-- Two values of which both or none are a given Boolean. -/
def Agree (b : Bool) (value value' : Value Scalar) : Prop :=
  value = Value.boolean b ↔ value' = Value.boolean b

/-- The comparison that holds where one does not. -/
def negatedOp : BinaryOp → BinaryOp
  | .eq => .ne
  | .ne => .eq
  | .lt => .ge
  | .le => .gt
  | .gt => .le
  | .ge => .lt
  | op => op

/-- On which operands a comparison is true in both evaluators or in none. -/
def SameComparison (op : BinaryOp) (left right : Value Scalar) : Prop :=
  match op with
  | .eq => ¬ (left = none ∧ right = none) ∧ ¬ WidthsDiffer left right
  | .ne => (left = none ↔ right = none) ∧ ¬ WidthsDiffer left right
  | .lt => left = none → right = none
  | .le => left ≠ none
  | .gt => right = none → left = none
  | .ge => right ≠ none
  | _ => True

/-- An operator of which one truth is asked: for AND and OR only falsity may differ. -/
def SameTruthOf (b : Bool) (op : BinaryOp) (left right : Value Scalar) : Prop :=
  match op with
  | .and => b = false → SameResult .and left right
  | .or => b = false → SameResult .or left right
  | op => SameComparison (if b then op else negatedOp op) left right

variable (functions : DataflowFunctions)

theorem Agree.of_eq {b : Bool} {value value' : Value Scalar} (h : value = value') :
    Agree b value value' := h ▸ Iff.rfl

theorem agree_boolean_iff {b c d : Bool} :
    Agree b (Value.boolean c) (Value.boolean d) ↔ c = d := by
  unfold Agree
  rw [boolean_inj, boolean_inj]
  cases b <;> cases c <;> cases d <;> simp

theorem agree_none_iff {b c : Bool} : Agree b (Value.boolean c) none ↔ c ≠ b := by
  unfold Agree
  rw [boolean_inj]
  exact ⟨fun h hc => (by cases h.mp hc), fun h => iff_of_false h fun h => (by cases h)⟩

/-- Values that are no Booleans agree. -/
theorem agree_of_ne {b : Bool} {value value' : Value Scalar} (h : value ≠ Value.boolean b)
    (h' : value' ≠ Value.boolean b) : Agree b value value' := iff_of_false h h'

theorem agree_isTrue_iff {value value' : Value Scalar} :
    Agree true value value' ↔ value.isTrue = value'.isTrue := by
  have hiff : ∀ v : Value Scalar, v = Value.boolean true ↔ v.isTrue = true := fun v =>
    ⟨fun h => h ▸ rfl, isTrue_of_eq⟩
  unfold Agree
  rw [hiff, hiff, ← Bool.eq_iff_iff]

/-- Equality of operands of which none is `Null` depends on their widths only. -/
theorem agree_evalEq_iff (b : Bool) (left right : Value Scalar) :
    Agree b (evalBinaryOp functions left .eq right) (Query.evalBinaryOp .eq left right) ↔
      SameTruthOf b .eq left right := by
  rcases left with _ | l <;> rcases right with _ | r
  · refine (agree_none_iff (c := true)).trans ?_
    cases b
    · exact iff_of_true nofun ⟨Iff.rfl, not_false⟩
    · exact iff_of_false (fun h => h rfl) fun h => h.1 ⟨rfl, rfl⟩
  · refine (agree_none_iff (c := false)).trans ?_
    cases b
    · exact iff_of_false (fun h => h rfl) fun h => nomatch h.1.mp rfl
    · exact iff_of_true nofun ⟨nofun, not_false⟩
  · refine (agree_none_iff (c := false)).trans ?_
    cases b
    · exact iff_of_false (fun h => h rfl) fun h => nomatch h.1.mpr rfl
    · exact iff_of_true nofun ⟨nofun, fun h => by cases l <;> exact h⟩
  · refine (agree_boolean_iff.trans (scalar_eq_iff l r)).trans ?_
    cases b
    · exact (and_iff_right ⟨nofun, nofun⟩).symm
    · exact (and_iff_right nofun).symm

theorem agree_evalLt_iff (b : Bool) (left right : Value Scalar) :
    Agree b (evalBinaryOp functions left .lt right) (Query.evalBinaryOp .lt left right) ↔
      SameTruthOf b .lt left right := by
  rcases left with _ | l <;> rcases right with _ | r
  · refine (agree_none_iff (c := false)).trans ?_
    cases b
    · exact iff_of_false (fun h => h rfl) fun h => h rfl
    · exact iff_of_true nofun fun _ => rfl
  · refine (agree_none_iff (c := true)).trans ?_
    cases b
    · exact iff_of_true nofun nofun
    · exact iff_of_false (fun h => h rfl) fun h => nomatch h rfl
  · refine (agree_none_iff (c := false)).trans ?_
    cases b
    · exact iff_of_false (fun h => h rfl) fun h => h rfl
    · exact iff_of_true nofun nofun
  · refine iff_of_true (.of_eq rfl) ?_
    cases b
    · exact nofun
    · exact nofun

theorem agree_evalLe_iff (b : Bool) (left right : Value Scalar) :
    Agree b (evalBinaryOp functions left .le right) (Query.evalBinaryOp .le left right) ↔
      SameTruthOf b .le left right := by
  rcases left with _ | l <;> rcases right with _ | r
  · refine (agree_none_iff (c := true)).trans ?_
    cases b
    · exact iff_of_true nofun fun _ => rfl
    · exact iff_of_false (fun h => h rfl) fun h => h rfl
  · refine (agree_none_iff (c := true)).trans ?_
    cases b
    · exact iff_of_true nofun nofun
    · exact iff_of_false (fun h => h rfl) fun h => h rfl
  · refine (agree_none_iff (c := false)).trans ?_
    cases b
    · exact iff_of_false (fun h => h rfl) fun h => nomatch h rfl
    · exact iff_of_true nofun nofun
  · refine iff_of_true (.of_eq rfl) ?_
    cases b
    · exact nofun
    · exact nofun

/-- Negation asks for the other truth. -/
theorem agree_not_iff (b : Bool) (value value' : Value Scalar) :
    Agree b (evalUnaryOp .not value) (Query.evalUnaryOp .not value') ↔ Agree (!b) value value' := by
  have hnot : ∀ v : Value Scalar, Query.evalUnaryOp .not v = Value.boolean b ↔
      v = Value.boolean !b := by
    intro v
    rcases v with _ | a
    · exact iff_of_false nofun nofun
    · rcases a with (_ | _) | _ <;> cases b <;>
        first | exact iff_of_true rfl rfl | exact iff_of_false nofun nofun
  exact iff_congr (hnot value) (hnot value')

/-- A comparison is the negation of the opposite one. -/
theorem evalBinaryOp_negatedOp {op : BinaryOp} (hop : op = .eq ∨ op = .lt ∨ op = .le)
    (left right : Value Scalar) :
    evalBinaryOp functions left (negatedOp op) right =
        evalUnaryOp .not (evalBinaryOp functions left op right) ∧
      Query.evalBinaryOp (negatedOp op) left right =
        Query.evalUnaryOp .not (Query.evalBinaryOp op left right) := by
  have hle : Value.gt left right = !Value.le left right := (Bool.not_not _).symm
  obtain rfl | rfl | rfl := hop
  · refine ⟨rfl, ?_⟩
    rcases left with _ | l <;> rcases right with _ | r <;> rfl
  · refine ⟨rfl, ?_⟩
    rcases left with _ | l <;> rcases right with _ | r <;> rfl
  · refine ⟨congrArg Value.boolean hle, ?_⟩
    rcases left with _ | l <;> rcases right with _ | r
    · rfl
    · rfl
    · rfl
    · exact congrArg Value.boolean hle

theorem agree_negatedOp_iff {op : BinaryOp} (hop : op = .eq ∨ op = .lt ∨ op = .le) {b : Bool}
    {left right : Value Scalar}
    (h : Agree (!b) (evalBinaryOp functions left op right) (Query.evalBinaryOp op left right) ↔
      SameTruthOf (!b) op left right) :
    Agree b (evalBinaryOp functions left (negatedOp op) right)
        (Query.evalBinaryOp (negatedOp op) left right) ↔
      SameTruthOf b (negatedOp op) left right := by
  obtain ⟨hvalue, hvalue'⟩ := evalBinaryOp_negatedOp functions hop left right
  rw [hvalue, hvalue', agree_not_iff, h]
  obtain rfl | rfl | rfl := hop <;> cases b <;> rfl

/-- Arithmetic yields no Boolean. -/
theorem numericOp_ne_boolean (left right : Value Scalar) (op : Float → Float → Float) (b : Bool) :
    numericOp left right op ≠ Value.boolean b := by
  obtain h | ⟨f, h⟩ := numericOp_cases left right op
  · exact h ▸ nofun
  · exact h ▸ nofun

theorem evalArithmetic_ne_boolean (left right : Value Scalar) (op : Float → Float → Float)
    (b : Bool) : evalArithmetic left right op ≠ Value.boolean b := by
  rcases left with _ | l
  · exact nofun
  rcases right with _ | r
  · cases l <;> exact nofun
  cases l <;> cases r <;> exact nofun

theorem evalDivision_ne_boolean (left right : Value Scalar) (b : Bool) :
    evalDivision left right ≠ Value.boolean b := by
  by_cases hzero : IsZero right
  · exact (evalDivision_eq left right).1 hzero ▸ nofun
  · exact (evalDivision_eq left right).2 hzero ▸ evalArithmetic_ne_boolean _ _ _ _

theorem evalMod_ne_boolean (left right : Value Scalar) (b : Bool) :
    Query.evalBinaryOp .mod left right ≠ Value.boolean b := by
  obtain h | ⟨a, h⟩ | ⟨a, h⟩ := evalMod_cases left right <;> exact h ▸ nofun

/-- One truth of an operator is the same on exactly these operands. -/
theorem agree_evalBinaryOp_iff (b : Bool) (op : BinaryOp) (left right : Value Scalar) :
    Agree b (evalBinaryOp functions left op right) (Query.evalBinaryOp op left right) ↔
      SameTruthOf b op left right := by
  have hlogical : ∀ {d q : Value Scalar} {same : Prop}, (d = q ↔ same) →
      (¬ same → d = Value.boolean false ∧ q = none) → (Agree b d q ↔ (b = false → same)) := by
    intro d q same heq hnot
    by_cases h : same
    · exact iff_of_true (.of_eq (heq.mpr h)) fun _ => h
    · obtain ⟨rfl, rfl⟩ := hnot h
      rw [agree_none_iff]
      exact ⟨fun hne hb => absurd hb.symm hne, fun himp hb => h (himp hb.symm)⟩
  obtain ⟨hadd, hsub, hmul, hdiv⟩ := evalBinaryOp_arithmetic left right
  cases op with
  | eq => exact agree_evalEq_iff functions b left right
  | lt => exact agree_evalLt_iff functions b left right
  | le => exact agree_evalLe_iff functions b left right
  | ne => exact agree_negatedOp_iff functions (.inl rfl) (agree_evalEq_iff functions _ left right)
  | ge =>
    exact agree_negatedOp_iff functions (.inr (.inl rfl)) (agree_evalLt_iff functions _ left right)
  | gt =>
    exact agree_negatedOp_iff functions (.inr (.inr rfl)) (agree_evalLe_iff functions _ left right)
  | and => exact hlogical (evalAnd_eq_iff functions left right) (evalAnd_of_not functions)
  | or => exact hlogical (evalOr_eq_iff functions left right) (evalOr_of_not functions)
  | add =>
    rw [hadd]
    exact iff_of_true (agree_of_ne (numericOp_ne_boolean _ _ _ _)
      (evalArithmetic_ne_boolean _ _ _ _)) (by cases b <;> trivial)
  | sub =>
    rw [hsub]
    exact iff_of_true (agree_of_ne (numericOp_ne_boolean _ _ _ _)
      (evalArithmetic_ne_boolean _ _ _ _)) (by cases b <;> trivial)
  | mul =>
    rw [hmul]
    exact iff_of_true (agree_of_ne (numericOp_ne_boolean _ _ _ _)
      (evalArithmetic_ne_boolean _ _ _ _)) (by cases b <;> trivial)
  | div =>
    rw [hdiv]
    exact iff_of_true (agree_of_ne (numericOp_ne_boolean _ _ _ _)
      (evalDivision_ne_boolean _ _ _)) (by cases b <;> trivial)
  | mod =>
    exact iff_of_true (agree_of_ne (numericOp_ne_boolean _ _ _ _) (evalMod_ne_boolean _ _ _))
      (by cases b <;> trivial)
  | like | «in» | between =>
    refine iff_of_true (.of_eq ((evalBinaryOp_eq_iff functions _ left right).mpr trivial)) ?_
    cases b <;> trivial

end Truth

section Functions

variable (functions : DataflowFunctions) (alike : Value Scalar → Value Scalar → Prop)

/-- The two evaluations of a path into the same JSON value are alike. -/
def SameJson (name : String) (args : List (Value Scalar)) : Prop :=
  match name with
  | "JSONB_PATH_EQ" =>
    match args with
    | some (.jsonb jsonb) :: some (.string path) :: expected :: _ =>
      alike (jsonbPathEq functions jsonb path expected) (functions.jsonbPathEq jsonb path expected)
    | _ => True
  | "JSONB_CONTAINS" =>
    match args with
    | some (.jsonb jsonb) :: some (.string path) :: expected :: _ =>
      alike (jsonbContains functions jsonb path expected)
        (functions.jsonbContains jsonb path expected)
    | _ => True
  | "JSONB_EXISTS" =>
    match args with
    | some (.jsonb jsonb) :: some (.string path) :: _ =>
      alike (jsonbPathExists functions jsonb path) (functions.jsonbPathExists jsonb path)
    | _ => True
  | _ => True

/-- On which names and arguments a function is alike in both evaluators; the runner also
knows names that only Unicode maps to those of functions. -/
def SameFunction (name : String) (args : List (Value Scalar)) : Prop :=
  if isAscii name then SameJson functions alike name.toUpper args
  else alike none (Query.evalFunction functions.toFunctions name args)

def functionNames : List String :=
  ["ABS", "UPPER", "LOWER", "LENGTH", "COALESCE", "JSONB_PATH_EQ", "JSONB_CONTAINS",
    "JSONB_EXISTS"]

theorem match_functionNames {α : Type} {name : String}
    (abs upper lower length coalesce pathEq contains pathExists unknown : α) :
    name ∉ functionNames → (match name with
      | "ABS" => abs
      | "UPPER" => upper
      | "LOWER" => lower
      | "LENGTH" => length
      | "COALESCE" => coalesce
      | "JSONB_PATH_EQ" => pathEq
      | "JSONB_CONTAINS" => contains
      | "JSONB_EXISTS" => pathExists
      | _ => unknown) = unknown := by
  intro h
  split
  case h_9 => rfl
  all_goals exact absurd (by decide) h

variable {alike}

/-- Arguments of which a path needs a JSON value, a text and an expected value. -/
theorem alike_pathArgs (hrefl : ∀ v, alike v v) (args : List (Value Scalar))
    (path path' : JsonbValue → String → Value Scalar → Value Scalar) :
    alike
        (match args with
          | some (.jsonb jsonb) :: some (.string text) :: expected :: _ => path jsonb text expected
          | _ => Value.boolean false)
        (match args with
          | some (.jsonb jsonb) :: some (.string text) :: expected :: _ => path' jsonb text expected
          | _ => Value.boolean false) ↔
      (match args with
        | some (.jsonb jsonb) :: some (.string text) :: expected :: _ =>
          alike (path jsonb text expected) (path' jsonb text expected)
        | _ => True) := by
  split
  · exact Iff.rfl
  · exact iff_of_true (hrefl _) trivial

theorem alike_existsArgs (hrefl : ∀ v, alike v v) (args : List (Value Scalar))
    (path path' : JsonbValue → String → Value Scalar) :
    alike
        (match args with
          | some (.jsonb jsonb) :: some (.string text) :: _ => path jsonb text
          | _ => Value.boolean false)
        (match args with
          | some (.jsonb jsonb) :: some (.string text) :: _ => path' jsonb text
          | _ => Value.boolean false) ↔
      (match args with
        | some (.jsonb jsonb) :: some (.string text) :: _ =>
          alike (path jsonb text) (path' jsonb text)
        | _ => True) := by
  split
  · exact Iff.rfl
  · exact iff_of_true (hrefl _) trivial

theorem isAscii_char_toUpper (c : Char) : c.toUpper.val < 128 ↔ c.val < 128 := by
  unfold Char.toUpper
  split
  · next h =>
    have hle : c.val.toNat ≤ 122 := UInt32.le_iff_toNat_le.mp h.2
    have hge : 97 ≤ c.val.toNat := UInt32.le_iff_toNat_le.mp h.1
    have hsum : (c.val + ('A'.val - 'a'.val)).toNat = (c.val.toNat + 4294967264) % 2 ^ 32 :=
      UInt32.toNat_add _ _
    have hnat : ∀ v : UInt32, v < 128 ↔ v.toNat < 128 := fun v => UInt32.lt_iff_toNat_lt
    change c.val + ('A'.val - 'a'.val) < 128 ↔ _
    rw [hnat, hnat, hsum]
    omega
  · rfl

theorem isAscii_toUpper (s : String) : isAscii s.toUpper = isAscii s := by
  unfold isAscii String.toUpper
  rw [String.toList_map, List.all_map]
  congr 1
  funext c
  exact decide_eq_decide.mpr (isAscii_char_toUpper c)

theorem evalFunction_of_not_mem {name : String} (h : name.toUpper ∉ functionNames)
    (args : List (Value Scalar)) : evalFunction functions name args = none := by
  unfold evalFunction
  exact match_functionNames _ _ _ _ _ _ _ _ _ h

theorem evalFunction_of_not_ascii {name : String} (h : isAscii name = false)
    (args : List (Value Scalar)) : evalFunction functions name args = none := by
  refine evalFunction_of_not_mem functions (fun hmem => ?_) args
  have hascii : ∀ target ∈ functionNames, isAscii target = true := by decide
  have htrue := hascii _ hmem
  rw [isAscii_toUpper, h] at htrue
  cases htrue

theorem sameJson_of_not_mem {name : String} (h : name ∉ functionNames)
    (args : List (Value Scalar)) : SameJson functions alike name args := by
  unfold SameJson
  split
  case h_4 => trivial
  all_goals exact absurd (by decide) h

/-- The names in ASCII are the same ones in both evaluators. -/
theorem evalFunction_of_ascii (hrefl : ∀ v, alike v v) {name : String} (h : isAscii name = true)
    (args : List (Value Scalar)) :
    alike (evalFunction functions name args) (Query.evalFunction functions.toFunctions name args) ↔
      SameJson functions alike name.toUpper args := by
  have hupper : functions.toFunctions.uppercase name = name.toUpper := if_pos h
  by_cases hmem : name.toUpper ∈ functionNames
  · unfold evalFunction Query.evalFunction
    rw [hupper]
    generalize name.toUpper = upper at hmem
    simp only [functionNames, List.mem_cons, List.not_mem_nil, or_false] at hmem
    obtain rfl | rfl | rfl | rfl | rfl | rfl | rfl | rfl := hmem
    case inr.inr.inr.inr.inr.inl =>
      exact alike_pathArgs hrefl args _ _
    case inr.inr.inr.inr.inr.inr.inl =>
      exact alike_pathArgs hrefl args _ _
    case inr.inr.inr.inr.inr.inr.inr =>
      exact alike_existsArgs hrefl args _ _
    all_goals exact iff_of_true (hrefl _) trivial
  · rw [evalFunction_of_not_mem functions hmem]
    have hnone : Query.evalFunction functions.toFunctions name args = none := by
      unfold Query.evalFunction
      rw [hupper]
      exact match_functionNames _ _ _ _ _ _ _ _ _ hmem
    rw [hnone]
    exact iff_of_true (hrefl _) (sameJson_of_not_mem functions hmem args)

end Functions

end Cynos.Database
