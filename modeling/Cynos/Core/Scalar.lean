import Cynos.Core.Row

/-! The values that a column can hold besides `Null`, with the order that sorting and
indexes use and the equality of predicates and join keys. Integers of both widths
and floats share one order, but an integer equals no float. -/
namespace Cynos.Core

structure JsonbValue where
  data : List UInt8
  deriving DecidableEq

inductive Scalar where
  | boolean (value : Bool)
  | int32 (value : Int32)
  | int64 (value : Int64)
  | float64 (value : Float)
  | string (value : String)
  | dateTime (value : Int64)
  | bytes (value : List UInt8)
  | jsonb (value : JsonbValue)

namespace Scalar

/-- `partial_cmp` of two floats; a NaN stands above every number. -/
def cmpFloat (a b : Float) : Ordering :=
  match a.isNaN, b.isNaN with
  | true, true => .eq
  | true, false => .gt
  | false, true => .lt
  | false, false => if a < b then .lt else if b < a then .gt else .eq

def typeOrder : Scalar → Nat
  | .boolean _ => 1
  | .int32 _ => 2
  | .int64 _ => 3
  | .float64 _ => 4
  | .string _ => 5
  | .dateTime _ => 6
  | .bytes _ => 7
  | .jsonb _ => 8

def cmp : Scalar → Scalar → Ordering
  | .boolean a, .boolean b => compare a b
  | .int32 a, .int32 b => compare a b
  | .int64 a, .int64 b => compare a b
  | .int32 a, .int64 b => compare a.toInt64 b
  | .int64 a, .int32 b => compare a b.toInt64
  | .int32 a, .float64 b => cmpFloat a.toFloat b
  | .float64 a, .int32 b => cmpFloat a b.toFloat
  | .int64 a, .float64 b => cmpFloat a.toFloat b
  | .float64 a, .int64 b => cmpFloat a b.toFloat
  | .float64 a, .float64 b => cmpFloat a b
  | .string a, .string b => compare a b
  | .dateTime a, .dateTime b => compare a b
  | .bytes a, .bytes b => compare a b
  | .jsonb a, .jsonb b => compare a.data b.data
  | a, b => compare a.typeOrder b.typeOrder

def eq : Scalar → Scalar → Bool
  | .boolean a, .boolean b => a == b
  | .int32 a, .int32 b => a == b
  | .int64 a, .int64 b => a == b
  | .float64 a, .float64 b => (a.isNaN && b.isNaN) || a == b
  | .string a, .string b => a == b
  | .dateTime a, .dateTime b => a == b
  | .bytes a, .bytes b => a == b
  | .jsonb a, .jsonb b => a == b
  | _, _ => false

def sqlEq : Scalar → Scalar → Bool
  | .int32 a, .int64 b => a.toInt64 == b
  | .int64 a, .int32 b => a == b.toInt64
  | a, b => a.eq b

end Scalar

namespace Value

def isNull (value : Value Scalar) : Bool := value.isNone

def cmp : Value Scalar → Value Scalar → Ordering
  | none, none => .eq
  | none, some _ => .lt
  | some _, none => .gt
  | some a, some b => a.cmp b

def eq : Value Scalar → Value Scalar → Bool
  | none, none => true
  | some a, some b => a.eq b
  | _, _ => false

def sqlEq : Value Scalar → Value Scalar → Bool
  | some a, some b => a.sqlEq b
  | a, b => eq a b

def lt (a b : Value Scalar) : Bool := cmp a b == .lt
def le (a b : Value Scalar) : Bool := cmp a b != .gt
def gt (a b : Value Scalar) : Bool := cmp a b == .gt
def ge (a b : Value Scalar) : Bool := cmp a b != .lt

def boolean (b : Bool) : Value Scalar := some (.boolean b)

/-- `matches!(value, Value::Boolean(true))`. -/
def isTrue : Value Scalar → Bool
  | some (.boolean b) => b
  | _ => false

@[simp] theorem isTrue_boolean (b : Bool) : isTrue (boolean b) = b := rfl
@[simp] theorem isTrue_none : isTrue none = false := rfl
@[simp] theorem isNull_none : isNull none = true := rfl
@[simp] theorem isNull_some (a : Scalar) : isNull (some a) = false := rfl
@[simp] theorem isNull_null : isNull Value.null = true := rfl
@[simp] theorem isTrue_null : isTrue Value.null = false := rfl

end Value

namespace Scalar

section Floats

open Float.Model

/-- IEEE comparison, which a NaN has with nothing. -/
def partialCmp (a b : Float) : Option Ordering := a.toModel.unpack.compare b.toModel.unpack

theorem float_lt_iff (a b : Float) : a < b ↔ partialCmp a b = some .lt := by
  change decide ((partialCmp a b == some .lt) = true) = true ↔ _
  rw [decide_eq_true_iff, beq_iff_eq]

theorem float_beq_iff (a b : Float) : (a == b) = true ↔ partialCmp a b = some .eq := by
  change (partialCmp a b == some .eq) = true ↔ _
  rw [beq_iff_eq]

theorem compareUnpacked_swap (x y : UnpackedFloat) :
    y.compare x = (x.compare y).map Ordering.swap := by
  cases x with
  | notANumber => cases y <;> rfl
  | infinity s =>
    cases y with
    | notANumber => cases s <;> rfl
    | infinity s' => cases s <;> cases s' <;> rfl
    | zero s' => cases s <;> rfl
    | finite s' m e h => cases s <;> cases s' <;> rfl
  | zero s =>
    cases y with
    | notANumber => rfl
    | infinity s' => cases s' <;> rfl
    | zero s' => rfl
    | finite s' m e h => cases s' <;> rfl
  | finite s m e h =>
    cases y with
    | notANumber => cases s <;> rfl
    | infinity s' => cases s <;> cases s' <;> rfl
    | zero s' => cases s <;> rfl
    | finite s' m' e' h' =>
      have hswap :
          (compare e' e).then (compare m' m) = ((compare e e').then (compare m m')).swap := by
        rw [Ordering.swap_then, ← Std.OrientedCmp.eq_swap, ← Std.OrientedCmp.eq_swap]
      cases s <;> cases s' <;>
        first | rfl | exact congrArg some hswap | exact congrArg (fun o => some o.swap) hswap

theorem partialCmp_swap (a b : Float) : partialCmp b a = (partialCmp a b).map Ordering.swap :=
  compareUnpacked_swap _ _

/-- Floats that are equal compare alike with every other. -/
theorem compareUnpacked_congr {x y : UnpackedFloat} (h : x.compare y = some .eq)
    (z : UnpackedFloat) : x.compare z = y.compare z := by
  cases x with
  | notANumber => cases y <;> cases h
  | infinity s =>
    cases y with
    | infinity s' => cases s <;> cases s' <;> first | rfl | cases h
    | notANumber => cases s <;> cases h
    | zero s' => cases s <;> cases h
    | finite s' m e h' => cases s <;> cases s' <;> cases h
  | zero s =>
    cases y with
    | zero s' =>
      cases z with
      | infinity s'' => cases s'' <;> rfl
      | finite s'' m e h'' => cases s'' <;> rfl
      | _ => rfl
    | notANumber => cases h
    | infinity s' => cases s' <;> cases h
    | finite s' m e h' => cases s' <;> cases h
  | finite s m e hm =>
    cases y with
    | finite s' m' e' hm' =>
      have hparts (heq : (compare e e').then (compare m m') = .eq) : e = e' ∧ m = m' := by
        obtain ⟨he, hm⟩ := Ordering.then_eq_eq.mp heq
        exact ⟨compare_eq_iff_eq.mp he, compare_eq_iff_eq.mp hm⟩
      cases s <;> cases s'
      case negative.positive => cases h
      case positive.negative => cases h
      case positive.positive =>
        obtain ⟨rfl, rfl⟩ := hparts (Option.some.inj h)
        rfl
      case negative.negative =>
        obtain ⟨rfl, rfl⟩ := hparts (Ordering.swap_eq_eq.mp (Option.some.inj h))
        rfl
    | notANumber => cases s <;> cases h
    | infinity s' => cases s <;> cases s' <;> cases h
    | zero s' => cases s <;> cases h

theorem partialCmp_congr {a b : Float} (h : partialCmp a b = some .eq) (c : Float) :
    partialCmp a c = partialCmp b c := compareUnpacked_congr h _

theorem partialCmp_eq_none (a b : Float) :
    partialCmp a b = none ↔ a.isNaN = true ∨ b.isNaN = true := by
  change a.toModel.unpack.compare b.toModel.unpack = none ↔
    a.toModel.unpack.isNaN = true ∨ b.toModel.unpack.isNaN = true
  generalize a.toModel.unpack = x
  generalize b.toModel.unpack = y
  have hnan : UnpackedFloat.notANumber.isNaN = true := rfl
  cases x with
  | notANumber => exact iff_of_true rfl (.inl hnan)
  | infinity s =>
    cases y with
    | notANumber => exact iff_of_true (by cases s <;> rfl) (.inr hnan)
    | _ => cases s <;> exact iff_of_false nofun (by rintro (h | h) <;> cases h)
  | zero s =>
    cases y with
    | notANumber => exact iff_of_true rfl (.inr hnan)
    | zero s' => exact iff_of_false nofun (by rintro (h | h) <;> cases h)
    | infinity s' => cases s' <;> exact iff_of_false nofun (by rintro (h | h) <;> cases h)
    | finite s' => cases s' <;> exact iff_of_false nofun (by rintro (h | h) <;> cases h)
  | finite s m e h =>
    cases y with
    | notANumber => exact iff_of_true (by cases s <;> rfl) (.inr hnan)
    | zero s' => cases s <;> exact iff_of_false nofun (by rintro (h | h) <;> cases h)
    | infinity s' =>
      cases s' <;> cases s <;> exact iff_of_false nofun (by rintro (h | h) <;> cases h)
    | finite s' =>
      cases s' <;> cases s <;> exact iff_of_false nofun (by rintro (h | h) <;> cases h)

/-- Floats compare by their IEEE order where they have one. -/
theorem cmpFloat_of_partialCmp {a b : Float} {o : Ordering} (h : partialCmp a b = some o) :
    cmpFloat a b = o := by
  have hnan : ¬ (a.isNaN = true ∨ b.isNaN = true) := by
    rw [← partialCmp_eq_none, h]
    exact nofun
  rw [not_or, Bool.not_eq_true, Bool.not_eq_true] at hnan
  simp only [cmpFloat, hnan.1, hnan.2, float_lt_iff, partialCmp_swap a b, h]
  cases o <;> rfl

theorem cmpFloat_swap (a b : Float) : cmpFloat b a = (cmpFloat a b).swap := by
  cases h : partialCmp a b with
  | none =>
    have hnan := (partialCmp_eq_none a b).mp h
    simp only [cmpFloat]
    cases ha : a.isNaN <;> cases hb : b.isNaN <;> simp_all
  | some o =>
    have hswap : partialCmp b a = some o.swap := by rw [partialCmp_swap a b, h]; rfl
    rw [cmpFloat_of_partialCmp h, cmpFloat_of_partialCmp hswap]

/-- Two floats compare as equal when both are NaN or they are equal. -/
theorem cmpFloat_eq_iff (a b : Float) :
    cmpFloat a b = .eq ↔ ((a.isNaN && b.isNaN) || a == b) = true := by
  rw [Bool.or_eq_true, float_beq_iff]
  cases h : partialCmp a b with
  | none =>
    have hnan := (partialCmp_eq_none a b).mp h
    simp only [cmpFloat]
    cases ha : a.isNaN <;> cases hb : b.isNaN <;> simp_all
  | some o =>
    have hnan : ¬ (a.isNaN = true ∨ b.isNaN = true) := by
      rw [← partialCmp_eq_none, h]
      exact nofun
    rw [cmpFloat_of_partialCmp h]
    simp_all

end Floats

section Order

theorem compare_swap {A : Type} [Ord A] [Std.OrientedOrd A] (a b : A) :
    compare b a = (compare a b).swap := Std.OrientedCmp.eq_swap

theorem cmp_swap (a b : Scalar) : b.cmp a = (a.cmp b).swap := by
  cases a <;> cases b <;>
    first | exact cmpFloat_swap _ _ | exact compare_swap _ _

theorem cmp_self (a : Scalar) : a.cmp a = .eq := by
  have h := cmp_swap a a
  cases hcmp : a.cmp a with
  | eq => rfl
  | lt => rw [hcmp] at h; cases h
  | gt => rw [hcmp] at h; cases h

/-- Values of one type are equal when they compare as equal. -/
theorem eq_iff_cmp {a b : Scalar} (h : a.typeOrder = b.typeOrder) :
    a.eq b = true ↔ a.cmp b = .eq := by
  cases a <;> cases b <;> try cases h
  case float64.float64 a b => exact (cmpFloat_eq_iff a b).symm
  case jsonb.jsonb a b =>
    cases a
    cases b
    simp [Scalar.eq, cmp]
  all_goals simp [Scalar.eq, cmp]

theorem eq_refl (a : Scalar) : a.eq a = true := (eq_iff_cmp rfl).mpr (cmp_self a)

theorem eq_of_typeOrder_ne {a b : Scalar} (h : a.typeOrder ≠ b.typeOrder) : a.eq b = false := by
  cases a <;> cases b <;> first | rfl | exact absurd rfl h

theorem eq_comm (a b : Scalar) : a.eq b = b.eq a := by
  by_cases h : a.typeOrder = b.typeOrder
  · rw [Bool.eq_iff_iff, eq_iff_cmp h, eq_iff_cmp h.symm, cmp_swap a b]
    cases a.cmp b <;> simp
  · rw [eq_of_typeOrder_ne h, eq_of_typeOrder_ne (Ne.symm h)]

/-- Equal values equal the same values. -/
theorem eq_congr {a b : Scalar} (h : a.eq b = true) (c : Scalar) : a.eq c = b.eq c := by
  cases a <;> cases b <;> first | exact absurd h Bool.false_ne_true | skip
  case float64.float64 a b =>
    cases c <;> first | rfl | skip
    case float64 c =>
      change ((a.isNaN && c.isNaN) || a == c) = ((b.isNaN && c.isNaN) || b == c)
      have hab : ((a.isNaN && b.isNaN) || a == b) = true := h
      rw [Bool.or_eq_true, Bool.and_eq_true] at hab
      rcases hab with ⟨ha, hb⟩ | hab
      · have hne : ∀ x : Float, x.isNaN = true → (x == c) = false := by
          intro x hx
          rw [Bool.eq_false_iff, ne_eq, float_beq_iff, (partialCmp_eq_none x c).mpr (.inl hx)]
          exact nofun
        rw [ha, hb, hne a ha, hne b hb]
      · have hcmp := (float_beq_iff a b).mp hab
        have hnan : ¬ (a.isNaN = true ∨ b.isNaN = true) := by
          rw [← partialCmp_eq_none, hcmp]
          exact nofun
        have heq : (a == c) = (b == c) := by
          rw [Bool.eq_iff_iff, float_beq_iff, float_beq_iff, partialCmp_congr hcmp]
        simp_all
  all_goals
    obtain rfl := eq_of_beq h
    rfl

theorem sqlEq_comm (a b : Scalar) : a.sqlEq b = b.sqlEq a := by
  cases a <;> cases b
  case int32.int64 a b => exact (Bool.beq_comm : (a.toInt64 == b) = (b == a.toInt64))
  case int64.int32 a b => exact (Bool.beq_comm : (a == b.toInt64) = (b.toInt64 == a))
  all_goals
    unfold sqlEq
    exact eq_comm _ _

end Order

end Scalar

namespace Value

theorem cmp_swap (a b : Value Scalar) : cmp b a = (cmp a b).swap := by
  cases a <;> cases b <;> first | rfl | exact Scalar.cmp_swap _ _

theorem eq_refl (a : Value Scalar) : eq a a = true := by
  cases a with
  | none => rfl
  | some a => exact Scalar.eq_refl a

theorem eq_comm (a b : Value Scalar) : eq a b = eq b a := by
  cases a <;> cases b <;> first | rfl | exact Scalar.eq_comm _ _

theorem eq_congr {a b : Value Scalar} (h : eq a b = true) (c : Value Scalar) :
    eq a c = eq b c := by
  cases a <;> cases b <;> cases c <;>
    first | rfl | exact absurd h Bool.false_ne_true | exact Scalar.eq_congr h _

theorem sqlEq_comm (a b : Value Scalar) : sqlEq a b = sqlEq b a := by
  cases a <;> cases b <;> first | rfl | exact Scalar.sqlEq_comm _ _

end Value

end Cynos.Core
