import Cynos.Core.Scalar
import Cynos.Lib.Binary64

/-! Values with the bits of their floats: the order of indexes and sorting, the equality and the
hash of storage keys and groups, and what these three have to do with each other. -/
namespace Cynos.Core

/-- A float is kept as its bits, so that signs of zeros and payloads of NaNs can be told apart. -/
inductive RawValue where
  | null
  | boolean (value : Bool)
  | int32 (value : Int32)
  | int64 (value : Int64)
  | float64 (bits : UInt64)
  | string (value : String)
  | dateTime (value : Int64)
  | bytes (value : List UInt8)
  | jsonb (value : JsonbValue)

/-- One call of the hasher. -/
inductive HashWrite where
  | discriminant (index : Nat)
  | u8 (value : UInt8)
  | i32 (value : Int32)
  | i64 (value : Int64)
  | u64 (value : UInt64)
  | str (value : String)
  | slice (value : List UInt8)

namespace RawValue

open Scalar (cmpFloat)
open Binary64 (ofInt)

def typeOrder : RawValue → Nat
  | .null => 0
  | .boolean _ => 1
  | .int32 _ => 2
  | .int64 _ => 3
  | .float64 _ => 4
  | .string _ => 5
  | .dateTime _ => 6
  | .bytes _ => 7
  | .jsonb _ => 8

def cmp : RawValue → RawValue → Ordering
  | .null, .null => .eq
  | .null, _ => .lt
  | _, .null => .gt
  | .boolean a, .boolean b => compare a b
  | .int32 a, .int32 b => compare a b
  | .int64 a, .int64 b => compare a b
  | .int32 a, .int64 b => compare a.toInt64 b
  | .int64 a, .int32 b => compare a b.toInt64
  | .int32 a, .float64 b => cmpFloat (ofInt a.toInt) (.ofBits b)
  | .float64 a, .int32 b => cmpFloat (.ofBits a) (ofInt b.toInt)
  | .int64 a, .float64 b => cmpFloat (ofInt a.toInt) (.ofBits b)
  | .float64 a, .int64 b => cmpFloat (.ofBits a) (ofInt b.toInt)
  | .float64 a, .float64 b => cmpFloat (.ofBits a) (.ofBits b)
  | .string a, .string b => compare a b
  | .dateTime a, .dateTime b => compare a b
  | .bytes a, .bytes b => compare a b
  | .jsonb a, .jsonb b => compare a.data b.data
  | a, b => compare a.typeOrder b.typeOrder

def eq : RawValue → RawValue → Bool
  | .null, .null => true
  | .boolean a, .boolean b => a == b
  | .int32 a, .int32 b => a == b
  | .int64 a, .int64 b => a == b
  | .float64 a, .float64 b =>
    ((Float.ofBits a).isNaN && (Float.ofBits b).isNaN) || Float.ofBits a == Float.ofBits b
  | .string a, .string b => a == b
  | .dateTime a, .dateTime b => a == b
  | .bytes a, .bytes b => a == b
  | .jsonb a, .jsonb b => a == b
  | _, _ => false

/-- `mem::discriminant`; the variants are declared in the order of `type_order`. -/
def discriminant (value : RawValue) : Nat := value.typeOrder

def payload : RawValue → List HashWrite
  | .null => []
  | .boolean b => [.u8 b.toUInt8]
  | .int32 i => [.i32 i]
  | .int64 i => [.i64 i]
  | .float64 bits => [.u64 bits]
  | .string s => [.str s]
  | .dateTime d => [.i64 d]
  | .bytes b => [.slice b]
  | .jsonb j => [.slice j.data]

/-- What a hasher with the state `H` makes of the value. -/
def hash {H : Type} (write : H → HashWrite → H) (state : H) (value : RawValue) : H :=
  (.discriminant value.discriminant :: value.payload).foldl write state

end RawValue

section Numbers

open Binary64 (ofInt rank)
open Scalar (cmpFloat)

theorem compare_isLE {A : Type} [LinearOrder A] (a b : A) :
    (compare a b).isLE = true ↔ a ≤ b := by
  rw [Ordering.isLE_iff_ne_gt]
  exact (not_congr compare_gt_iff_gt).trans not_lt

theorem cmpFloat_eq_compare_rank (a b : Float) :
    cmpFloat a b = compare (rank a.toModel.unpack) (rank b.toModel.unpack) := by
  have hnan (x : Float) (h : x.isNaN = true) : x.toModel.unpack = .notANumber := by
    change x.toModel.unpack.isNaN = true at h
    cases hx : x.toModel.unpack with
    | notANumber => rfl
    | infinity | zero | finite => rw [hx] at h; cases h
  cases h : Scalar.partialCmp a b with
  | some o => rw [Scalar.cmpFloat_of_partialCmp h, Binary64.compare_rank h]
  | none =>
    unfold cmpFloat
    cases ha : a.isNaN <;> cases hb : b.isNaN
    case false.false =>
      rcases (Scalar.partialCmp_eq_none a b).mp h with hnone | hnone
      · exact absurd (ha.symm.trans hnone) Bool.false_ne_true
      · exact absurd (hb.symm.trans hnone) Bool.false_ne_true
    case false.true =>
      rw [hnan b hb]
      exact (compare_lt_iff_lt.mpr (Binary64.rank_lt_notANumber ha)).symm
    case true.false =>
      rw [hnan a ha]
      exact (compare_gt_iff_gt.mpr (Binary64.rank_lt_notANumber hb)).symm
    case true.true =>
      rw [hnan a ha, hnan b hb]
      exact (compare_eq_iff_eq.mpr rfl).symm

theorem cmpFloat_isLE (a b : Float) :
    (cmpFloat a b).isLE = true ↔ rank a.toModel.unpack ≤ rank b.toModel.unpack := by
  rw [cmpFloat_eq_compare_rank, compare_isLE]

/-- A numeric value, of either integer width. -/
inductive Number where
  | int (value : Int)
  | float (value : Float)

namespace Number

def cmp : Number → Number → Ordering
  | int a, int b => compare a b
  | int a, float b => cmpFloat (ofInt a) b
  | float a, int b => cmpFloat a (ofInt b)
  | float a, float b => cmpFloat a b

/-- An integer of 64 bits. -/
def Fits : Number → Prop
  | int a => a.natAbs < 2 ^ 64
  | float _ => True

/-- Two integers that are both rounded to the float, the first one being larger. -/
def Collapses : Number → Number → Number → Prop
  | int m, float f, int n => n < m ∧ (ofInt m == f) = true ∧ (ofInt n == f) = true
  | _, _, _ => False

theorem beq_of_rank_eq {n : Int} (hn : n.natAbs < 2 ^ 64) {f : Float}
    (h : rank (ofInt n).toModel.unpack = rank f.toModel.unpack) : (ofInt n == f) = true := by
  have heq : cmpFloat (ofInt n) f = .eq := by
    rw [cmpFloat_eq_compare_rank, compare_eq_iff_eq.mpr h]
  have := (Scalar.cmpFloat_eq_iff _ _).mp heq
  rwa [Binary64.not_isNaN_ofInt hn, Bool.false_and, Bool.false_or] at this

theorem isLE_int (a b : Int) : ((int a).cmp (int b)).isLE = true ↔ a ≤ b := compare_isLE a b

/-- The float that a number is compared as with a float. -/
def toFloat : Number → Float
  | int a => ofInt a
  | float a => a

theorem isLE_float (a : Number) (b : Float) :
    (a.cmp (float b)).isLE = true ↔ rank a.toFloat.toModel.unpack ≤ rank b.toModel.unpack := by
  cases a <;> exact cmpFloat_isLE _ _

theorem isLE_of_float (a : Float) (b : Number) :
    ((float a).cmp b).isLE = true ↔ rank a.toModel.unpack ≤ rank b.toFloat.toModel.unpack := by
  cases b <;> exact cmpFloat_isLE _ _

theorem cmp_trans {a b c : Number} (ha : a.Fits) (hb : b.Fits) (hc : c.Fits)
    (hab : (a.cmp b).isLE = true) (hbc : (b.cmp c).isLE = true) (h : ¬Collapses a b c) :
    (a.cmp c).isLE = true := by
  cases b with
  | float b =>
    rw [isLE_float] at hab
    rw [isLE_of_float] at hbc
    have hac := hab.trans hbc
    cases a with
    | float a => exact (isLE_of_float a c).mpr hac
    | int a =>
      cases c with
      | float c => exact (isLE_float (int a) c).mpr hac
      | int c =>
        rw [isLE_int]
        by_contra hlt
        have hca := Binary64.rank_ofInt_mono hc ha (le_of_not_ge hlt)
        exact h ⟨lt_of_not_ge hlt, beq_of_rank_eq ha (le_antisymm hab (hbc.trans hca)),
          beq_of_rank_eq hc (le_antisymm (hca.trans hab) hbc)⟩
  | int b =>
    cases a with
    | float a =>
      rw [isLE_of_float] at hab ⊢
      refine hab.trans ?_
      cases c with
      | float c => exact (isLE_float (int b) c).mp hbc
      | int c => exact Binary64.rank_ofInt_mono hb hc ((isLE_int b c).mp hbc)
    | int a =>
      rw [isLE_int] at hab
      cases c with
      | float c =>
        rw [isLE_float] at hbc ⊢
        exact (Binary64.rank_ofInt_mono ha hb hab).trans hbc
      | int c => exact (isLE_int a c).mpr (hab.trans ((isLE_int b c).mp hbc))

end Number

end Numbers

namespace RawValue

open Binary64 (ofInt)

def number : RawValue → Option Number
  | .int32 i => some (.int i.toInt)
  | .int64 i => some (.int i.toInt)
  | .float64 bits => some (.float (.ofBits bits))
  | _ => none

theorem number_fits {a : RawValue} {x : Number} (h : a.number = some x) : x.Fits := by
  cases a <;> cases h
  case int32 i => have := i.toInt_lt; have := i.le_toInt; unfold Number.Fits; omega
  case int64 i => have := i.toInt_lt; have := i.le_toInt; unfold Number.Fits; omega
  case float64 bits => trivial

theorem compare_int32 (a b : Int32) : compare a b = compare a.toInt b.toInt := by
  change compareOfLessAndEq a b = compareOfLessAndEq a.toInt b.toInt
  simp only [compareOfLessAndEq, Int32.lt_iff_toInt_lt, Int32.toInt_inj]

theorem compare_int64 (a b : Int64) : compare a b = compare a.toInt b.toInt := by
  change compareOfLessAndEq a b = compareOfLessAndEq a.toInt b.toInt
  simp only [compareOfLessAndEq, Int64.lt_iff_toInt_lt, Int64.toInt_inj]

theorem cmp_of_number {a b : RawValue} {x y : Number} (ha : a.number = some x)
    (hb : b.number = some y) : a.cmp b = x.cmp y := by
  cases a <;> cases ha <;> cases b <;> cases hb
  case int32.refl.int32.refl a b => exact compare_int32 a b
  case int64.refl.int64.refl a b => exact compare_int64 a b
  case int32.refl.int64.refl a b =>
    exact (compare_int64 a.toInt64 b).trans (by rw [Int32.toInt_toInt64]; rfl)
  case int64.refl.int32.refl a b =>
    exact (compare_int64 a b.toInt64).trans (by rw [Int32.toInt_toInt64]; rfl)
  all_goals rfl

/-- The types in their order, with one place for all numbers. -/
def kind : RawValue → Nat
  | .null => 0
  | .boolean _ => 1
  | .int32 _ | .int64 _ | .float64 _ => 2
  | .string _ => 3
  | .dateTime _ => 4
  | .bytes _ => 5
  | .jsonb _ => 6

theorem cmp_of_kind_ne {a b : RawValue} (h : a.kind ≠ b.kind) :
    a.cmp b = compare a.kind b.kind := by
  cases a <;> cases b <;> first | rfl | exact absurd rfl h

theorem cmp_trans_of_kind_eq {a b c : RawValue} (hk : a.kind = b.kind) (hk' : b.kind = c.kind)
    (hnumber : a.number = none) (hab : (a.cmp b).isLE = true) (hbc : (b.cmp c).isLE = true) :
    (a.cmp c).isLE = true := by
  cases a <;> cases hnumber <;> cases b <;> cases hk <;> cases c <;> cases hk'
  case null.refl.null.refl.null.refl => rfl
  all_goals exact Std.TransOrd.isLE_trans hab hbc

theorem cmp_swap (a b : RawValue) : b.cmp a = (a.cmp b).swap := by
  cases a <;> cases b <;>
    first | rfl | exact Scalar.cmpFloat_swap _ _ | exact Scalar.compare_swap _ _

theorem kind_eq_two {a : RawValue} : a.kind = 2 ↔ ∃ x, a.number = some x := by
  cases a <;> simp [kind, number]

theorem kind_le {a b : RawValue} (h : (a.cmp b).isLE = true) : a.kind ≤ b.kind := by
  by_cases hk : a.kind = b.kind
  · exact hk.le
  · rw [cmp_of_kind_ne hk, compare_isLE] at h
    exact h

/-- Two integers that are both rounded to the float between them, the first one being larger. -/
def Collapses (a b c : RawValue) : Prop :=
  ∃ x y z, a.number = some x ∧ b.number = some y ∧ c.number = some z ∧ x.Collapses y z

theorem cmp_trans {a b c : RawValue} (hab : (a.cmp b).isLE = true) (hbc : (b.cmp c).isLE = true)
    (h : ¬Collapses a b c) : (a.cmp c).isLE = true := by
  have hka := kind_le hab
  have hkc := kind_le hbc
  by_cases hk : a.kind = c.kind
  · have hkab : a.kind = b.kind := by omega
    have hkbc : b.kind = c.kind := by omega
    cases hnumber : a.number with
    | none => exact cmp_trans_of_kind_eq hkab hkbc hnumber hab hbc
    | some x =>
      have htwo : a.kind = 2 := kind_eq_two.mpr ⟨x, hnumber⟩
      obtain ⟨y, hy⟩ := kind_eq_two.mp (hkab.symm.trans htwo)
      obtain ⟨z, hz⟩ := kind_eq_two.mp (hk.symm.trans htwo)
      rw [cmp_of_number hnumber hy] at hab
      rw [cmp_of_number hy hz] at hbc
      rw [cmp_of_number hnumber hz]
      exact Number.cmp_trans (number_fits hnumber) (number_fits hy) (number_fits hz) hab hbc
        fun hcollapses => h ⟨x, y, z, hnumber, hy, hz, hcollapses⟩
  · rw [cmp_of_kind_ne hk, compare_isLE]
    omega

/-- Values of one type are equal when they compare as equal. -/
theorem eq_iff_cmp {a b : RawValue} (h : a.typeOrder = b.typeOrder) :
    a.eq b = true ↔ a.cmp b = .eq := by
  cases a <;> cases b <;> try cases h
  case float64.float64.refl a b => exact (Scalar.cmpFloat_eq_iff _ _).symm
  case jsonb.jsonb.refl a b =>
    cases a
    cases b
    simp [eq, cmp]
  all_goals simp [eq, cmp]

theorem eq_iff (a b : RawValue) :
    a.eq b = true ↔ a.cmp b = .eq ∧ a.discriminant = b.discriminant := by
  by_cases h : a.discriminant = b.discriminant
  · rw [and_iff_left h]
    exact eq_iff_cmp h
  · refine iff_of_false ?_ fun heq => h heq.2
    cases a <;> cases b <;> first | exact Bool.false_ne_true | exact absurd rfl h

theorem number_of_cmp_eq {a b : RawValue} (h : a.cmp b = .eq)
    (hne : a.discriminant ≠ b.discriminant) : a.number.isSome ∧ b.number.isSome := by
  cases a <;> cases b <;> first | exact ⟨rfl, rfl⟩ | exact absurd rfl hne | cases h

/-- Two floats, such as both zeros or two NaNs, that have not the same bits. -/
def DifferentBits (a b : RawValue) : Prop :=
  ∃ x y, a = .float64 x ∧ b = .float64 y ∧ x ≠ y

theorem hash_congr {H : Type} (write : H → HashWrite → H) (state : H) {a b : RawValue}
    (heq : a.eq b = true) (hbits : ¬DifferentBits a b) :
    a.hash write state = b.hash write state := by
  cases a <;> cases b <;> try cases heq
  case null.null => rfl
  case float64.float64 a b =>
    obtain rfl : a = b := by
      by_contra hne
      exact hbits ⟨a, b, rfl, rfl, hne⟩
    rfl
  all_goals
    obtain rfl := eq_of_beq heq
    rfl

/-- The order turns round with its arguments. It is transitive, but for a float that two different
integers are rounded to. Equal values have the same hash, but for floats that differ in their bits.
Values of one type are equal when the order says so; of other types the order finds only numbers
equal. -/
theorem coherent (a b c : RawValue) :
    b.cmp a = (a.cmp b).swap ∧
    ((a.cmp b).isLE → (b.cmp c).isLE → ¬Collapses a b c → (a.cmp c).isLE) ∧
    (∀ {H : Type} (write : H → HashWrite → H) (state : H), a.eq b → ¬DifferentBits a b →
      a.hash write state = b.hash write state) ∧
    (a.eq b = true ↔ a.cmp b = .eq ∧ a.discriminant = b.discriminant) ∧
    (a.cmp b = .eq → a.discriminant ≠ b.discriminant → a.number.isSome ∧ b.number.isSome) :=
  ⟨cmp_swap a b, cmp_trans, fun write state => hash_congr write state, eq_iff a b,
    number_of_cmp_eq⟩

/-- An integer of each width; a float between two integers beyond its 53 bits; both zeros. -/
theorem incoherent :
    ((int32 1).cmp (int64 1) = .eq ∧ (int32 1).eq (int64 1) = false) ∧
    (((int64 9007199254740993).cmp (float64 0x4340000000000000)).isLE ∧
      ((float64 0x4340000000000000).cmp (int64 9007199254740992)).isLE ∧
      (int64 9007199254740993).cmp (int64 9007199254740992) = .gt) ∧
    ((float64 0).eq (float64 0x8000000000000000) ∧
      (float64 0).hash (fun writes write => write :: writes) [] ≠
        (float64 0x8000000000000000).hash (fun writes write => write :: writes) []) := by
  refine ⟨⟨rfl, rfl⟩, ⟨?_, ?_, ?_⟩, ?_, ?_⟩
  · decide +kernel
  · decide +kernel
  · decide +kernel
  · decide +kernel
  · simp [hash, payload, discriminant, typeOrder]

end RawValue

end Cynos.Core
