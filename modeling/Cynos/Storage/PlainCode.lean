import Cynos.Storage.KeyCode

/-! Values without floats and with integers of one width are ordered and told apart by their
comparison. -/
namespace Cynos.Core.Scalar

/-- No float, and integers of one width. -/
def isPlain (wide : Bool) : Scalar → Bool
  | .float64 _ => false
  | .int32 _ => !wide
  | .int64 _ => wide
  | _ => true

variable {wide : Bool} {a b c : Scalar}

/-- Plain values of different types stand in the order of the types. -/
theorem cmp_of_typeOrder_ne (ha : a.isPlain wide = true) (hb : b.isPlain wide = true)
    (h : a.typeOrder ≠ b.typeOrder) : a.cmp b = compare a.typeOrder b.typeOrder := by
  cases wide <;> cases a <;> cases b <;> first
    | rfl
    | exact absurd rfl h
    | exact absurd ha Bool.false_ne_true
    | exact absurd hb Bool.false_ne_true

theorem typeOrder_le (ha : a.isPlain wide = true) (hb : b.isPlain wide = true)
    (h : (a.cmp b).isLE = true) : a.typeOrder ≤ b.typeOrder := by
  by_contra hlt
  rw [cmp_of_typeOrder_ne ha hb (by omega), compare_gt_iff_gt.mpr (not_le.mp hlt)] at h
  cases h

theorem cmp_trans (ha : a.isPlain wide = true) (hb : b.isPlain wide = true)
    (hc : c.isPlain wide = true) (hab : (a.cmp b).isLE = true) (hbc : (b.cmp c).isLE = true) :
    (a.cmp c).isLE = true := by
  have hle := typeOrder_le ha hb hab
  have hle' := typeOrder_le hb hc hbc
  by_cases hne : a.typeOrder = c.typeOrder
  · have hsame : a.typeOrder = b.typeOrder := le_antisymm hle (hne ▸ hle')
    have hsame' := hsame.symm.trans hne
    cases a <;> cases b <;> cases hsame <;> cases c <;> cases hsame' <;> first
      | exact Std.TransOrd.isLE_trans hab hbc
      | exact absurd ha Bool.false_ne_true
  · have hlt : a.typeOrder < c.typeOrder := lt_of_le_of_ne (hle.trans hle') hne
    rw [cmp_of_typeOrder_ne ha hc hne, compare_lt_iff_lt.mpr hlt]
    rfl

theorem eq_of_cmp_eq (ha : a.isPlain wide = true) (hb : b.isPlain wide = true)
    (h : a.cmp b = .eq) : a = b := by
  by_cases hne : a.typeOrder = b.typeOrder
  · have heq := (eq_iff_cmp hne).mpr h
    cases a <;> cases b <;> cases hne
    case float64.float64.refl => exact absurd ha Bool.false_ne_true
    all_goals
      obtain rfl := eq_of_beq heq
      rfl
  · rw [cmp_of_typeOrder_ne ha hb hne, compare_eq_iff_eq] at h
    exact absurd h hne

end Cynos.Core.Scalar

namespace Cynos.Storage

open Core (Scalar)

@[ext]
structure PlainScalar (wide : Bool) where
  scalar : Scalar
  plain : scalar.isPlain wide = true

theorem PlainScalar.le_antisymm {wide : Bool} {a b : PlainScalar wide}
    (hab : (a.scalar.cmp b.scalar).isLE = true) (hba : (b.scalar.cmp a.scalar).isLE = true) :
    a = b := by
  refine PlainScalar.ext (Scalar.eq_of_cmp_eq a.plain b.plain ?_)
  rw [Scalar.cmp_swap a.scalar b.scalar] at hba
  cases hcmp : a.scalar.cmp b.scalar with
  | eq => rfl
  | lt => rw [hcmp] at hba; cases hba
  | gt => rw [hcmp] at hab; cases hab

instance (wide : Bool) : PartialOrder (PlainScalar wide) where
  le a b := (a.scalar.cmp b.scalar).isLE = true
  le_refl a := by rw [Scalar.cmp_self]; rfl
  le_trans a b c := Scalar.cmp_trans a.plain b.plain c.plain
  le_antisymm _ _ := PlainScalar.le_antisymm

theorem PlainScalar.cmp_compares {wide : Bool} (a b : PlainScalar wide) :
    (a.scalar.cmp b.scalar).Compares a b := by
  have hlt : ∀ {a b : PlainScalar wide}, a.scalar.cmp b.scalar = .lt → a < b := by
    intro a b hcmp
    refine lt_of_le_of_ne (congrArg Ordering.isLE hcmp) ?_
    rintro rfl
    rw [Scalar.cmp_self] at hcmp
    cases hcmp
  cases hcmp : a.scalar.cmp b.scalar with
  | lt => exact hlt hcmp
  | eq => exact PlainScalar.ext (Scalar.eq_of_cmp_eq a.plain b.plain hcmp)
  | gt => exact hlt (by rw [Scalar.cmp_swap a.scalar b.scalar, hcmp]; rfl)

instance (wide : Bool) : LinearOrder (PlainScalar wide) :=
  linearOrderOfCompares (fun a b => a.scalar.cmp b.scalar) PlainScalar.cmp_compares

theorem PlainScalar.compare_eq {wide : Bool} (a b : PlainScalar wide) :
    compare a b = a.scalar.cmp b.scalar := by
  have h := PlainScalar.cmp_compares a b
  cases hcmp : a.scalar.cmp b.scalar with
  | lt => exact compare_lt_iff_lt.mpr (h.eq_lt.mp hcmp)
  | eq => exact compare_eq_iff_eq.mpr (h.eq_eq.mp hcmp)
  | gt => exact compare_gt_iff_gt.mpr (h.eq_gt.mp hcmp)

/-- Plain values are their own code. -/
def plainCode (wide : Bool) : ValueCode (PlainScalar wide) where
  encode scalar := if h : scalar.isPlain wide = true then ⟨scalar, h⟩ else ⟨.boolean false, rfl⟩
  Ok scalar := scalar.isPlain wide = true
  cmp_eq a b ha hb := by rw [dif_pos ha, dif_pos hb, PlainScalar.compare_eq]
  eq_iff a b ha hb := by
    by_cases hne : a.typeOrder = b.typeOrder
    · exact Scalar.eq_iff_cmp hne
    · rw [Scalar.eq_of_typeOrder_ne hne, Scalar.cmp_of_typeOrder_ne ha hb hne, compare_eq_iff_eq]
      exact iff_of_false Bool.false_ne_true hne
  not_float _ := Bool.false_ne_true

end Cynos.Storage
