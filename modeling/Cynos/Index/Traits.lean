import Mathlib.Algebra.Ring.Nat
import Mathlib.Data.List.Basic
import Mathlib.Order.Lattice
import Mathlib.Order.WithBot

/-! Key ranges, index errors, comparators and statistics shared by all indexes. -/
namespace Cynos.Index

abbrev RowId := Nat

inductive KeyRange (K : Type) where
  | all
  | only (key : K)
  | lowerBound (value : K) (exclusive : Bool)
  | upperBound (value : K) (exclusive : Bool)
  | bound (lower upper : K) (lowerExclusive upperExclusive : Bool)
  deriving DecidableEq, Repr

/-- Whether this range represents all values. -/
def KeyRange.isAll {K : Type} : KeyRange K → Bool
  | .all => true
  | .only _ | .lowerBound _ _ | .upperBound _ _ | .bound _ _ _ _ => false

inductive IndexError where
  | duplicateKey
  | keyNotFound
  deriving DecidableEq, Repr

inductive Order where
  | asc
  | desc
  deriving DecidableEq, Repr

def Order.apply : Order → Ordering → Ordering
  | .asc, ord => ord
  | .desc, ord => ord.swap

structure SimpleComparator where
  order : Order
  deriving DecidableEq, Repr

def SimpleComparator.asc : SimpleComparator := ⟨.asc⟩
def SimpleComparator.desc : SimpleComparator := ⟨.desc⟩

/-- The part of the statistics that an index reads back: `len` is `totalRows`.
Rows are only removed after they were counted, so no subtraction goes below zero. -/
structure IndexStats where
  totalRows : Nat
  deriving DecidableEq, Repr

def IndexStats.new : IndexStats := ⟨0⟩
def IndexStats.addRows (stats : IndexStats) (count : Nat) : IndexStats :=
  ⟨stats.totalRows + count⟩
def IndexStats.removeRows (stats : IndexStats) (count : Nat) : IndexStats :=
  ⟨stats.totalRows - count⟩
def IndexStats.clear (_ : IndexStats) : IndexStats := ⟨0⟩

@[simp] theorem IndexStats.new_totalRows : IndexStats.new.totalRows = 0 := rfl
@[simp] theorem IndexStats.addRows_totalRows (stats : IndexStats) (count : Nat) :
    (stats.addRows count).totalRows = stats.totalRows + count := rfl
@[simp] theorem IndexStats.removeRows_totalRows (stats : IndexStats) (count : Nat) :
    (stats.removeRows count).totalRows = stats.totalRows - count := rfl
@[simp] theorem IndexStats.clear_totalRows (stats : IndexStats) :
    stats.clear.totalRows = 0 := rfl

section Compare

variable {K : Type} [Ord K]

def keyLt (a b : K) : Bool := compare a b == .lt
def keyGt (a b : K) : Bool := compare a b == .gt
def keyLe (a b : K) : Bool := compare a b != .gt
def keyGe (a b : K) : Bool := compare a b != .lt

def SimpleComparator.compare (comparator : SimpleComparator) (a b : K) : Ordering :=
  comparator.order.apply (Ord.compare a b)

def SimpleComparator.isLess (comparator : SimpleComparator) (a b : K) : Bool :=
  comparator.compare a b == .lt

/-- Checks if a key is within this range. -/
def KeyRange.contains [BEq K] (key : K) : KeyRange K → Bool
  | .all => true
  | .only k => key == k
  | .lowerBound value exclusive => if exclusive then keyGt key value else keyGe key value
  | .upperBound value exclusive => if exclusive then keyLt key value else keyLe key value
  | .bound lower upper lowerExclusive upperExclusive =>
    (if lowerExclusive then keyGt key lower else keyGe key lower) &&
      (if upperExclusive then keyLt key upper else keyLe key upper)

end Compare

section Linear

variable {K : Type} [LinearOrder K]

@[simp] theorem keyLt_eq (a b : K) : keyLt a b = decide (a < b) := by
  rw [Bool.eq_iff_iff]
  simp [keyLt, compare_lt_iff_lt]

@[simp] theorem keyGt_eq (a b : K) : keyGt a b = decide (b < a) := by
  rw [Bool.eq_iff_iff]
  simp [keyGt, compare_gt_iff_gt]

@[simp] theorem keyLe_eq (a b : K) : keyLe a b = decide (a ≤ b) := by
  rw [Bool.eq_iff_iff]
  simp [keyLe, compare_gt_iff_gt]

@[simp] theorem keyGe_eq (a b : K) : keyGe a b = decide (b ≤ a) := by
  rw [Bool.eq_iff_iff]
  simp [keyGe, compare_lt_iff_lt]

@[simp] theorem SimpleComparator.asc_isLess (a b : K) :
    SimpleComparator.asc.isLess a b = decide (a < b) := keyLt_eq a b

end Linear

end Cynos.Index
