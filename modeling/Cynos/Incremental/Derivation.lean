import Cynos.Incremental.TraceLayout

/-! Tuples as they are built by a trace, step by step, beside the rows that the same steps
make at once. -/
namespace Cynos.Incremental

open Core
open Query (joinRowId leftJoinNullRowId rightJoinNullRowId)

variable {V : Type}

section Eager

def mergeRows (left right : Row V) : Row V :=
  .newWithVersion (joinRowId left.id right.id) ((left.version + right.version) % 2 ^ 64)
    (left.values ++ right.values)

def mergeRowsNullRight (left : Row V) (rightColCount : Nat) : Row V :=
  .newWithVersion (leftJoinNullRowId left.id) left.version
    (left.values ++ List.replicate rightColCount .null)

def mergeRowsNullLeft (right : Row V) (leftColCount : Nat) : Row V :=
  .newWithVersion (rightJoinNullRowId right.id) right.version
    (List.replicate leftColCount .null ++ right.values)

/-- A join that takes only the first columns of its left row. -/
def truncateRow (row : Row V) (width : Nat) : Row V := { row with values := row.values.take width }

def projectRow (row : Row V) (columns : List Nat) : Row V :=
  .newWithVersion row.id row.version (columns.filterMap row.get)

end Eager

/-- The steps a tuple was built by. -/
inductive Derivation (V : Type) where
  | base (row : Row V)
  | concat (left right : Derivation V) (leftWidth : Nat)
  | nullPadLeft (right : Derivation V) (leftWidth : Nat)
  | nullPadRight (left : Derivation V) (rightWidth : Nat)
  | project (input : Derivation V) (columns : List Nat)

namespace Derivation

def handle [DecidableEq V] : Derivation V → TraceTupleHandle V
  | base row => .owned row
  | concat left right leftWidth => left.handle.concat right.handle leftWidth
  | nullPadLeft right leftWidth => right.handle.nullPadLeft leftWidth
  | nullPadRight left rightWidth => left.handle.nullPadRight rightWidth
  | project input columns => input.handle.project columns

/-- The same steps on rows. -/
def row : Derivation V → Row V
  | base row => row
  | concat left right leftWidth => mergeRows (truncateRow left.row leftWidth) right.row
  | nullPadLeft right leftWidth => mergeRowsNullLeft right.row leftWidth
  | nullPadRight left rightWidth => mergeRowsNullRight left.row rightWidth
  | project input columns => projectRow input.row columns

/-- Every step asks only for columns its input has. -/
def InRange : Derivation V → Prop
  | base _ => True
  | concat left right leftWidth =>
    left.InRange ∧ right.InRange ∧ leftWidth ≤ left.row.values.length
  | nullPadLeft right _ => right.InRange
  | nullPadRight left _ => left.InRange
  | project input columns =>
    input.InRange ∧ ∀ column ∈ columns, column < input.row.values.length

end Derivation

section Faithful

/-- A tuple is made of segments of its own length, and its row is `row`. -/
structure TraceTupleHandle.Builds (handle : TraceTupleHandle V) (row : Row V) : Prop where
  tiled : handle.Tiled
  rowId : handle.layout.rowId = row.id
  version : handle.layout.version = row.version
  materializeRc : handle.materializeRc = row

variable {handle left right input : TraceTupleHandle V} {row leftRow rightRow inputRow : Row V}

theorem TraceTupleHandle.Builds.values (h : handle.Builds row) :
    segmentsValues handle.layout.segments = row.values := by
  rw [← h.tiled.values, h.materializeRc]

theorem TraceTupleHandle.Builds.len (h : handle.Builds row) :
    handle.layout.len = row.values.length := by
  have hlength := h.tiled.tiles.length_values
  rw [h.values] at hlength
  omega

/-- A tuple that was not made from a row. -/
theorem TraceTupleHandle.Tiled.builds (h : handle.Tiled) (hnone : handle.materialized = none)
    (hrowId : handle.layout.rowId = row.id) (hversion : handle.layout.version = row.version)
    (hvalues : segmentsValues handle.layout.segments = row.values) : handle.Builds row := by
  refine ⟨h, hrowId, hversion, ?_⟩
  rw [TraceTupleHandle.materializeRc, hnone, Option.getD_none, TraceTupleLayout.materializeRow,
    hrowId, hversion]
  exact congrArg (Row.mk row.id row.version) hvalues

theorem TraceTupleHandle.builds_owned (row : Row V) :
    (TraceTupleHandle.owned row).Builds row where
  tiled := TraceTupleHandle.tiled_owned row
  rowId := rfl
  version := rfl
  materializeRc := rfl

variable [DecidableEq V]

theorem TraceTupleHandle.Builds.concat (hl : left.Builds leftRow) (hr : right.Builds rightRow)
    {leftWidth : Nat} (hwidth : leftWidth ≤ leftRow.values.length) :
    (left.concat right leftWidth).Builds (mergeRows (truncateRow leftRow leftWidth) rightRow) := by
  rw [← hl.len] at hwidth
  have hbegin : Tiles 0 ([] : List (TraceTupleSegment V)) 0 := rfl
  obtain ⟨hfirst, hleft⟩ := hbegin.appendLayoutRange hl.tiled.tiles
    (show 0 + leftWidth ≤ left.layout.len by omega)
  rw [Nat.zero_add] at hfirst
  have hboth := (hfirst.appendLayoutRange hr.tiled.tiles (Nat.le_of_eq (Nat.zero_add _))).2
  refine (hl.tiled.concat hr.tiled hwidth).builds rfl ?_ ?_ ?_
  · exact congrArg₂ joinRowId hl.rowId hr.rowId
  · exact congrArg₂ (fun l r => (l + r) % 2 ^ 64) hl.version hr.version
  · rw [hleft, hl.values, hr.values, segmentsValues_nil, List.nil_append, List.drop_zero,
      List.drop_zero, hr.len, List.take_length] at hboth
    rw [← hr.len] at hboth
    exact hboth

theorem TraceTupleHandle.Builds.nullPadLeft (hr : right.Builds rightRow) (leftWidth : Nat) :
    (right.nullPadLeft leftWidth).Builds (mergeRowsNullLeft rightRow leftWidth) := by
  have hbegin : Tiles 0 ([] : List (TraceTupleSegment V)) 0 := rfl
  have hnulls : (⟨0, leftWidth, .nulls⟩ : TraceTupleSegment V).Filled := trivial
  obtain ⟨hfirst, hleft⟩ := hbegin.pushSegment rfl hnulls
  rw [Nat.zero_add] at hfirst
  have hboth := (hfirst.appendLayoutRange hr.tiled.tiles (Nat.le_of_eq (Nat.zero_add _))).2
  refine (hr.tiled.nullPadLeft leftWidth).builds rfl ?_ ?_ ?_
  · exact congrArg rightJoinNullRowId hr.rowId
  · exact hr.version.trans (Row.newWithVersion_version _ _ _).symm
  · rw [hleft, hr.values, segmentsValues_nil, List.nil_append, List.drop_zero, hr.len,
      List.take_length] at hboth
    rw [← hr.len] at hboth
    exact hboth

theorem TraceTupleHandle.Builds.nullPadRight (hl : left.Builds leftRow) (rightWidth : Nat) :
    (left.nullPadRight rightWidth).Builds (mergeRowsNullRight leftRow rightWidth) := by
  have hbegin : Tiles 0 ([] : List (TraceTupleSegment V)) 0 := rfl
  obtain ⟨hfirst, hleft⟩ := hbegin.appendLayoutRange hl.tiled.tiles
    (Nat.le_of_eq (Nat.zero_add left.layout.len))
  rw [Nat.zero_add] at hfirst
  have hnulls : (⟨left.layout.len, rightWidth, .nulls⟩ : TraceTupleSegment V).Filled := trivial
  have hboth := (hfirst.pushSegment rfl hnulls).2
  refine (hl.tiled.nullPadRight rightWidth).builds rfl ?_ ?_ ?_
  · exact congrArg leftJoinNullRowId hl.rowId
  · exact hl.version.trans (Row.newWithVersion_version _ _ _).symm
  · rw [hleft, hl.values, segmentsValues_nil, List.nil_append, List.drop_zero, hl.len,
      List.take_length] at hboth
    rw [← hl.len] at hboth
    exact hboth

theorem TraceTupleHandle.Builds.project (h : input.Builds inputRow) {columns : List Nat}
    (hcolumns : ∀ column ∈ columns, column < inputRow.values.length) :
    (input.project columns).Builds (projectRow inputRow columns) := by
  rw [← h.len] at hcolumns
  have hbegin : Tiles 0 ([] : List (TraceTupleSegment V)) 0 := rfl
  have hvalues := (hbegin.foldl_columns h.tiled.tiles hcolumns).2
  rw [h.values, segmentsValues_nil, List.nil_append] at hvalues
  exact (h.tiled.project hcolumns).builds rfl h.rowId h.version hvalues

namespace Derivation

theorem builds {derivation : Derivation V} (h : derivation.InRange) :
    derivation.handle.Builds derivation.row := by
  induction derivation with
  | base row => exact TraceTupleHandle.builds_owned row
  | concat left right leftWidth ihl ihr => exact (ihl h.1).concat (ihr h.2.1) h.2.2
  | nullPadLeft right leftWidth ih => exact (ih h).nullPadLeft leftWidth
  | nullPadRight left rightWidth ih => exact (ih h).nullPadRight rightWidth
  | project input columns ih => exact (ih h.1).project h.2

/-- However a tuple was nested, its row is the one made at once, and so is each value that is
read without the row. -/
theorem materializeRc_eq_row {derivation : Derivation V} (h : derivation.InRange) :
    derivation.handle.materializeRc = derivation.row ∧
      ∀ index, derivation.handle.valueAt index = derivation.row.get index := by
  have hbuilds := builds h
  refine ⟨hbuilds.materializeRc, fun index => ?_⟩
  rw [hbuilds.tiled.valueAt, hbuilds.materializeRc]

/-- Two columns of a join of a row with an unmatched one, in the other order. -/
theorem materializeRc_eq_row_sample :
    let derivation : Derivation Nat :=
      .project (.concat (.base ⟨1, 1, [some 4, some 5]⟩) (.nullPadRight (.base ⟨2, 1, [some 6]⟩) 1) 2) [3, 1]
    derivation.handle.materializeRc = derivation.row ∧
      ∀ index, derivation.handle.valueAt index = derivation.row.get index := by
  intro derivation
  have hrange : derivation.InRange := ⟨⟨trivial, trivial, by decide⟩, by decide⟩
  exact materializeRc_eq_row hrange

end Derivation

end Faithful

end Cynos.Incremental
