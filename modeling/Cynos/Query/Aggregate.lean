import Cynos.Query.LogicalRows

/-! Aggregates fold the rows of one group into one row. Groups are kept apart by the types of
their values and come out in the order of their keys. -/
namespace Cynos.Query.AggregateExecutor

open Core
open Index (RowId)

inductive GroupKeyValue where
  | null
  | boolean (value : Bool)
  | int32 (value : Int32)
  | int64 (value : Int64)
  | float64 (bits : UInt64)
  | string (value : String)
  | dateTime (value : Int64)
  | bytes (value : List UInt8)
  | jsonb (data : List UInt8)
  deriving Ord

def GroupKeyValue.fromValue : Value Scalar → GroupKeyValue
  | none => .null
  | some (.boolean value) => .boolean value
  | some (.int32 value) => .int32 value
  | some (.int64 value) => .int64 value
  | some (.float64 value) => .float64 value.toBits
  | some (.string value) => .string value
  | some (.dateTime value) => .dateTime value
  | some (.bytes value) => .bytes value
  | some (.jsonb value) => .jsonb value.data

inductive SumOutputMode where
  | integer
  | float
  deriving DecidableEq

inductive AggregateState where
  | countAll (count : Nat)
  | countNonNull (columnIndex count : Nat)
  | sum (columnIndex : Nat) (sum : Float) (outputMode : SumOutputMode)
  | avg (columnIndex : Nat) (sum : Float) (count : Nat)
  | min (columnIndex : Nat) (value : Option (Value Scalar))
  | max (columnIndex : Nat) (value : Option (Value Scalar))
  | distinct (columnIndex : Nat) (seen : List (Value Scalar))
  | stdDev (columnIndex count : Nat) (mean m2 : Float)
  | geoMean (columnIndex count : Nat) (logSum : Float)

namespace AggregateState

def new (func : AggregateFunc) (columnIndex : Option Nat) : AggregateState :=
  match func with
  | .count =>
    match columnIndex with
    | some columnIndex => .countNonNull columnIndex 0
    | none => .countAll 0
  | .sum => .sum (columnIndex.getD 0) 0 .integer
  | .avg => .avg (columnIndex.getD 0) 0 0
  | .min => .min (columnIndex.getD 0) none
  | .max => .max (columnIndex.getD 0) none
  | .distinct => .distinct (columnIndex.getD 0) []
  | .stdDev => .stdDev (columnIndex.getD 0) 0 0 0
  | .geoMean => .geoMean (columnIndex.getD 0) 0 0

def numericValue : Value Scalar → Option Float
  | some (.int32 value) => some value.toFloat
  | some (.int64 value) => some value.toFloat
  | some (.float64 value) => some value
  | _ => none

/-- `Null` is left out of every aggregate but `COUNT(*)` and `DISTINCT`. -/
def update (get : Nat → Option (Value Scalar)) : AggregateState → AggregateState
  | .countAll count => .countAll (count + 1)
  | .countNonNull columnIndex count =>
    if ((get columnIndex).map fun value => !value.isNull).getD false then
      .countNonNull columnIndex (count + 1)
    else .countNonNull columnIndex count
  | .sum columnIndex total outputMode =>
    match get columnIndex with
    | none => .sum columnIndex total outputMode
    | some none => .sum columnIndex total outputMode
    | some (some (.int32 value)) => .sum columnIndex (total + value.toFloat) outputMode
    | some (some (.int64 value)) => .sum columnIndex (total + value.toFloat) outputMode
    | some (some (.float64 value)) => .sum columnIndex (total + value) .float
    | some (some _) => .sum columnIndex total .float
  | .avg columnIndex total count =>
    match (get columnIndex).bind numericValue with
    | some value => .avg columnIndex (total + value) (count + 1)
    | none => .avg columnIndex total count
  | .min columnIndex value =>
    match get columnIndex, value with
    | none, _ | some none, _ => .min columnIndex value
    | some candidate, some current =>
      if candidate.ge current then .min columnIndex value else .min columnIndex (some candidate)
    | some candidate, none => .min columnIndex (some candidate)
  | .max columnIndex value =>
    match get columnIndex, value with
    | none, _ | some none, _ => .max columnIndex value
    | some candidate, some current =>
      if candidate.le current then .max columnIndex value else .max columnIndex (some candidate)
    | some candidate, none => .max columnIndex (some candidate)
  | .distinct columnIndex seen =>
    match get columnIndex with
    | some value =>
      if seen.any fun other => Value.cmp other value == .eq then .distinct columnIndex seen
      else .distinct columnIndex (value :: seen)
    | none => .distinct columnIndex seen
  | .stdDev columnIndex count mean m2 =>
    match (get columnIndex).bind numericValue with
    | some value =>
      let delta := value - mean
      let mean := mean + delta / (count + 1).toFloat
      .stdDev columnIndex (count + 1) mean (m2 + delta * (value - mean))
    | none => .stdDev columnIndex count mean m2
  | .geoMean columnIndex count logSum =>
    match (get columnIndex).bind numericValue with
    | some value =>
      if value > 0 then .geoMean columnIndex (count + 1) (logSum + value.log)
      else .geoMean columnIndex count logSum
    | none => .geoMean columnIndex count logSum

def finalize : AggregateState → Value Scalar
  | .countAll count | .countNonNull _ count => some (.int64 (.ofNat count))
  | .sum _ total .integer => some (.int64 total.toInt64)
  | .sum _ total .float => some (.float64 total)
  | .avg _ total count => if count = 0 then none else some (.float64 (total / count.toFloat))
  | .min _ value | .max _ value => value.getD none
  | .distinct _ seen => some (.int64 (.ofNat seen.length))
  | .stdDev _ count _ m2 =>
    if count = 0 then none else some (.float64 (m2 / count.toFloat).sqrt)
  | .geoMean _ count logSum =>
    if count = 0 then none else some (.float64 (logSum / count.toFloat).exp)

end AggregateState

structure GroupState where
  groupValues : List (Value Scalar)
  versionSum : Nat
  aggregateStates : List AggregateState

/-- The entry of a key is made where it is missing, then updated. -/
def upsert {K G : Type} [Ord K] (key : K) (new : G) (update : G → G) : List (K × G) → List (K × G)
  | [] => [(key, update new)]
  | (other, group) :: groups =>
    match compare key other with
    | .lt => (key, update new) :: (other, group) :: groups
    | .eq => (other, update group) :: groups
    | .gt => (other, group) :: upsert key new update groups

variable (groupRowId : List (Value Scalar) → RowId) (groupBy : List Nat)
  (aggregates : List (AggregateFunc × Option Nat))

def extractGroupValues (entry : Entry) : List (Value Scalar) :=
  groupBy.map fun index => (Entry.getField entry index).getD none

def initStates : List AggregateState := aggregates.map fun spec => .new spec.1 spec.2

/-- One row more in a group. -/
def GroupState.add (group : GroupState) (entry : Entry) : GroupState :=
  { group with
    versionSum := (group.versionSum + entry.version) % (Row.maxVersion + 1)
    aggregateStates := group.aggregateStates.map (AggregateState.update (Entry.getField entry)) }

def GroupState.toEntry (group : GroupState) : Entry :=
  .newWithVersion (groupRowId group.groupValues) group.versionSum
    (group.groupValues ++ group.aggregateStates.map AggregateState.finalize)

/-- Without grouping there is one row, whatever the input. -/
def execute (rows : List Entry) : List Entry :=
  if groupBy.isEmpty then
    [(rows.foldl GroupState.add ⟨[], 0, initStates aggregates⟩).toEntry groupRowId]
  else
    let groups := rows.foldl (fun groups entry =>
      let groupValues := extractGroupValues groupBy entry
      upsert (groupValues.map GroupKeyValue.fromValue) ⟨groupValues, 0, initStates aggregates⟩
        (GroupState.add · entry) groups) []
    groups.map fun group => group.2.toEntry groupRowId

section Values

/-- Two states of one group that saw rows with the same values. -/
structure GroupState.Same (group group' : GroupState) : Prop where
  groupValues : group.groupValues = group'.groupValues
  aggregateStates : group.aggregateStates = group'.aggregateStates

variable {K G H : Type} [Ord K] {R : G → H → Prop}

/-- The same key, and groups that are related. -/
abbrev SameGroup (R : G → H → Prop) (p : K × G) (q : K × H) : Prop := p.1 = q.1 ∧ R p.2 q.2

theorem forall₂_upsert {groups : List (K × G)} {groups' : List (K × H)}
    (h : List.Forall₂ (SameGroup R) groups groups') (key : K) {new : G} {new' : H} (hnew : R new new')
    {update : G → G} {update' : H → H} (hupdate : ∀ g g', R g g' → R (update g) (update' g')) :
    List.Forall₂ (SameGroup R) (upsert key new update groups) (upsert key new' update' groups') := by
  induction h with
  | nil => exact .cons ⟨rfl, hupdate _ _ hnew⟩ .nil
  | @cons p q groups groups' hpq hrest ih =>
    obtain ⟨other, group⟩ := p
    obtain ⟨other', group'⟩ := q
    obtain ⟨rfl, hgroup⟩ : other = other' ∧ R group group' := hpq
    rw [upsert, upsert]
    split
    · exact .cons ⟨rfl, hupdate _ _ hnew⟩ (.cons ⟨rfl, hgroup⟩ hrest)
    · exact .cons ⟨rfl, hupdate _ _ hgroup⟩ hrest
    · exact .cons ⟨rfl, hgroup⟩ ih

theorem GroupState.Same.add {group group' : GroupState} (h : group.Same group') {a b : Entry}
    (hab : SameValues a b) : (group.add a).Same (group'.add b) := by
  refine ⟨h.groupValues, ?_⟩
  unfold GroupState.add
  rw [h.aggregateStates, getField_congr' hab]

theorem GroupState.Same.toEntry {group group' : GroupState} (h : group.Same group') :
    SameValues (group.toEntry groupRowId) (group'.toEntry groupRowId) := by
  unfold GroupState.toEntry
  rw [SameValues, Row.newWithVersion_values, Row.newWithVersion_values, h.groupValues,
    h.aggregateStates]

/-- What the rows of an aggregate hold depends on what its input rows hold. -/
theorem sameValues_execute {rows rows' : List Entry} (h : List.Forall₂ SameValues rows rows') :
    List.Forall₂ SameValues (execute groupRowId groupBy aggregates rows)
      (execute groupRowId groupBy aggregates rows') := by
  unfold execute
  split
  · refine .cons (GroupState.Same.toEntry groupRowId ?_) .nil
    apply List.rel_foldl (P := GroupState.Same) _ ⟨rfl, rfl⟩ h
    exact fun _ _ hgroup _ _ hab => hgroup.add hab
  · dsimp only
    apply List.rel_map (R := SameGroup GroupState.Same)
    · exact fun _ _ hgroup => hgroup.2.toEntry groupRowId
    · apply List.rel_foldl (P := List.Forall₂ (SameGroup GroupState.Same)) _ .nil h
      intro groups groups' hgroups a b hab
      have hvalues : extractGroupValues groupBy a = extractGroupValues groupBy b := by
        unfold extractGroupValues
        rw [getField_congr' hab]
      dsimp only
      rw [hvalues]
      exact forall₂_upsert hgroups _ ⟨rfl, rfl⟩ fun _ _ hgroup => hgroup.add hab

end Values

end Cynos.Query.AggregateExecutor
