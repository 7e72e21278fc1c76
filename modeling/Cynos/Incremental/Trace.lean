import Cynos.Core.Row

/-! Tuples that a trace carries between operators: segments of base rows, which
are put together as a row only when somebody asks for it. -/
namespace Cynos.Incremental

open Core
open Index (RowId)

structure Delta (T : Type) where
  data : T
  diff : Int
  deriving DecidableEq

inductive TraceTupleSegmentKind (V : Type) where
  | values (row : Row V) (rowStart : Nat)
  | nulls
  | missing
  deriving DecidableEq

structure TraceTupleSegment (V : Type) where
  outputStart : Nat
  len : Nat
  kind : TraceTupleSegmentKind V
  deriving DecidableEq

structure TraceTupleLayout (V : Type) where
  len : Nat
  rowId : RowId
  version : Nat
  segments : List (TraceTupleSegment V)
  deriving DecidableEq

/-- `materialized` is the row the handle was made from. The row a handle keeps
once it was materialized is a function of its layout and no state of the model. -/
structure TraceTupleHandle (V : Type) where
  layout : TraceTupleLayout V
  materialized : Option (Row V)
  deriving DecidableEq

variable {V : Type}

section Layout

variable [DecidableEq V]

/-- A segment that continues the last one is merged into it. -/
def pushSegment (segments : List (TraceTupleSegment V)) (segment : TraceTupleSegment V) :
    List (TraceTupleSegment V) :=
  if segment.len = 0 then segments
  else match segments.getLast? with
    | none => segments ++ [segment]
    | some previous =>
      let merged := segments.dropLast ++ [{ previous with len := previous.len + segment.len }]
      if previous.outputStart + previous.len = segment.outputStart then
        match previous.kind, segment.kind with
        | .nulls, .nulls | .missing, .missing => merged
        | .values previousRow previousStart, .values row rowStart =>
          if previousRow = row ∧ previousStart + previous.len = rowStart then merged
          else segments ++ [segment]
        | _, _ => segments ++ [segment]
      else segments ++ [segment]

def appendOverlap (sourceStart sourceEnd outputStart : Nat)
    (segments : List (TraceTupleSegment V)) (segment : TraceTupleSegment V) :
    List (TraceTupleSegment V) :=
  let overlapStart := max segment.outputStart sourceStart
  let overlapEnd := min (segment.outputStart + segment.len) sourceEnd
  if overlapStart ≥ overlapEnd then segments
  else
    let kind := match segment.kind with
      | .values row rowStart => .values row (rowStart + (overlapStart - segment.outputStart))
      | .nulls => .nulls
      | .missing => .missing
    pushSegment segments
      ⟨outputStart + (overlapStart - sourceStart), overlapEnd - overlapStart, kind⟩

def appendLayoutRange (segments : List (TraceTupleSegment V)) (layout : TraceTupleLayout V)
    (sourceStart len outputStart : Nat) : List (TraceTupleSegment V) :=
  if len = 0 then segments
  else
    let sourceEnd := min (sourceStart + len) layout.len
    if sourceStart ≥ sourceEnd then pushSegment segments ⟨outputStart, len, .missing⟩
    else
      let segments := layout.segments.foldl (appendOverlap sourceStart sourceEnd outputStart) segments
      if sourceEnd < sourceStart + len then
        pushSegment segments
          ⟨outputStart + (sourceEnd - sourceStart), sourceStart + len - sourceEnd, .missing⟩
      else segments

end Layout

namespace TraceTupleLayout

def fromRow (row : Row V) : TraceTupleLayout V :=
  { len := row.values.length, rowId := row.id, version := row.version
    segments :=
      if row.values.length = 0 then [] else [⟨0, row.values.length, .values row 0⟩] }

def project [DecidableEq V] (input : TraceTupleLayout V) (columns : List Nat) :
    TraceTupleLayout V :=
  { len := columns.length, rowId := input.rowId, version := input.version
    segments := columns.zipIdx.foldl
      (fun segments column => appendLayoutRange segments input column.1 1 column.2) [] }

def segmentValues (segment : TraceTupleSegment V) : List (Value V) :=
  match segment.kind with
  | .values row rowStart => (row.values.drop rowStart).take segment.len
  | .nulls => List.replicate segment.len .null
  | .missing => []

def materializeRow (layout : TraceTupleLayout V) : Row V :=
  .newWithVersion layout.rowId layout.version (layout.segments.flatMap segmentValues)

end TraceTupleLayout

namespace TraceTupleHandle

def owned (row : Row V) : TraceTupleHandle V := ⟨.fromRow row, some row⟩

def project [DecidableEq V] (input : TraceTupleHandle V) (columns : List Nat) :
    TraceTupleHandle V := ⟨input.layout.project columns, none⟩

def rowId (handle : TraceTupleHandle V) : RowId := handle.layout.rowId
def version (handle : TraceTupleHandle V) : Nat := handle.layout.version

def materializeRc (handle : TraceTupleHandle V) : Row V :=
  handle.materialized.getD handle.layout.materializeRow

end TraceTupleHandle

end Cynos.Incremental
