import Cynos.Query.Expr

/-! Relations and the rows that joins put together. The segments of a joined row stand
in the order of the output tables of the join; a side without a row is `Null`. -/
namespace Cynos.Query

open Core
open Index (RowId)

section RowIds

def rowIdHashOffset : UInt64 := 0xCBF29CE484222325
def rowIdHashPrime : UInt64 := 0x100000001B3
def joinRowIdDomain : UInt64 := 0x4A4F494E5F494E4E
def leftJoinNullRowIdDomain : UInt64 := 0x4A4F494E5F4C4E55
def rightJoinNullRowIdDomain : UInt64 := 0x4A4F494E5F524E55
def dummyRowId : UInt64 := 0xFFFFFFFFFFFFFFFF

def rotateLeft7 (domain : UInt64) : UInt64 := (domain <<< 7) ||| (domain >>> 57)

/-- One id, lowest byte first. -/
def hashId (state : UInt64) (id : RowId) : UInt64 :=
  (List.range 8).foldl
    (fun state i => (state ^^^ UInt64.ofNat (id / 256 ^ i % 256)) * rowIdHashPrime) state

def hashRowId (domain : UInt64) (ids : List RowId) : RowId :=
  let id := ids.foldl hashId (rowIdHashOffset ^^^ rotateLeft7 domain)
  (if id = dummyRowId then dummyRowId - 1 else id).toNat

def joinRowId (leftId rightId : RowId) : RowId := hashRowId joinRowIdDomain [leftId, rightId]
def leftJoinNullRowId (leftId : RowId) : RowId := hashRowId leftJoinNullRowIdDomain [leftId]
def rightJoinNullRowId (rightId : RowId) : RowId := hashRowId rightJoinNullRowIdDomain [rightId]

end RowIds

abbrev Entry := Row Scalar

/-- The tables of a relation and its rows. -/
structure Relation where
  entries : List Entry
  tables : List TableName
  tableColumnCounts : List Nat

namespace Relation

def empty : Relation := ⟨[], [], []⟩

def context (relation : Relation) : EvalContext := ⟨relation.tables, relation.tableColumnCounts⟩

end Relation

section Layout

inductive JoinInputSide where
  | left
  | right
  deriving DecidableEq

structure JoinOutputSegment where
  side : JoinInputSide
  sourceOffset : Nat
  width : Nat
  deriving DecidableEq

structure JoinOutputLayout where
  tables : List TableName
  tableColumnCounts : List Nat
  segments : List JoinOutputSegment
  deriving DecidableEq

/-- The first unused segment of a table: its offset and width, and the marks with it used. -/
def takeSegment (target : TableName) :
    Nat → List TableName → List Nat → List Bool → Option (Nat × Nat × List Bool)
  | _, [], _, _ => none
  | offset, table :: tables, counts, used =>
    if table = target ∧ used.headD true = false then
      some (offset, counts.headD 0, true :: used.tail)
    else (takeSegment target (offset + counts.headD 0) tables counts.tail used.tail).map
      fun (start, width, rest) => (start, width, used.headD true :: rest)

/-- The loop over the output tables: the left side is asked first. -/
def layoutSegments (left right : EvalContext) :
    List TableName → List Bool → List Bool → List (TableName × JoinOutputSegment)
  | [], _, _ => []
  | table :: outputTables, leftUsed, rightUsed =>
    match takeSegment table 0 left.tables left.tableColumnCounts leftUsed with
    | some (sourceOffset, width, leftUsed) =>
      (table, ⟨.left, sourceOffset, width⟩) ::
        layoutSegments left right outputTables leftUsed rightUsed
    | none =>
      match takeSegment table 0 right.tables right.tableColumnCounts rightUsed with
      | some (sourceOffset, width, rightUsed) =>
        (table, ⟨.right, sourceOffset, width⟩) ::
          layoutSegments left right outputTables leftUsed rightUsed
      | none => layoutSegments left right outputTables leftUsed rightUsed

def JoinOutputLayout.fromSources (left right : EvalContext) (outputTables : List TableName) :
    JoinOutputLayout :=
  let segments := layoutSegments left right outputTables
    (left.tables.map fun _ => false) (right.tables.map fun _ => false)
  ⟨segments.map Prod.fst, segments.map fun s => s.2.width, segments.map Prod.snd⟩

def JoinOutputLayout.context (layout : JoinOutputLayout) : EvalContext :=
  ⟨layout.tables, layout.tableColumnCounts⟩

/-- The values of one segment of a joined row. -/
def segmentValues (left right : Option Entry) (segment : JoinOutputSegment) :
    List (Value Scalar) :=
  match (match segment.side with | .left => left | .right => right) with
  | some entry => (List.range segment.width).map fun index =>
      (entry.get (segment.sourceOffset + index)).getD .null
  | none => List.replicate segment.width .null

def joinedVersion : Option Entry → Option Entry → Nat
  | some left, some right => (left.version + right.version) % 2 ^ 64
  | some left, none => left.version
  | none, some right => right.version
  | none, none => 0

def joinedRowId : Option Entry → Option Entry → RowId
  | some left, some right => joinRowId left.id right.id
  | some left, none => leftJoinNullRowId left.id
  | none, some right => rightJoinNullRowId right.id
  | none, none => 0

def JoinOutputLayout.materializeRow (layout : JoinOutputLayout) (left right : Option Entry) :
    Entry :=
  .newWithVersion (joinedRowId left right) (joinedVersion left right)
    (layout.segments.flatMap (segmentValues left right))

end Layout

end Cynos.Query
