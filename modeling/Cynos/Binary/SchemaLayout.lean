import Cynos.Core.Schema

/-! Where the columns of a row stand in a binary result. -/
namespace Cynos.Binary

open Core

inductive BinaryDataType where
  | boolean | int32 | int64 | float64 | string | dateTime | bytes | jsonb
  deriving DecidableEq

namespace BinaryDataType

/-- The discriminant, which is the type's number for the decoder. -/
def code : BinaryDataType → Nat
  | boolean => 0
  | int32 => 1
  | int64 => 2
  | float64 => 3
  | string => 4
  | dateTime => 5
  | bytes => 6
  | jsonb => 7

def fixedSize : BinaryDataType → Nat
  | boolean => 1
  | int32 => 4
  | int64 | float64 | string | dateTime | bytes | jsonb => 8

def ofDataType : DataType → BinaryDataType
  | .boolean => boolean
  | .int32 => int32
  | .int64 => int64
  | .float64 => float64
  | .string => string
  | .dateTime => dateTime
  | .bytes => bytes
  | .jsonb => jsonb

end BinaryDataType

structure ColumnLayout where
  name : String
  dataType : BinaryDataType
  fixedSize : Nat
  isNullable : Bool
  /-- Within the row, after the null mask. -/
  offset : Nat

structure SchemaLayout where
  columns : List ColumnLayout
  rowStride : Nat
  nullMaskSize : Nat

namespace SchemaLayout

/-- The `scan` over the columns: each one starts where the one before it ends. -/
def scanColumns (offset : Nat) : List Column → List ColumnLayout
  | [] => []
  | col :: rest =>
    let dataType := BinaryDataType.ofDataType col.dataType
    let fixedSize := dataType.fixedSize
    { name := col.name, dataType, fixedSize, isNullable := col.nullable, offset } ::
      scanColumns (offset + fixedSize) rest

def dataSize (columns : List ColumnLayout) : Nat := (columns.map ColumnLayout.fixedSize).sum

def ofColumns (columns : List ColumnLayout) : SchemaLayout :=
  let nullMaskSize := (columns.length + 7) / 8
  { columns, rowStride := nullMaskSize + dataSize columns, nullMaskSize }

def fromSchema (schema : Table) : SchemaLayout := ofColumns (scanColumns 0 schema.columns)

/-- The columns of a join, those of every table but the first as nullable ones. -/
def fromSchemas (schemas : List Table) : SchemaLayout :=
  ofColumns <| scanColumns 0 <| schemas.zipIdx.flatMap fun (schema, tableIdx) =>
    schema.columns.map fun col => { col with nullable := tableIdx > 0 || col.nullable }

/-- A name that the table does not have ends the projection. -/
def fromProjection (schema : Table) (columnNames : List String) : SchemaLayout :=
  ofColumns <| scanColumns 0 <|
    ((columnNames.map schema.getColumn).takeWhile Option.isSome).reduceOption

/-- The columns stand one after the other, behind a bit for each of them. -/
structure WellFormed (layout : SchemaLayout) : Prop where
  nullMaskSize : layout.nullMaskSize = (layout.columns.length + 7) / 8
  rowStride : layout.rowStride = layout.nullMaskSize + dataSize layout.columns
  fixedSize : ∀ col ∈ layout.columns, col.fixedSize = col.dataType.fixedSize
  offset : ∀ init col rest, layout.columns = init ++ col :: rest → col.offset = dataSize init

@[simp] theorem dataSize_nil : dataSize [] = 0 := rfl
@[simp] theorem dataSize_cons (col : ColumnLayout) (columns : List ColumnLayout) :
    dataSize (col :: columns) = col.fixedSize + dataSize columns := rfl

theorem dataSize_append (init rest : List ColumnLayout) :
    dataSize (init ++ rest) = dataSize init + dataSize rest := by
  unfold dataSize
  rw [List.map_append, List.sum_append]

theorem scanColumns_fixedSize {col : ColumnLayout} {columns : List Column} :
    ∀ {offset : Nat}, col ∈ scanColumns offset columns →
      col.fixedSize = col.dataType.fixedSize := by
  induction columns with
  | nil => exact fun h => absurd h List.not_mem_nil
  | cons first rest ih =>
    intro offset h
    rw [scanColumns, List.mem_cons] at h
    obtain rfl | h := h
    · rfl
    · exact ih h

theorem scanColumns_offset {col : ColumnLayout} {rest : List ColumnLayout}
    {columns : List Column} : ∀ {offset : Nat} {init : List ColumnLayout},
      scanColumns offset columns = init ++ col :: rest → col.offset = offset + dataSize init := by
  induction columns with
  | nil => exact fun h => absurd h.symm (List.append_ne_nil_of_right_ne_nil _ (List.cons_ne_nil _ _))
  | cons first later ih =>
    intro offset init h
    rw [scanColumns] at h
    cases init with
    | nil =>
      rw [List.nil_append, List.cons.injEq] at h
      rw [← h.1]
      rfl
    | cons head init =>
      rw [List.cons_append, List.cons.injEq] at h
      rw [ih h.2, ← h.1, dataSize_cons, Nat.add_assoc]

theorem wellFormed_ofColumns (columns : List Column) :
    (ofColumns (scanColumns 0 columns)).WellFormed where
  nullMaskSize := rfl
  rowStride := rfl
  fixedSize _ := scanColumns_fixedSize
  offset _ _ _ h := (scanColumns_offset h).trans (Nat.zero_add _)

/-- Where a layout comes from. -/
inductive Source where
  | schema (schema : Table)
  | schemas (schemas : List Table)
  | projection (schema : Table) (columnNames : List String)

def ofSource : Source → SchemaLayout
  | .schema schema => fromSchema schema
  | .schemas schemas => fromSchemas schemas
  | .projection schema columnNames => fromProjection schema columnNames

theorem wellFormed_ofSource (source : Source) : (ofSource source).WellFormed := by
  cases source <;> exact wellFormed_ofColumns _

end SchemaLayout

end Cynos.Binary
