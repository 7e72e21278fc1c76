import Cynos.Binary.SchemaLayout
import Cynos.Lib.Bytes

/-! The encoder of binary results. Rows of one width stand in the fixed section behind the
header; texts and bytes stand in a section of their own, to which the rows point. -/
namespace Cynos.Binary

open Core Bytes

def headerSize : Nat := 16
def hasNullsFlag : Nat := 1

/-- `i as f64` for integers: the nearest double. -/
def int64AsF64 (i : Int64) : Float := .ofModel (.ofInt64 i)
def int32AsF64 (i : Int32) : Float := .ofModel (.ofInt32 i)

structure BinaryEncoder where
  layout : SchemaLayout
  /-- Header and rows. -/
  buffer : List UInt8
  varBuffer : List UInt8
  rowCount : Nat
  hasNulls : Bool

namespace BinaryEncoder

def new (layout : SchemaLayout) : BinaryEncoder :=
  { layout, buffer := [], varBuffer := [], rowCount := 0, hasNulls := false }

def writeBytesFast (encoder : BinaryEncoder) (bytes : List UInt8) : BinaryEncoder :=
  { encoder with buffer := encoder.buffer ++ bytes }

def writeVarlenFast (encoder : BinaryEncoder) (data : List UInt8) : BinaryEncoder :=
  let offset := encoder.varBuffer.length
  let length := data.length
  let encoder := (encoder.writeBytesFast (leBytes 4 offset)).writeBytesFast (leBytes 4 length)
  { encoder with varBuffer := encoder.varBuffer ++ data }

def encodeValueFast (encoder : BinaryEncoder) : Scalar → BinaryDataType → BinaryEncoder
  | .boolean b, .boolean => encoder.writeBytesFast [if b then 1 else 0]
  | .int32 i, .int32 => encoder.writeBytesFast (leBytes 4 i.toUInt32.toNat)
  | .int64 i, .int64 => encoder.writeBytesFast (leBytes 8 (int64AsF64 i).toBits.toNat)
  | .float64 f, .float64 => encoder.writeBytesFast (leBytes 8 f.toBits.toNat)
  | .dateTime ts, .dateTime => encoder.writeBytesFast (leBytes 8 (int64AsF64 ts).toBits.toNat)
  | .string s, .string => encoder.writeVarlenFast (utf8Bytes s)
  | .bytes b, .bytes => encoder.writeVarlenFast b
  | .jsonb j, .jsonb => encoder.writeVarlenFast j.data
  -- A value of another type: zeros.
  | _, dataType => encoder.writeBytesFast (List.replicate dataType.fixedSize 0)

/-- `buffer[index] |= 1 << bit`, which panics outside the buffer. -/
def setBit (buffer : List UInt8) (index bit : Nat) : Option (List UInt8) :=
  if index < buffer.length then
    some (buffer.modify index fun byte => byte ||| (1 <<< UInt8.ofNat bit))
  else none

def encodeColumn (row : Row Scalar) (nullMaskStart : Nat) (encoder : BinaryEncoder)
    (column : ColumnLayout × Nat) : Option BinaryEncoder :=
  let (colLayout, colIdx) := column
  match row.get colIdx with
  | some (some value) => some (encoder.encodeValueFast value colLayout.dataType)
  | _ => do
    let buffer ← setBit encoder.buffer (nullMaskStart + colIdx / 8) (colIdx % 8)
    pure { encoder with
      buffer := buffer ++ List.replicate colLayout.fixedSize 0
      hasNulls := true }

def encodeRow (encoder : BinaryEncoder) (row : Row Scalar) : Option BinaryEncoder :=
  let nullMaskStart := encoder.buffer.length
  let encoder := encoder.writeBytesFast (List.replicate encoder.layout.nullMaskSize 0)
  encoder.layout.columns.zipIdx.foldlM (encodeColumn row nullMaskStart) encoder

/-- Room for the header is made once. -/
def reserveHeader (encoder : BinaryEncoder) : BinaryEncoder :=
  if encoder.buffer.isEmpty then encoder.writeBytesFast (List.replicate headerSize 0)
  else encoder

def encodeRowRefsIter (encoder : BinaryEncoder) (rows : List (Row Scalar)) :
    Option BinaryEncoder :=
  rows.foldlM (fun encoder row => do
    let encoder ← encoder.encodeRow row
    pure { encoder with rowCount := encoder.rowCount + 1 }) encoder.reserveHeader

/-- The header is written over the bytes reserved for it, which panics when there are none. -/
def finish (encoder : BinaryEncoder) : Option (List UInt8) :=
  let varOffset := encoder.buffer.length
  let flags := if encoder.hasNulls then hasNullsFlag else 0
  if headerSize ≤ encoder.buffer.length then
    some (leBytes 4 encoder.rowCount ++ leBytes 4 encoder.layout.rowStride ++
      leBytes 4 varOffset ++ leBytes 4 flags ++ encoder.buffer.drop headerSize ++
      encoder.varBuffer)
  else none

end BinaryEncoder

/-- A result: a new encoder gets the rows and is finished. -/
def encodeRowsToBinary (layout : SchemaLayout) (rows : List (Row Scalar)) :
    Option (List UInt8) := do
  let encoder ← (BinaryEncoder.new layout).encodeRowRefsIter rows
  encoder.finish

end Cynos.Binary
