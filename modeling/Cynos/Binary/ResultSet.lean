import Cynos.Binary.Encoder

/-! The decoder on the other side. It knows the buffer and the layout, and reads a value
when it is asked for one; `none` is a thrown exception. -/
namespace Cynos.Binary

open Core Bytes

/-- A JavaScript value; what an object is made of is left open. A date is the one that
`new Date` makes of the number. -/
inductive JsValue (O : Type) where
  | null
  | boolean (value : Bool)
  | number (value : Float)
  | string (value : String)
  | date (value : Float)
  | uint8Array (value : List UInt8)
  | object (value : O)

/-- What the decoder relies on: `JSON.parse`, and the replacement of malformed UTF-8. -/
structure Host (O : Type) where
  jsonParse : String → Option (JsValue O)
  decodeMalformed : List UInt8 → String

structure ResultSetLayoutSnapshot where
  columnNames : List String
  columnOffsets : List Nat
  columnTypes : List Nat
  nullMaskSize : Nat
  rowStride : Nat

def normalizeLayout (layout : SchemaLayout) : ResultSetLayoutSnapshot where
  columnNames := layout.columns.map ColumnLayout.name
  columnOffsets := layout.columns.map ColumnLayout.offset
  columnTypes := layout.columns.map fun col => col.dataType.code
  nullMaskSize := layout.nullMaskSize
  rowStride := layout.rowStride

section DataView

def getUint8 (view : List UInt8) (offset : Nat) : Option UInt8 := view[offset]?

/-- The `width` bytes at an offset, all of which must be there. -/
def getBytesAt (view : List UInt8) (width offset : Nat) : Option (List UInt8) :=
  if offset + width ≤ view.length then some ((view.drop offset).take width) else none

def getUint32 (view : List UInt8) (offset : Nat) : Option Nat :=
  (getBytesAt view 4 offset).map ofLeBytes

def getInt32 (view : List UInt8) (offset : Nat) : Option Int32 :=
  (getBytesAt view 4 offset).map fun bytes => (UInt32.ofNat (ofLeBytes bytes)).toInt32

def getFloat64 (view : List UInt8) (offset : Nat) : Option Float :=
  (getBytesAt view 8 offset).map fun bytes => Float.ofBits (UInt64.ofNat (ofLeBytes bytes))

/-- `subarray` and `slice`, which stop at the end of the array. -/
def subarray (view : List UInt8) (start stop : Nat) : List UInt8 :=
  (view.drop start).take (stop - start)

end DataView

def byteOrderMark : Char := Char.ofNat 0xFEFF

/-- A `TextDecoder` takes a byte order mark off the text. -/
def dropByteOrderMark (s : String) : String :=
  match s.toList with
  | c :: rest => if c = byteOrderMark then String.ofList rest else s
  | [] => s

def textDecode {O : Type} (host : Host O) (bytes : List UInt8) : String :=
  match ofUtf8? bytes with
  | some s => dropByteOrderMark s
  | none => host.decodeMalformed bytes

structure ResultSet where
  uint8Array : List UInt8
  layout : ResultSetLayoutSnapshot
  rowCount : Nat
  rowStride : Nat
  varOffset : Nat
  flags : Nat

namespace ResultSet

def new (view : List UInt8) (layout : SchemaLayout) : Option ResultSet := do
  let rowCount ← getUint32 view 0
  let rowStride ← getUint32 view 4
  let varOffset ← getUint32 view 8
  let flags ← getUint32 view 12
  pure { uint8Array := view, layout := normalizeLayout layout, rowCount, rowStride, varOffset, flags }

variable {O : Type} (host : Host O) (rs : ResultSet)

def isNull (rowIndex columnIndex : Nat) : Option Bool :=
  if rs.flags = 0 then some false
  else do
    let rowOffset := headerSize + rowIndex * rs.rowStride
    let byte ← getUint8 rs.uint8Array (rowOffset + columnIndex / 8)
    pure (byte.toNat.testBit (columnIndex % 8))

/-- The offset of a column that the layout does not have is `NaN`, which a `DataView`
takes for 0. -/
def getValueOffset (rowIndex columnIndex : Nat) : Nat :=
  match rs.layout.columnOffsets[columnIndex]? with
  | some offset => headerSize + rowIndex * rs.rowStride + rs.layout.nullMaskSize + offset
  | none => 0

def readBoolean (offset : Nat) : Option (JsValue O) := do
  let byte ← getUint8 rs.uint8Array offset
  pure (.boolean (byte != 0))

def readInt32 (offset : Nat) : Option (JsValue O) := do
  let i ← getInt32 rs.uint8Array offset
  pure (.number (int32AsF64 i))

def readNumber (offset : Nat) : Option (JsValue O) := do
  let f ← getFloat64 rs.uint8Array offset
  pure (.number f)

def readDate (offset : Nat) : Option (JsValue O) := do
  let timestamp ← getFloat64 rs.uint8Array offset
  pure (.date timestamp)

def readString (offset : Nat) : Option (JsValue O) := do
  let strOffset ← getUint32 rs.uint8Array offset
  let strLength ← getUint32 rs.uint8Array (offset + 4)
  if strLength = 0 then pure (.string "")
  else
    let start := rs.varOffset + strOffset
    pure (.string (textDecode host (subarray rs.uint8Array start (start + strLength))))

def readBytes (offset : Nat) : Option (JsValue O) := do
  let bytesOffset ← getUint32 rs.uint8Array offset
  let bytesLength ← getUint32 rs.uint8Array (offset + 4)
  if bytesLength = 0 then pure (.uint8Array [])
  else
    let start := rs.varOffset + bytesOffset
    pure (.uint8Array (subarray rs.uint8Array start (start + bytesLength)))

def readJsonb (offset : Nat) : Option (JsValue O) := do
  let jsonOffset ← getUint32 rs.uint8Array offset
  let jsonLength ← getUint32 rs.uint8Array (offset + 4)
  if jsonLength = 0 then pure .null
  else
    let start := rs.varOffset + jsonOffset
    host.jsonParse (textDecode host (subarray rs.uint8Array start (start + jsonLength)))

/-- A getter: null by the mask, else what stands at the value's offset. -/
def getUnlessNull (read : Nat → Option (JsValue O)) (rowIndex columnIndex : Nat) :
    Option (JsValue O) := do
  if ← rs.isNull rowIndex columnIndex then pure .null
  else read (rs.getValueOffset rowIndex columnIndex)

def getBoolean : Nat → Nat → Option (JsValue O) := rs.getUnlessNull rs.readBoolean
def getInt32 : Nat → Nat → Option (JsValue O) := rs.getUnlessNull rs.readInt32
def getNumber : Nat → Nat → Option (JsValue O) := rs.getUnlessNull rs.readNumber
def getString : Nat → Nat → Option (JsValue O) := rs.getUnlessNull (rs.readString host)
def getDate : Nat → Nat → Option (JsValue O) := rs.getUnlessNull rs.readDate
def getBytes : Nat → Nat → Option (JsValue O) := rs.getUnlessNull rs.readBytes
def getJsonb : Nat → Nat → Option (JsValue O) := rs.getUnlessNull (rs.readJsonb host)

def getValue (rowIndex columnIndex : Nat) : Option (JsValue O) :=
  match rs.layout.columnTypes[columnIndex]? with
  | some 0 => rs.getBoolean rowIndex columnIndex
  | some 1 => rs.getInt32 rowIndex columnIndex
  | some 2 | some 3 => rs.getNumber rowIndex columnIndex
  | some 5 => rs.getDate rowIndex columnIndex
  | some 4 => rs.getString host rowIndex columnIndex
  | some 6 => rs.getBytes rowIndex columnIndex
  | some 7 => rs.getJsonb host rowIndex columnIndex
  | _ => some .null

/-- The value that the generic row decoder gives one column. -/
def genericColumn (rowIndex i : Nat) (colOffset colType : Nat) : Option (JsValue O) := do
  let rowOffset := headerSize + rowIndex * rs.rowStride
  let dataOffset := rowOffset + rs.layout.nullMaskSize
  let hasNulls := rs.flags != 0
  let null ← if hasNulls then
      (getUint8 rs.uint8Array (rowOffset + i / 8)).map fun byte => byte.toNat.testBit (i % 8)
    else some false
  if null then pure .null
  else
    let offset := dataOffset + colOffset
    match colType with
    | 0 => rs.readBoolean offset
    | 1 => rs.readInt32 offset
    | 2 | 3 => rs.readNumber offset
    | 5 => rs.readDate offset
    | 4 => rs.readString host offset
    | 6 => rs.readBytes offset
    | 7 => rs.readJsonb host offset
    | _ => pure .null

/-- The assignments `row[name] = value` that make up a row, in their order. -/
def genericGet (rowIndex : Nat) : Option (List (String × JsValue O)) :=
  (List.range rs.layout.columnNames.length).mapM fun i => do
    let name ← rs.layout.columnNames[i]?
    let colOffset ← rs.layout.columnOffsets[i]?
    let colType ← rs.layout.columnTypes[i]?
    let value ← rs.genericColumn host rowIndex i colOffset colType
    pure (name, value)

end ResultSet

end Cynos.Binary
