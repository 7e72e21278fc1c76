import Cynos.Gql.Ast
import Cynos.Jsonb.Binary
import Cynos.Query.JsonText

/-! Coercion of the values of a document to the cells of a column. -/
namespace Cynos.Gql

open Core (DataType Scalar Value Spells parseI64)
open Bytes (utf8Bytes)
open Jsonb (JsonbObject)

section Coerce

def dataTypeName : DataType → String
  | .boolean => "Boolean"
  | .int32 => "Int32"
  | .int64 => "Int64"
  | .float64 => "Float64"
  | .string => "String"
  | .dateTime => "DateTime"
  | .bytes => "Bytes"
  | .jsonb => "Jsonb"

def typeError {A : Type} (dataType : DataType) : GqlResult A :=
  .error ⟨.validation, "value is not compatible with " ++ dataTypeName dataType⟩

mutual

def inputToJsonbValue : InputValue → GqlResult Jsonb.JsonbValue
  | .null => .ok .null
  | .boolean value => .ok (.bool value)
  | .int value => .ok (.number (Binary64.ofInt value.toInt))
  | .float value => .ok (.number value)
  | .string value => .ok (.string value)
  | .enum value => .ok (.string value)
  | .list values => do return .array (← inputToJsonbItems values)
  | .object fields => do return .object (← inputToJsonbFields [] fields)
  | .variable _ => .error ⟨.validation, "unresolved variable in JSON value"⟩

def inputToJsonbItems : List InputValue → GqlResult (List Jsonb.JsonbValue)
  | [] => .ok []
  | value :: values => do
    let item ← inputToJsonbValue value
    return item :: (← inputToJsonbItems values)

def inputToJsonbFields (object : JsonbObject) : List (String × InputValue) → GqlResult JsonbObject
  | [] => .ok object
  | (name, value) :: fields => do
    let value ← inputToJsonbValue value
    inputToJsonbFields (Jsonb.Entries.insert object name value) fields

end

/-- The items of a list of bytes. -/
def coerceBytes : List InputValue → GqlResult (List UInt8)
  | [] => .ok []
  | .int value :: values =>
    if 0 ≤ value.toInt ∧ value.toInt ≤ 255 then do
      return UInt8.ofNat value.toInt.toNat :: (← coerceBytes values)
    else .error ⟨.validation, "Bytes values must be strings or integer arrays"⟩
  | _ :: _ => .error ⟨.validation, "Bytes values must be strings or integer arrays"⟩

/-- The casts from floats truncate towards zero and stop at the ends of the range. -/
def coerceValue (value : InputValue) : DataType → GqlResult (Value Scalar)
  | .boolean => match value with
    | .null => .ok none
    | .boolean value => .ok (some (.boolean value))
    | _ => typeError .boolean
  | .int32 => match value with
    | .null => .ok none
    | .int value => .ok (some (.int32 value.toInt32))
    | .float value => .ok (some (.int32 value.toModel.toInt32))
    | _ => typeError .int32
  | .int64 => match value with
    | .null => .ok none
    | .int value => .ok (some (.int64 value))
    | .float value => .ok (some (.int64 value.toModel.toInt64))
    | _ => typeError .int64
  | .float64 => match value with
    | .null => .ok none
    | .int value => .ok (some (.float64 (Binary64.ofInt value.toInt)))
    | .float value => .ok (some (.float64 value))
    | _ => typeError .float64
  | .string => match value with
    | .null => .ok none
    | .string value => .ok (some (.string value))
    | .enum value => .ok (some (.string value))
    | _ => typeError .string
  | .dateTime => match value with
    | .null => .ok none
    | .int value => .ok (some (.dateTime value))
    | .float value => .ok (some (.dateTime value.toModel.toInt64))
    | .string value =>
      match parseI64 value.toList with
      | some value => .ok (some (.dateTime value))
      | none => .error ⟨.validation, "invalid DateTime value"⟩
    | _ => typeError .dateTime
  | .bytes => match value with
    | .null => .ok none
    | .string value => .ok (some (.bytes (utf8Bytes value)))
    | .list values => do return some (.bytes (← coerceBytes values))
    | _ => typeError .bytes
  | .jsonb => match value with
    | .null => .ok none
    | value => do
      let json ← inputToJsonbValue value
      return some (.jsonb ⟨Jsonb.encodeValue json⟩)

end Coerce

end Cynos.Gql
