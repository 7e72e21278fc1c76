import Cynos.Core.Scalar

/-! Tables as far as the layout of their columns goes. -/
namespace Cynos.Core

inductive DataType where
  | boolean | int32 | int64 | float64 | string | dateTime | bytes | jsonb
  deriving DecidableEq

def Scalar.dataType : Scalar → DataType
  | .boolean _ => .boolean
  | .int32 _ => .int32
  | .int64 _ => .int64
  | .float64 _ => .float64
  | .string _ => .string
  | .dateTime _ => .dateTime
  | .bytes _ => .bytes
  | .jsonb _ => .jsonb

structure Column where
  name : String
  dataType : DataType
  nullable : Bool

structure Table where
  columns : List Column

def Table.getColumn (table : Table) (name : String) : Option Column :=
  table.columns.find? fun column => column.name == name

end Cynos.Core
