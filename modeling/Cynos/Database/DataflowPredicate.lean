import Cynos.Incremental.TraceLayout
import Cynos.Query.Expr

/-! Predicates of live queries: an evaluator of its own, over rows and over the tuples of a
trace. Conjunctions, disjunctions and paths into JSON columns are compiled. -/
namespace Cynos.Database

open Core Query
open Incremental (TraceTupleHandle)

/-- What evaluation calls outside of the evaluator: patterns, the queries of JSON paths that
are no simple ones, and the remainder of floats. -/
structure DataflowFunctions extends Functions where
  regex : String → String → Bool
  queryFirstEq : JsonbValue → String → Value Scalar → Bool
  queryFirstContains : JsonbValue → String → Value Scalar → Bool
  queryFirstExists : JsonbValue → String → Bool
  rem : Float → Float → Float

section Operators

def asF64 : Value Scalar → Option Float
  | some (.int32 v) => some v.toFloat
  | some (.int64 v) => some v.toFloat
  | some (.float64 v) => some v
  | _ => none

/-- Numbers of any type are computed with as floats. -/
def numericOp (left right : Value Scalar) (op : Float → Float → Float) : Value Scalar :=
  match asF64 left, asF64 right with
  | some a, some b => some (.float64 (op a b))
  | _, _ => none

variable (functions : DataflowFunctions)

/-- `Null` is a value like any other here. -/
def evalBinaryOp (left : Value Scalar) (op : BinaryOp) (right : Value Scalar) : Value Scalar :=
  match op with
  | .eq => Value.boolean (Value.eq left right)
  | .ne => Value.boolean !(Value.eq left right)
  | .lt => Value.boolean (Value.lt left right)
  | .le => Value.boolean (Value.le left right)
  | .gt => Value.boolean (Value.gt left right)
  | .ge => Value.boolean (Value.ge left right)
  | .and => Value.boolean (Value.isTrue left && Value.isTrue right)
  | .or => Value.boolean (Value.isTrue left || Value.isTrue right)
  | .add => numericOp left right (· + ·)
  | .sub => numericOp left right (· - ·)
  | .mul => numericOp left right (· * ·)
  | .div => numericOp left right fun a b => if b != 0 then a / b else 0
  | .mod => numericOp left right fun a b => if b != 0 then functions.rem a b else 0
  | .like | .in | .between => none

def evalUnaryOp (op : UnaryOp) (value : Value Scalar) : Value Scalar :=
  match op with
  | .not =>
    match value with
    | some (.boolean b) => Value.boolean !b
    | _ => none
  | .neg =>
    match value with
    | some (.int32 v) => some (.int32 (-v))
    | some (.int64 v) => some (.int64 (-v))
    | some (.float64 v) => some (.float64 (-v))
    | _ => none
  | .isNull => Value.boolean (Value.isNull value)
  | .isNotNull => Value.boolean !(Value.isNull value)

def jsonbPathEq (jsonb : JsonbValue) (path : String) (expected : Value Scalar) : Value Scalar :=
  if functions.jsonPathParses path then
    Value.boolean (functions.rawJsonEqValue jsonb path expected)
  else Value.boolean (functions.queryFirstEq jsonb path expected)

def jsonbContains (jsonb : JsonbValue) (path : String) (expected : Value Scalar) : Value Scalar :=
  if functions.jsonPathParses path then
    Value.boolean (functions.rawJsonContainsValue jsonb path expected)
  else Value.boolean (functions.queryFirstContains jsonb path expected)

def jsonbPathExists (jsonb : JsonbValue) (path : String) : Value Scalar :=
  if functions.jsonPathParses path then Value.boolean (functions.rawJsonExists jsonb path)
  else Value.boolean (functions.queryFirstExists jsonb path)

/-- The name is compared without regard to the case of its ASCII letters. -/
def evalFunction (name : String) (args : List (Value Scalar)) : Value Scalar :=
  match name.toUpper with
  | "ABS" =>
    match args.head? with
    | some (some (.int32 value)) => some (.int32 value.abs)
    | some (some (.int64 value)) => some (.int64 value.abs)
    | some (some (.float64 value)) => some (.float64 value.abs)
    | _ => none
  | "UPPER" =>
    match args.head? with
    | some (some (.string value)) => some (.string (functions.uppercase value))
    | _ => none
  | "LOWER" =>
    match args.head? with
    | some (some (.string value)) => some (.string (functions.toLowercase value))
    | _ => none
  | "LENGTH" =>
    match args.head? with
    | some (some (.string value)) => some (.int64 (Int64.ofNat value.utf8ByteSize))
    | _ => none
  | "COALESCE" => (args.find? fun value => !Value.isNull value).getD none
  | "JSONB_PATH_EQ" =>
    match args with
    | some (.jsonb jsonb) :: some (.string path) :: expected :: _ =>
      jsonbPathEq functions jsonb path expected
    | _ => Value.boolean false
  | "JSONB_CONTAINS" =>
    match args with
    | some (.jsonb jsonb) :: some (.string path) :: expected :: _ =>
      jsonbContains functions jsonb path expected
    | _ => Value.boolean false
  | "JSONB_EXISTS" =>
    match args with
    | some (.jsonb jsonb) :: some (.string path) :: _ => jsonbPathExists functions jsonb path
    | _ => Value.boolean false
  | _ => none

end Operators

section Eval

variable (functions : DataflowFunctions) (valueAt : Nat → Option (Value Scalar))

mutual

def evalExprWith : Expr → Value Scalar
  | .column col => (valueAt col.index).getD none
  | .literal value => value
  | .binaryOp left op right =>
    evalBinaryOp functions (evalExprWith left) op (evalExprWith right)
  | .unaryOp op expr => evalUnaryOp op (evalExprWith expr)
  | .function name args => evalFunction functions name (evalExprsWith args)
  | .in expr list =>
    let value := evalExprWith expr
    Value.boolean ((evalExprsWith list).any fun item => Value.eq item value)
  | .notIn expr list =>
    let value := evalExprWith expr
    Value.boolean !((evalExprsWith list).any fun item => Value.eq item value)
  | .between expr low high =>
    let value := evalExprWith expr
    Value.boolean (Value.ge value (evalExprWith low) && Value.le value (evalExprWith high))
  | .notBetween expr low high =>
    let value := evalExprWith expr
    Value.boolean (Value.lt value (evalExprWith low) || Value.gt value (evalExprWith high))
  | .like expr pattern =>
    match evalExprWith expr with
    | some (.string s) => Value.boolean (matchLikePattern s pattern)
    | _ => Value.boolean false
  | .notLike expr pattern =>
    match evalExprWith expr with
    | some (.string s) => Value.boolean !(matchLikePattern s pattern)
    | _ => Value.boolean true
  | .match expr pattern =>
    match evalExprWith expr with
    | some (.string s) => Value.boolean (functions.regex s pattern)
    | _ => Value.boolean false
  | .notMatch expr pattern =>
    match evalExprWith expr with
    | some (.string s) => Value.boolean !(functions.regex s pattern)
    | _ => Value.boolean true
  | .aggregate _ _ _ => none

def evalExprsWith : List Expr → List (Value Scalar)
  | [] => []
  | expr :: exprs => evalExprWith expr :: evalExprsWith exprs

end

end Eval

/-- A path of a JSON predicate is one that parses as a simple one. -/
inductive CompiledDataflowPredicate where
  | jsonPathEq (columnIndex : Nat) (path : String) (expected : Value Scalar)
  | jsonPathContains (columnIndex : Nat) (path : String) (expected : Value Scalar)
  | jsonPathExists (columnIndex : Nat) (path : String)
  | and (left right : CompiledDataflowPredicate)
  | or (left right : CompiledDataflowPredicate)
  | not (inner : CompiledDataflowPredicate)
  | generic (expr : Expr)

namespace CompiledDataflowPredicate

variable (functions : DataflowFunctions)

def compileJsonFunction (name : String) (args : List Expr) : Option CompiledDataflowPredicate :=
  match name.toUpper, args with
  | "JSONB_PATH_EQ",
      .column column :: .literal (some (.string path)) :: .literal expected :: _ =>
    if functions.jsonPathParses path then some (.jsonPathEq column.index path expected) else none
  | "JSONB_CONTAINS",
      .column column :: .literal (some (.string path)) :: .literal expected :: _ =>
    if functions.jsonPathParses path then some (.jsonPathContains column.index path expected)
    else none
  | "JSONB_EXISTS", .column column :: .literal (some (.string path)) :: _ =>
    if functions.jsonPathParses path then some (.jsonPathExists column.index path) else none
  | _, _ => none

def isBooleanOutput : CompiledDataflowPredicate → Bool
  | .generic _ => false
  | _ => true

def compile : Expr → CompiledDataflowPredicate
  | .function name args => (compileJsonFunction functions name args).getD (.generic (.function name args))
  | .binaryOp left .and right => .and (compile left) (compile right)
  | .binaryOp left .or right => .or (compile left) (compile right)
  | .unaryOp .not inner =>
    let compiled := compile inner
    if compiled.isBooleanOutput then .not compiled else .generic (.unaryOp .not inner)
  | expr => .generic expr

/-- What `eval_row` and `eval_trace` share: they read values in different places. -/
def evalWith (valueAt : Nat → Option (Value Scalar)) : CompiledDataflowPredicate → Bool
  | .jsonPathEq columnIndex path expected =>
    match valueAt columnIndex with
    | some (some (.jsonb jsonb)) => functions.rawJsonEqValue jsonb path expected
    | _ => false
  | .jsonPathContains columnIndex path expected =>
    match valueAt columnIndex with
    | some (some (.jsonb jsonb)) => functions.rawJsonContainsValue jsonb path expected
    | _ => false
  | .jsonPathExists columnIndex path =>
    match valueAt columnIndex with
    | some (some (.jsonb jsonb)) => functions.rawJsonExists jsonb path
    | _ => false
  | .and left right => left.evalWith valueAt && right.evalWith valueAt
  | .or left right => left.evalWith valueAt || right.evalWith valueAt
  | .not inner => !inner.evalWith valueAt
  | .generic expr => (evalExprWith functions valueAt expr).isTrue

def evalRow (predicate : CompiledDataflowPredicate) (row : Row Scalar) : Bool :=
  predicate.evalWith functions row.get

def evalTrace (predicate : CompiledDataflowPredicate) (handle : TraceTupleHandle Scalar) : Bool :=
  predicate.evalWith functions handle.valueAt

end CompiledDataflowPredicate

end Cynos.Database
