import Cynos.Core.Scalar

/-! Expressions of predicates, projections and join conditions. -/
namespace Cynos.Query

open Core

abbrev TableName := String

structure ColumnRef where
  table : TableName
  column : String
  index : Nat
  deriving DecidableEq

inductive BinaryOp where
  | eq
  | ne
  | lt
  | le
  | gt
  | ge
  | and
  | or
  | add
  | sub
  | mul
  | div
  | mod
  | like
  | in
  | between
  deriving DecidableEq

inductive UnaryOp where
  | not
  | neg
  | isNull
  | isNotNull
  deriving DecidableEq

inductive AggregateFunc where
  | count
  | sum
  | avg
  | min
  | max
  | distinct
  | stdDev
  | geoMean
  deriving DecidableEq

inductive SortOrder where
  | asc
  | desc
  deriving DecidableEq

inductive JoinType where
  | inner
  | leftOuter
  | rightOuter
  | fullOuter
  | cross
  deriving DecidableEq

inductive Expr where
  | column (col : ColumnRef)
  | literal (value : Value Scalar)
  | binaryOp (left : Expr) (op : BinaryOp) (right : Expr)
  | unaryOp (op : UnaryOp) (expr : Expr)
  | function (name : String) (args : List Expr)
  | aggregate (func : AggregateFunc) (expr : Option Expr) (distinct : Bool)
  | between (expr low high : Expr)
  | notBetween (expr low high : Expr)
  | in (expr : Expr) (list : List Expr)
  | notIn (expr : Expr) (list : List Expr)
  | like (expr : Expr) (pattern : String)
  | notLike (expr : Expr) (pattern : String)
  | match (expr : Expr) (pattern : String)
  | notMatch (expr : Expr) (pattern : String)

/-- What evaluation calls outside of the evaluators: case mapping of the standard
library, the regular expressions, and the JSONB path functions on parsed values
and, for the paths that compile, on raw text. -/
structure Functions where
  toUppercase : String → String
  toLowercase : String → String
  matchRegexPattern : String → String → Bool
  jsonbPathEq : JsonbValue → String → Value Scalar → Value Scalar
  jsonbContains : JsonbValue → String → Value Scalar → Value Scalar
  jsonbPathExists : JsonbValue → String → Value Scalar
  jsonPathParses : String → Bool
  rawJsonEqValue : JsonbValue → String → Value Scalar → Bool
  rawJsonContainsValue : JsonbValue → String → Value Scalar → Bool
  rawJsonExists : JsonbValue → String → Bool

def isAscii (s : String) : Bool := s.toList.all fun c => decide (c.val < 128)

/-- `to_uppercase`: letter by letter where the text is ASCII. -/
def Functions.uppercase (functions : Functions) (s : String) : String :=
  if isAscii s then s.toUpper else functions.toUppercase s

theorem isAscii_of_toUpper {s : String} (h : isAscii s.toUpper = true) : isAscii s = true := by
  unfold isAscii at *
  rw [List.all_eq_true] at *
  intro c hc
  have hmem : c.toUpper ∈ s.toUpper.toList := by
    rw [String.toUpper, String.toList_map]
    exact List.mem_map_of_mem hc
  have hupper := of_decide_eq_true (h _ hmem)
  rw [decide_eq_true_iff]
  by_contra hlarge
  have hkept : c.toUpper = c := by
    unfold Char.toUpper
    split
    · rename_i hletter
      exact absurd (UInt32.lt_of_le_of_lt hletter.2 (by decide)) hlarge
    · rfl
  rw [hkept] at hupper
  exact hlarge hupper

theorem uppercase_of_toUpper (functions : Functions) {name upper : String} (h : name.toUpper = upper)
    (hascii : isAscii upper = true) : functions.uppercase name = upper := by
  rw [Functions.uppercase, if_pos (isAscii_of_toUpper (h ▸ hascii)), h]

section Operators

def evalArithmetic (left right : Value Scalar) (op : Float → Float → Float) : Value Scalar :=
  match left, right with
  | some (.int64 l), some (.int64 r) => some (.int64 (op l.toFloat r.toFloat).toInt64)
  | some (.int32 l), some (.int32 r) => some (.int32 (op l.toFloat r.toFloat).toInt32)
  | some (.int32 l), some (.int64 r) => some (.float64 (op l.toFloat r.toFloat))
  | some (.int64 l), some (.int32 r) => some (.float64 (op l.toFloat r.toFloat))
  | some (.int32 l), some (.float64 r) => some (.float64 (op l.toFloat r))
  | some (.int64 l), some (.float64 r) => some (.float64 (op l.toFloat r))
  | some (.float64 l), some (.int32 r) => some (.float64 (op l r.toFloat))
  | some (.float64 l), some (.int64 r) => some (.float64 (op l r.toFloat))
  | some (.float64 l), some (.float64 r) => some (.float64 (op l r))
  | _, _ => none

/-- A division by zero is `Null`. -/
def evalDivision (left right : Value Scalar) : Value Scalar :=
  let divide := evalArithmetic left right fun a b => if b != 0 then a / b else 0
  match right with
  | some (.int32 r) => if r = 0 then none else divide
  | some (.int64 r) => if r = 0 then none else divide
  | some (.float64 r) => if r == 0 then none else divide
  | _ => divide

def evalBinaryOp (op : BinaryOp) (left right : Value Scalar) : Value Scalar :=
  if left.isNull || right.isNull then
    match op with
    | .and =>
      match left, right with
      | some (.boolean false), _ | _, some (.boolean false) => Value.boolean false
      | _, _ => none
    | .or =>
      match left, right with
      | some (.boolean true), _ | _, some (.boolean true) => Value.boolean true
      | _, _ => none
    | _ => none
  else
    match op with
    | .eq => Value.boolean (Value.sqlEq left right)
    | .ne => Value.boolean !(Value.sqlEq left right)
    | .lt => Value.boolean (Value.lt left right)
    | .le => Value.boolean (Value.le left right)
    | .gt => Value.boolean (Value.gt left right)
    | .ge => Value.boolean (Value.ge left right)
    | .and => Value.boolean (Value.isTrue left && Value.isTrue right)
    | .or => Value.boolean (Value.isTrue left || Value.isTrue right)
    | .add => evalArithmetic left right (· + ·)
    | .sub => evalArithmetic left right (· - ·)
    | .mul => evalArithmetic left right (· * ·)
    | .div => evalDivision left right
    | .mod =>
      match left, right with
      | some (.int64 a), some (.int64 b) => if b ≠ 0 then some (.int64 (a % b)) else none
      | some (.int32 a), some (.int32 b) => if b ≠ 0 then some (.int32 (a % b)) else none
      | _, _ => none
    | .like | .in | .between => none

/-- Every operator but AND and OR passes `Null` on. -/
theorem evalBinaryOp_null {op : BinaryOp} (hop : op ≠ .and ∧ op ≠ .or) {a b : Value Scalar}
    (h : a = none ∨ b = none) : evalBinaryOp op a b = none := by
  rcases h with rfl | rfl
  · cases op <;> first | rfl | exact absurd rfl hop.1 | exact absurd rfl hop.2
  · rcases a with _ | a <;>
      cases op <;> first | rfl | exact absurd rfl hop.1 | exact absurd rfl hop.2

/-- AND is true where both sides are. -/
theorem isTrue_evalBinaryOp_and (a b : Value Scalar) :
    Value.isTrue (evalBinaryOp .and a b) = (Value.isTrue a && Value.isTrue b) := by
  rcases a with _ | a
  · rcases b with _ | (_ | _) | _ <;> rfl
  · rcases b with _ | b
    · rcases a with (_ | _) | _ <;> rfl
    · rfl

/-- OR is true where one of the sides is. -/
theorem isTrue_evalBinaryOp_or (a b : Value Scalar) :
    Value.isTrue (evalBinaryOp .or a b) = (Value.isTrue a || Value.isTrue b) := by
  rcases a with _ | a
  · rcases b with _ | (_ | _) | _ <;> rfl
  · rcases b with _ | b
    · rcases a with (_ | _) | _ <;> rfl
    · rfl

def evalUnaryOp (op : UnaryOp) (value : Value Scalar) : Value Scalar :=
  match op with
  | .not =>
    match value with
    | some (.boolean b) => Value.boolean !b
    | _ => none
  | .neg =>
    match value with
    | some (.int32 i) => some (.int32 (-i))
    | some (.int64 i) => some (.int64 (-i))
    | some (.float64 f) => some (.float64 (-f))
    | _ => none
  | .isNull => Value.boolean (Value.isNull value)
  | .isNotNull => Value.boolean !(Value.isNull value)

def evalFunction (functions : Functions) (name : String) (args : List (Value Scalar)) :
    Value Scalar :=
  match functions.uppercase name with
  | "ABS" =>
    match args.head? with
    | some (some (.int32 i)) => some (.int32 i.abs)
    | some (some (.int64 i)) => some (.int64 i.abs)
    | some (some (.float64 f)) => some (.float64 f.abs)
    | _ => none
  | "UPPER" =>
    match args.head? with
    | some (some (.string s)) => some (.string (functions.uppercase s))
    | _ => none
  | "LOWER" =>
    match args.head? with
    | some (some (.string s)) => some (.string (functions.toLowercase s))
    | _ => none
  | "LENGTH" =>
    match args.head? with
    | some (some (.string s)) => some (.int64 (Int64.ofNat s.utf8ByteSize))
    | _ => none
  | "COALESCE" => (args.find? fun arg => !Value.isNull arg).getD none
  | "JSONB_PATH_EQ" =>
    match args with
    | some (.jsonb jsonb) :: some (.string path) :: expected :: _ =>
      functions.jsonbPathEq jsonb path expected
    | _ => Value.boolean false
  | "JSONB_CONTAINS" =>
    match args with
    | some (.jsonb jsonb) :: some (.string path) :: expected :: _ =>
      functions.jsonbContains jsonb path expected
    | _ => Value.boolean false
  | "JSONB_EXISTS" =>
    match args with
    | some (.jsonb jsonb) :: some (.string path) :: _ => functions.jsonbPathExists jsonb path
    | _ => Value.boolean false
  | _ => none

/-- LIKE: `%` stands for any characters and `_` for one. -/
def matchLikeRecursive : List Char → List Char → Bool
  | [], value => value.isEmpty
  | '%' :: pattern, value => value.tails.any fun rest => matchLikeRecursive pattern rest
  | '_' :: pattern, value =>
    match value with
    | [] => false
    | _ :: value => matchLikeRecursive pattern value
  | c :: pattern, value =>
    match value with
    | [] => false
    | v :: value => v == c && matchLikeRecursive pattern value

def matchLikePattern (value pattern : String) : Bool :=
  matchLikeRecursive pattern.toList value.toList

end Operators

/-- Names and widths of the tables whose columns make up a row, in order. -/
structure EvalContext where
  tables : List TableName
  tableColumnCounts : List Nat
  deriving DecidableEq

namespace EvalContext

/-- The loop of `resolve_column_index`, from the tables that remain. -/
def resolveFrom (tableName : TableName) (tableRelativeIndex : Nat) :
    Nat → List TableName → List Nat → Nat
  | _, [], _ => tableRelativeIndex
  | offset, table :: tables, counts =>
    if table = tableName then offset + tableRelativeIndex
    else resolveFrom tableName tableRelativeIndex (offset + counts.headD 0) tables counts.tail

/-- The place of a column in the combined row; a column of no table keeps its index. -/
def resolveColumnIndex (ctx : EvalContext) (tableName : TableName) (tableRelativeIndex : Nat) :
    Nat :=
  resolveFrom tableName tableRelativeIndex 0 ctx.tables ctx.tableColumnCounts

end EvalContext

section Eval

variable (functions : Functions) (get : Nat → Option (Value Scalar)) (ctx : Option EvalContext)

def evalColumn (col : ColumnRef) : Value Scalar :=
  let index := match ctx with
    | some c => c.resolveColumnIndex col.table col.index
    | none => col.index
  (get index).getD none

mutual

/-- An expression on the row that `get` reads. -/
def evalAccessorExpr : Expr → Value Scalar
  | .column col => evalColumn get ctx col
  | .literal value => value
  | .binaryOp left op right =>
    evalBinaryOp op (evalAccessorExpr left) (evalAccessorExpr right)
  | .unaryOp op expr => evalUnaryOp op (evalAccessorExpr expr)
  | .aggregate _ none _ => some (.int64 1)
  | .aggregate _ (some expr) _ => evalAccessorExpr expr
  | .between expr low high =>
    let value := evalAccessorExpr expr
    Value.boolean (Value.ge value (evalAccessorExpr low) &&
      Value.le value (evalAccessorExpr high))
  | .notBetween expr low high =>
    let value := evalAccessorExpr expr
    Value.boolean (Value.lt value (evalAccessorExpr low) ||
      Value.gt value (evalAccessorExpr high))
  | .in expr list =>
    let value := evalAccessorExpr expr
    Value.boolean ((evalAccessorExprs list).any fun item => Value.eq item value)
  | .notIn expr list =>
    let value := evalAccessorExpr expr
    Value.boolean !((evalAccessorExprs list).any fun item => Value.eq item value)
  | .like expr pattern =>
    match evalAccessorExpr expr with
    | some (.string s) => Value.boolean (matchLikePattern s pattern)
    | _ => Value.boolean false
  | .notLike expr pattern =>
    match evalAccessorExpr expr with
    | some (.string s) => Value.boolean !(matchLikePattern s pattern)
    | _ => Value.boolean true
  | .match expr pattern =>
    match evalAccessorExpr expr with
    | some (.string s) => Value.boolean (functions.matchRegexPattern s pattern)
    | _ => Value.boolean false
  | .notMatch expr pattern =>
    match evalAccessorExpr expr with
    | some (.string s) => Value.boolean !(functions.matchRegexPattern s pattern)
    | _ => Value.boolean true
  | .function name args => evalFunction functions name (evalAccessorExprs args)

def evalAccessorExprs : List Expr → List (Value Scalar)
  | [] => []
  | expr :: exprs => evalAccessorExpr expr :: evalAccessorExprs exprs

end

def evalPredicate (expr : Expr) : Bool := (evalAccessorExpr functions get ctx expr).isTrue

end Eval

end Cynos.Query
