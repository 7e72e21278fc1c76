import Cynos.Core.PatternMatch
import Cynos.Gql.Catalog
import Cynos.Jsonb.Binary
import Cynos.Jsonb.Containment
import Cynos.Jsonb.PathEval
import Cynos.Jsonb.PathParser

/-! Filters on one row, as nested lists, updates and deletes without a plan apply them. A cell
that cannot be decoded and a slice of a path that ends before it starts are panics: `none`. -/
namespace Cynos.Gql

open Core (CharClasses Scalar Value)
open Core.PatternMatch (like)
open Jsonb (JsonPath)

section Matches

variable (machine : Jsonb.Machine) (limit : Nat) (chars : CharClasses)

/-- The bytes of a cell in the binary form. -/
def decodeCell (data : List UInt8) : Option Jsonb.JsonbValue :=
  (Jsonb.decodeValue machine limit data (data.length + 1) 0).toOption.map Prod.fst

def matchesTarget (target : Option Jsonb.JsonbValue) (predicate : JsonPredicate) : Bool :=
  predicate.existence.all (target.isSome == ·) &&
    predicate.eq.all (fun expected => target.any (·.eq expected)) &&
    predicate.contains.all (fun expected => target.any (·.contains expected))

def matchesJsonPredicate (value : Value Scalar) (predicate : JsonPredicate) : Option Bool :=
  match value with
  | some (.jsonb binary) => do
    let json ← decodeCell machine limit binary.data
    match predicate.path with
    | some path =>
      match JsonPath.parse chars path with
      | .ok path => return matchesTarget (← json.queryFirst path) predicate
      | .error _ => return false
    | none => return matchesTarget (some json) predicate
  | _ => some false

def matchesLike (value : Value Scalar) (pattern : String) : Bool :=
  match value with
  | some (.string value) => like value pattern
  | some (.bytes value) => (Bytes.ofUtf8? value).any (like · pattern)
  | _ => false

def matchesOp (value : Value Scalar) : PredicateOp → Option Bool
  | .isNull expected => some (Value.isNull value == expected)
  | .eq expected => some (Value.sqlEq value expected)
  | .ne expected => some !(Value.sqlEq value expected)
  | .in expected => some (expected.any fun candidate => Value.sqlEq value candidate)
  | .notIn expected => some (expected.all fun candidate => !Value.sqlEq value candidate)
  | .gt expected => some (Value.gt value expected)
  | .gte expected => some (Value.ge value expected)
  | .lt expected => some (Value.lt value expected)
  | .lte expected => some (Value.le value expected)
  | .between lower upper => some (Value.ge value lower && Value.le value upper)
  | .like pattern => some (matchesLike value pattern)
  | .json predicate => matchesJsonPredicate machine limit chars value predicate

variable (row : Core.Row Scalar)

/-- The cell of a column; a column that the row does not have is `Null`. -/
def cell (index : Nat) : Value Scalar := (row.get index).getD none

/-- The operations up to the first that fails. -/
def matchesColumnPredicate (predicate : ColumnPredicate) : Option Bool :=
  predicate.ops.allM (matchesOp machine limit chars (cell row predicate.columnIndex))

mutual

def matchesFilter : BoundFilter → Option Bool
  | .and filters => matchesAll filters
  | .or filters => matchesAny filters
  | .column predicate => matchesColumnPredicate machine limit chars row predicate
  | .relation _ _ _ => some false

def matchesAll : List BoundFilter → Option Bool
  | [] => some true
  | filter :: filters => do if ← matchesFilter filter then matchesAll filters else return false

def matchesAny : List BoundFilter → Option Bool
  | [] => some false
  | filter :: filters => do if ← matchesFilter filter then return true else matchesAny filters

end

end Matches

end Cynos.Gql
