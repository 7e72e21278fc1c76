import Cynos.Query.Relation
import Cynos.Index.Traits

/-! Physical plans. -/
namespace Cynos.Query

open Core
open Index (KeyRange)

abbrev IndexName := String

inductive IndexBounds where
  | unbounded
  | scalar (range : KeyRange (Value Scalar))
  | composite (range : KeyRange (List (Value Scalar)))

def IndexBounds.all : IndexBounds := .unbounded

/-- Largest value of a row count or a limit. -/
def maxUsize : Nat := 2 ^ 64 - 1

def saturatingAdd (a b : Nat) : Nat := min (a + b) maxUsize

inductive PhysicalPlan where
  | tableScan (table : TableName)
  | indexScan (table : TableName) (index : IndexName) (bounds : IndexBounds)
      (limit offset : Option Nat) (reverse : Bool)
  | indexGet (table : TableName) (index : IndexName) (key : Value Scalar) (limit : Option Nat)
  | indexInGet (table : TableName) (index : IndexName) (keys : List (Value Scalar))
  | ginIndexScan (table : TableName) (index : IndexName) (key : String) (value : Option String)
      (queryType : String) (recheck : Option Expr)
  | ginIndexScanMulti (table : TableName) (index : IndexName) (pairs : List (String × String))
      (matchAll : Bool) (recheck : Option Expr)
  | filter (input : PhysicalPlan) (predicate : Expr)
  | project (input : PhysicalPlan) (columns : List Expr)
  | hashJoin (left right : PhysicalPlan) (condition : Expr) (joinType : JoinType)
      (outputTables : List TableName)
  | sortMergeJoin (left right : PhysicalPlan) (condition : Expr) (joinType : JoinType)
      (outputTables : List TableName)
  | nestedLoopJoin (left right : PhysicalPlan) (condition : Expr) (joinType : JoinType)
      (outputTables : List TableName)
  | indexNestedLoopJoin (outer : PhysicalPlan) (innerTable : TableName) (innerIndex : IndexName)
      (condition : Expr) (joinType : JoinType) (outerIsLeft : Bool) (outputTables : List TableName)
  | hashAggregate (input : PhysicalPlan) (groupBy : List Expr)
      (aggregates : List (AggregateFunc × Expr))
  | sort (input : PhysicalPlan) (orderBy : List (Expr × SortOrder))
  | topN (input : PhysicalPlan) (orderBy : List (Expr × SortOrder)) (limit offset : Nat)
  | limit (input : PhysicalPlan) (limit offset : Nat)
  | crossProduct (left right : PhysicalPlan)
  | union (left right : PhysicalPlan) (all : Bool)
  | noOp (input : PhysicalPlan)
  | empty

end Cynos.Query
