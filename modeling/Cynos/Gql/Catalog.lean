import Cynos.Gql.Ast
import Cynos.Jsonb.Value

/-! Tables of a catalog, and the relations that foreign keys make between them. -/
namespace Cynos.Gql

open Core (DataType Scalar Value)

structure ColumnMeta where
  name : String
  index : Nat
  dataType : DataType
  nullable : Bool

structure RelationMeta where
  name : String
  fkName : String
  childTable : String
  childColumn : String
  childColumnIndex : Nat
  childColumnUnique : Bool
  parentTable : String
  parentColumn : String
  parentColumnIndex : Nat

/-- Columns are numbered by their places. -/
structure TableMeta where
  tableName : String
  columns : List ColumnMeta
  primaryKey : Option (List ColumnMeta)
  index_eq : ∀ (i : Nat) (column : ColumnMeta), columns[i]? = some column → column.index = i

def TableMeta.columnByIndex (table : TableMeta) (index : Nat) : Option ColumnMeta :=
  table.columns[index]?

structure GraphqlCatalog where
  tables : List TableMeta

def GraphqlCatalog.table (catalog : GraphqlCatalog) (name : String) : Option TableMeta :=
  catalog.tables.find? fun table => table.tableName == name

/-! The filters that the binder makes of a `where` argument. -/

structure JsonPredicate where
  path : Option String
  eq : Option Jsonb.JsonbValue
  contains : Option Jsonb.JsonbValue
  existence : Option Bool

inductive PredicateOp where
  | isNull (expected : Bool)
  | eq (expected : Value Scalar)
  | ne (expected : Value Scalar)
  | in (expected : List (Value Scalar))
  | notIn (expected : List (Value Scalar))
  | gt (expected : Value Scalar)
  | gte (expected : Value Scalar)
  | lt (expected : Value Scalar)
  | lte (expected : Value Scalar)
  | between (lower upper : Value Scalar)
  | like (pattern : String)
  | json (predicate : JsonPredicate)

structure ColumnPredicate where
  columnIndex : Nat
  ops : List PredicateOp

inductive BoundFilter where
  | and (filters : List BoundFilter)
  | or (filters : List BoundFilter)
  | column (predicate : ColumnPredicate)
  | relation (relation : RelationMeta) (targetTable : String) (filter : BoundFilter)

structure OrderSpec where
  columnIndex : Nat
  descending : Bool

structure BoundCollectionQuery where
  filter : Option BoundFilter
  orderBy : List OrderSpec
  limit : Option Nat
  offset : Nat

end Cynos.Gql
