import Cynos.Gql.Catalog
import Cynos.Jsonb.Binary
import Cynos.Query.Logical

/-! Filters as expressions over a scan, where every related table is joined to it. -/
namespace Cynos.Gql

open Core (Scalar Value)
open Query (Expr LogicalPlan SortOrder)

section Expressions

def andAll : List Expr → Expr
  | [] => .literal (Value.boolean true)
  | [expression] => expression
  | expression :: expressions => .binaryOp expression .and (andAll expressions)

def orAll : List Expr → Expr
  | [] => .literal (Value.boolean false)
  | [expression] => expression
  | expression :: expressions => .binaryOp expression .or (orAll expressions)

/-- A whole number in the range of `i64` is an integer. -/
def numberToValue (value : Float) : Value Scalar :=
  if value == Binary64.ofInt value.toModel.toInt64.toInt then some (.int64 value.toModel.toInt64)
  else some (.float64 value)

def jsonbValueToScalarValue : Jsonb.JsonbValue → Option (Value Scalar)
  | .null => some none
  | .bool value => some (Value.boolean value)
  | .number value => some (numberToValue value)
  | .string value => some (some (.string value))
  | .array _ | .object _ => none

def jsonbValueToLiteral : Jsonb.JsonbValue → Value Scalar
  | .null => none
  | .bool value => Value.boolean value
  | .number value => numberToValue value
  | .string value => some (.string value)
  | value => some (.jsonb ⟨Jsonb.encodeValue value⟩)

variable (columnExpr : Expr)

def jsonbExists (path : String) : Expr :=
  .function "jsonb_exists" [columnExpr, .literal (some (.string path))]

def jsonbPathEq (path : String) (value : Value Scalar) : Expr :=
  .function "jsonb_path_eq" [columnExpr, .literal (some (.string path)), .literal value]

def jsonbContains (path : String) (value : Value Scalar) : Expr :=
  .function "jsonb_contains" [columnExpr, .literal (some (.string path)), .literal value]

def buildExistsExpr (path : Option String) (existence : Bool) : Expr :=
  match path with
  | some path =>
    if existence then jsonbExists columnExpr path
    else .unaryOp .not (jsonbExists columnExpr path)
  | none => .unaryOp (if existence then .isNotNull else .isNull) columnExpr

def buildJsonEqExpr (path : Option String) (expected : Jsonb.JsonbValue) : GqlResult Expr :=
  match path with
  | some path =>
    match jsonbValueToScalarValue expected with
    | some value => .ok (jsonbPathEq columnExpr path value)
    | none => .error ⟨.unsupported, "planner-backed JSON path equality only supports scalar values"⟩
  | none => .ok (.binaryOp columnExpr .eq (.literal (jsonbValueToLiteral expected)))

def buildJsonContainsExpr (path : Option String) (expected : Jsonb.JsonbValue) : GqlResult Expr :=
  match jsonbValueToScalarValue expected with
  | some value => .ok (jsonbContains columnExpr (path.getD "$") value)
  | none => .error ⟨.unsupported, "planner-backed JSON contains only supports scalar values"⟩

/-- What is asked of the target, in the order in which it is lowered. -/
def buildJsonParts (predicate : JsonPredicate) : List (GqlResult Expr) :=
  (predicate.existence.map fun existence =>
      Except.ok (buildExistsExpr columnExpr predicate.path existence)).toList ++
    (predicate.eq.map (buildJsonEqExpr columnExpr predicate.path)).toList ++
    (predicate.contains.map (buildJsonContainsExpr columnExpr predicate.path)).toList

def buildJsonPredicateExpr (predicate : JsonPredicate) : GqlResult Expr := do
  let expressions ← (buildJsonParts columnExpr predicate).mapM id
  if expressions.isEmpty then .error ⟨.unsupported, "empty JSON predicate cannot be compiled"⟩
  else return andAll expressions

def buildPredicateExpr : PredicateOp → GqlResult Expr
  | .isNull true => .ok (.unaryOp .isNull columnExpr)
  | .isNull false => .ok (.unaryOp .isNotNull columnExpr)
  | .eq value => .ok (.binaryOp columnExpr .eq (.literal value))
  | .ne value => .ok (.binaryOp columnExpr .ne (.literal value))
  | .in values => .ok (.in columnExpr (values.map .literal))
  | .notIn values => .ok (.notIn columnExpr (values.map .literal))
  | .gt value => .ok (.binaryOp columnExpr .gt (.literal value))
  | .gte value => .ok (.binaryOp columnExpr .ge (.literal value))
  | .lt value => .ok (.binaryOp columnExpr .lt (.literal value))
  | .lte value => .ok (.binaryOp columnExpr .le (.literal value))
  | .between lower upper => .ok (.between columnExpr (.literal lower) (.literal upper))
  | .like pattern => .ok (.like columnExpr pattern)
  | .json predicate => buildJsonPredicateExpr columnExpr predicate

end Expressions

section Relations

/-- The joins made so far, by the path that asked for them, and the path of every table that is
joined. -/
structure RelationLoweringState where
  rootTableName : String
  plan : LogicalPlan
  joinsByPath : List (List String × String)
  pathsByTable : List (String × List String)

abbrev Lowering := StateT RelationLoweringState GqlResult

def RelationLoweringState.new (rootTableName : String) (rootTable : TableMeta) :
    RelationLoweringState :=
  ⟨rootTableName, .scan rootTableName, [], [(rootTable.tableName, [])]⟩

def RelationLoweringState.hasJoins (state : RelationLoweringState) : Bool :=
  !state.joinsByPath.isEmpty

def columnNotFound (index : Nat) (tableName : String) : GqlError :=
  ⟨.binding, "column index " ++ toString index ++ " was not found on `" ++ tableName ++ "`"⟩

def tableNotAvailable (tableName : String) : GqlError :=
  ⟨.binding, "table `" ++ tableName ++ "` is not available"⟩

def findColumn (table : TableMeta) (index : Nat) (tableName : String) : GqlResult ColumnMeta :=
  (table.columnByIndex index).elim (.error (columnNotFound index tableName)) .ok

def columnExpr (tableName : String) (column : ColumnMeta) : Expr :=
  .column ⟨tableName, column.name, column.index⟩

/-- The columns of both sides are equal. -/
def buildJoinEquality (currentTableName : String) (currentTable : TableMeta) (currentIndex : Nat)
    (targetTableName : String) (targetTable : TableMeta) (targetIndex : Nat) : GqlResult Expr := do
  let left ← findColumn currentTable currentIndex currentTable.tableName
  let right ← findColumn targetTable targetIndex targetTable.tableName
  return .binaryOp (columnExpr currentTableName left) .eq (columnExpr targetTableName right)

def buildRelationJoinCondition (currentTableName : String) (currentTable : TableMeta)
    (relation : RelationMeta) (targetTableName : String) (targetTable : TableMeta) :
    GqlResult Expr :=
  if currentTable.tableName = relation.childTable ∧ targetTable.tableName = relation.parentTable then
    buildJoinEquality currentTableName currentTable relation.childColumnIndex targetTableName
      targetTable relation.parentColumnIndex
  else if currentTable.tableName = relation.parentTable ∧
      targetTable.tableName = relation.childTable then
    buildJoinEquality currentTableName currentTable relation.parentColumnIndex targetTableName
      targetTable relation.childColumnIndex
  else .error ⟨.binding, "relation `" ++ relation.name ++ "` does not connect `" ++
    currentTable.tableName ++ "` to `" ++ targetTable.tableName ++ "`"⟩

def renderRelationPath (path : List String) : String :=
  if path.isEmpty then "<root>" else ".".intercalate path

def selfJoin (path : List String) : GqlError :=
  ⟨.unsupported, "relation filter path `" ++ renderRelationPath path ++
    "` requires a self-join or alias, which is not supported yet"⟩

def secondPath (path : List String) (tableName : String) : GqlError :=
  ⟨.unsupported, "relation filter path `" ++ renderRelationPath path ++ "` reuses table `" ++
    tableName ++ "` through a second alias-less path, which is not supported yet"⟩

def leftJoin (left right : LogicalPlan) (condition : Expr) : LogicalPlan :=
  .join left right condition .leftOuter (left.outputTables ++ right.outputTables)

/-- Every path is joined once, every table on one path only. -/
def ensureJoin (currentTableName : String) (currentTable : TableMeta) (relation : RelationMeta)
    (targetTable : TableMeta) (path : List String) : Lowering String := fun state =>
  match state.joinsByPath.lookup path with
  | some existing => .ok (existing, state)
  | none =>
    if targetTable.tableName = currentTable.tableName ∨
        targetTable.tableName = state.rootTableName then
      .error (selfJoin path)
    else
      match state.pathsByTable.lookup targetTable.tableName with
      | some existingPath =>
        if existingPath ≠ path then .error (secondPath path targetTable.tableName)
        else .ok (targetTable.tableName, state)
      | none => do
        let condition ← buildRelationJoinCondition currentTableName currentTable relation
          targetTable.tableName targetTable
        return (targetTable.tableName,
          ⟨state.rootTableName, leftJoin state.plan (.scan targetTable.tableName) condition,
            (path, targetTable.tableName) :: state.joinsByPath,
            (targetTable.tableName, path) :: state.pathsByTable⟩)

/-- A column that is `Null` only where no row was joined. -/
def relationExistsExpr (tableName : String) (table : TableMeta) : GqlResult Expr :=
  match (table.primaryKey.bind List.head?).or (table.columns.find? fun column => !column.nullable) with
  | some column => .ok (.unaryOp .isNotNull (columnExpr tableName column))
  | none => .error ⟨.unsupported, "relation filter target `" ++ table.tableName ++
    "` must expose a primary key or a non-null column"⟩

def buildColumnExpr (tableName : String) (table : TableMeta) (predicate : ColumnPredicate) :
    GqlResult Expr := do
  let column ← findColumn table predicate.columnIndex tableName
  return andAll (← predicate.ops.mapM (buildPredicateExpr (columnExpr tableName column)))

variable (catalog : GraphqlCatalog)

mutual

def buildFilterExpr (tableName : String) (table : TableMeta) (filter : BoundFilter)
    (currentPath : List String) : Lowering Expr :=
  match filter with
  | .and filters => do return andAll (← buildFilterExprs tableName table filters currentPath)
  | .or filters => do return orAll (← buildFilterExprs tableName table filters currentPath)
  | .column predicate => buildColumnExpr tableName table predicate
  | .relation relation targetTable filter => do
    let some target := catalog.table targetTable | throw (tableNotAvailable targetTable)
    let path := currentPath ++ [relation.name]
    let joinedTableName ← ensureJoin tableName table relation target path
    let nested ← buildFilterExpr joinedTableName target filter path
    let present ← relationExistsExpr joinedTableName target
    return .binaryOp present .and nested

def buildFilterExprs (tableName : String) (table : TableMeta) (filters : List BoundFilter)
    (currentPath : List String) : Lowering (List Expr) :=
  match filters with
  | [] => return []
  | filter :: filters => do
    let expression ← buildFilterExpr tableName table filter currentPath
    let expressions ← buildFilterExprs tableName table filters currentPath
    return expression :: expressions

end

def buildRootProjection (tableName : String) (table : TableMeta) (input : LogicalPlan) :
    LogicalPlan :=
  .project input (table.columns.map (columnExpr tableName))

def buildOrderBy (tableName : String) (table : TableMeta) (specs : List OrderSpec) :
    GqlResult (List (Expr × SortOrder)) :=
  specs.mapM fun spec => do
    let column ← findColumn table spec.columnIndex tableName
    return (columnExpr tableName column, if spec.descending then .desc else .asc)

/-- The filtered scan; with joins below it, only the columns of the root table are kept. -/
def buildFilterPlan (tableName : String) (table : TableMeta) (filter : Option BoundFilter) :
    GqlResult LogicalPlan :=
  match filter with
  | none => .ok (.scan tableName)
  | some filter => do
    let (predicate, state) ← buildFilterExpr catalog tableName table filter []
      (RelationLoweringState.new tableName table)
    let plan := LogicalPlan.filter state.plan predicate
    return if state.hasJoins then buildRootProjection tableName table plan else plan

/-- `usizeMax` rows stand for no limit. -/
def buildTableQueryPlan (usizeMax : Nat) (tableName : String) (table : TableMeta)
    (query : BoundCollectionQuery) : GqlResult LogicalPlan := do
  let plan ← buildFilterPlan catalog tableName table query.filter
  let plan ← if query.orderBy.isEmpty then pure plan else do
    return .sort plan (← buildOrderBy tableName table query.orderBy)
  return if query.limit.isSome ∨ query.offset > 0 then
    .limit plan (query.limit.getD usizeMax) query.offset
  else plan

end Relations

end Cynos.Gql
