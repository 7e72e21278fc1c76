import Cynos.Core.Schema

/-! GraphQL documents. -/
namespace Cynos.Gql

inductive GqlErrorKind where
  | syntaxError
  | validation
  | binding
  | execution
  | unsupported
deriving DecidableEq

structure GqlError where
  kind : GqlErrorKind
  message : String
deriving DecidableEq

abbrev GqlResult := Except GqlError

inductive OperationType where
  | query
  | mutation
  | subscription
deriving DecidableEq

inductive InputValue where
  | null
  | boolean (value : Bool)
  | int (value : Int64)
  | float (value : Float)
  | string (value : String)
  | enum (name : String)
  | list (values : List InputValue)
  | object (fields : List (String × InputValue))
  | variable (name : String)

abbrev ObjectField := String × InputValue

structure Argument where
  name : String
  value : InputValue

structure Directive where
  name : String
  arguments : List Argument

inductive Field where
  | mk (aliasName : Option String) (name : String) (arguments : List Argument)
    (directives : List Directive) (selectionSet : Option (List Field))

abbrev SelectionSet := List Field

inductive TypeReference where
  | named (name : String)
  | list (inner : TypeReference)
  | nonNull (inner : TypeReference)
deriving DecidableEq

structure VariableDefinition where
  name : String
  typeRef : TypeReference
  defaultValue : Option InputValue

structure OperationDefinition where
  kind : OperationType
  name : Option String
  variableDefinitions : List VariableDefinition
  selectionSet : SelectionSet

structure Document where
  operations : List OperationDefinition

end Cynos.Gql
