import Cynos.Jsonb.Value

/-! Paths into JSON values. A path is nested, its last step outermost. -/
namespace Cynos.Jsonb

inductive CompareOp where
  | eq
  | ne
  | lt
  | le
  | gt
  | ge
  deriving DecidableEq

inductive PredicateValue where
  | null
  | bool (value : Bool)
  | number (value : Float)
  | string (value : String)

inductive JsonPathPredicate where
  | compare (field : String) (op : CompareOp) (value : PredicateValue)
  | exists (field : String)
  | and (left right : JsonPathPredicate)
  | or (left right : JsonPathPredicate)
  | not (inner : JsonPathPredicate)

inductive JsonPath where
  | root
  | field (parent : JsonPath) (name : String)
  | index (parent : JsonPath) (index : Nat)
  | slice (parent : JsonPath) (start stop : Option Nat)
  | recursiveField (parent : JsonPath) (name : String)
  | wildcard (parent : JsonPath)
  | filter (parent : JsonPath) (predicate : JsonPathPredicate)

inductive JsonPathStep where
  | field (name : String)
  | index (index : Nat)
  | slice (start stop : Option Nat)
  | recursiveField (name : String)
  | wildcard
  | filter (predicate : JsonPathPredicate)

/-- The steps of a path, the first one first. -/
def flattenPathSteps : JsonPath → List JsonPathStep
  | .root => []
  | .field parent name => flattenPathSteps parent ++ [.field name]
  | .index parent index => flattenPathSteps parent ++ [.index index]
  | .slice parent start stop => flattenPathSteps parent ++ [.slice start stop]
  | .recursiveField parent name => flattenPathSteps parent ++ [.recursiveField name]
  | .wildcard parent => flattenPathSteps parent ++ [.wildcard]
  | .filter parent predicate => flattenPathSteps parent ++ [.filter predicate]

section Predicate

/-- `f64::EPSILON`. -/
def epsilon : Float := 2.220446049250313e-16

def compareNumbers (a : Float) (op : CompareOp) (b : Float) : Bool :=
  match op with
  | .eq => (a - b).abs < epsilon
  | .ne => (a - b).abs ≥ epsilon
  | .lt => a < b
  | .le => a ≤ b
  | .gt => a > b
  | .ge => a ≥ b

def compareStrings (a : String) (op : CompareOp) (b : String) : Bool :=
  match op with
  | .eq => a == b
  | .ne => a != b
  | .lt => a < b
  | .le => a ≤ b
  | .gt => a > b
  | .ge => a ≥ b

def compareValues (actual : JsonbValue) (op : CompareOp) (expected : PredicateValue) : Bool :=
  match actual, expected with
  | .null, .null => op = .eq
  | .bool a, .bool b =>
    match op with
    | .eq => a == b
    | .ne => a != b
    | _ => false
  | .number a, .number b => compareNumbers a op b
  | .string a, .string b => compareStrings a op b
  | _, _ => false

def evalPredicate (value : JsonbValue) : JsonPathPredicate → Bool
  | .exists field =>
    match value.asObject with
    | some obj => obj.containsKey field
    | none => false
  | .compare field op expected =>
    match value.asObject.bind (·.get field) with
    | some actual => compareValues actual op expected
    | none => false
  | .and left right => evalPredicate value left && evalPredicate value right
  | .or left right => evalPredicate value left || evalPredicate value right
  | .not inner => !evalPredicate value inner

end Predicate

/-- What a path selects of a value, whatever the order. The bounds of a slice need not be
ordered: one that ends before it starts selects nothing. -/
inductive Selects (value : JsonbValue) : JsonPath → JsonbValue → Prop
  | root : Selects value .root value
  | field {parent : JsonPath} {obj : JsonbObject} {name : String} {item : JsonbValue}
      (parent_selects : Selects value parent (.object obj)) (get : obj.get name = some item) :
      Selects value (.field parent name) item
  | index {parent : JsonPath} {items : List JsonbValue} {index : Nat} {item : JsonbValue}
      (parent_selects : Selects value parent (.array items)) (get : items[index]? = some item) :
      Selects value (.index parent index) item
  | slice {parent : JsonPath} {items : List JsonbValue} {start stop : Option Nat} {index : Nat}
      {item : JsonbValue} (parent_selects : Selects value parent (.array items))
      (start_le : start.getD 0 ≤ index) (lt_stop : index < stop.getD items.length)
      (get : items[index]? = some item) : Selects value (.slice parent start stop) item
  | recursiveField {parent : JsonPath} {ancestor item : JsonbValue} {obj : JsonbObject}
      {name : String} (parent_selects : Selects value parent ancestor)
      (within : JsonbValue.Within (.object obj) ancestor) (get : obj.get name = some item) :
      Selects value (.recursiveField parent name) item
  | wildcardItem {parent : JsonPath} {items : List JsonbValue} {item : JsonbValue}
      (parent_selects : Selects value parent (.array items)) (mem : item ∈ items) :
      Selects value (.wildcard parent) item
  | wildcardEntry {parent : JsonPath} {obj : JsonbObject} {item : JsonbValue}
      (parent_selects : Selects value parent (.object obj)) (mem : item ∈ obj.values) :
      Selects value (.wildcard parent) item
  | filter {parent : JsonPath} {items : List JsonbValue} {predicate : JsonPathPredicate}
      {item : JsonbValue} (parent_selects : Selects value parent (.array items))
      (mem : item ∈ items) (holds : evalPredicate item predicate = true) :
      Selects value (.filter parent predicate) item

/-- No slice of the path meets an array in which it ends before it starts; the end that is
left out is the end of the array. -/
def SlicesOrdered (value : JsonbValue) : JsonPath → Prop
  | .root => True
  | .slice parent start stop =>
    SlicesOrdered value parent ∧
      ∀ items, Selects value parent (.array items) → start.getD 0 ≤ stop.getD items.length
  | .field parent _ | .index parent _ | .recursiveField parent _ | .wildcard parent
  | .filter parent _ => SlicesOrdered value parent

end Cynos.Jsonb
