import Mathlib.Data.List.Infix
import Cynos.Query.Expr
import Cynos.Jsonb.SimplePath
import Cynos.Jsonb.PathEval

/-! Evaluation as it runs, with the operations that panic: a remainder or a negation without
a result in the type, and a slice of a path that ends before it starts. -/
namespace Cynos.Query

open Core Jsonb

/-- What evaluation calls outside of the evaluator. -/
structure CheckedFunctions where
  toUppercase : String → String
  toLowercase : String → String
  matchRegexPattern : String → String → Bool
  chars : CharClasses
  parseJsonBytes : Core.JsonbValue → Option Jsonb.JsonbValue
  stringifyForContains : Jsonb.JsonbValue → String
  rawEq : Core.JsonbValue → SimpleJsonPath → Value Scalar → Bool
  rawContains : Core.JsonbValue → SimpleJsonPath → Value Scalar → Bool
  rawExists : Core.JsonbValue → SimpleJsonPath → Bool

section JsonFunctions

variable (functions : CheckedFunctions)

def compareJsonbValue (jsonb : Jsonb.JsonbValue) (value : Value Scalar) : Bool :=
  match jsonb, value with
  | .null, none => true
  | .bool a, some (.boolean b) => a == b
  | .number a, some (.int32 b) => (a - b.toFloat).abs < epsilon
  | .number a, some (.int64 b) => (a - b.toFloat).abs < epsilon
  | .number a, some (.float64 b) => (a - b).abs < epsilon
  | .string a, some (.string b) => a == b
  | _, _ => false

def containsJsonbValue (jsonb : Jsonb.JsonbValue) (value : Value Scalar) : Bool :=
  match value with
  | some (.string needle) =>
    decide (needle.toList <:+: (functions.stringifyForContains jsonb).toList)
  | _ => compareJsonbValue jsonb value

/-- The three JSON functions: a simple path is followed on the raw text, and of any other one
the results on the parsed value are tested. -/
def onJsonPath (jsonb : Core.JsonbValue) (path : String) (raw : SimpleJsonPath → Bool)
    (test : List Jsonb.JsonbValue → Bool) : Option (Value Scalar) :=
  match SimpleJsonPath.parse functions.chars path with
  | some simple => some (Value.boolean (raw simple))
  | none =>
    match functions.parseJsonBytes jsonb with
    | none => some (Value.boolean false)
    | some json =>
      match JsonPath.parse functions.chars path with
      | .error _ => some (Value.boolean false)
      | .ok jsonPath => (json.query jsonPath).map fun results => Value.boolean (test results)

def tryJsonbPathEq (jsonb : Core.JsonbValue) (path : String) (expected : Value Scalar) :
    Option (Value Scalar) :=
  onJsonPath functions jsonb path (functions.rawEq jsonb · expected) fun results =>
    results.head?.any (compareJsonbValue · expected)

def tryJsonbContains (jsonb : Core.JsonbValue) (path : String) (expected : Value Scalar) :
    Option (Value Scalar) :=
  onJsonPath functions jsonb path (functions.rawContains jsonb · expected) fun results =>
    results.head?.any (containsJsonbValue functions · expected)

def tryJsonbPathExists (jsonb : Core.JsonbValue) (path : String) : Option (Value Scalar) :=
  onJsonPath functions jsonb path (functions.rawExists jsonb) fun results => !results.isEmpty

/-- The functions of the evaluator that does not stop at an overflow. -/
def CheckedFunctions.total : Functions where
  toUppercase := functions.toUppercase
  toLowercase := functions.toLowercase
  matchRegexPattern := functions.matchRegexPattern
  jsonbPathEq jsonb path expected := (tryJsonbPathEq functions jsonb path expected).getD none
  jsonbContains jsonb path expected := (tryJsonbContains functions jsonb path expected).getD none
  jsonbPathExists jsonb path := (tryJsonbPathExists functions jsonb path).getD none
  jsonPathParses path := (SimpleJsonPath.parse functions.chars path).isSome
  rawJsonEqValue jsonb path expected :=
    (SimpleJsonPath.parse functions.chars path).any (functions.rawEq jsonb · expected)
  rawJsonContainsValue jsonb path expected :=
    (SimpleJsonPath.parse functions.chars path).any (functions.rawContains jsonb · expected)
  rawJsonExists jsonb path :=
    (SimpleJsonPath.parse functions.chars path).any (functions.rawExists jsonb)

end JsonFunctions

section Operators

/-- `a % b` for a `b` that is not zero panics where the quotient does not fit. -/
def remOverflows (left right : Value Scalar) : Bool :=
  match left, right with
  | some (.int64 a), some (.int64 b) => a == Int64.minValue && b == -1
  | some (.int32 a), some (.int32 b) => a == Int32.minValue && b == -1
  | _, _ => false

def tryBinaryOp (op : BinaryOp) (left right : Value Scalar) : Option (Value Scalar) :=
  if op = .mod ∧ remOverflows left right then none else some (evalBinaryOp op left right)

/-- The smallest integer has no negation and no absolute value. -/
def negOverflows (value : Value Scalar) : Bool :=
  match value with
  | some (.int64 i) => i == Int64.minValue
  | some (.int32 i) => i == Int32.minValue
  | _ => false

def tryUnaryOp (op : UnaryOp) (value : Value Scalar) : Option (Value Scalar) :=
  if op = .neg ∧ negOverflows value then none else some (evalUnaryOp op value)

variable (functions : CheckedFunctions)

def tryFunction (name : String) (args : List (Value Scalar)) : Option (Value Scalar) :=
  let upper := functions.total.uppercase name
  if upper = "ABS" then
    if args.head?.any negOverflows then none else some (evalFunction functions.total name args)
  else if upper = "JSONB_PATH_EQ" then
    match args with
    | some (.jsonb jsonb) :: some (.string path) :: expected :: _ =>
      tryJsonbPathEq functions jsonb path expected
    | _ => some (Value.boolean false)
  else if upper = "JSONB_CONTAINS" then
    match args with
    | some (.jsonb jsonb) :: some (.string path) :: expected :: _ =>
      tryJsonbContains functions jsonb path expected
    | _ => some (Value.boolean false)
  else if upper = "JSONB_EXISTS" then
    match args with
    | some (.jsonb jsonb) :: some (.string path) :: _ => tryJsonbPathExists functions jsonb path
    | _ => some (Value.boolean false)
  else some (evalFunction functions.total name args)

end Operators

section Eval

variable (functions : CheckedFunctions) (get : Nat → Option (Value Scalar))
  (ctx : Option EvalContext)

/-- Both patterns, with the answer for a value that is no text. -/
def evalPattern (matches' : String → Bool) (other : Bool) (value : Value Scalar) : Value Scalar :=
  match value with
  | some (.string s) => Value.boolean (matches' s)
  | _ => Value.boolean other

mutual

/-- `none` is a panic. -/
def tryAccessorExpr : Expr → Option (Value Scalar)
  | .column col => some (evalColumn get ctx col)
  | .literal value => some value
  | .binaryOp left op right => do
    let left ← tryAccessorExpr left
    let right ← tryAccessorExpr right
    tryBinaryOp op left right
  | .unaryOp op expr => do tryUnaryOp op (← tryAccessorExpr expr)
  | .aggregate _ none _ => some (some (.int64 1))
  | .aggregate _ (some expr) _ => tryAccessorExpr expr
  | .between expr low high => do
    let value ← tryAccessorExpr expr
    let low ← tryAccessorExpr low
    let high ← tryAccessorExpr high
    return Value.boolean (Value.ge value low && Value.le value high)
  | .notBetween expr low high => do
    let value ← tryAccessorExpr expr
    let low ← tryAccessorExpr low
    let high ← tryAccessorExpr high
    return Value.boolean (Value.lt value low || Value.gt value high)
  | .in expr list => do
    let value ← tryAccessorExpr expr
    return Value.boolean (← tryAny value list)
  | .notIn expr list => do
    let value ← tryAccessorExpr expr
    return Value.boolean !(← tryAny value list)
  | .like expr pattern => do
    return evalPattern (matchLikePattern · pattern) false (← tryAccessorExpr expr)
  | .notLike expr pattern => do
    return evalPattern (!matchLikePattern · pattern) true (← tryAccessorExpr expr)
  | .match expr pattern => do
    return evalPattern (functions.matchRegexPattern · pattern) false (← tryAccessorExpr expr)
  | .notMatch expr pattern => do
    return evalPattern (!functions.matchRegexPattern · pattern) true (← tryAccessorExpr expr)
  | .function name args => do tryFunction functions name (← tryAccessorExprs args)

/-- The list of IN, up to the first item that equals the value. -/
def tryAny (value : Value Scalar) : List Expr → Option Bool
  | [] => some false
  | expr :: exprs => do
    let item ← tryAccessorExpr expr
    if Value.eq item value then return true else tryAny value exprs

def tryAccessorExprs : List Expr → Option (List (Value Scalar))
  | [] => some []
  | expr :: exprs => do
    let value ← tryAccessorExpr expr
    let values ← tryAccessorExprs exprs
    return value :: values

end

end Eval

section Representable

variable (functions : CheckedFunctions)

/-- A path that is followed on the parsed value slices nothing from behind its end. -/
def PathRepresentable (jsonb : Core.JsonbValue) (path : String) : Prop :=
  SimpleJsonPath.parse functions.chars path = none →
    ∀ json jsonPath, functions.parseJsonBytes jsonb = some json →
      JsonPath.parse functions.chars path = .ok jsonPath → SlicesOrdered json jsonPath

/-- The document and the path that a JSON function gets, when it gets enough arguments. -/
def pathArguments (arity : Nat) (args : List (Value Scalar)) : Option (Core.JsonbValue × String) :=
  match args with
  | some (.jsonb jsonb) :: some (.string path) :: rest =>
    if arity ≤ rest.length + 2 then some (jsonb, path) else none
  | _ => none

def jsonArity (name : String) : Option Nat :=
  if name = "JSONB_PATH_EQ" ∨ name = "JSONB_CONTAINS" then some 3
  else if name = "JSONB_EXISTS" then some 2
  else none

def FunctionRepresentable (name : String) (args : List (Value Scalar)) : Prop :=
  (functions.total.uppercase name = "ABS" → args.head?.any negOverflows = false) ∧
    ∀ arity ∈ jsonArity (functions.total.uppercase name),
      ∀ call ∈ pathArguments arity args, PathRepresentable functions call.1 call.2

theorem query_isSome_iff {json : Jsonb.JsonbValue} {path : JsonPath} :
    (json.query path).isSome ↔ SlicesOrdered json path := by
  rw [slicesOrdered_iff, Option.isSome_iff_exists]
  constructor
  · rintro ⟨results, hquery⟩
    exact ((evalPath_eq_some path).mp hquery).1
  · exact fun h => ⟨_, (evalPath_eq_some path).mpr ⟨h, rfl⟩⟩

theorem onJsonPath_isSome_iff {jsonb : Core.JsonbValue} {path : String}
    {raw : SimpleJsonPath → Bool} {test : List Jsonb.JsonbValue → Bool} :
    (onJsonPath functions jsonb path raw test).isSome ↔ PathRepresentable functions jsonb path := by
  unfold onJsonPath PathRepresentable
  cases SimpleJsonPath.parse functions.chars path with
  | some simple => simp
  | none =>
    cases functions.parseJsonBytes jsonb with
    | none => simp
    | some json =>
      cases JsonPath.parse functions.chars path with
      | error e => simp
      | ok jsonPath => simp [query_isSome_iff]

theorem eq_some_iff_getD {α : Type} {run : Option α} {default value : α} :
    run = some value ↔ run.isSome ∧ value = run.getD default := by
  cases run <;> simp [eq_comm]

variable {functions} {name : String} {args : List (Value Scalar)} {value : Value Scalar}

theorem tryBinaryOp_eq_some_iff {op : BinaryOp} {left right : Value Scalar} :
    tryBinaryOp op left right = some value ↔
      (op = .mod → remOverflows left right = false) ∧ value = evalBinaryOp op left right := by
  unfold tryBinaryOp
  by_cases h : op = .mod ∧ remOverflows left right
  · simp [h]
  · rw [if_neg h, Option.some.injEq, eq_comm, iff_and_self]
    exact fun _ hop => Bool.eq_false_iff.mpr fun hrem => h ⟨hop, hrem⟩

theorem tryUnaryOp_eq_some_iff {op : UnaryOp} {operand : Value Scalar} :
    tryUnaryOp op operand = some value ↔
      (op = .neg → negOverflows operand = false) ∧ value = evalUnaryOp op operand := by
  unfold tryUnaryOp
  by_cases h : op = .neg ∧ negOverflows operand
  · simp [h]
  · rw [if_neg h, Option.some.injEq, eq_comm, iff_and_self]
    exact fun _ hop => Bool.eq_false_iff.mpr fun hneg => h ⟨hop, hneg⟩

/-- A JSON function that gets no document and path answers no. -/
theorem evalFunction_of_noPath {total : Functions} {arity : Nat}
    (hname : jsonArity (total.uppercase name) = some arity) (h : pathArguments arity args = none) :
    evalFunction total name args = Value.boolean false := by
  unfold evalFunction
  unfold jsonArity at hname
  generalize total.uppercase name = upper at hname ⊢
  split_ifs at hname with hthree htwo
  · obtain rfl := Option.some.inj hname
    rcases hthree with rfl | rfl <;>
      rcases args with _ | ⟨_ | (_ | _ | _ | _ | _ | _ | _ | _),
        _ | ⟨_ | (_ | _ | _ | _ | _ | _ | _ | _), _ | ⟨_, _⟩⟩⟩ <;> first | rfl | cases h
  · obtain rfl := Option.some.inj hname
    subst htwo
    rcases args with _ | ⟨_ | (_ | _ | _ | _ | _ | _ | _ | _),
      _ | ⟨_ | (_ | _ | _ | _ | _ | _ | _ | _), _⟩⟩ <;> first | rfl | cases h

/-- Nor does it run. -/
theorem tryFunction_of_noPath {arity : Nat}
    (hname : jsonArity (functions.total.uppercase name) = some arity)
    (h : pathArguments arity args = none) :
    tryFunction functions name args = some (Value.boolean false) := by
  unfold tryFunction
  unfold jsonArity at hname
  generalize functions.total.uppercase name = upper at hname ⊢
  split_ifs at hname with hthree htwo
  · obtain rfl := Option.some.inj hname
    rcases hthree with rfl | rfl <;>
      rcases args with _ | ⟨_ | (_ | _ | _ | _ | _ | _ | _ | _),
        _ | ⟨_ | (_ | _ | _ | _ | _ | _ | _ | _), _ | ⟨_, _⟩⟩⟩ <;> first | rfl | cases h
  · obtain rfl := Option.some.inj hname
    subst htwo
    rcases args with _ | ⟨_ | (_ | _ | _ | _ | _ | _ | _ | _),
      _ | ⟨_ | (_ | _ | _ | _ | _ | _ | _ | _), _⟩⟩ <;> first | rfl | cases h

theorem args_of_pathArguments {arity : Nat} {call : Core.JsonbValue × String}
    (h : pathArguments arity args = some call) :
    ∃ rest, args = some (.jsonb call.1) :: some (.string call.2) :: rest ∧
      arity ≤ rest.length + 2 := by
  unfold pathArguments at h
  split at h
  · split at h
    · rename_i hrest
      obtain rfl := Option.some.inj h
      exact ⟨_, rfl, hrest⟩
    · cases h
  · cases h

/-- A JSON function that gets a document and a path follows the path. -/
theorem tryFunction_of_path {arity : Nat} {call : Core.JsonbValue × String}
    (hname : jsonArity (functions.total.uppercase name) = some arity)
    (h : pathArguments arity args = some call) :
    ((tryFunction functions name args).isSome ↔ PathRepresentable functions call.1 call.2) ∧
      evalFunction functions.total name args = (tryFunction functions name args).getD none := by
  obtain ⟨rest, rfl, hrest⟩ := args_of_pathArguments h
  unfold tryFunction evalFunction
  unfold jsonArity at hname
  generalize functions.total.uppercase name = upper at hname ⊢
  split_ifs at hname with hthree htwo
  · obtain rfl := Option.some.inj hname
    cases rest with
    | nil => simp at hrest
    | cons expected rest =>
      rcases hthree with rfl | rfl
      · exact ⟨onJsonPath_isSome_iff functions, rfl⟩
      · exact ⟨onJsonPath_isSome_iff functions, rfl⟩
  · subst htwo
    exact ⟨onJsonPath_isSome_iff functions, rfl⟩

/-- A function returns what it computes, just when that is representable. -/
theorem tryFunction_eq_some_iff :
    tryFunction functions name args = some value ↔
      FunctionRepresentable functions name args ∧
        value = evalFunction functions.total name args := by
  unfold FunctionRepresentable
  cases hname : jsonArity (functions.total.uppercase name) with
  | some arity =>
    have habs : functions.total.uppercase name ≠ "ABS" := by
      intro habs
      rw [habs] at hname
      cases hname
    simp only [habs, false_implies, true_and, Option.mem_def, Option.some.injEq, forall_eq']
    cases hcall : pathArguments arity args with
    | none =>
      rw [tryFunction_of_noPath hname hcall, evalFunction_of_noPath hname hcall]
      simp [eq_comm]
    | some call =>
      obtain ⟨hsome, heval⟩ := tryFunction_of_path hname hcall
      simp only [Option.some.injEq, forall_eq']
      rw [← hsome, heval]
      exact eq_some_iff_getD
  | none =>
    have hnot : functions.total.uppercase name ≠ "JSONB_PATH_EQ" ∧
        functions.total.uppercase name ≠ "JSONB_CONTAINS" ∧
        functions.total.uppercase name ≠ "JSONB_EXISTS" := by
      refine ⟨fun heq => ?_, fun heq => ?_, fun heq => ?_⟩ <;> simp [jsonArity, heq] at hname
    simp only [tryFunction, hnot, ↓reduceIte, Option.mem_def, reduceCtorEq, false_implies,
      implies_true, and_true]
    by_cases h : functions.total.uppercase name = "ABS" ∧ args.head?.any negOverflows = true
    · simp [h]
    · by_cases habs : functions.total.uppercase name = "ABS"
      · have hneg : args.head?.any negOverflows = false :=
          Bool.eq_false_iff.mpr fun hneg => h ⟨habs, hneg⟩
        simp only [habs, hneg, Bool.false_eq_true, ↓reduceIte, forall_const, true_and,
          Option.some.injEq]
        exact eq_comm
      · simp only [habs, ↓reduceIte, false_implies, true_and, Option.some.injEq]
        exact eq_comm

end Representable

section Run

variable (functions : CheckedFunctions) (get : Nat → Option (Value Scalar))
  (ctx : Option EvalContext)

/-- The value of an expression where an integer that overflows wraps around. -/
abbrev valueOf (expr : Expr) : Value Scalar := evalAccessorExpr functions.total get ctx expr

mutual

/-- Every operation that evaluation comes to has a representable result. -/
def Representable : Expr → Prop
  | .column _ | .literal _ | .aggregate _ none _ => True
  | .binaryOp left op right =>
    (Representable left ∧ Representable right) ∧
      (op = .mod → remOverflows (valueOf functions get ctx left) (valueOf functions get ctx right) =
        false)
  | .unaryOp op expr =>
    Representable expr ∧ (op = .neg → negOverflows (valueOf functions get ctx expr) = false)
  | .aggregate _ (some expr) _ | .like expr _ | .notLike expr _ | .match expr _
  | .notMatch expr _ => Representable expr
  | .between expr low high | .notBetween expr low high =>
    Representable expr ∧ Representable low ∧ Representable high
  | .in expr list | .notIn expr list =>
    Representable expr ∧ RepresentableUntil (valueOf functions get ctx expr) list
  | .function name args =>
    RepresentableAll args ∧
      FunctionRepresentable functions name (evalAccessorExprs functions.total get ctx args)

/-- The items of a list up to the first one that equals the value. -/
def RepresentableUntil (value : Value Scalar) : List Expr → Prop
  | [] => True
  | expr :: exprs =>
    Representable expr ∧
      (Value.eq (valueOf functions get ctx expr) value = false → RepresentableUntil value exprs)

def RepresentableAll : List Expr → Prop
  | [] => True
  | expr :: exprs => Representable expr ∧ RepresentableAll exprs

end

variable {functions get ctx}

theorem bind_eq_some_iff_of {α β : Type} {run : Option α} {next : α → Option β} {ok : Prop}
    {a : α} {b : β} (h : ∀ v, run = some v ↔ ok ∧ v = a) :
    (run >>= next) = some b ↔ ok ∧ next a = some b := by
  rw [Option.bind_eq_bind, Option.bind_eq_some_iff]
  constructor
  · rintro ⟨v, hrun, hnext⟩
    obtain ⟨hok, rfl⟩ := (h v).mp hrun
    exact ⟨hok, hnext⟩
  · exact fun ⟨hok, hnext⟩ => ⟨a, (h a).mpr ⟨hok, rfl⟩, hnext⟩

theorem pure_eq_some_iff {α : Type} {a b : α} : (pure a : Option α) = some b ↔ b = a := by
  rw [Option.pure_def, Option.some.injEq, eq_comm]

mutual

/-- Evaluation returns the value, just when every operation it comes to is representable. -/
theorem tryAccessorExpr_eq_some_iff (expr : Expr) (value : Value Scalar) :
    tryAccessorExpr functions get ctx expr = some value ↔
      Representable functions get ctx expr ∧ value = valueOf functions get ctx expr := by
  cases expr with
  | column col =>
    rw [tryAccessorExpr, Representable, true_and, Option.some.injEq, eq_comm, valueOf,
      evalAccessorExpr]
  | literal literal =>
    rw [tryAccessorExpr, Representable, true_and, Option.some.injEq, eq_comm, valueOf,
      evalAccessorExpr]
  | binaryOp left op right =>
    rw [tryAccessorExpr, bind_eq_some_iff_of (tryAccessorExpr_eq_some_iff left),
      bind_eq_some_iff_of (tryAccessorExpr_eq_some_iff right), tryBinaryOp_eq_some_iff,
      Representable]
    simp only [valueOf, evalAccessorExpr]
    tauto
  | unaryOp op expr =>
    rw [tryAccessorExpr, bind_eq_some_iff_of (tryAccessorExpr_eq_some_iff expr),
      tryUnaryOp_eq_some_iff, Representable]
    simp only [valueOf, evalAccessorExpr]
    tauto
  | aggregate func expr distinct =>
    cases expr with
    | none =>
      rw [tryAccessorExpr, Representable, valueOf, evalAccessorExpr, true_and]
      exact ⟨fun h => (Option.some.inj h).symm, fun h => congrArg some h.symm⟩
    | some expr =>
      rw [tryAccessorExpr, Representable, valueOf, evalAccessorExpr]
      exact tryAccessorExpr_eq_some_iff expr value
  | between expr low high =>
    rw [tryAccessorExpr, bind_eq_some_iff_of (tryAccessorExpr_eq_some_iff expr),
      bind_eq_some_iff_of (tryAccessorExpr_eq_some_iff low),
      bind_eq_some_iff_of (tryAccessorExpr_eq_some_iff high), pure_eq_some_iff, Representable]
    simp only [valueOf, evalAccessorExpr]
    tauto
  | notBetween expr low high =>
    rw [tryAccessorExpr, bind_eq_some_iff_of (tryAccessorExpr_eq_some_iff expr),
      bind_eq_some_iff_of (tryAccessorExpr_eq_some_iff low),
      bind_eq_some_iff_of (tryAccessorExpr_eq_some_iff high), pure_eq_some_iff, Representable]
    simp only [valueOf, evalAccessorExpr]
    tauto
  | «in» expr list =>
    rw [tryAccessorExpr, bind_eq_some_iff_of (tryAccessorExpr_eq_some_iff expr),
      bind_eq_some_iff_of (tryAny_eq_some_iff _ list), pure_eq_some_iff, Representable]
    simp only [valueOf, evalAccessorExpr]
    tauto
  | notIn expr list =>
    rw [tryAccessorExpr, bind_eq_some_iff_of (tryAccessorExpr_eq_some_iff expr),
      bind_eq_some_iff_of (tryAny_eq_some_iff _ list), pure_eq_some_iff, Representable]
    simp only [valueOf, evalAccessorExpr]
    tauto
  | like expr pattern =>
    rw [tryAccessorExpr, bind_eq_some_iff_of (tryAccessorExpr_eq_some_iff expr),
      pure_eq_some_iff, Representable]
    simp only [valueOf, evalAccessorExpr]
    rfl
  | notLike expr pattern =>
    rw [tryAccessorExpr, bind_eq_some_iff_of (tryAccessorExpr_eq_some_iff expr),
      pure_eq_some_iff, Representable]
    simp only [valueOf, evalAccessorExpr]
    rfl
  | «match» expr pattern =>
    rw [tryAccessorExpr, bind_eq_some_iff_of (tryAccessorExpr_eq_some_iff expr),
      pure_eq_some_iff, Representable]
    simp only [valueOf, evalAccessorExpr]
    rfl
  | notMatch expr pattern =>
    rw [tryAccessorExpr, bind_eq_some_iff_of (tryAccessorExpr_eq_some_iff expr),
      pure_eq_some_iff, Representable]
    simp only [valueOf, evalAccessorExpr]
    rfl
  | function name args =>
    rw [tryAccessorExpr, bind_eq_some_iff_of (tryAccessorExprs_eq_some_iff args),
      tryFunction_eq_some_iff, Representable]
    simp only [valueOf, evalAccessorExpr]
    tauto

theorem tryAny_eq_some_iff (value : Value Scalar) (list : List Expr) (found : Bool) :
    tryAny functions get ctx value list = some found ↔
      RepresentableUntil functions get ctx value list ∧
        found = (evalAccessorExprs functions.total get ctx list).any fun item =>
          Value.eq item value := by
  cases list with
  | nil => simp [tryAny, RepresentableUntil, evalAccessorExprs, eq_comm]
  | cons expr exprs =>
    rw [tryAny, bind_eq_some_iff_of (tryAccessorExpr_eq_some_iff expr), RepresentableUntil,
      evalAccessorExprs, List.any_cons]
    cases hitem : Value.eq (valueOf functions get ctx expr) value with
    | true => simp [eq_comm]
    | false =>
      rw [if_neg Bool.false_ne_true, tryAny_eq_some_iff value exprs found, Bool.false_or]
      tauto

theorem tryAccessorExprs_eq_some_iff (exprs : List Expr) (values : List (Value Scalar)) :
    tryAccessorExprs functions get ctx exprs = some values ↔
      RepresentableAll functions get ctx exprs ∧
        values = evalAccessorExprs functions.total get ctx exprs := by
  cases exprs with
  | nil => simp [tryAccessorExprs, RepresentableAll, evalAccessorExprs, eq_comm]
  | cons expr exprs =>
    rw [tryAccessorExprs, bind_eq_some_iff_of (tryAccessorExpr_eq_some_iff expr),
      bind_eq_some_iff_of (tryAccessorExprs_eq_some_iff exprs), pure_eq_some_iff,
      RepresentableAll, evalAccessorExprs]
    tauto

end

end Run

end Cynos.Query
