import Cynos.Query.Expr

/-! Compiled row predicates: comparisons of a column with literals go through kernels
that are chosen by the types of the literals, everything else is evaluated. -/
namespace Cynos.Query

open Core

inductive ComparisonOp where
  | eq
  | ne
  | lt
  | le
  | gt
  | ge
  deriving DecidableEq

inductive NumericLiteral where
  | int32 (value : Int32)
  | int64 (value : Int64)
  | float64 (value : Float)

inductive SimplePredicateKernel where
  | generic
  | numeric (op : ComparisonOp) (literal : NumericLiteral)
  | boolean (op : ComparisonOp) (literal : Bool)
  | string (op : ComparisonOp) (literal : String)
  | dateTime (op : ComparisonOp) (literal : Int64)
  | bytes (op : ComparisonOp) (literal : List UInt8)
  | jsonb (op : ComparisonOp) (literal : List UInt8)

structure SimpleBinaryPredicate where
  columnIndex : Nat
  op : BinaryOp
  literal : Value Scalar
  columnOnLeft : Bool
  kernel : SimplePredicateKernel

inductive BetweenPredicateKernel where
  | generic (low high : Value Scalar)
  | numeric (low high : NumericLiteral)
  | boolean (low high : Bool)
  | string (low high : String)
  | dateTime (low high : Int64)
  | bytes (low high : List UInt8)
  | jsonb (low high : List UInt8)

inductive InListPredicateKernel where
  | empty
  | nullOnly
  | numeric (int32Literals : List Int32) (int64Literals : List Int64)
      (float64Literals : List Float) (containsNull : Bool)
  | boolean (literals : List Bool) (containsNull : Bool)
  | string (literals : List String) (containsNull : Bool)
  | dateTime (literals : List Int64) (containsNull : Bool)
  | bytes (literals : List (List UInt8)) (containsNull : Bool)
  | jsonb (literals : List (List UInt8)) (containsNull : Bool)
  | generic (literals : List (Value Scalar))

inductive InListKernelFamily where
  | numeric
  | boolean
  | string
  | dateTime
  | bytes
  | jsonb
  deriving DecidableEq

inductive LikePatternKernel where
  | exact (pattern : String)
  | startsWith (pattern : String)
  | endsWith (pattern : String)
  | contains (pattern : String)
  | generic (pattern : String)

inductive CompiledJsonPredicateKind where
  | eq (expected : Value Scalar)
  | contains (expected : Value Scalar)
  | exists

structure CompiledJsonPredicate where
  columnIndex : Nat
  path : String
  kind : CompiledJsonPredicateKind

inductive PredicateValueState where
  | null
  | boolean (value : Bool)
  | other
  deriving DecidableEq

inductive CompiledRowPredicate where
  | literal (value : PredicateValueState)
  | comparison (predicate : SimpleBinaryPredicate)
  | json (predicate : CompiledJsonPredicate)
  | and (predicates : List CompiledRowPredicate)
  | or (predicates : List CompiledRowPredicate)
  | not (predicate : CompiledRowPredicate)
  | isNull (columnIndex : Nat)
  | isNotNull (columnIndex : Nat)
  | between (columnIndex : Nat) (kernel : BetweenPredicateKernel) (negated : Bool)
  | inList (columnIndex : Nat) (kernel : InListPredicateKernel) (negated : Bool)
  | like (columnIndex : Nat) (pattern : LikePatternKernel) (negated : Bool)
  | match (columnIndex : Nat) (pattern : String) (negated : Bool)
  | generic (expr : Expr)

section Compile

def numericLiteral : Value Scalar → Option NumericLiteral
  | some (.int32 value) => some (.int32 value)
  | some (.int64 value) => some (.int64 value)
  | some (.float64 value) => some (.float64 value)
  | _ => none

/-- The comparison with the column on the left. -/
def normalizeComparisonOp (op : BinaryOp) (columnOnLeft : Bool) : Option ComparisonOp :=
  match op, columnOnLeft with
  | .eq, _ => some .eq
  | .ne, _ => some .ne
  | .lt, true | .gt, false => some .lt
  | .le, true | .ge, false => some .le
  | .gt, true | .lt, false => some .gt
  | .ge, true | .le, false => some .ge
  | _, _ => none

def simplePredicateKernel (op : BinaryOp) (literal : Value Scalar) (columnOnLeft : Bool) :
    SimplePredicateKernel :=
  match normalizeComparisonOp op columnOnLeft with
  | none => .generic
  | some op =>
    match numericLiteral literal with
    | some literal => .numeric op literal
    | none =>
      match literal with
      | some (.boolean value) => .boolean op value
      | some (.string value) => .string op value
      | some (.dateTime value) => .dateTime op value
      | some (.bytes value) => .bytes op value
      | some (.jsonb value) => .jsonb op value.data
      | _ => .generic

def simpleBinaryPredicate : Expr → Option SimpleBinaryPredicate
  | .binaryOp (.column column) op (.literal literal) =>
    some ⟨column.index, op, literal, true, simplePredicateKernel op literal true⟩
  | .binaryOp (.literal literal) op (.column column) =>
    some ⟨column.index, op, literal, false, simplePredicateKernel op literal false⟩
  | _ => none

def compileBetweenPredicateKernel (low high : Value Scalar) : BetweenPredicateKernel :=
  match numericLiteral low, numericLiteral high with
  | some low, some high => .numeric low high
  | _, _ =>
    match low, high with
    | some (.boolean low), some (.boolean high) => .boolean low high
    | some (.string low), some (.string high) => .string low high
    | some (.dateTime low), some (.dateTime high) => .dateTime low high
    | some (.bytes low), some (.bytes high) => .bytes low high
    | some (.jsonb low), some (.jsonb high) => .jsonb low.data high.data
    | _, _ => .generic low high

def inListKernelFamily : Scalar → InListKernelFamily
  | .int32 _ | .int64 _ | .float64 _ => .numeric
  | .boolean _ => .boolean
  | .string _ => .string
  | .dateTime _ => .dateTime
  | .bytes _ => .bytes
  | .jsonb _ => .jsonb

/-- The kernel of literals that are all of one family, besides `Null`. -/
def familyKernel (literals : List (Value Scalar)) : InListKernelFamily → InListPredicateKernel
  | .numeric => .numeric
      (literals.filterMap fun | some (.int32 value) => some value | _ => none)
      (literals.filterMap fun | some (.int64 value) => some value | _ => none)
      (literals.filterMap fun | some (.float64 value) => some value | _ => none)
      (literals.any Value.isNull)
  | .boolean => .boolean
      (literals.filterMap fun | some (.boolean value) => some value | _ => none)
      (literals.any Value.isNull)
  | .string => .string
      (literals.filterMap fun | some (.string value) => some value | _ => none)
      (literals.any Value.isNull)
  | .dateTime => .dateTime
      (literals.filterMap fun | some (.dateTime value) => some value | _ => none)
      (literals.any Value.isNull)
  | .bytes => .bytes
      (literals.filterMap fun | some (.bytes value) => some value | _ => none)
      (literals.any Value.isNull)
  | .jsonb => .jsonb
      (literals.filterMap fun | some (.jsonb value) => some value.data | _ => none)
      (literals.any Value.isNull)

def compileInListPredicateKernel (literals : List (Value Scalar)) : InListPredicateKernel :=
  if literals.isEmpty then .empty
  else
    match literals.filterMap fun literal => literal.map inListKernelFamily with
    | [] => .nullOnly
    | family :: families =>
      if families.all (· = family) then familyKernel literals family else .generic literals

def columnLiterals (list : List Expr) : Option (List (Value Scalar)) :=
  list.mapM fun
    | .literal value => some value
    | _ => none

def compileRowInList (predicate expr : Expr) (list : List Expr) (negated : Bool) :
    CompiledRowPredicate :=
  match expr with
  | .column column =>
    match columnLiterals list with
    | some literals => .inList column.index (compileInListPredicateKernel literals) negated
    | none => .generic predicate
  | _ => .generic predicate

def compileLikePattern (pattern : String) : LikePatternKernel :=
  let chars := pattern.toList
  if '_' ∈ chars then .generic pattern
  else
    let percentCount := chars.count '%'
    if percentCount = 0 then .exact pattern
    else if percentCount = 1 ∧ chars.getLast? = some '%' then
      .startsWith (String.ofList chars.dropLast)
    else if percentCount = 1 ∧ chars.head? = some '%' then .endsWith (String.ofList chars.tail)
    else if percentCount = 2 ∧ chars.head? = some '%' ∧ chars.getLast? = some '%' then
      .contains (String.ofList chars.tail.dropLast)
    else .generic pattern

def compileJsonRowPredicate (functions : Functions) (name : String) (args : List Expr) :
    Option CompiledRowPredicate :=
  match name.toUpper, args with
  | "JSONB_PATH_EQ",
      .column column :: .literal (some (.string path)) :: .literal expected :: _ =>
    if functions.jsonPathParses path then some (.json ⟨column.index, path, .eq expected⟩) else none
  | "JSONB_CONTAINS",
      .column column :: .literal (some (.string path)) :: .literal expected :: _ =>
    if functions.jsonPathParses path then some (.json ⟨column.index, path, .contains expected⟩)
    else none
  | "JSONB_EXISTS", .column column :: .literal (some (.string path)) :: _ =>
    if functions.jsonPathParses path then some (.json ⟨column.index, path, .exists⟩) else none
  | _, _ => none

/-- The operands of a chain of one operator, in order. -/
def collectLogicalTerms (op : BinaryOp) : Expr → List Expr
  | .binaryOp left innerOp right =>
    if innerOp = op then collectLogicalTerms op left ++ collectLogicalTerms op right
    else [.binaryOp left innerOp right]
  | predicate => [predicate]

/-- One term of an equality chain joins the column and the literals found so far. -/
def orEqualityTerm (found : Option Nat × List (Value Scalar)) (term : Expr) :
    Option (Option Nat × List (Value Scalar)) := do
  let predicate ← simpleBinaryPredicate term
  if (← normalizeComparisonOp predicate.op predicate.columnOnLeft) ≠ .eq then none
  else if predicate.literal.isNull then none
  else if found.1.any (· ≠ predicate.columnIndex) then none
  else some (some predicate.columnIndex,
    if found.2.any (Value.eq · predicate.literal) then found.2 else found.2 ++ [predicate.literal])

def compileOrEqualityChain (predicate : Expr) : Option CompiledRowPredicate := do
  let terms := collectLogicalTerms .or predicate
  if terms.length < 2 then none
  else
    let (columnIndex, literals) ← terms.foldlM orEqualityTerm (none, [])
    some (.inList (← columnIndex) (compileInListPredicateKernel literals) false)

def predicateValueState : Value Scalar → PredicateValueState
  | none => .null
  | some (.boolean value) => .boolean value
  | some _ => .other

variable (functions : Functions)

mutual

def pushCompiledLogicalTerms (op : BinaryOp) (predicate : Expr) : List CompiledRowPredicate :=
  match predicate with
  | .binaryOp left innerOp right =>
    if innerOp = op then
      pushCompiledLogicalTerms op left ++ pushCompiledLogicalTerms op right
    else [compileRowPredicate (.binaryOp left innerOp right)]
  | predicate => [compileRowPredicate predicate]
termination_by (sizeOf predicate, 1)

def compileRowPredicate (predicate : Expr) : CompiledRowPredicate :=
  match predicate with
  | .binaryOp left .and right =>
    .and (pushCompiledLogicalTerms .and left ++ pushCompiledLogicalTerms .and right)
  | .binaryOp left .or right =>
    match compileOrEqualityChain (.binaryOp left .or right) with
    | some compiled => compiled
    | none => .or (pushCompiledLogicalTerms .or left ++ pushCompiledLogicalTerms .or right)
  | .unaryOp .not expr => .not (compileRowPredicate expr)
  | .unaryOp .isNull (.column column) => .isNull column.index
  | .unaryOp .isNotNull (.column column) => .isNotNull column.index
  | .between (.column column) (.literal low) (.literal high) =>
    .between column.index (compileBetweenPredicateKernel low high) false
  | .notBetween (.column column) (.literal low) (.literal high) =>
    .between column.index (compileBetweenPredicateKernel low high) true
  | .in expr list => compileRowInList (.in expr list) expr list false
  | .notIn expr list => compileRowInList (.notIn expr list) expr list true
  | .like (.column column) pattern => .like column.index (compileLikePattern pattern) false
  | .notLike (.column column) pattern => .like column.index (compileLikePattern pattern) true
  | .match (.column column) pattern => .match column.index pattern false
  | .notMatch (.column column) pattern => .match column.index pattern true
  | .function name args =>
    (compileJsonRowPredicate functions name args).getD (.generic (.function name args))
  | .literal value => .literal (predicateValueState value)
  | predicate =>
    match simpleBinaryPredicate predicate with
    | some simple => .comparison simple
    | none => .generic predicate
termination_by (sizeOf predicate, 0)

end

end Compile

section Eval

def compareNumericValue (value : Value Scalar) (literal : NumericLiteral) : Option Ordering :=
  match value, literal with
  | some (.int32 value), .int32 literal => some (compare value literal)
  | some (.int32 value), .int64 literal => some (compare value.toInt64 literal)
  | some (.int32 value), .float64 literal => some (Scalar.cmpFloat value.toFloat literal)
  | some (.int64 value), .int32 literal => some (compare value literal.toInt64)
  | some (.int64 value), .int64 literal => some (compare value literal)
  | some (.int64 value), .float64 literal => some (Scalar.cmpFloat value.toFloat literal)
  | some (.float64 value), .int32 literal => some (Scalar.cmpFloat value literal.toFloat)
  | some (.float64 value), .int64 literal => some (Scalar.cmpFloat value literal.toFloat)
  | some (.float64 value), .float64 literal => some (Scalar.cmpFloat value literal)
  | _, _ => none

def evalComparisonOp : ComparisonOp → Ordering → Bool
  | .eq, ordering => ordering == .eq
  | .ne, ordering => ordering != .eq
  | .lt, ordering => ordering == .lt
  | .le, ordering => ordering != .gt
  | .gt, ordering => ordering == .gt
  | .ge, ordering => ordering != .lt

def evalBinaryOpBool (op : BinaryOp) (left right : Value Scalar) : Bool :=
  match op with
  | .eq => Value.sqlEq left right
  | .ne => !Value.sqlEq left right
  | .lt => Value.lt left right
  | .le => Value.le left right
  | .gt => Value.gt left right
  | .ge => Value.ge left right
  | .and => Value.isTrue left && Value.isTrue right
  | .or => Value.isTrue left || Value.isTrue right
  | op => Value.isTrue (evalBinaryOp op left right)

/-- What the kernel says of a value of its own type. -/
def SimplePredicateKernel.eval (kernel : SimplePredicateKernel) (value : Value Scalar) :
    Option Bool :=
  match kernel, value with
  | .numeric op literal, value => (compareNumericValue value literal).map (evalComparisonOp op)
  | .boolean op literal, some (.boolean value) => some (evalComparisonOp op (compare value literal))
  | .string op literal, some (.string value) => some (evalComparisonOp op (compare value literal))
  | .dateTime op literal, some (.dateTime value) =>
    some (evalComparisonOp op (compare value literal))
  | .bytes op literal, some (.bytes value) => some (evalComparisonOp op (compare value literal))
  | .jsonb op literal, some (.jsonb value) =>
    some (evalComparisonOp op (compare value.data literal))
  | _, _ => none

def SimpleBinaryPredicate.holds (predicate : SimpleBinaryPredicate) (value : Value Scalar) : Bool :=
  match predicate.kernel.eval value with
  | some result => result
  | none =>
    if predicate.columnOnLeft then evalBinaryOpBool predicate.op value predicate.literal
    else evalBinaryOpBool predicate.op predicate.literal value

def evalSimpleBinaryPredicateValue (value : Value Scalar) (predicate : SimpleBinaryPredicate) :
    Bool :=
  if value.isNull || predicate.literal.isNull then false else predicate.holds value

def evalCompiledRowComparisonValue (value : Value Scalar) (predicate : SimpleBinaryPredicate) :
    PredicateValueState :=
  if value.isNull || predicate.literal.isNull then .null else .boolean (predicate.holds value)

def evalBetweenPredicateValue (value : Value Scalar) : BetweenPredicateKernel → Bool
  | .generic low high => Value.ge value low && Value.le value high
  | .numeric low high =>
    match compareNumericValue value low, compareNumericValue value high with
    | some lowOrdering, some highOrdering => lowOrdering != .lt && highOrdering != .gt
    | _, _ => false
  | .boolean low high =>
    match value with
    | some (.boolean value) => compare value low != .lt && compare value high != .gt
    | _ => false
  | .string low high =>
    match value with
    | some (.string value) => compare value low != .lt && compare value high != .gt
    | _ => false
  | .dateTime low high =>
    match value with
    | some (.dateTime value) => compare value low != .lt && compare value high != .gt
    | _ => false
  | .bytes low high =>
    match value with
    | some (.bytes value) => compare value low != .lt && compare value high != .gt
    | _ => false
  | .jsonb low high =>
    match value with
    | some (.jsonb value) => compare value.data low != .lt && compare value.data high != .gt
    | _ => false

def floatLiteralEq (value literal : Float) : Bool :=
  (value.isNaN && literal.isNaN) || value == literal

def evalInListPredicateValue (value : Value Scalar) : InListPredicateKernel → Bool
  | .empty => false
  | .nullOnly => value.isNull
  | .numeric int32Literals int64Literals float64Literals containsNull =>
    match value with
    | none => containsNull
    | some (.int32 value) => int32Literals.contains value
    | some (.int64 value) => int64Literals.contains value
    | some (.float64 value) => float64Literals.any (floatLiteralEq value)
    | _ => false
  | .boolean literals containsNull =>
    match value with
    | none => containsNull
    | some (.boolean value) => literals.contains value
    | _ => false
  | .string literals containsNull =>
    match value with
    | none => containsNull
    | some (.string value) => literals.contains value
    | _ => false
  | .dateTime literals containsNull =>
    match value with
    | none => containsNull
    | some (.dateTime value) => literals.contains value
    | _ => false
  | .bytes literals containsNull =>
    match value with
    | none => containsNull
    | some (.bytes value) => literals.contains value
    | _ => false
  | .jsonb literals containsNull =>
    match value with
    | none => containsNull
    | some (.jsonb value) => literals.contains value.data
    | _ => false
  | .generic literals => literals.any (Value.eq value)

def evalLikePattern (value : String) : LikePatternKernel → Bool
  | .exact pattern => value == pattern
  | .startsWith pattern => pattern.toList.isPrefixOf value.toList
  | .endsWith pattern => pattern.toList.isSuffixOf value.toList
  | .contains pattern => value.toList.tails.any pattern.toList.isPrefixOf
  | .generic pattern => matchLikePattern value pattern

def PredicateValueState.isTrue (state : PredicateValueState) : Bool := state = .boolean true
def PredicateValueState.isFalse (state : PredicateValueState) : Bool := state = .boolean false

def combineAnd (left right : PredicateValueState) : PredicateValueState :=
  if left = .null ∨ right = .null then
    if left.isFalse || right.isFalse then .boolean false else .null
  else .boolean (left.isTrue && right.isTrue)

def combineOr (left right : PredicateValueState) : PredicateValueState :=
  if left = .null ∨ right = .null then
    if left.isTrue || right.isTrue then .boolean true else .null
  else .boolean (left.isTrue || right.isTrue)

def PredicateValueState.not : PredicateValueState → PredicateValueState
  | .boolean value => .boolean !value
  | .null | .other => .null

variable (functions : Functions) (get : Nat → Option (Value Scalar))

def evalCompiledJsonPredicateAccessor (predicate : CompiledJsonPredicate) : PredicateValueState :=
  match get predicate.columnIndex with
  | some (some (.jsonb jsonb)) =>
    .boolean (match predicate.kind with
      | .eq expected => functions.rawJsonEqValue jsonb predicate.path expected
      | .contains expected => functions.rawJsonContainsValue jsonb predicate.path expected
      | .exists => functions.rawJsonExists jsonb predicate.path)
  | _ => .boolean false

mutual

def evalCompiledPredicateAccessor : CompiledRowPredicate → PredicateValueState
  | .literal value => value
  | .comparison predicate =>
    evalCompiledRowComparisonValue ((get predicate.columnIndex).getD none) predicate
  | .json predicate => evalCompiledJsonPredicateAccessor functions get predicate
  | .and predicates => evalAnd predicates (.boolean true)
  | .or predicates => evalOr predicates (.boolean false)
  | .not predicate => (evalCompiledPredicateAccessor predicate).not
  | .isNull columnIndex => .boolean ((get columnIndex).getD none).isNull
  | .isNotNull columnIndex => .boolean !((get columnIndex).getD none).isNull
  | .between columnIndex kernel negated =>
    .boolean ((evalBetweenPredicateValue ((get columnIndex).getD none) kernel) ^^ negated)
  | .inList columnIndex kernel negated =>
    .boolean ((evalInListPredicateValue ((get columnIndex).getD none) kernel) ^^ negated)
  | .like columnIndex pattern negated =>
    match get columnIndex with
    | some (some (.string value)) => .boolean (evalLikePattern value pattern ^^ negated)
    | _ => .boolean negated
  | .match columnIndex pattern negated =>
    match get columnIndex with
    | some (some (.string value)) =>
      .boolean (functions.matchRegexPattern value pattern ^^ negated)
    | _ => .boolean negated
  | .generic expr => predicateValueState (evalAccessorExpr functions get none expr)

/-- The loop over a conjunction; a false state ends it. -/
def evalAnd : List CompiledRowPredicate → PredicateValueState → PredicateValueState
  | [], state => state
  | predicate :: predicates, state =>
    let state := combineAnd state (evalCompiledPredicateAccessor predicate)
    if state.isFalse then state else evalAnd predicates state

/-- The loop over a disjunction; a true state ends it. -/
def evalOr : List CompiledRowPredicate → PredicateValueState → PredicateValueState
  | [], state => state
  | predicate :: predicates, state =>
    let state := combineOr state (evalCompiledPredicateAccessor predicate)
    if state.isTrue then state else evalOr predicates state

end

end Eval

end Cynos.Query
