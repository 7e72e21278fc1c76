import Cynos.Gql.Tokens

/-! The tokens that a document may be written with. -/
namespace Cynos.Gql

open Json (Numeral)

/-- Whether a number is written as a float. -/
def isFloat (n : Numeral) : Bool := n.fraction.isSome || n.exponent.isSome

/-- The integer that the digits of a number spell. -/
def intValue (n : Numeral) : Int := if n.negative then -(n.mantissa : Int) else n.mantissa

section Values

def Name.trueWord : Name :=
  ⟨'t', ['r', 'u', 'e'], rfl, List.all_eq_true.mp rfl⟩

def Name.falseWord : Name :=
  ⟨'f', ['a', 'l', 's', 'e'], rfl, List.all_eq_true.mp rfl⟩

def Name.nullWord : Name :=
  ⟨'n', ['u', 'l', 'l'], rfl, List.all_eq_true.mp rfl⟩

/-- One after the other. -/
inductive Row {A : Type} (W : A → List Token → Prop) : List A → List Token → Prop
  | nil : Row W [] []
  | cons {v : A} {vs : List A} {ts us : List Token} (h : W v ts) (hs : Row W vs us) :
      Row W (v :: vs) (ts ++ us)

/-- A name, a colon and a value. -/
inductive IsNamed (W : InputValue → List Token → Prop) : String × InputValue → List Token → Prop
  | mk {value : InputValue} {ts : List Token} (n : Name) (h : W value ts) :
      IsNamed W (n.string, value) (.name n :: .punct .colon :: ts)

inductive IsValue : InputValue → List Token → Prop
  | null : IsValue .null [.name .nullWord]
  | true : IsValue (.boolean true) [.name .trueWord]
  | false : IsValue (.boolean false) [.name .falseWord]
  | int {n : Numeral} {m : Int64} (h : isFloat n = .false) (hm : m.toInt = intValue n) :
      IsValue (.int m) [.number n]
  | float {n : Numeral} (h : isFloat n = .true) :
      IsValue (.float (Core.numeralValue n)) [.number n]
  | string (items : List StringItem) : IsValue (.string (stringValue items)) [.string items]
  | enum (n : Name) (h : n.string ≠ "true" ∧ n.string ≠ "false" ∧ n.string ≠ "null") :
      IsValue (.enum n.string) [.name n]
  | list {values : List InputValue} {ts : List Token} (h : Row IsValue values ts) :
      IsValue (.list values) (.punct .bracketOpen :: (ts ++ [.punct .bracketClose]))
  | object {fields : List (String × InputValue)} {ts : List Token}
      (h : Row (IsNamed IsValue) fields ts) :
      IsValue (.object fields) (.punct .braceOpen :: (ts ++ [.punct .braceClose]))
  | variable (n : Name) : IsValue (.variable n.string) [.punct .dollar, .name n]

end Values

section Fields

inductive IsArgument : Argument → List Token → Prop
  | mk {value : InputValue} {ts : List Token} (n : Name) (h : IsValue value ts) :
      IsArgument ⟨n.string, value⟩ (.name n :: .punct .colon :: ts)

/-- In parentheses, unless there are none. -/
inductive Enclosed {A : Type} (W : A → List Token → Prop) : List A → List Token → Prop
  | none : Enclosed W [] []
  | some {vs : List A} {ts : List Token} (h : Row W vs ts) (hne : vs ≠ []) :
      Enclosed W vs (.punct .parenOpen :: (ts ++ [.punct .parenClose]))

inductive IsDirective : Directive → List Token → Prop
  | mk {args : List Argument} {ts : List Token} (n : Name) (h : Enclosed IsArgument args ts) :
      IsDirective ⟨n.string, args⟩ (.punct .at :: .name n :: ts)

inductive IsFieldName : Option String → String → List Token → Prop
  | plain (n : Name) : IsFieldName none n.string [.name n]
  | aliased (a n : Name) : IsFieldName (some a.string) n.string [.name a, .punct .colon, .name n]

/-- A name with arguments and directives, and selections in braces, where there are any. -/
inductive IsField : Field → List Token → Prop
  | leaf {aliasName : Option String} {name : String} {args : List Argument}
      {directives : List Directive} {ts₁ ts₂ ts₃ : List Token}
      (hname : IsFieldName aliasName name ts₁) (hargs : Enclosed IsArgument args ts₂)
      (hdirectives : Row IsDirective directives ts₃) :
      IsField (.mk aliasName name args directives none) (ts₁ ++ (ts₂ ++ ts₃))
  | node {aliasName : Option String} {name : String} {args : List Argument}
      {directives : List Directive} {fields : List Field} {ts₁ ts₂ ts₃ ts₄ : List Token}
      (hname : IsFieldName aliasName name ts₁) (hargs : Enclosed IsArgument args ts₂)
      (hdirectives : Row IsDirective directives ts₃) (hfields : Row IsField fields ts₄)
      (hne : fields ≠ []) :
      IsField (.mk aliasName name args directives (some fields))
        (ts₁ ++ (ts₂ ++ (ts₃ ++ (.punct .braceOpen :: (ts₄ ++ [.punct .braceClose])))))

/-- Selections in braces. -/
inductive IsSelectionSet : SelectionSet → List Token → Prop
  | mk {fields : List Field} {ts : List Token} (h : Row IsField fields ts) (hne : fields ≠ []) :
      IsSelectionSet fields (.punct .braceOpen :: (ts ++ [.punct .braceClose]))

end Fields

section Operations

inductive IsType : TypeReference → List Token → Prop
  | named (n : Name) : IsType (.named n.string) [.name n]
  | list {inner : TypeReference} {ts : List Token} (h : IsType inner ts) :
      IsType (.list inner) (.punct .bracketOpen :: (ts ++ [.punct .bracketClose]))
  | nonNull {inner : TypeReference} {ts : List Token} (h : IsType inner ts)
      (hnullable : ∀ ty, inner ≠ .nonNull ty) : IsType (.nonNull inner) (ts ++ [.punct .bang])

inductive IsDefault : Option InputValue → List Token → Prop
  | none : IsDefault none []
  | some {value : InputValue} {ts : List Token} (h : IsValue value ts) :
      IsDefault (some value) (.punct .equals :: ts)

inductive IsVariableDefinition : VariableDefinition → List Token → Prop
  | mk {ty : TypeReference} {value : Option InputValue} {ts us : List Token} (n : Name)
      (hty : IsType ty ts) (hvalue : IsDefault value us) :
      IsVariableDefinition ⟨n.string, ty, value⟩
        (.punct .dollar :: .name n :: .punct .colon :: (ts ++ us))

def OperationType.keyword : OperationType → Name
  | .query => ⟨'q', ['u', 'e', 'r', 'y'], rfl, List.all_eq_true.mp rfl⟩
  | .mutation => ⟨'m', ['u', 't', 'a', 't', 'i', 'o', 'n'], rfl, List.all_eq_true.mp rfl⟩
  | .subscription =>
    ⟨'s', ['u', 'b', 's', 'c', 'r', 'i', 'p', 't', 'i', 'o', 'n'], rfl, List.all_eq_true.mp rfl⟩

inductive IsOperationName : Option String → List Token → Prop
  | none : IsOperationName none []
  | some (n : Name) : IsOperationName (some n.string) [.name n]

/-- A query without name and variables may leave out its keyword. -/
inductive IsOperation : OperationDefinition → List Token → Prop
  | short {fields : SelectionSet} {ts : List Token} (h : IsSelectionSet fields ts) :
      IsOperation ⟨.query, none, [], fields⟩ ts
  | keyword {name : Option String} {definitions : List VariableDefinition} {fields : SelectionSet}
      {ts₁ ts₂ ts₃ : List Token} (kind : OperationType) (hname : IsOperationName name ts₁)
      (hdefinitions : Enclosed IsVariableDefinition definitions ts₂)
      (hfields : IsSelectionSet fields ts₃) :
      IsOperation ⟨kind, name, definitions, fields⟩ (.name kind.keyword :: (ts₁ ++ (ts₂ ++ ts₃)))

structure IsDocument (document : Document) (ts : List Token) : Prop where
  operations : Row IsOperation document.operations ts
  nonempty : document.operations ≠ []

/-- A text of a document, where lines end as `lineEnd` says. -/
def Writes (lineEnd : Char → Bool) (document : Document) (text : List Char) : Prop :=
  ∃ ts, IsDocument document ts ∧ Laid lineEnd ts text

end Operations

end Cynos.Gql
