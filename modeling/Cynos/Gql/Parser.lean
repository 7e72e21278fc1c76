import Cynos.Core.ParseF64
import Cynos.Gql.Ast
import Cynos.Lib.Cursor

/-! The parser of documents. -/
namespace Cynos.Gql

open Core (isWhitespace parseF64 parseI64)
open Cursor (advanceChar captured collect fail isEof outOfFuel peekChar position skipWhile)

abbrev Parser := Cursor.Parser GqlError

section Lexer

def syntaxError {A : Type} (message : String) : Parser A := do
  fail ⟨.syntaxError, message ++ " at offset " ++ toString (← position)⟩

def isIgnored (ch : Char) : Bool := isWhitespace ch || ch == ','

/-- The rest of a comment, up to the line feed that ends it. -/
def skipLine : Parser (List Unit) := collect do
  match ← advanceChar with
  | some ch => return if ch = '\n' then none else some ()
  | none => return none

def skipIgnored : Parser (List Unit) := collect do
  let _ ← skipWhile isIgnored
  if (← peekChar) = some '#' then do
    let _ ← skipLine
    return some ()
  else return none

def expectChar (expected : Char) : Parser Unit := do
  let _ ← skipIgnored
  match ← advanceChar with
  | some ch =>
    if ch = expected then return ()
    else
      fail ⟨.syntaxError, "expected `" ++ String.singleton expected ++ "`, found `" ++
        String.singleton ch ++ "` at offset " ++ toString (← position)⟩
  | none => fail ⟨.syntaxError, "expected `" ++ String.singleton expected ++ "`, found end of input"⟩

def isNameStart (ch : Char) : Bool := ch == '_' || ch.isAlpha

def isNameContinue (ch : Char) : Bool := isNameStart ch || ch.isDigit

/-- The characters of a name. -/
def scanName : Parser Bool := do
  match ← peekChar with
  | some ch =>
    if isNameStart ch then do
      let _ ← advanceChar
      skipWhile isNameContinue
    else syntaxError "expected name"
  | none => syntaxError "unexpected end of input"

def parseName : Parser String := do
  let _ ← skipIgnored
  return String.ofList (← captured scanName).2

/-- Goes over the next character if it is as expected. -/
def advanceIf (expected : Char → Bool) : Parser Unit := do
  if (← peekChar).any expected then do
    let _ ← advanceChar
    return ()
  else return ()

def scanFraction : Parser Bool := do
  if (← peekChar) = some '.' then do
    let _ ← advanceChar
    if ← skipWhile Char.isDigit then return true
    else syntaxError "expected digits after decimal point"
  else return false

def scanExponent : Parser Bool := do
  let mark ← peekChar
  if mark = some 'e' ∨ mark = some 'E' then do
    let _ ← advanceChar
    advanceIf fun ch => ch == '+' || ch == '-'
    if ← skipWhile Char.isDigit then return true
    else syntaxError "expected exponent digits"
  else return false

/-- The characters of a number, and whether it is a float. -/
def scanNumber : Parser Bool := do
  advanceIf (· == '-')
  let hasDigits ← skipWhile Char.isDigit
  let hasFraction ← scanFraction
  let hasExponent ← scanExponent
  if hasDigits then return hasFraction || hasExponent
  else syntaxError "expected numeric literal"

def parseNumberValue : Parser InputValue := do
  let (isFloat, literal) ← captured scanNumber
  if isFloat then
    match parseF64 literal with
    | some value => return .float value
    | none => fail ⟨.syntaxError, "invalid float literal"⟩
  else
    match parseI64 literal with
    | some value => return .int value
    | none => fail ⟨.syntaxError, "invalid integer literal"⟩

/-- `u32::from_str_radix` of hexadecimal digits -/
def parseHex (digits : List Char) : Option Nat :=
  if digits.isEmpty ∨ ¬ digits.all Json.isHex then none
  else some (digits.foldl (fun n ch => 16 * n + Json.hexValue ch) 0)

/-- `char::from_u32` -/
def charFromU32 (value : Nat) : Option Char :=
  if value.isValidChar then some (Char.ofNat value) else none

def scanHex : Nat → Parser Unit
  | 0 => return ()
  | n + 1 => do
    match ← advanceChar with
    | some ch => if Json.isHex ch then scanHex n else syntaxError "invalid unicode escape"
    | none => syntaxError "invalid unicode escape"

def parseUnicodeEscape : Parser Char := do
  match parseHex (← captured (scanHex 4)).2 with
  | some value =>
    match charFromU32 value with
    | some ch => return ch
    | none => fail ⟨.syntaxError, "invalid unicode code point"⟩
  | none => fail ⟨.syntaxError, "invalid unicode escape"⟩

/-- What the letter behind a backslash stands for. -/
def parseEscape (escaped : Char) : Parser Char :=
  if escaped = '"' then return '"'
  else if escaped = '\\' then return '\\'
  else if escaped = '/' then return '/'
  else if escaped = 'b' then return Char.ofNat 8
  else if escaped = 'f' then return Char.ofNat 12
  else if escaped = 'n' then return '\n'
  else if escaped = 'r' then return '\r'
  else if escaped = 't' then return '\t'
  else if escaped = 'u' then parseUnicodeEscape
  else fail ⟨.syntaxError, "unsupported escape sequence `\\" ++ String.singleton escaped ++ "`"⟩

/-- The next character of a string, unless that ends here. -/
def parseStringChar : Parser (Option Char) := do
  match ← advanceChar with
  | some ch =>
    if ch = '"' then return none
    else if ch = '\\' then do
      match ← advanceChar with
      | some escaped => return some (← parseEscape escaped)
      | none => fail ⟨.syntaxError, "unterminated escape sequence"⟩
    else return some ch
  | none => fail ⟨.syntaxError, "unterminated string literal"⟩

def parseString : Parser String := do
  expectChar '"'
  return String.ofList (← collect parseStringChar)

end Lexer

section Values

/-- The loop over items up to a closing character. -/
def parseUntil {A : Type} (close : Char) (parseItem : Parser A) : Parser (List A) := collect do
  let _ ← skipIgnored
  if (← peekChar) = some close then do
    let _ ← advanceChar
    return none
  else do
    let item ← parseItem
    return some item

def nameValue (name : String) : InputValue :=
  if name = "true" then .boolean true
  else if name = "false" then .boolean false
  else if name = "null" then .null
  else .enum name

/-- A name, a colon and a value, in an object or an argument list. -/
def parseNamed (parseInputValue : Parser InputValue) : Parser (String × InputValue) := do
  let name ← parseName
  expectChar ':'
  return (name, ← parseInputValue)

def parseListValue (parseInputValue : Parser InputValue) : Parser InputValue := do
  expectChar '['
  return .list (← parseUntil ']' parseInputValue)

def parseObjectValue (parseInputValue : Parser InputValue) : Parser InputValue := do
  expectChar '\x7b'
  return .object (← parseUntil '\x7d' (parseNamed parseInputValue))

/-- The depth to which values nest is bounded by the fuel. -/
def parseInputValue : Nat → Parser InputValue
  | 0 => outOfFuel
  | fuel + 1 => do
    let _ ← skipIgnored
    match ← peekChar with
    | some ch =>
      if ch = '"' then return .string (← parseString)
      else if ch = '[' then parseListValue (parseInputValue fuel)
      else if ch = '\x7b' then parseObjectValue (parseInputValue fuel)
      else if ch = '$' then do
        let _ ← advanceChar
        return .variable (← parseName)
      else if ch = '-' ∨ ch.isDigit then parseNumberValue
      else return nameValue (← parseName)
    | none => syntaxError "expected input value"

end Values

section Fields

variable (fuel : Nat)

def parseArguments : Parser (List Argument) := do
  expectChar '('
  parseUntil ')' do
    let (name, value) ← parseNamed (parseInputValue fuel)
    return ⟨name, value⟩

/-- Arguments, where there are any. -/
def parseOptionalArguments : Parser (List Argument) := do
  let _ ← skipIgnored
  if (← peekChar) = some '(' then parseArguments fuel else return []

def parseDirectives : Parser (List Directive) := collect do
  let _ ← skipIgnored
  if (← peekChar) = some '@' then do
    let _ ← advanceChar
    let name ← parseName
    let arguments ← parseOptionalArguments fuel
    return some ⟨name, arguments⟩
  else return none

/-- The alias, where there is one, and the name. -/
def parseFieldName : Parser (Option String × String) := do
  let _ ← skipIgnored
  let first ← parseName
  let _ ← skipIgnored
  if (← peekChar) = some ':' then do
    let _ ← advanceChar
    return (some first, ← parseName)
  else return (none, first)

def parseSelections (parseField : Parser Field) : Parser (List Field) := collect do
  let _ ← skipIgnored
  match ← peekChar with
  | some ch =>
    if ch = '\x7d' then do
      let _ ← advanceChar
      return none
    else if ch = '.' then fail ⟨.unsupported, "fragments are not supported yet"⟩
    else do
      let field ← parseField
      return some field
  | none => syntaxError "unterminated selection set"

def parseSelectionSetWith (parseField : Parser Field) : Parser SelectionSet := do
  expectChar '\x7b'
  let fields ← parseSelections parseField
  if fields.isEmpty then syntaxError "selection set cannot be empty" else return fields

/-- The depth to which selections nest is bounded by the fuel. -/
def parseField : Nat → Parser Field
  | 0 => outOfFuel
  | fuel + 1 => do
    let (aliasName, name) ← parseFieldName
    let arguments ← parseOptionalArguments fuel
    let directives ← parseDirectives fuel
    let _ ← skipIgnored
    if (← peekChar) = some '\x7b' then do
      let selectionSet ← parseSelectionSetWith (parseField fuel)
      return ⟨aliasName, name, arguments, directives, some selectionSet⟩
    else return ⟨aliasName, name, arguments, directives, none⟩

def parseSelectionSet : Parser SelectionSet := parseSelectionSetWith (parseField fuel)

end Fields

section Operations

/-- A type, without the mark behind it. -/
def parseBaseType (parseTypeReference : Parser TypeReference) : Parser TypeReference := do
  if (← peekChar) = some '[' then do
    let _ ← advanceChar
    let inner ← parseTypeReference
    expectChar ']'
    return .list inner
  else return .named (← parseName)

def parseTypeReference : Nat → Parser TypeReference
  | 0 => outOfFuel
  | fuel + 1 => do
    let _ ← skipIgnored
    let ty ← parseBaseType (parseTypeReference fuel)
    let _ ← skipIgnored
    if (← peekChar) = some '!' then do
      let _ ← advanceChar
      return .nonNull ty
    else return ty

variable (fuel : Nat)

def parseDefaultValue : Parser (Option InputValue) := do
  let _ ← skipIgnored
  if (← peekChar) = some '=' then do
    let _ ← advanceChar
    return some (← parseInputValue fuel)
  else return none

def parseVariableDefinition : Parser VariableDefinition := do
  expectChar '$'
  let name ← parseName
  expectChar ':'
  let typeRef ← parseTypeReference fuel
  let defaultValue ← parseDefaultValue fuel
  return ⟨name, typeRef, defaultValue⟩

def parseVariableDefinitions : Parser (List VariableDefinition) := do
  expectChar '('
  parseUntil ')' (parseVariableDefinition fuel)

def operationType (keyword : String) : Parser OperationType :=
  if keyword = "query" then return .query
  else if keyword = "mutation" then return .mutation
  else if keyword = "subscription" then return .subscription
  else fail ⟨.syntaxError, "unexpected token `" ++ keyword ++ "`"⟩

/-- The name of an operation, where there is one. -/
def parseOperationName : Parser (Option String) := do
  let _ ← skipIgnored
  match ← peekChar with
  | some ch =>
    if ch = '$' ∨ ch = '\x7b' then return none
    else if isNameStart ch then return some (← parseName)
    else return none
  | none => return none

/-- What stands between the name of an operation and its selections. -/
def parseOperationVariables : Parser (List VariableDefinition) := do
  let _ ← skipIgnored
  if (← peekChar) = some '(' then parseVariableDefinitions fuel else return []

def parseKeywordOperation : Parser OperationDefinition := do
  let keyword ← parseName
  let kind ← operationType keyword
  let name ← parseOperationName
  let variableDefinitions ← parseOperationVariables fuel
  if (← peekChar) = some '@' then
    fail ⟨.unsupported, "directives are only supported on fields"⟩
  else do
    let selectionSet ← parseSelectionSet fuel
    return ⟨kind, name, variableDefinitions, selectionSet⟩

def parseOperationDefinition : Parser OperationDefinition := do
  let _ ← skipIgnored
  if (← peekChar) = some '\x7b' then do
    let selectionSet ← parseSelectionSet fuel
    return ⟨.query, none, [], selectionSet⟩
  else parseKeywordOperation fuel

def parseOperations : Parser (List OperationDefinition) := collect do
  let _ ← skipIgnored
  if ← isEof then return none
  else do
    let operation ← parseOperationDefinition fuel
    return some operation

def documentParser : Parser Document := do
  let operations ← parseOperations fuel
  if operations.isEmpty then syntaxError "expected GraphQL operation" else return ⟨operations⟩

/-- No nesting is deeper than the text is long. -/
def parseDocument (input : List Char) : Except (Cursor.Stop GqlError) Document :=
  (documentParser (input.length + 1) input 0).map Prod.fst

end Operations

end Cynos.Gql
