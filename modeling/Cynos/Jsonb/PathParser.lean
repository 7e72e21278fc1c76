import Cynos.Core.Text
import Cynos.Jsonb.Path

/-! The parser of paths. It keeps what it has read, and whether a bracket holds an index or a
slice is decided by a colon in all of that. -/
namespace Cynos.Jsonb

open Core

structure ParseError where
  message : String
  position : Nat
  deriving DecidableEq

/-- The input up to the position and the input from there on. -/
structure Parser where
  consumed : List Char
  rest : List Char
  deriving DecidableEq

abbrev ParseResult (α : Type) := Except ParseError α

namespace Parser

def new (input : String) : Parser := ⟨[], input.toList⟩

/-- The position counts bytes. -/
def pos (parser : Parser) : Nat := (parser.consumed.map Char.utf8Size).sum

def error {α : Type} (parser : Parser) (message : String) : ParseResult α :=
  .error ⟨message, parser.pos⟩

def peek (parser : Parser) : Option Char := parser.rest.head?

def advance (parser : Parser) : Parser :=
  match parser.rest with
  | [] => parser
  | c :: rest => ⟨parser.consumed ++ [c], rest⟩

/-- The loop that advances over characters of a kind. -/
def skipWhile (kind : Char → Bool) (parser : Parser) : Parser :=
  ⟨parser.consumed ++ parser.rest.takeWhile kind, parser.rest.dropWhile kind⟩

def skipWhitespace (parser : Parser) : Parser := parser.skipWhile isWhitespace

def expect (parser : Parser) (expected : Char) : ParseResult Parser :=
  let parser := parser.skipWhitespace
  match parser.peek with
  | some c =>
    if c = expected then .ok parser.advance
    else parser.error ("Expected '" ++ expected.toString ++ "', found '" ++ c.toString ++ "'")
  | none => parser.error ("Expected '" ++ expected.toString ++ "', found end of input")

variable (chars : CharClasses)

def isIdentifierChar (c : Char) : Bool := chars.isAlphanumeric c || c == '_'

def parseIdentifier (parser : Parser) : ParseResult (String × Parser) :=
  let start := parser.skipWhitespace
  let text := start.rest.takeWhile (isIdentifierChar chars)
  if text.isEmpty then start.error "Expected identifier"
  else .ok (String.ofList text, start.skipWhile (isIdentifierChar chars))

def isNumberChar (c : Char) : Bool := c.isDigit || c == '.'

def takeSign (parser : Parser) : List Char × Parser :=
  if parser.peek = some '-' then (['-'], parser.advance) else ([], parser)

def parseNumber (parser : Parser) : ParseResult (Float × Parser) :=
  let start := parser.skipWhitespace
  let (sign, digits) := start.takeSign
  let text := sign ++ digits.rest.takeWhile isNumberChar
  if text.isEmpty then start.error "Expected number"
  else
    match parseDecimal text with
    | some n => .ok (n, digits.skipWhile isNumberChar)
    | none => start.error "Invalid number"

/-- The text up to the closing quote and what follows the quote. A backslash hides the
character behind it, and both stay in the text. -/
def scanStringLiteral (quote : Char) (hidden : Bool) (text : List Char) :
    List Char → Option (List Char × List Char)
  | [] => none
  | c :: rest =>
    if hidden then scanStringLiteral quote false (text ++ [c]) rest
    else if c = quote then some (text, rest)
    else scanStringLiteral quote (c == '\\') (text ++ [c]) rest

def parseStringLiteral (parser : Parser) : ParseResult (String × Parser) :=
  let parser := parser.skipWhitespace
  match parser.peek with
  | some quote =>
    if quote = '\'' ∨ quote = '"' then
      let start := parser.advance
      match scanStringLiteral quote false [] start.rest with
      | some (text, rest) =>
        .ok (String.ofList text, ⟨start.consumed ++ text ++ [quote], rest⟩)
      | none => start.error "Unterminated string"
    else parser.error "Expected string literal"
  | none => parser.error "Expected string literal"

/-- A number that an index or a bound is cut down from, where a digit stands. -/
def parseBound (parser : Parser) : ParseResult (Option Nat × Parser) :=
  if parser.peek.any Char.isDigit then do
    let (n, parser) ← parser.parseNumber
    return (some (asUsize n), parser)
  else .ok (none, parser)

def parseSliceStart (parser : Parser) : ParseResult (Option Nat × Parser) :=
  if parser.peek = some ':' then .ok (none, parser) else parser.parseBound

def parseIndexOrSlice (parser : Parser) :
    ParseResult ((Option Nat × Option Nat) × Parser) := do
  let (start, parser) ← parser.skipWhitespace.parseSliceStart
  let parser := parser.skipWhitespace
  if parser.peek = some ':' then
    let (stop, parser) ← parser.advance.skipWhitespace.parseBound
    return ((start, stop), parser)
  else return ((start, none), parser)

/-- An identifier that has to be the given word. -/
def parseWord (parser : Parser) (word : String) (value : PredicateValue) :
    ParseResult (PredicateValue × Parser) := do
  let (id, parser) ← parser.parseIdentifier chars
  if id = word then return (value, parser) else parser.error "Invalid value"

def parsePredicateValue (parser : Parser) : ParseResult (PredicateValue × Parser) := do
  let parser := parser.skipWhitespace
  match parser.peek with
  | some c =>
    if c = '\'' ∨ c = '"' then
      let (s, parser) ← parser.parseStringLiteral
      return (.string s, parser)
    else if c = 't' then parser.parseWord chars "true" (.bool true)
    else if c = 'f' then parser.parseWord chars "false" (.bool false)
    else if c = 'n' then parser.parseWord chars "null" .null
    else if c.isDigit ∨ c = '-' then
      let (n, parser) ← parser.parseNumber
      return (.number n, parser)
    else parser.error "Expected value"
  | none => parser.error "Expected value"

/-- The value that a field is compared with, after the operator. -/
def parseCompare (parser : Parser) (field : String) (op : CompareOp) :
    ParseResult (JsonPathPredicate × Parser) := do
  let (value, parser) ← parser.parsePredicateValue chars
  return (.compare field op value, parser)

/-- `@.` and the name of a field. -/
def parsePredicateField (parser : Parser) : ParseResult (String × Parser) := do
  let parser ← parser.skipWhitespace.expect '@'
  let parser ← parser.expect '.'
  parser.parseIdentifier chars

/-- The operator behind a field, if any. -/
def parsePredicateTest (parser : Parser) (field : String) :
    ParseResult (JsonPathPredicate × Parser) :=
  let next := parser.advance
  if parser.peek = some '=' then
    (if next.peek = some '=' then next.advance else next).parseCompare chars field .eq
  else if parser.peek = some '!' then do
    let parser ← next.expect '='
    parser.parseCompare chars field .ne
  else if parser.peek = some '<' then
    if next.peek = some '=' then next.advance.parseCompare chars field .le
    else next.parseCompare chars field .lt
  else if parser.peek = some '>' then
    if next.peek = some '=' then next.advance.parseCompare chars field .ge
    else next.parseCompare chars field .gt
  else .ok (.exists field, parser)

def parsePredicate (parser : Parser) : ParseResult (JsonPathPredicate × Parser) := do
  let (field, parser) ← parser.parsePredicateField chars
  parser.skipWhitespace.parsePredicateTest chars field

/-- A bracket with one bound holds an index, unless a colon was read anywhere. -/
def indexOrSlice (colon : Bool) (path : JsonPath) (bounds : Option Nat × Option Nat) : JsonPath :=
  if bounds.1.isSome ∧ bounds.2.isNone ∧ colon = false then .index path (bounds.1.getD 0)
  else .slice path bounds.1 bounds.2

/-- What follows a bracket. -/
def parseBracket (parser : Parser) (path : JsonPath) : ParseResult (JsonPath × Parser) := do
  let parser := parser.skipWhitespace
  match parser.peek with
  | some c =>
    if c = '*' then
      let parser ← parser.advance.expect ']'
      return (.wildcard path, parser)
    else if c = '?' then
      let parser ← parser.advance.expect '('
      let (predicate, parser) ← parser.parsePredicate chars
      let parser ← parser.expect ')'
      let parser ← parser.expect ']'
      return (.filter path predicate, parser)
    else if c = '\'' ∨ c = '"' then
      let (field, parser) ← parser.parseStringLiteral
      let parser ← parser.expect ']'
      return (.field path field, parser)
    else if c.isDigit ∨ c = ':' ∨ c = '-' then
      let (bounds, parser) ← parser.parseIndexOrSlice
      let parser ← parser.expect ']'
      return (indexOrSlice (parser.consumed.contains ':') path bounds, parser)
    else parser.error "Invalid bracket expression"
  | none => parser.error "Invalid bracket expression"

/-- What follows a dot. -/
def parseDot (parser : Parser) (path : JsonPath) : ParseResult (JsonPath × Parser) := do
  if parser.peek = some '.' then
    let (field, parser) ← parser.advance.parseIdentifier chars
    return (.recursiveField path field, parser)
  else if parser.peek = some '*' then
    return (.wildcard path, parser.advance)
  else
    let (field, parser) ← parser.parseIdentifier chars
    return (.field path field, parser)

/-- One round of the loop, which ends where neither a dot nor a bracket stands. -/
def parseStep (parser : Parser) (path : JsonPath) :
    ParseResult (Option (JsonPath × Parser)) :=
  let parser := parser.skipWhitespace
  if parser.peek = some '.' then some <$> parser.advance.parseDot chars path
  else if parser.peek = some '[' then some <$> parser.advance.parseBracket chars path
  else .ok none

/-- Every round takes a character at least, so that as many rounds as characters are left
are enough. -/
def parseSteps : Nat → Parser → JsonPath → ParseResult JsonPath
  | 0, _, path => .ok path
  | rounds + 1, parser, path => do
    match ← parser.parseStep chars path with
    | some (path, parser) => parseSteps rounds parser path
    | none => return path

section Progress

variable {parser later last : Parser}

/-- The later parser has read on in the same input. -/
def After (parser later : Parser) : Prop :=
  ∃ text, parser.rest = text ++ later.rest ∧ later.consumed = parser.consumed ++ text

theorem After.refl (parser : Parser) : parser.After parser := ⟨[], rfl, (List.append_nil _).symm⟩

theorem After.trans (h : parser.After later) (hlast : later.After last) : parser.After last := by
  obtain ⟨text, hrest, hconsumed⟩ := h
  obtain ⟨text', hrest', hconsumed'⟩ := hlast
  exact ⟨text ++ text', by rw [hrest, hrest', List.append_assoc],
    by rw [hconsumed', hconsumed, List.append_assoc]⟩

theorem After.length_le (h : parser.After later) : later.rest.length ≤ parser.rest.length := by
  obtain ⟨text, hrest, -⟩ := h
  rw [hrest, List.length_append]
  exact Nat.le_add_left _ _

theorem after_advance (parser : Parser) : parser.After parser.advance := by
  obtain ⟨consumed, rest⟩ := parser
  cases rest with
  | nil => exact .refl _
  | cons c rest => exact ⟨[c], rfl, rfl⟩

theorem after_skipWhile (kind : Char → Bool) (parser : Parser) :
    parser.After (parser.skipWhile kind) :=
  ⟨_, List.takeWhile_append_dropWhile.symm, rfl⟩

theorem parsed_of_bind {α β : Type} {parse : ParseResult α} {next : α → ParseResult β} {b : β}
    (h : (parse >>= next) = .ok b) : ∃ a, parse = .ok a ∧ next a = .ok b := by
  cases parse with
  | error e => cases h
  | ok a => exact ⟨a, rfl, h⟩

theorem after_expect {expected : Char} (h : parser.expect expected = .ok later) :
    parser.After later := by
  simp only [expect] at h
  split at h
  · split at h
    · obtain rfl := Except.ok.inj h
      exact (after_skipWhile _ _).trans (after_advance _)
    · cases h
  · cases h

theorem after_parseIdentifier {chars : CharClasses} {name : String}
    (h : parser.parseIdentifier chars = .ok (name, later)) : parser.After later := by
  simp only [parseIdentifier] at h
  split at h
  · cases h
  · obtain ⟨-, rfl⟩ := Prod.mk.inj (Except.ok.inj h)
    exact (after_skipWhile _ _).trans (after_skipWhile _ _)

theorem after_takeSign (parser : Parser) : parser.After parser.takeSign.2 := by
  unfold takeSign
  split
  · exact after_advance _
  · exact .refl _

theorem after_parseNumber {n : Float} (h : parser.parseNumber = .ok (n, later)) :
    parser.After later := by
  simp only [parseNumber] at h
  split at h
  · cases h
  · split at h
    · obtain ⟨-, rfl⟩ := Prod.mk.inj (Except.ok.inj h)
      exact (after_skipWhile _ _).trans ((after_takeSign _).trans (after_skipWhile _ _))
    · cases h

theorem after_scanStringLiteral {quote : Char} {hidden : Bool} {chars text before rest : List Char}
    (h : scanStringLiteral quote hidden before chars = some (text, rest)) :
    ∃ added, text = before ++ added ∧ chars = added ++ quote :: rest := by
  fun_induction scanStringLiteral quote hidden before chars with
  | case1 => cases h
  | case2 before c chars ih =>
    obtain ⟨added, rfl, rfl⟩ := ih h
    exact ⟨c :: added, by simp, rfl⟩
  | case3 =>
    obtain ⟨rfl, rfl⟩ := Prod.mk.inj (Option.some.inj h)
    exact ⟨[], (List.append_nil _).symm, rfl⟩
  | case4 hidden before c chars _ _ ih =>
    obtain ⟨added, rfl, rfl⟩ := ih h
    exact ⟨c :: added, by simp, rfl⟩

theorem after_parseStringLiteral {text : String}
    (h : parser.parseStringLiteral = .ok (text, later)) : parser.After later := by
  simp only [parseStringLiteral] at h
  split at h
  · split at h
    · split at h
      · rename_i _ _ _ _ read rest hscan
        obtain ⟨-, rfl⟩ := Prod.mk.inj (Except.ok.inj h)
        obtain ⟨added, hread, hrest⟩ := after_scanStringLiteral hscan
        refine (after_skipWhile isWhitespace parser).trans ((after_advance _).trans ?_)
        exact ⟨read ++ [_], by rw [List.nil_append] at hread; rw [hread, List.append_assoc]; exact hrest,
          List.append_assoc _ _ _⟩
      · cases h
    · cases h
  · cases h

theorem after_skipWhitespace (parser : Parser) : parser.After parser.skipWhitespace :=
  after_skipWhile _ _

theorem after_parseBound {bound : Option Nat} (h : parser.parseBound = .ok (bound, later)) :
    parser.After later := by
  simp only [parseBound] at h
  split at h
  · obtain ⟨⟨n, next⟩, hnumber, h⟩ := parsed_of_bind h
    obtain ⟨-, rfl⟩ := Prod.mk.inj (Except.ok.inj h)
    exact after_parseNumber hnumber
  · obtain ⟨-, rfl⟩ := Prod.mk.inj (Except.ok.inj h)
    exact .refl _

theorem after_parseIndexOrSlice {bounds : Option Nat × Option Nat}
    (h : parser.parseIndexOrSlice = .ok (bounds, later)) : parser.After later := by
  simp only [parseIndexOrSlice] at h
  obtain ⟨⟨start, next⟩, hstart, h⟩ := parsed_of_bind h
  have hnext : parser.skipWhitespace.After next := by
    unfold parseSliceStart at hstart
    split at hstart
    · obtain ⟨-, rfl⟩ := Prod.mk.inj (Except.ok.inj hstart)
      exact .refl _
    · exact after_parseBound hstart
  refine (after_skipWhitespace _).trans (hnext.trans ((after_skipWhitespace _).trans ?_))
  dsimp only at h
  split at h
  · obtain ⟨⟨stop, last⟩, hstop, h⟩ := parsed_of_bind h
    obtain ⟨-, rfl⟩ := Prod.mk.inj (Except.ok.inj h)
    exact (after_advance _).trans ((after_skipWhitespace _).trans (after_parseBound hstop))
  · obtain ⟨-, rfl⟩ := Prod.mk.inj (Except.ok.inj h)
    exact .refl _

section Steps

variable {chars : CharClasses} {value : PredicateValue} {predicate : JsonPathPredicate}
  {path path' : JsonPath}

theorem after_parseWord {word : String} {meant : PredicateValue}
    (h : parser.parseWord chars word meant = .ok (value, later)) : parser.After later := by
  simp only [parseWord] at h
  obtain ⟨⟨id, next⟩, hid, h⟩ := parsed_of_bind h
  dsimp only at h
  split at h
  · obtain ⟨-, rfl⟩ := Prod.mk.inj (Except.ok.inj h)
    exact after_parseIdentifier hid
  · cases h

theorem after_parsePredicateValue (h : parser.parsePredicateValue chars = .ok (value, later)) :
    parser.After later := by
  simp only [parsePredicateValue] at h
  refine (after_skipWhitespace _).trans ?_
  split at h
  · split at h
    · obtain ⟨⟨text, next⟩, htext, h⟩ := parsed_of_bind h
      obtain ⟨-, rfl⟩ := Prod.mk.inj (Except.ok.inj h)
      exact after_parseStringLiteral htext
    · split at h
      · exact after_parseWord h
      · split at h
        · exact after_parseWord h
        · split at h
          · exact after_parseWord h
          · split at h
            · obtain ⟨⟨n, next⟩, hnumber, h⟩ := parsed_of_bind h
              obtain ⟨-, rfl⟩ := Prod.mk.inj (Except.ok.inj h)
              exact after_parseNumber hnumber
            · cases h
  · cases h

theorem after_parseCompare {field : String} {op : CompareOp}
    (h : parser.parseCompare chars field op = .ok (predicate, later)) : parser.After later := by
  simp only [parseCompare] at h
  obtain ⟨⟨value, next⟩, hvalue, h⟩ := parsed_of_bind h
  obtain ⟨-, rfl⟩ := Prod.mk.inj (Except.ok.inj h)
  exact after_parsePredicateValue hvalue

theorem after_parsePredicateField {field : String}
    (h : parser.parsePredicateField chars = .ok (field, later)) : parser.After later := by
  obtain ⟨at', hat, h⟩ := parsed_of_bind h
  obtain ⟨dot, hdot, h⟩ := parsed_of_bind h
  exact (after_skipWhitespace _).trans ((after_expect hat).trans ((after_expect hdot).trans
    (after_parseIdentifier h)))

theorem after_parsePredicateTest {field : String}
    (h : parser.parsePredicateTest chars field = .ok (predicate, later)) : parser.After later := by
  have hnext := after_advance parser
  have hlast := hnext.trans (after_advance _)
  simp only [parsePredicateTest] at h
  split at h
  · split at h
    · exact hlast.trans (after_parseCompare h)
    · exact hnext.trans (after_parseCompare h)
  · split at h
    · obtain ⟨equals, hequals, h⟩ := parsed_of_bind h
      exact hnext.trans ((after_expect hequals).trans (after_parseCompare h))
    · split at h
      · split at h
        · exact hlast.trans (after_parseCompare h)
        · exact hnext.trans (after_parseCompare h)
      · split at h
        · split at h
          · exact hlast.trans (after_parseCompare h)
          · exact hnext.trans (after_parseCompare h)
        · obtain ⟨-, rfl⟩ := Prod.mk.inj (Except.ok.inj h)
          exact .refl _

theorem after_parsePredicate (h : parser.parsePredicate chars = .ok (predicate, later)) :
    parser.After later := by
  obtain ⟨⟨field, next⟩, hfield, h⟩ := parsed_of_bind h
  exact (after_parsePredicateField hfield).trans ((after_skipWhitespace _).trans
    (after_parsePredicateTest h))

theorem after_parseBracket (h : parser.parseBracket chars path = .ok (path', later)) :
    parser.After later := by
  simp only [parseBracket] at h
  refine (after_skipWhitespace _).trans ?_
  split at h
  · split at h
    · obtain ⟨close, hclose, h⟩ := parsed_of_bind h
      obtain ⟨-, rfl⟩ := Prod.mk.inj (Except.ok.inj h)
      exact (after_advance _).trans (after_expect hclose)
    · split at h
      · obtain ⟨paren, hparen, h⟩ := parsed_of_bind h
        obtain ⟨⟨predicate, next⟩, hpredicate, h⟩ := parsed_of_bind h
        obtain ⟨closeParen, hcloseParen, h⟩ := parsed_of_bind h
        obtain ⟨close, hclose, h⟩ := parsed_of_bind h
        obtain ⟨-, rfl⟩ := Prod.mk.inj (Except.ok.inj h)
        exact (after_advance _).trans ((after_expect hparen).trans
          ((after_parsePredicate hpredicate).trans ((after_expect hcloseParen).trans
            (after_expect hclose))))
      · split at h
        · obtain ⟨⟨field, next⟩, hfield, h⟩ := parsed_of_bind h
          obtain ⟨close, hclose, h⟩ := parsed_of_bind h
          obtain ⟨-, rfl⟩ := Prod.mk.inj (Except.ok.inj h)
          exact (after_parseStringLiteral hfield).trans (after_expect hclose)
        · split at h
          · obtain ⟨⟨bounds, next⟩, hbounds, h⟩ := parsed_of_bind h
            obtain ⟨close, hclose, h⟩ := parsed_of_bind h
            obtain ⟨-, rfl⟩ := Prod.mk.inj (Except.ok.inj h)
            exact (after_parseIndexOrSlice hbounds).trans (after_expect hclose)
          · cases h
  · cases h

theorem after_parseDot (h : parser.parseDot chars path = .ok (path', later)) :
    parser.After later := by
  simp only [parseDot] at h
  split at h
  · obtain ⟨⟨field, next⟩, hfield, h⟩ := parsed_of_bind h
    obtain ⟨-, rfl⟩ := Prod.mk.inj (Except.ok.inj h)
    exact (after_advance _).trans (after_parseIdentifier hfield)
  · split at h
    · obtain ⟨-, rfl⟩ := Prod.mk.inj (Except.ok.inj h)
      exact after_advance _
    · obtain ⟨⟨field, next⟩, hfield, h⟩ := parsed_of_bind h
      obtain ⟨-, rfl⟩ := Prod.mk.inj (Except.ok.inj h)
      exact after_parseIdentifier hfield

theorem length_advance_lt {c : Char} (h : parser.peek = some c) :
    parser.advance.rest.length < parser.rest.length := by
  obtain ⟨consumed, rest⟩ := parser
  cases rest with
  | nil => cases h
  | cons c rest => exact Nat.lt_succ_self _

/-- A round of the loop takes at least the dot or the bracket. -/
theorem length_parseStep_lt (h : parser.parseStep chars path = .ok (some (path', later))) :
    later.rest.length < parser.rest.length := by
  simp only [parseStep] at h
  have hspace := (after_skipWhitespace parser).length_le
  split at h
  · rename_i hpeek
    have hdot : parser.skipWhitespace.advance.parseDot chars path = .ok (path', later) := by
      cases hparse : parser.skipWhitespace.advance.parseDot chars path with
      | error e => rw [hparse] at h; cases h
      | ok parsed => rw [hparse] at h; cases h; rfl
    exact (after_parseDot hdot).length_le.trans_lt ((length_advance_lt hpeek).trans_le hspace)
  · split at h
    · rename_i hpeek
      have hbracket : parser.skipWhitespace.advance.parseBracket chars path = .ok (path', later) := by
        cases hparse : parser.skipWhitespace.advance.parseBracket chars path with
        | error e => rw [hparse] at h; cases h
        | ok parsed => rw [hparse] at h; cases h; rfl
      exact (after_parseBracket hbracket).length_le.trans_lt
        ((length_advance_lt hpeek).trans_le hspace)
    · cases h

theorem parseStep_of_empty (h : parser.rest = []) : parser.parseStep chars path = .ok none := by
  have hpeek : parser.skipWhitespace.peek = none := by
    simp [skipWhitespace, skipWhile, peek, h]
  simp only [parseStep, hpeek, reduceCtorEq, ↓reduceIte]

/-- More rounds than characters change nothing. -/
theorem parseSteps_rounds {rounds : Nat} (h : parser.rest.length ≤ rounds) :
    parser.parseSteps chars rounds path = parser.parseSteps chars parser.rest.length path := by
  generalize hlength : parser.rest.length = length at h ⊢
  induction length using Nat.strong_induction_on generalizing parser path rounds with
  | _ length ih =>
    cases rounds with
    | zero => rw [Nat.le_zero.mp h]
    | succ rounds =>
      cases length with
      | zero =>
        simp only [parseSteps, parseStep_of_empty (List.length_eq_zero_iff.mp hlength)]
        rfl
      | succ length =>
        simp only [parseSteps]
        cases hstep : parser.parseStep chars path with
        | error e => rfl
        | ok step =>
          cases step with
          | none => rfl
          | some step =>
            obtain ⟨path', later⟩ := step
            have hlater := length_parseStep_lt hstep
            exact (ih _ (by omega) rfl (by omega)).trans (ih _ (by omega) rfl (by omega)).symm

end Steps

end Progress

end Parser

def JsonPath.parse (chars : CharClasses) (input : String) : ParseResult JsonPath := do
  let parser ← (Parser.new input).skipWhitespace.expect '$'
  parser.parseSteps chars parser.rest.length .root

end Cynos.Jsonb
