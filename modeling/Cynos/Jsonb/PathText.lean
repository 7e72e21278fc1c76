import Cynos.Jsonb.PathParser
import Mathlib.Data.List.Induction

/-! Paths written in the documented syntax, and what the parser reads there. -/
namespace Cynos.Jsonb

open Core Cynos.Jsonb.Parser

section Syntax

inductive Quote where
  | single
  | double
  deriving DecidableEq

def Quote.char : Quote → Char
  | single => '\''
  | double => '"'

/-- A name that is written without quotes. -/
structure Identifier (chars : CharClasses) where
  name : String
  ne_nil : name.toList ≠ []
  isIdentifierChar : ∀ c ∈ name.toList, Parser.isIdentifierChar chars c = true

def signText (negative : Bool) : List Char := if negative then ['-'] else []

/-- A number in decimal; without a fraction there is no dot. -/
structure Decimal where
  negative : Bool
  whole : List Char
  fraction : List Char
  whole_ne_nil : whole ≠ []
  whole_isDigit : ∀ c ∈ whole, c.isDigit = true
  fraction_isDigit : ∀ c ∈ fraction, c.isDigit = true

def Decimal.magnitude (n : Decimal) : Float :=
  Float.ofScientific (ofDigits (n.whole ++ n.fraction)) true n.fraction.length

def Decimal.value (n : Decimal) : Float := if n.negative then -n.magnitude else n.magnitude

def Decimal.text (n : Decimal) : List Char :=
  signText n.negative ++ (n.whole ++ if n.fraction.isEmpty then [] else '.' :: n.fraction)

/-- A text between quotes; the quote and the backslash stand behind a backslash. -/
def quotedText (quote : Quote) (text : List Char) : List Char :=
  text.flatMap fun c => if c = '\\' ∨ c = quote.char then ['\\', c] else [c]

inductive LiteralSyntax where
  | null
  | bool (value : Bool)
  | number (n : Decimal)
  | string (quote : Quote) (text : String)

def LiteralSyntax.text : LiteralSyntax → List Char
  | null => "null".toList
  | bool value => (if value then "true" else "false").toList
  | number n => n.text
  | string quote text => quote.char :: (quotedText quote text.toList ++ [quote.char])

def LiteralSyntax.meant : LiteralSyntax → PredicateValue
  | null => .null
  | bool value => .bool value
  | number n => .number n.value
  | string _ text => .string text

def compareOpText : CompareOp → List Char
  | .eq => "==".toList
  | .ne => "!=".toList
  | .lt => "<".toList
  | .le => "<=".toList
  | .gt => ">".toList
  | .ge => ">=".toList

variable (chars : CharClasses)

inductive StepSyntax where
  | dotField (field : Identifier chars)
  | quotedField (quote : Quote) (name : String)
  | index (position : Nat)
  | slice (start stop : Option Nat)
  | dotWildcard
  | bracketWildcard
  | recursiveField (field : Identifier chars)
  | filterExists (field : Identifier chars)
  | filterCompare (field : Identifier chars) (op : CompareOp) (value : LiteralSyntax)

def boundText (bound : Option Nat) : List Char := bound.elim [] (Nat.toDigits 10)

namespace StepSyntax

variable {chars}

def text : StepSyntax chars → List Char
  | dotField field => '.' :: field.name.toList
  | quotedField quote name =>
    '[' :: quote.char :: (quotedText quote name.toList ++ [quote.char, ']'])
  | index position => '[' :: (Nat.toDigits 10 position ++ [']'])
  | slice start stop => '[' :: (boundText start ++ ':' :: (boundText stop ++ [']']))
  | dotWildcard => ['.', '*']
  | bracketWildcard => ['[', '*', ']']
  | recursiveField field => '.' :: '.' :: field.name.toList
  | filterExists field => "[?(@.".toList ++ (field.name.toList ++ [')', ']'])
  | filterCompare field op value => "[?(@.".toList ++ (field.name.toList ++
      ' ' :: (compareOpText op ++ ' ' :: (value.text ++ [')', ']'])))

/-- The step that is written. -/
def meant : StepSyntax chars → JsonPathStep
  | dotField field => .field field.name
  | quotedField _ name => .field name
  | index position => .index position
  | slice start stop => .slice start stop
  | dotWildcard | bracketWildcard => .wildcard
  | recursiveField field => .recursiveField field.name
  | filterExists field => .filter (.exists field.name)
  | filterCompare field op value => .filter (.compare field.name op value.meant)

end StepSyntax

/-- A path with one more step. -/
def JsonPath.then (path : JsonPath) : JsonPathStep → JsonPath
  | .field name => .field path name
  | .index position => .index path position
  | .slice start stop => .slice path start stop
  | .recursiveField name => .recursiveField path name
  | .wildcard => .wildcard path
  | .filter predicate => .filter path predicate

def JsonPath.ofSteps (steps : List JsonPathStep) : JsonPath := steps.foldl JsonPath.then .root

theorem flattenPathSteps_then (path : JsonPath) (step : JsonPathStep) :
    flattenPathSteps (path.then step) = flattenPathSteps path ++ [step] := by
  cases step <;> rfl

theorem flattenPathSteps_ofSteps (steps : List JsonPathStep) :
    flattenPathSteps (JsonPath.ofSteps steps) = steps := by
  unfold JsonPath.ofSteps
  induction steps using List.reverseRecOn with
  | nil => rfl
  | append_singleton steps step ih =>
    rw [List.foldl_append, List.foldl_cons, List.foldl_nil, flattenPathSteps_then, ih]

theorem ofSteps_inj {steps steps' : List JsonPathStep} :
    JsonPath.ofSteps steps = JsonPath.ofSteps steps' ↔ steps = steps' := by
  refine ⟨fun h => ?_, congrArg _⟩
  rw [← flattenPathSteps_ofSteps steps, h, flattenPathSteps_ofSteps]

end Syntax

section Read

/-- What a number of a bracket is read as, by way of a float. -/
def readNat (n : Nat) : Nat := asUsize (Float.ofScientific n true 0)

def LiteralSyntax.read : LiteralSyntax → PredicateValue
  | .string quote text => .string (String.ofList (quotedText quote text.toList))
  | value => value.meant

namespace StepSyntax

variable {chars : CharClasses}

/-- What is read of a step; `colon` says whether a colon stands anywhere before it. -/
def read (colon : Bool) : StepSyntax chars → JsonPathStep
  | quotedField quote name => .field (String.ofList (quotedText quote name.toList))
  | index position =>
    if colon then .slice (some (readNat position)) none else .index (readNat position)
  | slice start stop => .slice (start.map readNat) (stop.map readNat)
  | filterCompare field op value => .filter (.compare field.name op value.read)
  | step => step.meant

def readAll (colon : Bool) : List (StepSyntax chars) → List JsonPathStep
  | [] => []
  | step :: steps => step.read colon :: readAll (colon || step.text.contains ':') steps

/-- A name at the end of a step goes on with the characters that follow. -/
def endsInName : StepSyntax chars → Bool
  | dotField _ | recursiveField _ => true
  | _ => false

end StepSyntax

end Read

section Parts

variable {chars : CharClasses} {consumed text rest : List Char}

theorem isIdentifierChar_ascii {c : Char} (h : c.toNat < 128) :
    isIdentifierChar chars c = (c.isAlphanum || c == '_') := by
  rw [isIdentifierChar, chars.isAlphanumeric_ascii c h]

theorem not_isWhitespace_of_isIdentifierChar {c : Char} (h : isIdentifierChar chars c = true) :
    isWhitespace c = false := by
  rw [isIdentifierChar, Bool.or_eq_true, beq_iff_eq] at h
  rcases h with halphanumeric | rfl
  · exact chars.not_isWhitespace c halphanumeric
  · decide

/-- What follows does not go on with characters of the kind. -/
def Stops (kind : Char → Bool) (rest : List Char) : Prop := ∀ c ∈ rest.head?, kind c = false

@[simp] theorem stops_cons {kind : Char → Bool} {c : Char} :
    Stops kind (c :: rest) ↔ kind c = false := by simp [Stops]

@[simp] theorem stops_nil {kind : Char → Bool} : Stops kind [] := by simp [Stops]

theorem takeWhile_append_stops {kind : Char → Bool} (htext : ∀ c ∈ text, kind c = true)
    (hrest : Stops kind rest) : (text ++ rest).takeWhile kind = text := by
  rw [List.takeWhile_append_of_pos htext]
  cases rest with
  | nil => simp
  | cons c rest => simp [stops_cons.mp hrest]

theorem dropWhile_append_stops {kind : Char → Bool} (htext : ∀ c ∈ text, kind c = true)
    (hrest : Stops kind rest) : (text ++ rest).dropWhile kind = rest := by
  rw [List.dropWhile_append_of_pos htext]
  cases rest with
  | nil => rfl
  | cons c rest => simp [stops_cons.mp hrest]

theorem skipWhile_append {kind : Char → Bool} (htext : ∀ c ∈ text, kind c = true)
    (hrest : Stops kind rest) :
    (Parser.mk consumed (text ++ rest)).skipWhile kind = ⟨consumed ++ text, rest⟩ := by
  rw [skipWhile, takeWhile_append_stops htext hrest, dropWhile_append_stops htext hrest]

theorem skipWhitespace_stops (h : Stops isWhitespace rest) :
    (Parser.mk consumed rest).skipWhitespace = ⟨consumed, rest⟩ := by
  have hskip : (Parser.mk consumed ([] ++ rest)).skipWhitespace = ⟨consumed ++ [], rest⟩ :=
    skipWhile_append (fun _ hmem => absurd hmem List.not_mem_nil) h
  rwa [List.nil_append, List.append_nil] at hskip

theorem expect_cons {c : Char} (h : isWhitespace c = false) :
    (Parser.mk consumed (c :: rest)).expect c = .ok ⟨consumed ++ [c], rest⟩ := by
  simp only [expect, skipWhitespace_stops (stops_cons.mpr h), peek, List.head?_cons, ↓reduceIte,
    advance]

theorem parseIdentifier_append (field : Identifier chars)
    (hrest : Stops (isIdentifierChar chars) rest) :
    (Parser.mk consumed (field.name.toList ++ rest)).parseIdentifier chars =
      .ok (field.name, ⟨consumed ++ field.name.toList, rest⟩) := by
  have hspace : Stops isWhitespace (field.name.toList ++ rest) := by
    obtain ⟨c, text, htext⟩ := List.exists_cons_of_ne_nil field.ne_nil
    rw [htext, List.cons_append, stops_cons]
    exact not_isWhitespace_of_isIdentifierChar
      (field.isIdentifierChar c (htext ▸ List.mem_cons_self))
  simp only [parseIdentifier, skipWhitespace_stops hspace,
    skipWhile_append field.isIdentifierChar hrest,
    takeWhile_append_stops field.isIdentifierChar hrest]
  rw [if_neg (by simpa using field.ne_nil), String.ofList_toList]

theorem isNumberChar_of_isDigit {c : Char} (h : c.isDigit = true) : isNumberChar c = true := by
  rw [isNumberChar, h, Bool.true_or]

theorem not_isWhitespace_of_isNumberChar {c : Char} (h : isNumberChar c = true) :
    isWhitespace c = false := by
  rw [isNumberChar, Bool.or_eq_true, beq_iff_eq] at h
  rcases h with hdigit | rfl
  · exact isWhitespace_of_isAlphanum c (by rw [Char.isAlphanum, hdigit, Bool.or_true])
  · decide

theorem ne_minus_of_isNumberChar {c : Char} (h : isNumberChar c = true) : c ≠ '-' := by
  rintro rfl
  exact absurd h (by decide)

theorem takeSign_append {negative : Bool} (h : Stops (· == '-') rest) :
    (Parser.mk consumed (signText negative ++ rest)).takeSign =
      (signText negative, ⟨consumed ++ signText negative, rest⟩) := by
  cases negative with
  | true => rfl
  | false =>
    have hpeek : (Parser.mk consumed rest).peek ≠ some '-' := fun heq => by
      simpa using h '-' heq
    rw [signText, if_neg Bool.false_ne_true, List.nil_append, List.append_nil]
    exact if_neg hpeek

/-- A number is read up to where the digits stop. -/
theorem parseNumber_append {negative : Bool} {n : Float} (htext : ∀ c ∈ text, isNumberChar c = true)
    (hne : text ≠ []) (hdecimal : parseDecimal (signText negative ++ text) = some n)
    (hrest : Stops isNumberChar rest) :
    (Parser.mk consumed (signText negative ++ (text ++ rest))).parseNumber =
      .ok (n, ⟨consumed ++ signText negative ++ text, rest⟩) := by
  obtain ⟨c, tail, rfl⟩ := List.exists_cons_of_ne_nil hne
  have hc := htext c List.mem_cons_self
  have hspace : Stops isWhitespace (signText negative ++ (c :: tail ++ rest)) := by
    cases negative with
    | true => exact stops_cons.mpr (by decide)
    | false => exact stops_cons.mpr (not_isWhitespace_of_isNumberChar hc)
  have hsign : Stops (· == '-') (c :: tail ++ rest) :=
    stops_cons.mpr (beq_eq_false_iff_ne.mpr (ne_minus_of_isNumberChar hc))
  simp only [parseNumber, skipWhitespace_stops hspace, takeSign_append hsign,
    skipWhile_append htext hrest, takeWhile_append_stops htext hrest, hdecimal]
  rw [if_neg (by simp)]

theorem parseUnsigned_append {whole fraction : List Char} (hne : whole ≠ [])
    (hwhole : ∀ c ∈ whole, c.isDigit = true) (hfraction : ∀ c ∈ fraction, c.isDigit = true) :
    parseUnsigned (whole ++ if fraction.isEmpty then [] else '.' :: fraction) =
      some (Float.ofScientific (ofDigits (whole ++ fraction)) true fraction.length) := by
  have hstops : Stops Char.isDigit (if fraction.isEmpty then [] else '.' :: fraction) := by
    split
    · exact stops_nil
    · exact stops_cons.mpr (by decide)
  simp only [parseUnsigned, takeWhile_append_stops hwhole hstops,
    dropWhile_append_stops hwhole hstops]
  cases fraction with
  | nil => simp [hne]
  | cons c fraction =>
    rw [List.isEmpty_cons, if_neg Bool.false_ne_true]
    exact if_pos ⟨rfl, List.all_eq_true.mpr hfraction, by simp⟩

theorem parseDecimal_signText {negative : Bool} {n : Float} (hne : text ≠ [])
    (htext : ∀ c ∈ text, isNumberChar c = true) (h : parseUnsigned text = some n) :
    parseDecimal (signText negative ++ text) = some (if negative then -n else n) := by
  cases negative with
  | true =>
    change (parseUnsigned text).map (- ·) = _
    rw [h]
    rfl
  | false =>
    obtain ⟨c, tail, rfl⟩ := List.exists_cons_of_ne_nil hne
    have hc := ne_minus_of_isNumberChar (htext c List.mem_cons_self)
    have hhead : (c :: tail).head? ≠ some '-' := fun heq => hc (Option.some.inj heq)
    rw [signText, if_neg Bool.false_ne_true, List.nil_append, parseDecimal, if_neg hhead, h]
    rfl

theorem parseNumber_decimal (n : Decimal) (hrest : Stops isNumberChar rest) :
    (Parser.mk consumed (n.text ++ rest)).parseNumber = .ok (n.value, ⟨consumed ++ n.text, rest⟩) := by
  have htext : ∀ c ∈ n.whole ++ (if n.fraction.isEmpty then [] else '.' :: n.fraction),
      isNumberChar c = true := by
    intro c hc
    rcases List.mem_append.mp hc with hwhole | hfraction
    · exact isNumberChar_of_isDigit (n.whole_isDigit c hwhole)
    · split at hfraction
      · cases hfraction
      · rcases List.mem_cons.mp hfraction with rfl | hfraction
        · decide
        · exact isNumberChar_of_isDigit (n.fraction_isDigit c hfraction)
  have hne : n.whole ++ (if n.fraction.isEmpty then [] else '.' :: n.fraction) ≠ [] :=
    List.append_ne_nil_of_left_ne_nil n.whole_ne_nil _
  have hdecimal := @parseDecimal_signText _ n.negative _ hne htext
    (parseUnsigned_append n.whole_ne_nil n.whole_isDigit n.fraction_isDigit)
  rw [Decimal.text, List.append_assoc, parseNumber_append htext hne hdecimal hrest,
    List.append_assoc]
  rfl

theorem Decimal.exists_text (n : Decimal) :
    ∃ c tail, n.text = c :: tail ∧ (c.isDigit = true ∨ c = '-') := by
  obtain ⟨c, tail, htail⟩ := List.exists_cons_of_ne_nil n.whole_ne_nil
  unfold Decimal.text
  cases n.negative with
  | true => exact ⟨'-', _, rfl, .inr rfl⟩
  | false =>
    rw [htail]
    exact ⟨c, _, rfl, .inl (n.whole_isDigit c (htail ▸ List.mem_cons_self))⟩

theorem parseNumber_toDigits (n : Nat) (hrest : Stops isNumberChar rest) :
    (Parser.mk consumed (Nat.toDigits 10 n ++ rest)).parseNumber =
      .ok (Float.ofScientific n true 0, ⟨consumed ++ Nat.toDigits 10 n, rest⟩) := by
  have hdigits : ∀ c ∈ Nat.toDigits 10 n, c.isDigit = true :=
    fun c hc => Nat.isDigit_of_mem_toDigits (by decide) le_rfl hc
  have hparse := @parseNumber_decimal consumed rest
    ⟨false, Nat.toDigits 10 n, [], Nat.toDigits_ne_nil, hdigits, fun _ h => nomatch h⟩ hrest
  simpa [Decimal.text, Decimal.value, Decimal.magnitude, signText] using hparse

theorem parseBound_boundText (bound : Option Nat) {c : Char} (hdigit : c.isDigit = false)
    (hdot : c ≠ '.') :
    (Parser.mk consumed (boundText bound ++ c :: rest)).parseBound =
      .ok (bound.map readNat, ⟨consumed ++ boundText bound, c :: rest⟩) := by
  have hstops : Stops isNumberChar (c :: rest) := by
    rw [stops_cons, isNumberChar, hdigit, Bool.false_or, beq_eq_false_iff_ne]
    exact hdot
  cases bound with
  | none => simp [parseBound, boundText, peek, hdigit]
  | some n =>
    have hdigits : (Nat.toDigits 10 n ++ c :: rest).head?.any Char.isDigit = true := by
      obtain ⟨d, tail, htail⟩ := List.exists_cons_of_ne_nil (@Nat.toDigits_ne_nil n 10)
      rw [htail]
      exact Nat.isDigit_of_mem_toDigits (by decide) le_rfl (htail ▸ List.mem_cons_self)
    have hnumber := @parseNumber_toDigits consumed _ n hstops
    simp only [parseBound, boundText, Option.elim_some, peek, hdigits, ↓reduceIte, hnumber]
    rfl

theorem scanStringLiteral_quotedText (quote : Quote) (text before : List Char) :
    scanStringLiteral quote.char false before (quotedText quote text ++ quote.char :: rest) =
      some (before ++ quotedText quote text, rest) := by
  have hslash : '\\' ≠ quote.char := by cases quote <;> decide
  induction text generalizing before with
  | nil => simp [quotedText, scanStringLiteral]
  | cons c text ih =>
    rw [quotedText, List.flatMap_cons, ← quotedText]
    by_cases hescaped : c = '\\' ∨ c = quote.char
    · rw [if_pos hescaped]
      simp only [List.cons_append, List.nil_append, scanStringLiteral, Bool.false_eq_true,
        ↓reduceIte, hslash, beq_self_eq_true, ih, List.append_assoc]
    · have hne := not_or.mp hescaped
      rw [if_neg hescaped]
      simp only [List.cons_append, List.nil_append, scanStringLiteral, Bool.false_eq_true,
        ↓reduceIte, hne.2, beq_eq_false_iff_ne.mpr hne.1, ih, List.append_assoc]

theorem parseStringLiteral_quotedText (quote : Quote) (text : List Char) :
    (Parser.mk consumed (quote.char :: (quotedText quote text ++ quote.char :: rest))).parseStringLiteral =
      .ok (String.ofList (quotedText quote text),
        ⟨consumed ++ quote.char :: (quotedText quote text ++ [quote.char]), rest⟩) := by
  have hspace : isWhitespace quote.char = false := by cases quote <;> decide
  have hquote : quote.char = '\'' ∨ quote.char = '"' := by cases quote <;> decide
  simp only [parseStringLiteral, skipWhitespace_stops (stops_cons.mpr hspace), peek,
    List.head?_cons, hquote, ↓reduceIte, advance, scanStringLiteral_quotedText, List.nil_append,
    List.append_assoc, List.cons_append]

theorem stops_of_peek {kind : Char → Bool} {c : Char} (hpeek : (Parser.mk consumed rest).peek = some c)
    (hc : kind c = false) : Stops kind rest := fun d hd => by
  obtain rfl := Option.some.inj (hpeek.symm.trans hd)
  exact hc

theorem skipWhitespace_space (h : Stops isWhitespace rest) :
    (Parser.mk consumed (' ' :: rest)).skipWhitespace = ⟨consumed ++ [' '], rest⟩ :=
  @skipWhile_append consumed [' '] rest isWhitespace (List.all_eq_true.mp (by decide)) h

end Parts

section Steps

variable {chars : CharClasses} {consumed rest : List Char}

/-- A word of ASCII letters. -/
def Identifier.ofAscii (chars : CharClasses) (word : String) (hne : word.toList ≠ [])
    (h : ∀ c ∈ word.toList, c.toNat < 128 ∧ (c.isAlphanum || c == '_') = true) :
    Identifier chars where
  name := word
  ne_nil := hne
  isIdentifierChar c hc := (isIdentifierChar_ascii (h c hc).1).trans (h c hc).2

theorem parseWord_append (word : Identifier chars) (value : PredicateValue)
    (hrest : Stops (isIdentifierChar chars) rest) :
    (Parser.mk consumed (word.name.toList ++ rest)).parseWord chars word.name value =
      .ok (value, ⟨consumed ++ word.name.toList, rest⟩) := by
  simp only [parseWord, parseIdentifier_append word hrest, bind, Except.bind, ↓reduceIte]
  rfl

theorem stops_paren : Stops (isIdentifierChar chars) (')' :: rest) :=
  stops_cons.mpr ((isIdentifierChar_ascii (by decide)).trans (by decide))

/-- A value is read up to the parenthesis behind it. -/
theorem parsePredicateValue_text (value : LiteralSyntax) :
    (Parser.mk consumed (' ' :: (value.text ++ ')' :: rest))).parsePredicateValue chars =
      .ok (value.read, ⟨consumed ++ ' ' :: value.text, ')' :: rest⟩) := by
  cases value with
  | null =>
    have hpeek : (Parser.mk (consumed ++ [' ']) ("null".toList ++ ')' :: rest)).peek = some 'n' := rfl
    have hword := @parseWord_append chars (consumed ++ [' ']) _
      (.ofAscii chars "null" (by decide) (List.forall_iff_forall_mem.mp (by decide))) .null (@stops_paren chars rest)
    simp only [parsePredicateValue, LiteralSyntax.text,
      skipWhitespace_space (stops_of_peek hpeek (by decide)), hpeek]
    simpa [Identifier.ofAscii, LiteralSyntax.read, LiteralSyntax.meant] using hword
  | bool value =>
    cases value with
    | true =>
      have hpeek : (Parser.mk (consumed ++ [' ']) ("true".toList ++ ')' :: rest)).peek = some 't' := rfl
      have hword := @parseWord_append chars (consumed ++ [' ']) _
        (.ofAscii chars "true" (by decide) (List.forall_iff_forall_mem.mp (by decide))) (.bool true) (@stops_paren chars rest)
      simp only [parsePredicateValue, LiteralSyntax.text, ↓reduceIte,
        skipWhitespace_space (stops_of_peek hpeek (by decide)), hpeek]
      simpa [Identifier.ofAscii, LiteralSyntax.read, LiteralSyntax.meant] using hword
    | false =>
      have hpeek : (Parser.mk (consumed ++ [' ']) ("false".toList ++ ')' :: rest)).peek = some 'f' := rfl
      have hword := @parseWord_append chars (consumed ++ [' ']) _
        (.ofAscii chars "false" (by decide) (List.forall_iff_forall_mem.mp (by decide))) (.bool false) (@stops_paren chars rest)
      simp only [parsePredicateValue, LiteralSyntax.text, Bool.false_eq_true, ↓reduceIte,
        skipWhitespace_space (stops_of_peek hpeek (by decide)), hpeek]
      simpa [Identifier.ofAscii, LiteralSyntax.read, LiteralSyntax.meant] using hword
  | number n =>
    have hnumber := @parseNumber_decimal (consumed ++ [' ']) _ n
      (show Stops isNumberChar (')' :: rest) from stops_cons.mpr (by decide))
    obtain ⟨c, tail, htext, hc⟩ : ∃ c tail, n.text = c :: tail ∧ (c.isDigit = true ∨ c = '-') :=
      n.exists_text
    have hpeek : (Parser.mk (consumed ++ [' ']) (n.text ++ ')' :: rest)).peek = some c := by
      rw [htext]
      rfl
    have hletters : ¬ (c = '\'' ∨ c = '"') ∧ c ≠ 't' ∧ c ≠ 'f' ∧ c ≠ 'n' ∧ isWhitespace c = false := by
      rcases hc with hdigit | rfl
      · refine ⟨?_, ?_, ?_, ?_, not_isWhitespace_of_isNumberChar (isNumberChar_of_isDigit hdigit)⟩
        · rintro (rfl | rfl) <;> exact absurd hdigit (by decide)
        all_goals
          rintro rfl
          exact absurd hdigit (by decide)
      · decide
    simp only [parsePredicateValue, LiteralSyntax.text,
      skipWhitespace_space (stops_of_peek hpeek hletters.2.2.2.2), hpeek, hletters, hc, hnumber,
      ↓reduceIte, bind, Except.bind]
    simp [LiteralSyntax.read, LiteralSyntax.meant, pure, Except.pure]
  | string quote text =>
    have hpeek : (Parser.mk (consumed ++ [' '])
        (quote.char :: (quotedText quote text.toList ++ quote.char :: ')' :: rest))).peek =
        some quote.char := rfl
    have hquote : quote.char = '\'' ∨ quote.char = '"' := by cases quote <;> decide
    have hspace : isWhitespace quote.char = false := by cases quote <;> decide
    simp only [parsePredicateValue, LiteralSyntax.text, List.cons_append, List.append_assoc,
      List.nil_append, skipWhitespace_space (stops_of_peek hpeek hspace), hpeek, hquote, ↓reduceIte,
      parseStringLiteral_quotedText, bind, Except.bind]
    simp [LiteralSyntax.read, pure, Except.pure]

theorem parseCompare_text (name : String) (op : CompareOp) (value : LiteralSyntax) :
    (Parser.mk consumed (' ' :: (value.text ++ ')' :: rest))).parseCompare chars name op =
      .ok (.compare name op value.read, ⟨consumed ++ ' ' :: value.text, ')' :: rest⟩) := by
  simp only [parseCompare, parsePredicateValue_text, bind, Except.bind]
  rfl

theorem parsePredicateField_append (field : Identifier chars)
    (hrest : Stops (isIdentifierChar chars) rest) :
    (Parser.mk consumed ('@' :: '.' :: (field.name.toList ++ rest))).parsePredicateField chars =
      .ok (field.name, ⟨consumed ++ '@' :: '.' :: field.name.toList, rest⟩) := by
  have hspace : Stops isWhitespace ('@' :: '.' :: (field.name.toList ++ rest)) :=
    stops_cons.mpr (by decide)
  have hat : isWhitespace '@' = false := by decide
  have hdot : isWhitespace '.' = false := by decide
  simp only [parsePredicateField, skipWhitespace_stops hspace, expect_cons hat, expect_cons hdot,
    bind, Except.bind, parseIdentifier_append field hrest, List.append_assoc, List.cons_append,
    List.nil_append]

theorem parsePredicate_exists (field : Identifier chars) :
    (Parser.mk consumed ('@' :: '.' :: (field.name.toList ++ ')' :: rest))).parsePredicate chars =
      .ok (.exists field.name, ⟨consumed ++ '@' :: '.' :: field.name.toList, ')' :: rest⟩) := by
  have hspace : Stops isWhitespace (')' :: rest) := stops_cons.mpr (by decide)
  simp only [parsePredicate, parsePredicateField_append field stops_paren, bind, Except.bind,
    skipWhitespace_stops hspace, parsePredicateTest, peek, List.head?_cons, Option.some.injEq,
    show ¬ (')' = '=') by decide, show ¬ (')' = '!') by decide, show ¬ (')' = '<') by decide,
    show ¬ (')' = '>') by decide, ↓reduceIte]

/-- The operator and the value, up to the parenthesis behind them. -/
theorem parsePredicateTest_compare (name : String) (op : CompareOp) (value : LiteralSyntax) :
    (Parser.mk consumed (compareOpText op ++ ' ' :: (value.text ++ ')' :: rest))).parsePredicateTest
        chars name =
      .ok (.compare name op value.read,
        ⟨consumed ++ (compareOpText op ++ ' ' :: value.text), ')' :: rest⟩) := by
  have hcompare : ∀ consumed, (Parser.mk consumed (' ' :: (value.text ++ ')' :: rest))).parseCompare
      chars name op = .ok (.compare name op value.read, ⟨consumed ++ ' ' :: value.text, ')' :: rest⟩) :=
    fun consumed => parseCompare_text name op value
  cases op with
  | eq => exact (hcompare (consumed ++ ['='] ++ ['='])).trans (by simp [compareOpText])
  | ne =>
    have hequals : isWhitespace '=' = false := by decide
    change ((Parser.mk (consumed ++ ['!']) ('=' :: ' ' :: _)).expect '=' >>= _) = _
    rw [expect_cons hequals]
    exact (hcompare (consumed ++ ['!'] ++ ['='])).trans (by simp [compareOpText])
  | lt => exact (hcompare (consumed ++ ['<'])).trans (by simp [compareOpText])
  | le => exact (hcompare (consumed ++ ['<'] ++ ['='])).trans (by simp [compareOpText])
  | gt => exact (hcompare (consumed ++ ['>'])).trans (by simp [compareOpText])
  | ge => exact (hcompare (consumed ++ ['>'] ++ ['='])).trans (by simp [compareOpText])

theorem parsePredicate_compare (field : Identifier chars) (op : CompareOp) (value : LiteralSyntax) :
    (Parser.mk consumed ('@' :: '.' :: (field.name.toList ++ ' ' ::
        (compareOpText op ++ ' ' :: (value.text ++ ')' :: rest))))).parsePredicate chars =
      .ok (.compare field.name op value.read,
        ⟨consumed ++ '@' :: '.' :: (field.name.toList ++ ' ' :: (compareOpText op ++ ' ' :: value.text)),
          ')' :: rest⟩) := by
  have hfield : Stops (isIdentifierChar chars)
      (' ' :: (compareOpText op ++ ' ' :: (value.text ++ ')' :: rest))) :=
    stops_cons.mpr ((isIdentifierChar_ascii (by decide)).trans (by decide))
  have hspace : Stops isWhitespace (compareOpText op ++ ' ' :: (value.text ++ ')' :: rest)) := by
    cases op <;> exact stops_cons.mpr (by decide)
  simp only [parsePredicate, parsePredicateField_append field hfield, bind, Except.bind,
    skipWhitespace_space hspace, parsePredicateTest_compare]
  simp

theorem boundText_some (n : Nat) :
    ∃ c tail, boundText (some n) = c :: tail ∧ c.isDigit = true := by
  obtain ⟨c, tail, htail⟩ := List.exists_cons_of_ne_nil (@Nat.toDigits_ne_nil n 10)
  exact ⟨c, tail, htail, Nat.isDigit_of_mem_toDigits (by decide) le_rfl (htail ▸ List.mem_cons_self)⟩

theorem parseSliceStart_boundText (bound : Option Nat) {c : Char} (hdigit : c.isDigit = false)
    (hdot : c ≠ '.') :
    (Parser.mk consumed (boundText bound ++ c :: rest)).parseSliceStart =
      .ok (bound.map readNat, ⟨consumed ++ boundText bound, c :: rest⟩) := by
  unfold parseSliceStart
  split
  · rename_i hpeek
    cases bound with
    | none => simp [boundText]
    | some n =>
      obtain ⟨d, tail, htext, hd⟩ := boundText_some n
      rw [htext] at hpeek
      obtain rfl := Option.some.inj hpeek
      exact absurd hd (by decide)
  · exact parseBound_boundText bound hdigit hdot

theorem stops_boundText (bound : Option Nat) {c : Char} (hc : isWhitespace c = false) :
    Stops isWhitespace (boundText bound ++ c :: rest) := by
  cases bound with
  | none => exact stops_cons.mpr hc
  | some n =>
    obtain ⟨d, tail, htext, hd⟩ := boundText_some n
    rw [htext]
    exact stops_cons.mpr (not_isWhitespace_of_isNumberChar (isNumberChar_of_isDigit hd))

/-- The bounds of a slice. -/
theorem parseIndexOrSlice_slice (start stop : Option Nat) :
    (Parser.mk consumed (boundText start ++ ':' :: (boundText stop ++ ']' :: rest))).parseIndexOrSlice =
      .ok ((start.map readNat, stop.map readNat),
        ⟨consumed ++ (boundText start ++ ':' :: boundText stop), ']' :: rest⟩) := by
  have hcolon : isWhitespace ':' = false := by decide
  have hbracket : isWhitespace ']' = false := by decide
  have hstart := fun consumed rest =>
    @parseSliceStart_boundText consumed rest start ':' (by decide) (by decide)
  have hstop := fun consumed =>
    @parseBound_boundText consumed rest stop ']' (by decide) (by decide)
  simp only [parseIndexOrSlice, skipWhitespace_stops (stops_boundText start hcolon), hstart, bind,
    Except.bind, skipWhitespace_stops (stops_cons.mpr hcolon), peek, List.head?_cons, ↓reduceIte,
    advance, skipWhitespace_stops (stops_boundText stop hbracket), hstop]
  simp [pure, Except.pure]

theorem parseIndexOrSlice_index (n : Nat) :
    (Parser.mk consumed (Nat.toDigits 10 n ++ ']' :: rest)).parseIndexOrSlice =
      .ok ((some (readNat n), none), ⟨consumed ++ Nat.toDigits 10 n, ']' :: rest⟩) := by
  have hbracket : isWhitespace ']' = false := by decide
  have hstart := @parseSliceStart_boundText consumed rest (some n) ']' (by decide) (by decide)
  change (Parser.mk consumed (boundText (some n) ++ ']' :: rest)).parseIndexOrSlice = _
  simp only [parseIndexOrSlice, skipWhitespace_stops (stops_boundText (some n) hbracket), hstart,
    bind, Except.bind, skipWhitespace_stops (stops_cons.mpr hbracket), peek, List.head?_cons,
    Option.some.injEq, show ¬ (']' = ':') by decide, ↓reduceIte]
  rfl

/-- A digit or a colon behind a bracket starts an index or a slice. -/
theorem parseBracket_bounds {path : JsonPath} {c : Char} {text consumed' : List Char}
    {bounds : Option Nat × Option Nat} (hpeek : (Parser.mk consumed text).peek = some c)
    (hc : c.isDigit = true ∨ c = ':')
    (hbounds : (Parser.mk consumed text).parseIndexOrSlice = .ok (bounds, ⟨consumed', ']' :: rest⟩)) :
    (Parser.mk consumed text).parseBracket chars path =
      .ok (indexOrSlice (consumed'.contains ':') path bounds, ⟨consumed' ++ [']'], rest⟩) := by
  have hother : isWhitespace c = false ∧ c ≠ '*' ∧ c ≠ '?' ∧ ¬ (c = '\'' ∨ c = '"') := by
    rcases hc with hdigit | rfl
    · refine ⟨not_isWhitespace_of_isNumberChar (isNumberChar_of_isDigit hdigit), ?_, ?_, ?_⟩
      · rintro rfl
        exact absurd hdigit (by decide)
      · rintro rfl
        exact absurd hdigit (by decide)
      · rintro (rfl | rfl) <;> exact absurd hdigit (by decide)
    · decide
  have hkind : c.isDigit = true ∨ c = ':' ∨ c = '-' := hc.imp_right .inl
  have hbracket : isWhitespace ']' = false := by decide
  have hcolon : (consumed' ++ [']']).contains ':' = consumed'.contains ':' := by simp
  simp only [parseBracket, skipWhitespace_stops (stops_of_peek hpeek hother.1), hpeek, hother,
    ↓reduceIte, hkind, hbounds, bind, Except.bind, expect_cons hbracket, hcolon]
  rfl

theorem parseBracket_field (quote : Quote) (text : List Char) (path : JsonPath) :
    (Parser.mk consumed (quote.char :: (quotedText quote text ++ quote.char :: ']' :: rest))).parseBracket
        chars path =
      .ok (.field path (String.ofList (quotedText quote text)),
        ⟨consumed ++ quote.char :: (quotedText quote text ++ [quote.char, ']']), rest⟩) := by
  have hquote : quote.char = '\'' ∨ quote.char = '"' := by cases quote <;> decide
  have hspace : isWhitespace quote.char = false := by cases quote <;> decide
  have hother : quote.char ≠ '*' ∧ quote.char ≠ '?' := by cases quote <;> decide
  have hbracket : isWhitespace ']' = false := by decide
  simp only [parseBracket, skipWhitespace_stops (stops_cons.mpr hspace), peek, List.head?_cons,
    hother, ↓reduceIte, hquote, parseStringLiteral_quotedText, bind, Except.bind,
    expect_cons hbracket]
  simp [pure, Except.pure]

theorem parseBracket_wildcard (path : JsonPath) :
    (Parser.mk consumed ('*' :: ']' :: rest)).parseBracket chars path =
      .ok (.wildcard path, ⟨consumed ++ ['*', ']'], rest⟩) := by
  have hstar : isWhitespace '*' = false := by decide
  have hbracket : isWhitespace ']' = false := by decide
  simp only [parseBracket, skipWhitespace_stops (stops_cons.mpr hstar), peek, List.head?_cons,
    ↓reduceIte, advance, expect_cons hbracket, bind, Except.bind]
  simp [pure, Except.pure]

theorem parseBracket_filter {text after : List Char} {predicate : JsonPathPredicate} (path : JsonPath)
    (hpredicate : ∀ consumed, (Parser.mk consumed text).parsePredicate chars =
      .ok (predicate, ⟨consumed ++ after, ')' :: ']' :: rest⟩)) :
    (Parser.mk consumed ('?' :: '(' :: text)).parseBracket chars path =
      .ok (.filter path predicate, ⟨consumed ++ '?' :: '(' :: (after ++ [')', ']']), rest⟩) := by
  have hask : isWhitespace '?' = false := by decide
  have hopen : isWhitespace '(' = false := by decide
  have hclose : isWhitespace ')' = false := by decide
  have hbracket : isWhitespace ']' = false := by decide
  simp only [parseBracket, skipWhitespace_stops (stops_cons.mpr hask), peek, List.head?_cons,
    show ¬ ('?' = '*') by decide, ↓reduceIte, advance, expect_cons hopen, bind, Except.bind,
    hpredicate, expect_cons hclose, expect_cons hbracket]
  simp [pure, Except.pure]

theorem parseDot_field (field : Identifier chars) (path : JsonPath)
    (hrest : Stops (isIdentifierChar chars) rest) :
    (Parser.mk consumed (field.name.toList ++ rest)).parseDot chars path =
      .ok (.field path field.name, ⟨consumed ++ field.name.toList, rest⟩) := by
  have hpeek : ∀ c : Char, c.toNat < 128 → (c.isAlphanum || c == '_') = false →
      (Parser.mk consumed (field.name.toList ++ rest)).peek ≠ some c := fun c hascii hc heq => by
    obtain ⟨d, tail, htext⟩ := List.exists_cons_of_ne_nil field.ne_nil
    have hd := field.isIdentifierChar d (htext ▸ List.mem_cons_self)
    rw [htext] at heq
    obtain rfl := Option.some.inj heq
    rw [isIdentifierChar_ascii hascii, hc] at hd
    cases hd
  simp only [parseDot, hpeek '.' (by decide) (by decide), hpeek '*' (by decide) (by decide),
    ↓reduceIte, parseIdentifier_append field hrest, bind, Except.bind]
  rfl

theorem parseDot_recursiveField (field : Identifier chars) (path : JsonPath)
    (hrest : Stops (isIdentifierChar chars) rest) :
    (Parser.mk consumed ('.' :: (field.name.toList ++ rest))).parseDot chars path =
      .ok (.recursiveField path field.name, ⟨consumed ++ '.' :: field.name.toList, rest⟩) := by
  simp only [parseDot, peek, List.head?_cons, ↓reduceIte, advance,
    parseIdentifier_append field hrest, bind, Except.bind]
  simp [pure, Except.pure]

/-- One step is read as far as it is written. -/
theorem parseStep_text (step : StepSyntax chars) (path : JsonPath)
    (hrest : step.endsInName = true → Stops (isIdentifierChar chars) rest) :
    (Parser.mk consumed (step.text ++ rest)).parseStep chars path =
      .ok (some (path.then (step.read (consumed.contains ':')), ⟨consumed ++ step.text, rest⟩)) := by
  have hdot : isWhitespace '.' = false := by decide
  have hopen : isWhitespace '[' = false := by decide
  have hdotStep : ∀ text : List Char, (Parser.mk consumed ('.' :: text)).parseStep chars path =
      some <$> (Parser.mk (consumed ++ ['.']) text).parseDot chars path := fun text => by
    simp only [parseStep, skipWhitespace_stops (stops_cons.mpr hdot), peek, List.head?_cons,
      ↓reduceIte, advance]
  have hopenStep : ∀ text : List Char, (Parser.mk consumed ('[' :: text)).parseStep chars path =
      some <$> (Parser.mk (consumed ++ ['[']) text).parseBracket chars path := fun text => by
    simp only [parseStep, skipWhitespace_stops (stops_cons.mpr hopen), peek, List.head?_cons,
      Option.some.injEq, show ¬ ('[' = '.') by decide, ↓reduceIte, advance]
  cases step with
  | dotField field =>
    rw [StepSyntax.text, List.cons_append, hdotStep, parseDot_field field path (hrest rfl)]
    simp [StepSyntax.read, StepSyntax.meant, JsonPath.then]
  | quotedField quote name =>
    simp only [StepSyntax.text, List.cons_append, List.append_assoc, List.nil_append, hopenStep,
      parseBracket_field]
    simp [StepSyntax.read, JsonPath.then]
  | index n =>
    obtain ⟨c, tail, htext, hc⟩ := boundText_some n
    have hpeek : (Parser.mk (consumed ++ ['[']) (Nat.toDigits 10 n ++ ']' :: rest)).peek = some c :=
      congrArg (fun text => (text ++ ']' :: rest).head?) htext
    have hdigits : ':' ∉ Nat.toDigits 10 n := fun hmem =>
      absurd (Nat.isDigit_of_mem_toDigits (by decide) le_rfl hmem) (by decide)
    simp only [StepSyntax.text, List.cons_append, List.append_assoc, List.nil_append, hopenStep,
      parseBracket_bounds hpeek (.inl hc) (parseIndexOrSlice_index n)]
    cases hcolon : consumed.contains ':' <;>
      simp_all [StepSyntax.read, JsonPath.then, indexOrSlice]
  | slice start stop =>
    have hpeek : ∃ c, (Parser.mk (consumed ++ ['['])
        (boundText start ++ ':' :: (boundText stop ++ ']' :: rest))).peek = some c ∧
        (c.isDigit = true ∨ c = ':') := by
      cases start with
      | none => exact ⟨':', rfl, .inr rfl⟩
      | some n =>
        obtain ⟨c, tail, htext, hc⟩ := boundText_some n
        exact ⟨c, by rw [htext]; rfl, .inl hc⟩
    obtain ⟨c, hpeek, hc⟩ := hpeek
    simp only [StepSyntax.text, List.cons_append, List.append_assoc, List.nil_append, hopenStep,
      parseBracket_bounds hpeek hc (parseIndexOrSlice_slice start stop)]
    simp [StepSyntax.read, JsonPath.then, indexOrSlice]
  | dotWildcard =>
    rw [StepSyntax.text, List.cons_append, hdotStep]
    simp [parseDot, peek, advance, StepSyntax.read, StepSyntax.meant, JsonPath.then, pure, Except.pure]
  | bracketWildcard =>
    simp only [StepSyntax.text, List.cons_append, List.nil_append, hopenStep, parseBracket_wildcard]
    simp [StepSyntax.read, StepSyntax.meant, JsonPath.then]
  | recursiveField field =>
    rw [StepSyntax.text, List.cons_append, hdotStep, List.cons_append,
      parseDot_recursiveField field path (hrest rfl)]
    simp [StepSyntax.read, StepSyntax.meant, JsonPath.then]
  | filterExists field =>
    have hfilter := @parseBracket_filter chars (consumed ++ ['[']) rest _ _ _ path
      (fun consumed => @parsePredicate_exists chars consumed (']' :: rest) field)
    have htext : StepSyntax.text (.filterExists field) ++ rest =
        '[' :: '?' :: '(' :: '@' :: '.' :: (field.name.toList ++ ')' :: ']' :: rest) := by
      simp [StepSyntax.text]
    rw [htext, hopenStep, hfilter]
    simp [StepSyntax.read, StepSyntax.meant, StepSyntax.text, JsonPath.then]
  | filterCompare field op value =>
    have hfilter := @parseBracket_filter chars (consumed ++ ['[']) rest _ _ _ path
      (fun consumed => @parsePredicate_compare chars consumed (']' :: rest) field op value)
    have htext : StepSyntax.text (.filterCompare field op value) ++ rest =
        '[' :: '?' :: '(' :: '@' :: '.' :: (field.name.toList ++ ' ' ::
          (compareOpText op ++ ' ' :: (value.text ++ ')' :: ']' :: rest))) := by
      simp [StepSyntax.text]
    rw [htext, hopenStep, hfilter]
    simp [StepSyntax.read, StepSyntax.text, JsonPath.then]

end Steps

end Cynos.Jsonb
