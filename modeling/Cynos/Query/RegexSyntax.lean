import Cynos.Lib.Regex

/-! The documented regular expressions: their syntax, their text and where they match. -/
namespace Cynos.Query

open Regex (Quantifier Step)

inductive Shorthand where
  | digit
  | nonDigit
  | word
  | nonWord
  | whitespace
  | nonWhitespace
  deriving DecidableEq

inductive Control where
  | newline
  | tab
  | carriageReturn
  deriving DecidableEq

inductive BracketItem where
  | plain (c : Char)
  | escaped (c : Char)
  | control (control : Control)
  | shorthand (shorthand : Shorthand)
  | range (first last : Char)
  deriving DecidableEq

inductive Atom where
  | any
  | plain (c : Char)
  | escaped (c : Char)
  | control (control : Control)
  | shorthand (shorthand : Shorthand)
  | bracket (negated : Bool) (items : List BracketItem)
  deriving DecidableEq

inductive Term where
  | atom (atom : Atom) (quantifier : Quantifier)
  | group (alternatives : List (List Term)) (quantifier : Quantifier)
  | start
  | stop

section Text

def Shorthand.letter : Shorthand → Char
  | .digit => 'd'
  | .nonDigit => 'D'
  | .word => 'w'
  | .nonWord => 'W'
  | .whitespace => 's'
  | .nonWhitespace => 'S'

def Control.letter : Control → Char
  | .newline => 'n'
  | .tab => 't'
  | .carriageReturn => 'r'

def BracketItem.text : BracketItem → List Char
  | .plain c => [c]
  | .escaped c => ['\\', c]
  | .control c => ['\\', c.letter]
  | .shorthand s => ['\\', s.letter]
  | .range first last => [first, '-', last]

def itemsText (items : List BracketItem) : List Char := items.flatMap BracketItem.text

def Atom.text : Atom → List Char
  | .any => ['.']
  | .plain c => [c]
  | .escaped c => ['\\', c]
  | .control c => ['\\', c.letter]
  | .shorthand s => ['\\', s.letter]
  | .bracket false items => '[' :: itemsText items ++ [']']
  | .bracket true items => '[' :: '^' :: itemsText items ++ [']']

def quantifierText : Quantifier → List Char
  | .one => []
  | .star => ['*']
  | .plus => ['+']
  | .question => ['?']

mutual

def Term.text : Term → List Char
  | .atom atom quantifier => atom.text ++ quantifierText quantifier
  | .group alternatives quantifier =>
    '(' :: alternativesText alternatives ++ ')' :: quantifierText quantifier
  | .start => ['^']
  | .stop => ['$']

def sequenceText : List Term → List Char
  | [] => []
  | term :: terms => term.text ++ sequenceText terms

def alternativesText : List (List Term) → List Char
  | [] => []
  | terms :: alternatives =>
    match alternatives with
    | [] => sequenceText terms
    | _ :: _ => sequenceText terms ++ '|' :: alternativesText alternatives

end

end Text

section WellFormed

/-- An escaped character stands for itself when it is no letter and no digit. -/
def Escapable (c : Char) : Prop := c.isAlphanum = false

/-- No hyphen follows that would make a range. -/
def NoHyphen : List BracketItem → Prop
  | .plain c :: items => c = '-' → items = [] -- the hyphen before the bracket is one
  | .range first _ :: _ => first ≠ '-'
  | _ => True

def ItemsWellFormed : List BracketItem → Prop
  | [] => True
  | .plain c :: items => (c ≠ ']' ∧ c ≠ '\\') ∧ NoHyphen items ∧ ItemsWellFormed items
  | .escaped c :: items => Escapable c ∧ ItemsWellFormed items
  | .range first last :: items =>
    (first ≠ ']' ∧ first ≠ '\\') ∧ (last ≠ ']' ∧ last ≠ '\\') ∧ ItemsWellFormed items
  | .control _ :: items | .shorthand _ :: items => ItemsWellFormed items

def metacharacters : List Char := ['.', '*', '+', '?', '^', '$', '[', '(', ')', '|', '\\']

def Atom.WellFormed : Atom → Prop
  | .plain c => c ∉ metacharacters
  | .escaped c => Escapable c
  | .bracket negated items =>
    ItemsWellFormed items ∧ (negated = false → (itemsText items).head? ≠ some '^')
  | .any | .control _ | .shorthand _ => True

mutual

def Term.WellFormed : Term → Prop
  | .atom atom _ => atom.WellFormed
  | .group alternatives _ => alternatives ≠ [] ∧ AlternativesWellFormed alternatives
  | .start | .stop => True

def SequenceWellFormed : List Term → Prop
  | [] => True
  | term :: terms => term.WellFormed ∧ SequenceWellFormed terms

def AlternativesWellFormed : List (List Term) → Prop
  | [] => True
  | terms :: alternatives => SequenceWellFormed terms ∧ AlternativesWellFormed alternatives

end

end WellFormed

section Meaning

def verticalTab : Char := Char.ofNat 11

def formFeed : Char := Char.ofNat 12

def isSpace (c : Char) : Bool :=
  c == ' ' || c == '\t' || c == '\n' || c == verticalTab || c == formFeed || c == '\r'

def isWordChar (c : Char) : Bool := c.isAlphanum || c == '_'

def Shorthand.accepts : Shorthand → Char → Bool
  | .digit, c => c.isDigit
  | .nonDigit, c => !c.isDigit
  | .word, c => isWordChar c
  | .nonWord, c => !isWordChar c
  | .whitespace, c => isSpace c
  | .nonWhitespace, c => !isSpace c

def Control.char : Control → Char
  | .newline => '\n'
  | .tab => '\t'
  | .carriageReturn => '\r'

def BracketItem.accepts : BracketItem → Char → Bool
  | .plain expected, c | .escaped expected, c => c == expected
  | .control k, c => c == k.char
  | .shorthand s, c => s.accepts c
  | .range first last, c => decide (first ≤ c) && decide (c ≤ last)

def Atom.accepts : Atom → Char → Bool
  | .any, _ => true
  | .plain expected, c | .escaped expected, c => c == expected
  | .control k, c => c == k.char
  | .shorthand s, c => s.accepts c
  | .bracket negated items, c => (items.any fun item => item.accepts c) ^^ negated

mutual

/-- Where a pattern matches in a text: from a position up to another one. -/
def Term.Matches (s : List Char) : Term → Nat → Nat → Prop
  | .atom atom quantifier => quantifier.Repeats (Step s atom.accepts)
  | .group alternatives quantifier => quantifier.Repeats (AlternativesMatch s alternatives)
  | .start => fun i j => i = 0 ∧ j = i
  | .stop => fun i j => i = s.length ∧ j = i

def SequenceMatches (s : List Char) : List Term → Nat → Nat → Prop
  | [] => fun i j => i = j
  | term :: terms => fun i j => ∃ m, term.Matches s i m ∧ SequenceMatches s terms m j

def AlternativesMatch (s : List Char) : List (List Term) → Nat → Nat → Prop
  | [] => fun _ _ => False
  | terms :: alternatives => fun i j =>
    SequenceMatches s terms i j ∨ AlternativesMatch s alternatives i j

end

/-- Some part of the text is in the language of the pattern. -/
def Found (value : String) (pattern : List (List Term)) : Prop :=
  ∃ i j, i ≤ value.toList.length ∧ AlternativesMatch value.toList pattern i j

end Meaning

end Cynos.Query
