import Cynos.Core.Text
import Cynos.Lib.Regex

/-! LIKE and regular expressions as incremental maintenance evaluates them. -/
namespace Cynos.Core.PatternMatch

open Regex (runLength)

section Like

/-- The rest of a text against the rest of a pattern. -/
def likeRecursive : List Char → List Char → Bool
  | [], v => v.isEmpty
  | c :: p, v =>
    if c = '%' then v.tails.any (likeRecursive p)
    else
      match v with
      | [] => false
      | ch :: v => (c = '_' || ch == c) && likeRecursive p v

def like (value pattern : String) : Bool := likeRecursive pattern.toList value.toList

end Like

section Tokens

variable (classes : CharClasses)

def escapeMatches (next : Char) (c : Char) : Bool :=
  if next = 'd' then c.isDigit
  else if next = 'w' then classes.isAlphanumeric c || c == '_'
  else if next = 's' then isWhitespace c
  else if next = 'D' then !c.isDigit
  else if next = 'W' then !classes.isAlphanumeric c && c != '_'
  else if next = 'S' then !isWhitespace c
  else c == next

/-- The characters of a bracket class, read as they stand. -/
def classMatches : List Char → Char → Bool
  | [], _ => false
  | a :: d :: b :: rest, c =>
    if d = '-' then (decide (a ≤ c) && decide (c ≤ b)) || classMatches rest c
    else c == a || classMatches (d :: b :: rest) c
  | a :: rest, c => c == a || classMatches rest c

theorem classMatches_cons {rest : List Char}
    (h : ∀ d b rest', rest = d :: b :: rest' → d ≠ '-') (a c : Char) :
    classMatches (a :: rest) c = (c == a || classMatches rest c) := by
  cases rest with
  | nil => rfl
  | cons d rest =>
    cases rest with
    | nil => rfl
    | cons b rest => rw [classMatches, if_neg (h d b rest rfl)]

def parseBracketClass (pat : List Char) : Option (List Char × (Char → Bool)) :=
  let negate := pat.head? == some '^'
  let body := if negate then pat.tail else pat
  match body.dropWhile (· != ']') with
  | [] => none
  | _ :: rest => some (rest, fun c => classMatches (body.takeWhile (· != ']')) c ^^ negate)

/-- One token: the text after it and the characters that it matches. -/
def parseToken : List Char → Option (List Char × (Char → Bool))
  | [] => none
  | c :: rest =>
    if c = '.' then some (rest, fun _ => true)
    else if c = '[' then parseBracketClass rest
    else
      match rest with
      | next :: rest' =>
        if c = '\\' then some (rest', escapeMatches classes next) else some (rest, (· == c))
      | [] => some ([], (· == c))

theorem parseBracketClass_length {pat rest : List Char} {matcher : Char → Bool}
    (h : parseBracketClass pat = some (rest, matcher)) : rest.length < pat.length := by
  unfold parseBracketClass at h
  dsimp only at h
  split at h
  · cases h
  · rename_i hdrop
    obtain ⟨rfl, -⟩ := Prod.mk.inj (Option.some.inj h)
    have hsuffix := (List.dropWhile_suffix (l := if pat.head? == some '^' then pat.tail else pat)
      (· != ']')).length_le
    rw [hdrop, List.length_cons] at hsuffix
    split at hsuffix
    · rw [List.length_tail] at hsuffix
      omega
    · exact hsuffix

theorem parseToken_length {pat rest : List Char} {matcher : Char → Bool}
    (h : parseToken classes pat = some (rest, matcher)) : rest.length < pat.length := by
  cases pat with
  | nil => cases h
  | cons c pat =>
    rw [parseToken.eq_def] at h
    dsimp only at h
    split_ifs at h
    · obtain ⟨rfl, -⟩ := Prod.mk.inj (Option.some.inj h)
      exact Nat.lt_succ_self _
    · exact Nat.lt_succ_of_lt (parseBracketClass_length h)
    all_goals
      split at h
      · obtain ⟨rfl, -⟩ := Prod.mk.inj (Option.some.inj h)
        simp only [List.length_cons]
        omega
      · obtain ⟨rfl, -⟩ := Prod.mk.inj (Option.some.inj h)
        exact Nat.succ_pos _

end Tokens

section Match

variable (classes : CharClasses)

/-- The end of the match that starts at a position, the greedy one first. -/
def regexMatchAt (chars pat : List Char) (ci : Nat) : Option Nat :=
  if pat.isEmpty then some ci
  else
    match _htoken : parseToken classes pat with
    | none => none
    | some (next, matcher) =>
      let star := fun from' => (List.range' from' (runLength chars matcher from' + 1)).reverse
      if next.head? = some '*' then (star ci).findSome? (regexMatchAt chars next.tail)
      else if next.head? = some '+' then
        if chars[ci]?.any matcher then (star (ci + 1)).findSome? (regexMatchAt chars next.tail)
        else none
      else if next.head? = some '?' then
        if chars[ci]?.any matcher then
          (regexMatchAt chars next.tail (ci + 1)).or (regexMatchAt chars next.tail ci)
        else regexMatchAt chars next.tail ci
      else if chars[ci]?.any matcher then regexMatchAt chars next (ci + 1)
      else none
termination_by pat.length
decreasing_by
  all_goals
    have := parseToken_length classes _htoken
    first
      | omega
      | (rw [List.length_tail]; omega)

/-- The pattern between its anchors, and which of them it has. -/
def parseAnchors (pattern : List Char) : List Char × Bool × Bool :=
  let start := ['^'].isPrefixOf pattern
  let stop := ['$'].isSuffixOf pattern && !(['\\', '$'].isSuffixOf pattern)
  let p := if start then pattern.tail else pattern
  let p := if stop && !p.isEmpty then p.dropLast else p
  (p, start, stop)

def regex (value pattern : String) : Bool :=
  let (pat, anchoredStart, anchoredEnd) := parseAnchors pattern.toList
  let chars := value.toList
  if anchoredStart && anchoredEnd then regexMatchAt classes chars pat 0 == some chars.length
  else if anchoredStart then (regexMatchAt classes chars pat 0).isSome
  else
    (List.range (chars.length + 1)).any fun start =>
      (regexMatchAt classes chars pat start).any fun stop => !anchoredEnd || stop == chars.length

end Match

end Cynos.Core.PatternMatch
