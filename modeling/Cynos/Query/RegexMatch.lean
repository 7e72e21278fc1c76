import Cynos.Lib.Regex

/-! The regular expressions of the runner: a pattern becomes a list of instructions, over which
the matcher backtracks. -/
namespace Cynos.Query

open Regex (runLength)

inductive CharClassItem where
  | char (c : Char)
  | range (first last : Char)
  deriving DecidableEq

inductive RegexOp where
  | start
  | end
  | char (c : Char)
  | any
  | digit
  | nonDigit
  | word
  | nonWord
  | whitespace
  | nonWhitespace
  | charClass (items : List CharClassItem)
  | negCharClass (items : List CharClassItem)
  | star (inner : RegexOp)
  | plus (inner : RegexOp)
  | question (inner : RegexOp)
  | groupStart
  | groupEnd
  | groupStar
  | groupPlus
  | groupQuestion
  | alternation
  deriving DecidableEq

section Compile

def applyQuantifier (chars : List Char) (ops : List RegexOp) (base : RegexOp) :
    List RegexOp × List Char :=
  match chars with
  | [] => (ops ++ [base], [])
  | q :: rest =>
    if q = '*' then (ops ++ [.star base], rest)
    else if q = '+' then (ops ++ [.plus base], rest)
    else if q = '?' then (ops ++ [.question base], rest)
    else (ops ++ [base], q :: rest)

/-- The quantifier behind a group. -/
def applyGroupQuantifier (chars : List Char) (ops : List RegexOp) : List RegexOp × List Char :=
  match chars with
  | [] => (ops, [])
  | q :: rest =>
    if q = '*' then (ops ++ [.groupStar], rest)
    else if q = '+' then (ops ++ [.groupPlus], rest)
    else if q = '?' then (ops ++ [.groupQuestion], rest)
    else (ops, q :: rest)

def escapeOp (escaped : Char) : RegexOp :=
  if escaped = 'd' then .digit
  else if escaped = 'D' then .nonDigit
  else if escaped = 'w' then .word
  else if escaped = 'W' then .nonWord
  else if escaped = 's' then .whitespace
  else if escaped = 'S' then .nonWhitespace
  else if escaped = 'n' then .char '\n'
  else if escaped = 't' then .char '\t'
  else if escaped = 'r' then .char '\r'
  else .char escaped

def classEscape (escaped : Char) : List CharClassItem :=
  if escaped = 'n' then [.char '\n']
  else if escaped = 't' then [.char '\t']
  else if escaped = 'r' then [.char '\r']
  else if escaped = 'd' then [.range '0' '9']
  else if escaped = 'w' then [.range 'a' 'z', .range 'A' 'Z', .range '0' '9', .char '_']
  else if escaped = 's' then [.char ' ', .char '\t', .char '\n', .char '\r']
  else [.char escaped]

/-- The loop of `parse_char_class`: the items up to the closing bracket and the text after it. -/
def parseClassItems (items : List CharClassItem) :
    List Char → Option (List CharClassItem × List Char)
  | [] => none
  | c :: chars =>
    if c = ']' then some (items, chars)
    else if c = '\\' then
      match chars with
      | [] => none
      | escaped :: chars => parseClassItems (items ++ classEscape escaped) chars
    else
      match chars with
      | [] => none
      | d :: chars =>
        if d = '-' then
          match chars with
          | [] => none
          | last :: chars =>
            if last = ']' then some (items ++ [.char c, .char '-'], chars)
            else parseClassItems (items ++ [.range c last]) chars
        else parseClassItems (items ++ [.char c]) (d :: chars)

section ClassItems

variable {items : List CharClassItem} {c d last : Char} {chars : List Char}

theorem parseClassItems_close : parseClassItems items (']' :: chars) = some (items, chars) := by
  rw [parseClassItems.eq_def]
  rfl

theorem parseClassItems_escape {escaped : Char} :
    parseClassItems items ('\\' :: escaped :: chars) =
      parseClassItems (items ++ classEscape escaped) chars := by
  rw [parseClassItems.eq_def]
  rfl

theorem parseClassItems_char (hclose : c ≠ ']') (hescape : c ≠ '\\') (hd : d ≠ '-') :
    parseClassItems items (c :: d :: chars) =
      parseClassItems (items ++ [.char c]) (d :: chars) := by
  conv_lhs => rw [parseClassItems.eq_def]
  simp only [hclose, hescape, hd, ↓reduceIte]

theorem parseClassItems_range (hclose : c ≠ ']') (hescape : c ≠ '\\') (hlast : last ≠ ']') :
    parseClassItems items (c :: '-' :: last :: chars) =
      parseClassItems (items ++ [.range c last]) chars := by
  conv_lhs => rw [parseClassItems.eq_def]
  simp only [hclose, hescape, hlast, ↓reduceIte]

/-- A hyphen before the bracket is one. -/
theorem parseClassItems_hyphen (hclose : c ≠ ']') (hescape : c ≠ '\\') :
    parseClassItems items (c :: '-' :: ']' :: chars) =
      some (items ++ [.char c, .char '-'], chars) := by
  rw [parseClassItems.eq_def]
  simp only [hclose, hescape, ↓reduceIte]

end ClassItems

/-- The instruction for a bracket class and the text after it. -/
def parseCharClass (chars : List Char) : Option (RegexOp × List Char) :=
  match chars with
  | [] => none
  | c :: rest =>
    if c = '^' then (parseClassItems [] rest).map fun parsed => (.negCharClass parsed.1, parsed.2)
    else (parseClassItems [] chars).map fun parsed => (.charClass parsed.1, parsed.2)

theorem applyQuantifier_length (chars : List Char) (ops : List RegexOp) (base : RegexOp) :
    (applyQuantifier chars ops base).2.length ≤ chars.length := by
  unfold applyQuantifier
  split
  · exact Nat.le_refl 0
  · split_ifs <;> simp

theorem applyGroupQuantifier_length (chars : List Char) (ops : List RegexOp) :
    (applyGroupQuantifier chars ops).2.length ≤ chars.length := by
  unfold applyGroupQuantifier
  split
  · exact Nat.le_refl 0
  · split_ifs <;> simp

theorem parseClassItems_length {items items' : List CharClassItem} {chars rest : List Char}
    (h : parseClassItems items chars = some (items', rest)) : rest.length < chars.length := by
  fun_induction parseClassItems items chars
  all_goals first
    | cases h
      done
    | obtain ⟨-, rfl⟩ := Prod.mk.inj (Option.some.inj h)
      simp only [List.length_cons]
      omega
    | rename_i ih
      have := ih h
      simp only [List.length_cons] at this ⊢
      omega

theorem parseCharClass_length {chars rest : List Char} {op : RegexOp}
    (h : parseCharClass chars = some (op, rest)) : rest.length < chars.length := by
  unfold parseCharClass at h
  split at h
  · cases h
  · split_ifs at h
    · obtain ⟨parsed, hparsed, heq⟩ := Option.map_eq_some_iff.mp h
      obtain ⟨-, rfl⟩ := Prod.mk.inj heq
      exact Nat.lt_succ_of_lt (parseClassItems_length hparsed)
    · obtain ⟨parsed, hparsed, heq⟩ := Option.map_eq_some_iff.mp h
      obtain ⟨-, rfl⟩ := Prod.mk.inj heq
      exact parseClassItems_length hparsed

/-- The loop of `compile_regex`. -/
def compileFrom (chars : List Char) (ops : List RegexOp) (inGroup : Bool) :
    Option (List RegexOp) :=
  match chars with
  | [] => if inGroup then none else some ops
  | c :: chars =>
    if c = '^' ∧ ops.isEmpty then compileFrom chars (ops ++ [.start]) inGroup
    else if c = '$' ∧ chars.isEmpty then compileFrom chars (ops ++ [.end]) inGroup
    else if c = '.' then
      compileFrom (applyQuantifier chars ops .any).2 (applyQuantifier chars ops .any).1 inGroup
    else if c = '*' ∨ c = '+' ∨ c = '?' then none
    else if c = '\\' then
      match chars with
      | [] => none
      | escaped :: chars =>
        compileFrom (applyQuantifier chars ops (escapeOp escaped)).2
          (applyQuantifier chars ops (escapeOp escaped)).1 inGroup
    else if c = '[' then
      match _hparsed : parseCharClass chars with
      | none => none
      | some (op, rest) =>
        compileFrom (applyQuantifier rest ops op).2 (applyQuantifier rest ops op).1 inGroup
    else if c = '(' then compileFrom chars (ops ++ [.groupStart]) true
    else if c = ')' then
      if inGroup then
        compileFrom (applyGroupQuantifier chars (ops ++ [.groupEnd])).2
          (applyGroupQuantifier chars (ops ++ [.groupEnd])).1 false
      else none
    else if c = '|' then compileFrom chars (ops ++ [.alternation]) inGroup
    else
      compileFrom (applyQuantifier chars ops (.char c)).2 (applyQuantifier chars ops (.char c)).1
        inGroup
termination_by chars.length
decreasing_by
  all_goals
    simp only [List.length_cons]
    first
    | omega
    | exact Nat.lt_succ_of_le (applyQuantifier_length _ _ _)
    | exact Nat.lt_succ_of_le (applyGroupQuantifier_length _ _)
    | have := applyQuantifier_length ‹_› ops (escapeOp ‹_›)
      omega
    | have := parseCharClass_length _hparsed
      have := applyQuantifier_length rest ops op
      omega

section CompileFrom

variable {ops : List RegexOp} {inGroup : Bool} {chars rest : List Char} {c escaped : Char}
  {op : RegexOp}

theorem compileFrom_start : compileFrom ('^' :: chars) [] inGroup =
    compileFrom chars [.start] inGroup := by
  conv_lhs => rw [compileFrom.eq_def]
  rfl

theorem compileFrom_end : compileFrom ['$'] ops inGroup =
    compileFrom [] (ops ++ [.end]) inGroup := by
  conv_lhs => rw [compileFrom.eq_def]
  simp

theorem compileFrom_any : compileFrom ('.' :: chars) ops inGroup =
    compileFrom (applyQuantifier chars ops .any).2 (applyQuantifier chars ops .any).1 inGroup := by
  conv_lhs => rw [compileFrom.eq_def]
  simp

theorem compileFrom_escape : compileFrom ('\\' :: escaped :: chars) ops inGroup =
    compileFrom (applyQuantifier chars ops (escapeOp escaped)).2
      (applyQuantifier chars ops (escapeOp escaped)).1 inGroup := by
  conv_lhs => rw [compileFrom.eq_def]
  simp

theorem compileFrom_bracket (h : parseCharClass chars = some (op, rest)) :
    compileFrom ('[' :: chars) ops inGroup =
      compileFrom (applyQuantifier rest ops op).2 (applyQuantifier rest ops op).1 inGroup := by
  conv_lhs => rw [compileFrom.eq_def]
  simp only [Char.reduceEq, false_and, ↓reduceIte, or_self]
  split
  · rename_i hnone
    cases h.symm.trans hnone
  · rename_i hsome
    cases h.symm.trans hsome
    rfl

theorem compileFrom_open : compileFrom ('(' :: chars) ops inGroup =
    compileFrom chars (ops ++ [.groupStart]) true := by
  conv_lhs => rw [compileFrom.eq_def]
  simp

theorem compileFrom_close : compileFrom (')' :: chars) ops true =
    compileFrom (applyGroupQuantifier chars (ops ++ [.groupEnd])).2
      (applyGroupQuantifier chars (ops ++ [.groupEnd])).1 false := by
  conv_lhs => rw [compileFrom.eq_def]
  simp

theorem compileFrom_char
    (hc : c ∉ ['.', '*', '+', '?', '^', '$', '[', '(', ')', '|', '\\']) :
    compileFrom (c :: chars) ops inGroup =
      compileFrom (applyQuantifier chars ops (.char c)).2 (applyQuantifier chars ops (.char c)).1
        inGroup := by
  simp only [List.mem_cons, List.not_mem_nil, or_false, not_or] at hc
  conv_lhs => rw [compileFrom.eq_def]
  simp [hc]

end CompileFrom

def compileRegex (pattern : String) : Option (List RegexOp) := compileFrom pattern.toList [] false

end Compile

section Match

def isAsciiWhitespace (c : Char) : Bool :=
  c == ' ' || c == '\t' || c == '\n' || c == Char.ofNat 12 || c == '\r'

def isWord (c : Char) : Bool := c.isAlphanum || c == '_'

def charMatchesClass (c : Char) (items : List CharClassItem) : Bool :=
  items.any fun
    | .char ch => c == ch
    | .range first last => decide (first ≤ c) && decide (c ≤ last)

def singleOpMatches (op : RegexOp) (c : Char) : Bool :=
  match op with
  | .char expected => c == expected
  | .any => true
  | .digit => c.isDigit
  | .nonDigit => !c.isDigit
  | .word => isWord c
  | .nonWord => !isWord c
  | .whitespace => isAsciiWhitespace c
  | .nonWhitespace => !isAsciiWhitespace c
  | .charClass items => charMatchesClass c items
  | .negCharClass items => !charMatchesClass c items
  | _ => false

/-- The instructions from a position on; those of groups do nothing. -/
def regexMatchOps (chars : List Char) : List RegexOp → Nat → Bool
  | [], _ => true
  | op :: ops, pos =>
    let one := fun accepts => chars[pos]?.any accepts && regexMatchOps chars ops (pos + 1)
    match op with
    | .end => pos == chars.length
    | .char c => one (· == c)
    | .any => one fun _ => true
    | .digit => one (·.isDigit)
    | .nonDigit => one (!·.isDigit)
    | .word => one isWord
    | .nonWord => one (!isWord ·)
    | .whitespace => one isAsciiWhitespace
    | .nonWhitespace => one (!isAsciiWhitespace ·)
    | .charClass items => one (charMatchesClass · items)
    | .negCharClass items => one (!charMatchesClass · items)
    | .star inner =>
      (List.range' pos (runLength chars (singleOpMatches inner) pos + 1)).reverse.any
        (regexMatchOps chars ops)
    | .plus inner =>
      if chars[pos]?.any (singleOpMatches inner) then
        (List.range' (pos + 1) (runLength chars (singleOpMatches inner) (pos + 1) + 1)).reverse.any
          (regexMatchOps chars ops)
      else false
    | .question inner =>
      chars[pos]?.any (singleOpMatches inner) && regexMatchOps chars ops (pos + 1) ||
        regexMatchOps chars ops pos
    | .start | .groupStart | .groupEnd | .groupStar | .groupPlus | .groupQuestion
    | .alternation => regexMatchOps chars ops pos

/-- The instructions between the alternations that are in no group. -/
def splitAlternatives : List RegexOp → Int → List RegexOp → List (List RegexOp)
  | [], _, current => [current]
  | op :: ops, depth, current =>
    match op with
    | .groupStart => splitAlternatives ops (depth + 1) (current ++ [op])
    | .groupEnd => splitAlternatives ops (depth - 1) (current ++ [op])
    | .alternation =>
      if depth = 0 then current :: splitAlternatives ops depth []
      else splitAlternatives ops depth (current ++ [op])
    | _ => splitAlternatives ops depth (current ++ [op])

def regexMatchCompiled (value : String) (ops : List RegexOp) : Bool :=
  let chars := value.toList
  let alternatives := splitAlternatives ops 0 []
  if 1 < alternatives.length then alternatives.any fun alt => regexMatchOps chars alt 0
  else if ops.head? = some .start then regexMatchOps chars ops.tail 0
  else (List.range (chars.length + 1)).any (regexMatchOps chars ops)

def matchRegexPattern (value pattern : String) : Bool :=
  match compileRegex pattern with
  | none => false
  | some ops => regexMatchCompiled value ops

end Match

end Cynos.Query
