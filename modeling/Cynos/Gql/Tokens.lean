import Cynos.Gql.ParserSafe
import Mathlib.Data.List.TakeWhile

/-! The tokens of documents, and the texts that show them with anything ignored in between. -/
namespace Cynos.Gql

open Cursor
open Json (CodeUnit Numeral ShortEscape)

section Tokens

inductive Punctuator where
  | bang
  | dollar
  | parenOpen
  | parenClose
  | colon
  | equals
  | at
  | bracketOpen
  | bracketClose
  | braceOpen
  | braceClose
deriving DecidableEq

def Punctuator.char : Punctuator → Char
  | bang => '!'
  | dollar => '$'
  | parenOpen => '('
  | parenClose => ')'
  | colon => ':'
  | equals => '='
  | .at => '@'
  | bracketOpen => '['
  | bracketClose => ']'
  | braceOpen => '\x7b'
  | braceClose => '\x7d'

structure Name where
  start : Char
  rest : List Char
  isStart : isNameStart start = true
  isContinue : ∀ c ∈ rest, isNameContinue c = true

def Name.chars (n : Name) : List Char := n.start :: n.rest

def Name.string (n : Name) : String := String.ofList n.chars

/-- How a character of a string is written. -/
inductive StringItem where
  | raw (c : Char) (plain : c ≠ '"' ∧ c ≠ '\\')
  | short (escape : ShortEscape)
  | unicode (u : CodeUnit) (scalar : u.value.isValidChar)

def StringItem.text : StringItem → List Char
  | .raw c _ => [c]
  | .short e => ['\\', e.letter]
  | .unicode u _ => '\\' :: 'u' :: u.digits

def StringItem.char : StringItem → Char
  | .raw c _ => c
  | .short e => e.char
  | .unicode u _ => Char.ofNat u.value

def stringValue (items : List StringItem) : String := String.ofList (items.map StringItem.char)

inductive Token where
  | punct (p : Punctuator)
  | name (n : Name)
  | number (n : Numeral)
  | string (items : List StringItem)

def Token.text : Token → List Char
  | .punct p => [p.char]
  | .name n => n.chars
  | .number n => n.text
  | .string items => '"' :: (items.flatMap StringItem.text ++ ['"'])

/-- A name or a number, which ends where no letter or digit follows. -/
def Token.isWord : Token → Bool
  | .name _ | .number _ => true
  | .punct _ | .string _ => false

end Tokens

section Layout

variable (lineEnd : Char → Bool)

/-- What is ignored between tokens: whitespace, commas, and comments up to the end of a line. -/
inductive Gap : List Char → Prop
  | nil : Gap []
  | blank {c : Char} {s : List Char} (h : isIgnored c = true) (hs : Gap s) : Gap (c :: s)
  | comment {line : List Char} {c : Char} {s : List Char} (hline : ∀ d ∈ line, lineEnd d = false)
      (hc : lineEnd c = true) (hs : Gap s) : Gap ('#' :: line ++ c :: s)

/-- A text that shows the tokens, where the last comment may end with the text. -/
inductive Laid : List Token → List Char → Prop
  | stop {gap : List Char} (hgap : Gap lineEnd gap) : Laid [] gap
  | comment {gap line : List Char} (hgap : Gap lineEnd gap) (hline : ∀ d ∈ line, lineEnd d = false) :
      Laid [] (gap ++ '#' :: line)
  | next {gap rest : List Char} {t : Token} {ts : List Token} (hgap : Gap lineEnd gap)
      (hrest : Laid ts rest)
      (hword : t.isWord = true → ∀ c ∈ rest.head?, isNameContinue c = false) :
      Laid (t :: ts) (gap ++ (t.text ++ rest))

end Layout

section Heads

def isLineFeed (c : Char) : Bool := c == '\n'

/-- The first character of a token. -/
def Token.head : Token → Char
  | .punct p => p.char
  | .name n => n.start
  | .number n => n.text.headD '-'
  | .string _ => '"'

variable {t : Token} {ts : List Token} {s s' gap rest : List Char} {p : Punctuator}

theorem Token.text_eq (t : Token) : ∃ tail, t.text = t.head :: tail := by
  cases t with
  | punct p => exact ⟨_, rfl⟩
  | name n => exact ⟨_, rfl⟩
  | string items => exact ⟨_, rfl⟩
  | number n =>
    obtain ⟨c, chars, h, -⟩ := Core.numeralText_head n
    refine ⟨chars, ?_⟩
    change n.text = n.text.headD '-' :: chars
    rw [h]
    rfl

/-- What a token starts with. -/
inductive Starts : Token → Char → Prop
  | punct (p : Punctuator) : Starts (.punct p) p.char
  | name {n : Name} {c : Char} (h : isNameStart c = true) : Starts (.name n) c
  | minus {n : Numeral} : Starts (.number n) '-'
  | digit {n : Numeral} {c : Char} (h : c.isDigit = true) : Starts (.number n) c
  | string {items : List StringItem} : Starts (.string items) '"'

theorem Token.starts (t : Token) : Starts t t.head := by
  cases t with
  | punct p => exact .punct p
  | name n => exact .name n.isStart
  | string items => exact .string
  | number n =>
    obtain ⟨c, chars, h, hc⟩ := Core.numeralText_head n
    have hhead : (Token.number n).head = c := by
      change n.text.headD '-' = c
      rw [h]
      rfl
    rw [hhead]
    rcases hc with rfl | hc
    · exact .minus
    · exact .digit hc

theorem isNameStart_cases {c : Char} (h : isNameStart c = true) :
    c.toNat = 95 ∨ (65 ≤ c.toNat ∧ c.toNat ≤ 90) ∨ (97 ≤ c.toNat ∧ c.toNat ≤ 122) := by
  unfold isNameStart at h
  rcases Bool.or_eq_true_iff.mp h with h | h
  · exact .inl (by rw [beq_iff_eq.mp h]; rfl)
  · right
    change ((decide (c.val ≥ 65 ∧ c.val ≤ 90) || (decide (c.val ≥ 97) && decide (c.val ≤ 122))) :
      Bool) = true at h
    simp only [Bool.or_eq_true, Bool.and_eq_true, decide_eq_true_eq, UInt32.le_iff_toNat_le,
      ge_iff_le] at h
    exact h

theorem isDigit_cases {c : Char} (h : c.isDigit = true) : 48 ≤ c.toNat ∧ c.toNat ≤ 57 := by
  change (decide (c.val ≥ 48) && decide (c.val ≤ 57)) = true at h
  simp only [Bool.and_eq_true, decide_eq_true_eq, UInt32.le_iff_toNat_le, ge_iff_le] at h
  exact h

theorem Punctuator.char_inj (q p : Punctuator) : q.char = p.char ↔ q = p := by
  cases q <;> cases p <;> decide

/-- A character that starts a word, a number or a string is no punctuator. -/
theorem starts_punct {c : Char} (h : Starts t c) : c = p.char ↔ t = .punct p := by
  cases h with
  | punct q => rw [q.char_inj, Token.punct.injEq]
  | name hc =>
    refine iff_of_false (fun heq => ?_) nofun
    have := isNameStart_cases hc
    rw [heq] at this
    revert this
    cases p <;> decide
  | minus => cases p <;> exact iff_of_false (by decide) nofun
  | digit hc =>
    refine iff_of_false (fun heq => ?_) nofun
    have := isDigit_cases hc
    rw [heq] at this
    revert this
    cases p <;> decide
  | string => cases p <;> exact iff_of_false (by decide) nofun

theorem isIgnored_cases {c : Char} (h : isIgnored c = true) :
    c.toNat = 44 ∨ c.toNat ≤ 32 ∨ 128 ≤ c.toNat := by
  unfold isIgnored Core.isWhitespace at h
  simp only [Bool.or_eq_true, Bool.and_eq_true, decide_eq_true_eq, beq_iff_eq] at h
  rcases h with h | rfl
  · omega
  · exact .inl rfl

/-- Tokens start with nothing that is ignored, nor with a dot. -/
theorem starts_solid {c : Char} (h : Starts t c) :
    isIgnored c = false ∧ c ≠ '#' ∧ c ≠ '.' := by
  have hcode : c.toNat = 45 ∨ c.toNat = 34 ∨ (c.toNat = 33 ∨ c.toNat = 36 ∨ c.toNat = 40 ∨
      c.toNat = 41 ∨ (48 ≤ c.toNat ∧ c.toNat ≤ 58) ∨ c.toNat = 61 ∨
      (64 ≤ c.toNat ∧ c.toNat ≤ 125)) := by
    cases h with
    | punct p => cases p <;> decide
    | name hc =>
      have := isNameStart_cases hc
      omega
    | minus => exact .inl rfl
    | digit hc =>
      have := isDigit_cases hc
      omega
    | string => exact .inr (.inl rfl)
  refine ⟨?_, fun heq => ?_, fun heq => ?_⟩
  · rw [Bool.eq_false_iff]
    intro hc
    have := isIgnored_cases hc
    omega
  · rw [heq] at hcode
    exact absurd hcode (by decide)
  · rw [heq] at hcode
    exact absurd hcode (by decide)

end Heads

section Layout

variable {t : Token} {ts : List Token} {s s' line : List Char} {p : Punctuator}

/-- A text in which the first token stands at once. -/
inductive Front : List Token → List Char → Prop
  | nil : Front [] []
  | cons {t : Token} {ts : List Token} {rest : List Char} (hrest : Laid isLineFeed ts rest)
      (hword : t.isWord = true → ∀ c ∈ rest.head?, isNameContinue c = false) :
      Front (t :: ts) (t.text ++ rest)

theorem Front.laid (h : Front ts s) : Laid isLineFeed ts s := by
  cases h with
  | nil => exact .stop .nil
  | cons hrest hword => exact .next .nil hrest hword

theorem Front.head (h : Front (t :: ts) s) : s.head? = some t.head := by
  cases h with
  | cons hrest hword =>
    obtain ⟨tail, htail⟩ := t.text_eq
    rw [htail]
    rfl

/-- A punctuator is seen in front exactly when it is the first token. -/
theorem Front.peek (h : Front ts s) : s.head? = some p.char ↔ ts.head? = some (.punct p) := by
  cases ts with
  | nil =>
    cases h
    exact iff_of_false nofun nofun
  | cons t ts =>
    rw [h.head, List.head?_cons, Option.some.injEq, Option.some.injEq]
    exact starts_punct t.starts

theorem Front.punct (h : Front (.punct p :: ts) s) : ∃ s', s = p.char :: s' ∧ Laid isLineFeed ts s' := by
  cases h with
  | cons hrest hword => exact ⟨_, rfl, hrest⟩

theorem dropWhile_line (hline : ∀ d ∈ line, isLineFeed d = false) {c : Char}
    (hc : isLineFeed c = true) : ((line ++ c :: s).dropWhile (· != '\n')).tail = s := by
  rw [List.dropWhile_append_of_pos fun d hd => bne_iff_ne.mpr (beq_eq_false_iff_ne.mp (hline d hd)),
    List.dropWhile_cons_of_neg (by rw [beq_iff_eq.mp hc]; decide)]
  rfl

/-- Skipping goes over a gap. -/
theorem stripped_gap {gap rest : List Char} (hgap : Gap isLineFeed gap) (h : Stripped (gap ++ rest) s') :
    Stripped rest s' := by
  induction hgap with
  | nil => exact h
  | @blank c s hc hs ih =>
    have hdrop : ((c :: s) ++ rest).dropWhile isIgnored = (s ++ rest).dropWhile isIgnored :=
      List.dropWhile_cons_of_pos hc
    apply ih
    cases h with
    | stop h =>
      rw [hdrop] at h ⊢
      exact .stop h
    | line h hrest =>
      rw [hdrop] at h
      exact .line h hrest
  | @comment line c s hline hc hs ih =>
    have hdrop : (('#' :: line ++ c :: s) ++ rest).dropWhile isIgnored =
        '#' :: (line ++ c :: (s ++ rest)) := by
      rw [List.append_assoc]
      exact List.dropWhile_cons_of_neg (by decide)
    apply ih
    cases h with
    | stop h =>
      rw [hdrop] at h
      exact absurd rfl h
    | line h hrest =>
      rw [hdrop] at h
      rw [← (List.cons.inj h).2, dropWhile_line hline hc] at hrest
      exact hrest

theorem stripped_solid {c : Char} (hc : isIgnored c = false) (hhash : c ≠ '#')
    (h : Stripped (c :: s) s') : s' = c :: s := by
  have hdrop : (c :: s).dropWhile isIgnored = c :: s :=
    List.dropWhile_cons_of_neg (by rw [hc]; decide)
  cases h with
  | stop h => exact hdrop
  | line h hrest =>
    rw [hdrop] at h
    exact absurd (List.cons.inj h).1 hhash

theorem stripped_comment (hline : ∀ d ∈ line, isLineFeed d = false)
    (h : Stripped ('#' :: line) s') : s' = [] := by
  have hdrop : ('#' :: line).dropWhile isIgnored = '#' :: line :=
    List.dropWhile_cons_of_neg (by decide)
  cases h with
  | stop h =>
    rw [hdrop] at h
    exact absurd rfl h
  | line h hrest =>
    rw [hdrop] at h
    rw [← (List.cons.inj h).2, List.dropWhile_eq_nil_iff.mpr fun d hd =>
      bne_iff_ne.mpr (beq_eq_false_iff_ne.mp (hline d hd))] at hrest
    cases hrest with
    | stop h => rfl
    | line h hrest => cases h

/-- Behind what is ignored is the first token. -/
theorem front_of_laid (h : Laid isLineFeed ts s) (hs : Stripped s s') : Front ts s' := by
  cases h with
  | stop hgap =>
    rw [← List.append_nil s] at hs
    cases stripped_gap hgap hs with
    | stop h => exact .nil
    | line h hrest => cases h
  | comment hgap hline =>
    rw [stripped_comment hline (stripped_gap hgap hs)]
    exact .nil
  | @next gap rest t ts hgap hrest hword =>
    obtain ⟨tail, htail⟩ := t.text_eq
    have hstripped := stripped_gap hgap hs
    obtain ⟨hignored, hhash, -⟩ := starts_solid t.starts
    rw [htail] at hstripped
    rw [stripped_solid hignored hhash hstripped]
    change Front _ (t.head :: tail ++ rest)
    rw [← htail]
    exact .cons hrest hword

theorem Laid.length_le (h : Laid isLineFeed ts s) : ts.length ≤ s.length := by
  induction h with
  | stop hgap => exact Nat.zero_le _
  | comment hgap hline => exact Nat.zero_le _
  | @next gap rest t ts hgap hrest hword ih =>
    obtain ⟨tail, htail⟩ := t.text_eq
    rw [htail, List.length_cons, List.length_append, List.length_append, List.length_cons]
    omega

/-- In front of a text is what is ignored, or its first token. -/
theorem Laid.head_ne {c : Char} (h : Laid isLineFeed ts s) (hc : isIgnored c = false ∧ c ≠ '#')
    (hhead : ts.head?.map Token.head ≠ some c) : s.head? ≠ some c := by
  have hgap : ∀ gap rest : List Char, Gap isLineFeed gap → rest.head? ≠ some c →
      (gap ++ rest).head? ≠ some c := by
    intro gap rest hgap hrest
    cases hgap with
    | nil => exact hrest
    | blank hblank hs =>
      rintro ⟨⟩
      exact absurd (hc.1.symm.trans hblank) Bool.false_ne_true
    | comment hline hend hs =>
      rintro ⟨⟩
      exact hc.2 rfl
  cases h with
  | stop hgap' =>
    have := hgap s [] hgap' nofun
    rwa [List.append_nil] at this
  | comment hgap' hline =>
    refine hgap _ _ hgap' ?_
    rintro ⟨⟩
    exact hc.2 rfl
  | @next gap rest t ts hgap' hrest hword =>
    refine hgap _ _ hgap' ?_
    obtain ⟨tail, htail⟩ := t.text_eq
    rw [htail]
    exact hhead

/-- No dot follows a token. -/
theorem Laid.head_ne_dot (h : Laid isLineFeed ts s) : s.head? ≠ some '.' := by
  refine h.head_ne (by decide) ?_
  cases ts with
  | nil => exact nofun
  | cons t ts => exact fun heq => (starts_solid t.starts).2.2 (Option.some.inj heq)

end Layout

end Cynos.Gql
