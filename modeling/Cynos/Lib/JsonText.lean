import Mathlib.Data.List.Basic

/-! Texts in the grammar of JSON, each built from its tokens, and the automaton that follows how
deep in brackets a text is and whether in a string. -/
namespace Cynos.Json

section Tokens

def isBlank (c : Char) : Bool := c == ' ' || c == '\t' || c == '\n' || c == '\r'

/-- What may stand between two tokens. -/
structure Blank where
  chars : List Char
  blank : ∀ c ∈ chars, isBlank c = true

def Blank.none : Blank := ⟨[], fun _ h => by cases h⟩

structure Digits where
  chars : List Char
  digits : ∀ c ∈ chars, c.isDigit = true
  nonempty : chars ≠ []

structure Exponent where
  upper : Bool
  negative : Option Bool -- whether the sign, where there is one, is a minus
  digits : Digits

structure Numeral where
  negative : Bool
  whole : Digits
  canonical : whole.chars = ['0'] ∨ whole.chars.head? ≠ some '0'
  fraction : Option Digits
  exponent : Option Exponent

inductive ShortEscape where
  | quote
  | backslash
  | slash
  | backspace
  | formFeed
  | newline
  | carriageReturn
  | tab
  deriving DecidableEq

def isHex (c : Char) : Bool :=
  c.isDigit || (decide ('a' ≤ c) && decide (c ≤ 'f')) || (decide ('A' ≤ c) && decide (c ≤ 'F'))

def hexValue (c : Char) : Nat :=
  if c.isDigit then c.toNat - '0'.toNat
  else if 'a' ≤ c then c.toNat - 'a'.toNat + 10
  else c.toNat - 'A'.toNat + 10

/-- A unit of UTF-16 in four hexadecimal digits. -/
structure CodeUnit where
  digits : List Char
  hex : ∀ c ∈ digits, isHex c = true
  length : digits.length = 4

def CodeUnit.value (u : CodeUnit) : Nat := u.digits.foldl (fun n c => 16 * n + hexValue c) 0

inductive StringItem where
  | plain (c : Char) (printable : c ≠ '"' ∧ c ≠ '\\' ∧ 0x20 ≤ c.toNat)
  | short (escape : ShortEscape)
  | unicode (u : CodeUnit) (scalar : u.value < 0xD800 ∨ 0xE000 ≤ u.value)
  | surrogates (high low : CodeUnit) (highRange : 0xD800 ≤ high.value ∧ high.value < 0xDC00)
    (lowRange : 0xDC00 ≤ low.value ∧ low.value < 0xE000)

/-- A key with what stands around it, up to the value. -/
structure Key where
  before : Blank
  name : List StringItem
  after : Blank
  gap : Blank

end Tokens

section Grammar

mutual

inductive Doc where
  | null
  | bool (value : Bool)
  | number (number : Numeral)
  | string (items : List StringItem)
  | emptyArray (blank : Blank)
  | array (elements : Elements)
  | emptyObject (blank : Blank)
  | object (members : Members)

inductive Elements where
  | last (before : Blank) (value : Doc) (after : Blank)
  | cons (before : Blank) (value : Doc) (after : Blank) (rest : Elements)

inductive Members where
  | last (key : Key) (value : Doc) (after : Blank)
  | cons (key : Key) (value : Doc) (after : Blank) (rest : Members)

end

/-- Induction over a value together with its elements and members. -/
theorem Doc.induct {P : Doc → Prop} {Q : Elements → Prop} {R : Members → Prop}
    (null : P .null) (bool : ∀ b, P (.bool b)) (number : ∀ n, P (.number n))
    (string : ∀ items, P (.string items)) (emptyArray : ∀ blank, P (.emptyArray blank))
    (array : ∀ es, Q es → P (.array es)) (emptyObject : ∀ blank, P (.emptyObject blank))
    (object : ∀ ms, R ms → P (.object ms))
    (lastElement : ∀ before value after, P value → Q (.last before value after))
    (consElement : ∀ before value after rest, P value → Q rest →
      Q (.cons before value after rest))
    (lastMember : ∀ key value after, P value → R (.last key value after))
    (consMember : ∀ key value after rest, P value → R rest → R (.cons key value after rest))
    (d : Doc) : P d :=
  @Doc.rec P Q R null bool number string emptyArray array
    emptyObject object lastElement consElement lastMember consMember d

/-- Induction along the elements of an array. -/
theorem Elements.induct {Q : Elements → Prop}
    (last : ∀ before value after, Q (.last before value after))
    (cons : ∀ before value after rest, Q rest → Q (.cons before value after rest))
    (es : Elements) : Q es :=
  @Elements.rec (fun _ => True) Q (fun _ => True) trivial (fun _ => trivial) (fun _ => trivial)
    (fun _ => trivial) (fun _ => trivial) (fun _ _ => trivial) (fun _ => trivial)
    (fun _ _ => trivial) (fun before value after _ => last before value after)
    (fun before value after rest _ h => cons before value after rest h) (fun _ _ _ _ => trivial)
    (fun _ _ _ _ _ _ => trivial) es

/-- Induction along the members of an object. -/
theorem Members.induct {R : Members → Prop}
    (last : ∀ key value after, R (.last key value after))
    (cons : ∀ key value after rest, R rest → R (.cons key value after rest))
    (ms : Members) : R ms :=
  @Members.rec (fun _ => True) (fun _ => True) R trivial (fun _ => trivial) (fun _ => trivial)
    (fun _ => trivial) (fun _ => trivial) (fun _ _ => trivial) (fun _ => trivial)
    (fun _ _ => trivial) (fun _ _ _ _ => trivial) (fun _ _ _ _ _ _ => trivial)
    (fun key value after _ => last key value after)
    (fun key value after rest _ h => cons key value after rest h) ms

end Grammar

section Text

def signText : Option Bool → List Char
  | none => []
  | some true => ['-']
  | some false => ['+']

def Exponent.text (e : Exponent) : List Char :=
  (if e.upper then 'E' else 'e') :: (signText e.negative ++ e.digits.chars)

def fractionText : Option Digits → List Char
  | none => []
  | some digits => '.' :: digits.chars

def exponentText : Option Exponent → List Char
  | none => []
  | some e => e.text

/-- The text of a number behind its sign. -/
def Numeral.unsignedText (n : Numeral) : List Char :=
  n.whole.chars ++ (fractionText n.fraction ++ exponentText n.exponent)

def Numeral.text (n : Numeral) : List Char :=
  (if n.negative then ['-'] else []) ++ n.unsignedText

def ShortEscape.letter : ShortEscape → Char
  | .quote => '"'
  | .backslash => '\\'
  | .slash => '/'
  | .backspace => 'b'
  | .formFeed => 'f'
  | .newline => 'n'
  | .carriageReturn => 'r'
  | .tab => 't'

def StringItem.text : StringItem → List Char
  | .plain c _ => [c]
  | .short e => ['\\', e.letter]
  | .unicode u _ => '\\' :: 'u' :: u.digits
  | .surrogates high low _ _ => '\\' :: 'u' :: high.digits ++ '\\' :: 'u' :: low.digits

def stringText (items : List StringItem) : List Char := items.flatMap StringItem.text

def quoted (items : List StringItem) : List Char := '"' :: stringText items ++ ['"']

def Key.text (k : Key) : List Char :=
  k.before.chars ++ quoted k.name ++ k.after.chars ++ ':' :: k.gap.chars

mutual

def Doc.text : Doc → List Char
  | .null => ['n', 'u', 'l', 'l']
  | .bool true => ['t', 'r', 'u', 'e']
  | .bool false => ['f', 'a', 'l', 's', 'e']
  | .number n => n.text
  | .string items => quoted items
  | .emptyArray blank => '[' :: blank.chars ++ [']']
  | .array elements => '[' :: elements.text ++ [']']
  | .emptyObject blank => '{' :: blank.chars ++ ['}']
  | .object members => '{' :: members.text ++ ['}']

def Elements.text : Elements → List Char
  | .last before value after => before.chars ++ value.text ++ after.chars
  | .cons before value after rest =>
    before.chars ++ value.text ++ after.chars ++ ',' :: rest.text

def Members.text : Members → List Char
  | .last key value after => key.text ++ value.text ++ after.chars
  | .cons key value after rest => key.text ++ value.text ++ after.chars ++ ',' :: rest.text

end

end Text

section Strings

mutual

/-- A property of the strings and one of the keys, at every depth. -/
def Doc.All (P N : List StringItem → Prop) : Doc → Prop
  | .string items => P items
  | .array elements => elements.All P N
  | .object members => members.All P N
  | .null | .bool _ | .number _ | .emptyArray _ | .emptyObject _ => True

def Elements.All (P N : List StringItem → Prop) : Elements → Prop
  | .last _ value _ => value.All P N
  | .cons _ value _ rest => value.All P N ∧ rest.All P N

def Members.All (P N : List StringItem → Prop) : Members → Prop
  | .last key value _ => N key.name ∧ value.All P N
  | .cons key value _ rest => N key.name ∧ value.All P N ∧ rest.All P N

end

end Strings

section Meaning

/-- The digits of a number without its dot. -/
def Numeral.mantissa (n : Numeral) : Nat :=
  Nat.ofDigitChars 10 (n.whole.chars ++ (n.fraction.map Digits.chars).getD []) 0

def Exponent.value (e : Exponent) : Int :=
  let n : Int := Nat.ofDigitChars 10 e.digits.chars 0
  if e.negative = some true then -n else n

/-- The power of ten that the digits are multiplied by. -/
def Numeral.power (n : Numeral) : Int :=
  (n.exponent.map Exponent.value).getD 0 - ((n.fraction.map Digits.chars).getD []).length

def ShortEscape.char : ShortEscape → Char
  | .quote => '"'
  | .backslash => '\\'
  | .slash => '/'
  | .backspace => Char.ofNat 8
  | .formFeed => Char.ofNat 12
  | .newline => '\n'
  | .carriageReturn => '\r'
  | .tab => '\t'

/-- The character that an item of a string stands for. -/
def StringItem.char : StringItem → Char
  | .plain c _ => c
  | .short e => e.char
  | .unicode u _ => Char.ofNat u.value
  | .surrogates high low _ _ =>
    Char.ofNat (0x10000 + (high.value - 0xD800) * 0x400 + (low.value - 0xDC00))

def decode (items : List StringItem) : String := String.ofList (items.map StringItem.char)

end Meaning

section Scan

/-- How deep in brackets, whether in a string, and whether behind a backslash there. -/
structure Scan where
  depth : Int
  inString : Bool
  escape : Bool
  deriving DecidableEq

namespace Scan

/-- Outside of strings. -/
def outside (depth : Int) : Scan := ⟨depth, false, false⟩

/-- Inside of a string. -/
def within (depth : Int) : Scan := ⟨depth, true, false⟩

def step (st : Scan) (c : Char) : Scan :=
  if st.escape then { st with escape := false }
  else if c = '\\' ∧ st.inString then { st with escape := true }
  else if c = '"' then { st with inString := !st.inString }
  else if st.inString then st
  else if c = '{' ∨ c = '[' then { st with depth := st.depth + 1 }
  else if c = '}' ∨ c = ']' then { st with depth := st.depth - 1 }
  else st

def run (st : Scan) (text : List Char) : Scan := text.foldl step st

/-- A property of each character with the state that it is read in. -/
def Along (P : Scan → Char → Prop) : Scan → List Char → Prop
  | _, [] => True
  | st, c :: text => P st c ∧ Along P (st.step c) text

variable {P Q : Scan → Char → Prop} {st st' : Scan} {text text' : List Char} {c : Char} {e : Int}

@[simp] theorem run_nil : run st [] = st := rfl

@[simp] theorem run_cons : run st (c :: text) = run (st.step c) text := rfl

theorem run_append : run st (text ++ text') = run (run st text) text' := List.foldl_append

theorem along_append :
    Along P st (text ++ text') ↔ Along P st text ∧ Along P (run st text) text' := by
  induction text generalizing st with
  | nil => simp [Along]
  | cons c text ih => simp [Along, ih, and_assoc]

theorem Along.imp (h : Along P st text) (himp : ∀ st c, P st c → Q st c) : Along Q st text := by
  induction text generalizing st with
  | nil => trivial
  | cons c text ih => exact ⟨himp st c h.1, ih h.2⟩

/-- Over a text and back to the state it was entered in, with a property all along. -/
structure Passes (P : Scan → Char → Prop) (st : Scan) (text : List Char) (st' : Scan) : Prop where
  along : Along P st text
  run : run st text = st'

theorem Passes.nil (st : Scan) : Passes P st [] st := ⟨trivial, rfl⟩

theorem Passes.append {st'' : Scan} (h : Passes P st text st') (h' : Passes P st' text' st'') :
    Passes P st (text ++ text') st'' := by
  obtain ⟨halong, hrun⟩ := h
  subst hrun
  exact ⟨along_append.mpr ⟨halong, h'.along⟩, run_append.trans h'.run⟩

theorem Passes.cons {st'' : Scan} (hstep : st.step c = st') (hc : P st c)
    (h : Passes P st' text st'') : Passes P st (c :: text) st'' := by
  subst hstep
  exact ⟨⟨hc, h.along⟩, h.run⟩

theorem Passes.imp (h : Passes P st text st') (himp : ∀ st c, P st c → Q st c) :
    Passes Q st text st' := ⟨h.along.imp himp, h.run⟩

/-- No bracket and no quote. -/
def Inert (c : Char) : Prop := c ≠ '"' ∧ c ≠ '{' ∧ c ≠ '[' ∧ c ≠ '}' ∧ c ≠ ']'

instance : DecidablePred Inert := fun c =>
  inferInstanceAs (Decidable (c ≠ '"' ∧ c ≠ '{' ∧ c ≠ '[' ∧ c ≠ '}' ∧ c ≠ ']'))

theorem step_inert (h : Inert c) : (outside e).step c = outside e := by
  simp [step, outside, h.1, h.2.1, h.2.2.1, h.2.2.2.1, h.2.2.2.2]

/-- Characters that leave the scanner where it is. -/
theorem Passes.inert (h : ∀ c ∈ text, Inert c ∧ P (outside e) c) :
    Passes P (outside e) text (outside e) := by
  induction text with
  | nil => exact .nil _
  | cons c text ih =>
    obtain ⟨⟨hinert, hc⟩, htext⟩ := List.forall_mem_cons.mp h
    exact .cons (step_inert hinert) hc (ih htext)

/-- At least so deep; and just so deep, only inside of strings are separators and ends read. -/
def Inside (e : Int) (st : Scan) (c : Char) : Prop :=
  e ≤ st.depth ∧ (st = outside e → c ≠ ',' ∧ c ≠ ':' ∧ c ≠ '}' ∧ c ≠ ']')

variable {e' : Int}

theorem inside_of_lt (h : e < st.depth) (c : Char) : Inside e st c :=
  ⟨Int.le_of_lt h, fun hst => by
    rw [hst] at h
    exact absurd h (Int.lt_irrefl e)⟩

theorem inside_of_ne (h : e ≤ e') (hc : c ≠ ',' ∧ c ≠ ':' ∧ c ≠ '}' ∧ c ≠ ']') :
    Inside e (outside e') c := ⟨h, fun _ => hc⟩

theorem inside_string (h : e ≤ e') (escape : Bool) (c : Char) : Inside e ⟨e', true, escape⟩ c :=
  ⟨h, fun hst => by cases hst⟩

/-- No comma at the top, which would part the text. -/
def OnePart (st : Scan) (c : Char) : Prop := st = outside 0 → c ≠ ','

theorem onePart_of_inside (st : Scan) (c : Char) (h : Inside 0 st c) : OnePart st c :=
  fun hst => (h.2 hst).1

/-- No character that the grammar puts between tokens. -/
def Lexical (c : Char) : Prop := Inert c ∧ c ≠ ',' ∧ c ≠ ':'

instance : DecidablePred Lexical := fun c => inferInstanceAs (Decidable (Inert c ∧ c ≠ ',' ∧ c ≠ ':'))

theorem Passes.lexical (h : e ≤ e') (htext : ∀ c ∈ text, Lexical c) :
    Passes (Inside e) (outside e') text (outside e') :=
  .inert fun c hc =>
    have hlexical := htext c hc
    ⟨hlexical.1, inside_of_ne h ⟨hlexical.2.1, hlexical.2.2, hlexical.1.2.2.2.1,
      hlexical.1.2.2.2.2⟩⟩

end Scan

end Scan

section Lexical

open Scan (Lexical)

variable {c : Char}

theorem lexical_of_digit (h : c.isDigit = true) : Lexical c := by
  refine ⟨⟨?_, ?_, ?_, ?_, ?_⟩, ?_, ?_⟩ <;>
    · rintro rfl
      exact Bool.false_ne_true h

theorem lexical_of_blank (h : isBlank c = true) : Lexical c := by
  refine ⟨⟨?_, ?_, ?_, ?_, ?_⟩, ?_, ?_⟩ <;>
    · rintro rfl
      exact Bool.false_ne_true h

theorem Blank.lexical (b : Blank) : ∀ c ∈ b.chars, Lexical c :=
  fun c hc => lexical_of_blank (b.blank c hc)

/-- A character of a number. -/
def OfNumber (c : Char) : Prop := c.isDigit = true ∨ c ∈ ['-', '+', '.', 'e', 'E']

theorem ofNumber_sign {c' : Char} (h : c' ∈ ['-', '+', '.', 'e', 'E']) : ∀ c ∈ [c'], OfNumber c :=
  fun _ hc => List.mem_singleton.mp hc ▸ .inr h

theorem Digits.ofNumber (d : Digits) : ∀ c ∈ d.chars, OfNumber c :=
  fun c hc => .inl (d.digits c hc)

theorem Exponent.ofNumber (e : Exponent) : ∀ c ∈ e.text, OfNumber c := by
  obtain ⟨upper, negative, digits⟩ := e
  have hrest : ∀ c ∈ signText negative ++ digits.chars, OfNumber c := by
    refine List.forall_mem_append.mpr ⟨?_, digits.ofNumber⟩
    rcases negative with _ | _ | _
    · exact fun c hc => by cases hc
    · exact ofNumber_sign (by decide)
    · exact ofNumber_sign (by decide)
  have hmark : OfNumber (if upper then 'E' else 'e') := by
    cases upper <;> exact .inr (by decide)
  exact List.forall_mem_cons.mpr ⟨hmark, hrest⟩

theorem Numeral.ofNumber (n : Numeral) : ∀ c ∈ n.text, OfNumber c := by
  obtain ⟨negative, whole, canonical, fraction, exponent⟩ := n
  simp only [Numeral.text, Numeral.unsignedText, List.forall_mem_append]
  refine ⟨?_, whole.ofNumber, ?_, ?_⟩
  · cases negative with
    | false => exact fun c hc => by cases hc
    | true => exact ofNumber_sign (by decide)
  · cases fraction with
    | none => exact fun c hc => by cases hc
    | some digits =>
      exact List.forall_mem_cons.mpr ⟨.inr (by decide), digits.ofNumber⟩
  · cases exponent with
    | none => exact fun c hc => by cases hc
    | some e => exact e.ofNumber

theorem lexical_of_number (h : OfNumber c) : Lexical c := by
  rcases h with h | h
  · exact lexical_of_digit h
  · simp only [List.mem_cons, List.not_mem_nil, or_false] at h
    rcases h with rfl | rfl | rfl | rfl | rfl <;> decide

theorem Numeral.lexical (n : Numeral) : ∀ c ∈ n.text, Lexical c :=
  fun c hc => lexical_of_number (n.ofNumber c hc)

end Lexical

section Passes

open Scan (Passes Inside outside within run)

variable {e e' : Int}

theorem hex_ne {c : Char} (h : isHex c = true) : c ≠ '"' ∧ c ≠ '\\' := by
  constructor <;>
    · rintro rfl
      exact absurd h (by decide)

section String

variable {P : Scan → Char → Prop}

/-- Characters of a string that neither end it nor escape the next one. -/
theorem passes_plain (h : ∀ escape c, P ⟨e', true, escape⟩ c) {text : List Char}
    (htext : ∀ c ∈ text, c ≠ '"' ∧ c ≠ '\\') : Passes P (within e') text (within e') := by
  induction text with
  | nil => exact .nil _
  | cons c text ih =>
    obtain ⟨hc, htext⟩ := List.forall_mem_cons.mp htext
    refine .cons ?_ (h false c) (ih htext)
    simp [Scan.step, within, hc.1, hc.2]

theorem passes_escape (h : ∀ escape c, P ⟨e', true, escape⟩ c) (c : Char) {text : List Char}
    (htext : ∀ c ∈ text, c ≠ '"' ∧ c ≠ '\\') :
    Passes P (within e') ('\\' :: c :: text) (within e') :=
  .cons rfl (h false _) (.cons rfl (h true c) (passes_plain h htext))

theorem CodeUnit.ne (u : CodeUnit) : ∀ c ∈ u.digits, c ≠ '"' ∧ c ≠ '\\' :=
  fun c hc => hex_ne (u.hex c hc)

theorem StringItem.passes (h : ∀ escape c, P ⟨e', true, escape⟩ c) (item : StringItem) :
    Passes P (within e') item.text (within e') := by
  cases item with
  | plain c printable =>
    refine passes_plain h fun c' hc' => ?_
    obtain rfl := List.mem_singleton.mp hc'
    exact ⟨printable.1, printable.2.1⟩
  | short escape => exact passes_escape h escape.letter fun c hc => by cases hc
  | unicode u scalar => exact passes_escape h 'u' u.ne
  | surrogates high low highRange lowRange =>
    exact (passes_escape h 'u' high.ne).append (passes_escape h 'u' low.ne)

theorem stringText_passes (h : ∀ escape c, P ⟨e', true, escape⟩ c) (items : List StringItem) :
    Passes P (within e') (stringText items) (within e') := by
  induction items with
  | nil => exact .nil _
  | cons item items ih => exact (item.passes h).append ih

theorem quoted_passes (h : ∀ escape c, P ⟨e', true, escape⟩ c) (hquote : P (outside e') '"')
    (items : List StringItem) : Passes P (outside e') (quoted items) (outside e') := by
  have hend : Passes P (within e') ['"'] (outside e') := .cons rfl (h false _) (.nil _)
  exact .cons rfl hquote ((stringText_passes h items).append hend)

end String

theorem quoted_inside (h : e ≤ e') (items : List StringItem) :
    Passes (Inside e) (outside e') (quoted items) (outside e') :=
  quoted_passes (Scan.inside_string h) (Scan.inside_of_ne h (by decide)) items

/-- A separator one bracket deeper. -/
theorem passes_separator (h : e < e') {c : Char} (hc : Scan.Inert c) :
    Passes (Inside e) (outside e') [c] (outside e') :=
  .cons (Scan.step_inert hc) (Scan.inside_of_lt h c) (.nil _)

theorem Blank.passes (h : e ≤ e') (b : Blank) :
    Passes (Inside e) (outside e') b.chars (outside e') := .lexical h b.lexical

theorem Key.passes (h : e < e') (k : Key) :
    Passes (Inside e) (outside e') k.text (outside e') := by
  have hle := Int.le_of_lt h
  have hcolon := passes_separator h (c := ':') (by decide)
  have hfront := ((k.before.passes hle).append (quoted_inside hle k.name)).append
    (k.after.passes hle)
  exact hfront.append (hcolon.append (k.gap.passes hle))

/-- A text in brackets, which is read one bracket deeper. -/
theorem passes_brackets (h : e ≤ e') {first last : Char} {text : List Char}
    (hfirst : (outside e').step first = outside (e' + 1))
    (hlast : (outside (e' + 1)).step last = outside e')
    (hne : first ≠ ',' ∧ first ≠ ':' ∧ first ≠ '}' ∧ first ≠ ']')
    (htext : Passes (Inside e) (outside (e' + 1)) text (outside (e' + 1))) :
    Passes (Inside e) (outside e') (first :: text ++ [last]) (outside e') := by
  have hlt : e < e' + 1 := Int.lt_add_one_of_le h
  exact .cons hfirst (Scan.inside_of_ne h hne)
    (htext.append (.cons hlast (Scan.inside_of_lt hlt last) (.nil _)))

/-- A value is read without separators at its own depth. -/
theorem Doc.passes (d : Doc) :
    ∀ {e e' : Int}, e ≤ e' → Passes (Inside e) (outside e') d.text (outside e') := by
  refine @Doc.induct
    (fun d => ∀ {e e' : Int}, e ≤ e' → Passes (Inside e) (outside e') d.text (outside e'))
    (fun es => ∀ {e e' : Int}, e < e' → Passes (Inside e) (outside e') es.text (outside e'))
    (fun ms => ∀ {e e' : Int}, e < e' → Passes (Inside e) (outside e') ms.text (outside e'))
    ?_ ?_ ?_ ?_ ?_ ?_ ?_ ?_ ?_ ?_ ?_ ?_ d
  · exact fun h => .lexical h (List.forall_iff_forall_mem.mp (by decide))
  · intro b e e' h
    cases b <;> exact .lexical h (List.forall_iff_forall_mem.mp (by decide))
  · exact fun n _ _ h => .lexical h n.lexical
  · exact fun items _ _ h => quoted_inside h items
  · intro blank e e' h
    exact passes_brackets h (by simp [Scan.step, outside]) (by simp [Scan.step, outside])
      (by decide) (blank.passes (Int.le_add_one h))
  · intro es ih e e' h
    exact passes_brackets h (by simp [Scan.step, outside]) (by simp [Scan.step, outside])
      (by decide) (ih (Int.lt_add_one_of_le h))
  · intro blank e e' h
    exact passes_brackets h (by simp [Scan.step, outside]) (by simp [Scan.step, outside])
      (by decide) (blank.passes (Int.le_add_one h))
  · intro ms ih e e' h
    exact passes_brackets h (by simp [Scan.step, outside]) (by simp [Scan.step, outside])
      (by decide) (ih (Int.lt_add_one_of_le h))
  · intro before value after ih e e' h
    have hle := Int.le_of_lt h
    exact ((before.passes hle).append (ih hle)).append (after.passes hle)
  · intro before value after rest ih ihrest e e' h
    have hle := Int.le_of_lt h
    exact (((before.passes hle).append (ih hle)).append (after.passes hle)).append
      ((passes_separator h (by decide)).append (ihrest h))
  · intro key value after ih e e' h
    have hle := Int.le_of_lt h
    exact ((key.passes h).append (ih hle)).append (after.passes hle)
  · intro key value after rest ih ihrest e e' h
    have hle := Int.le_of_lt h
    exact (((key.passes h).append (ih hle)).append (after.passes hle)).append
      ((passes_separator h (by decide)).append (ihrest h))

/-- An element with the blanks around it is one part. -/
theorem element_onePart (before : Blank) (value : Doc) (after : Blank) :
    Passes Scan.OnePart (outside 0) (before.chars ++ value.text ++ after.chars) (outside 0) := by
  have hle := Int.le_refl 0
  exact (((before.passes hle).append (value.passes hle)).append (after.passes hle)).imp
    Scan.onePart_of_inside

/-- And so is a member, for all its colon. -/
theorem member_onePart (key : Key) (value : Doc) (after : Blank) :
    Passes Scan.OnePart (outside 0) (key.text ++ value.text ++ after.chars) (outside 0) := by
  have hblank : ∀ b : Blank, Passes Scan.OnePart (outside 0) b.chars (outside 0) :=
    fun b => (b.passes (Int.le_refl 0)).imp Scan.onePart_of_inside
  have hname := quoted_passes (P := Scan.OnePart) (fun escape c hst => by cases hst)
    (fun _ => by decide) key.name
  have hcolon : Passes Scan.OnePart (outside 0) [':'] (outside 0) :=
    .cons (Scan.step_inert (by decide)) (fun _ => by decide) (.nil _)
  have hvalue := (value.passes (Int.le_refl 0)).imp Scan.onePart_of_inside
  exact (((((hblank key.before).append hname).append (hblank key.after)).append
    (hcolon.append (hblank key.gap))).append hvalue).append (hblank after)

end Passes

end Cynos.Json
