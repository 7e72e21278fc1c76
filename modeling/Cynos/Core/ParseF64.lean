import Cynos.Core.Text
import Cynos.Lib.JsonText

/-! `str::trim` and `str::parse::<f64>`, and what they make of a number in the grammar of JSON. -/
namespace Cynos.Core

section Trim

def trimEnd (s : List Char) : List Char := (s.reverse.dropWhile isWhitespace).reverse

/-- `str::trim` -/
def trim (s : List Char) : List Char := trimEnd (s.dropWhile isWhitespace)

end Trim

section Parse

/-- The double that is nearest to a decimal number. -/
def scale (mantissa : Nat) (power : Int) : Float :=
  if 0 ≤ power then Float.ofScientific mantissa false power.toNat
  else Float.ofScientific mantissa true (-power).toNat

/-- The power behind the digits, when the text ends with it. -/
def parsePower : List Char → Option Int
  | [] => some 0
  | e :: rest =>
    if e = 'e' ∨ e = 'E' then
      let negative := rest.head? = some '-'
      let digits := if negative ∨ rest.head? = some '+' then rest.tail else rest
      if digits.isEmpty ∨ ¬ digits.all Char.isDigit then none
      else some (if negative then -(ofDigits digits : Int) else ofDigits digits)
    else none

def parseUnsignedF64 (s : List Char) : Option Float :=
  let whole := s.takeWhile Char.isDigit
  let rest := s.dropWhile Char.isDigit
  let fraction := if rest.head? = some '.' then rest.tail.takeWhile Char.isDigit else []
  let rest := if rest.head? = some '.' then rest.tail.dropWhile Char.isDigit else rest
  if whole.isEmpty ∧ fraction.isEmpty then none
  else (parsePower rest).map fun power => scale (ofDigits (whole ++ fraction)) (power - fraction.length)

/-- The words for what is no number, in either case. -/
def parseInfNan (s : List Char) : Option Float :=
  let lower := s.map Char.toLower
  if lower = "inf".toList ∨ lower = "infinity".toList then some (1.0 / 0.0)
  else if lower = "nan".toList then some (0.0 / 0.0)
  else none

/-- `str::parse::<f64>` -/
def parseF64 (s : List Char) : Option Float :=
  let negative := s.head? = some '-'
  let body := if negative ∨ s.head? = some '+' then s.tail else s
  ((parseUnsignedF64 body).or (parseInfNan body)).map fun x => if negative then -x else x

end Parse

section Numeral

open Json (Digits Exponent Numeral fractionText exponentText signText)

variable {rest : List Char}

/-- Whitespace at neither end. -/
structure Tight (s : List Char) : Prop where
  nonempty : s ≠ []
  first : ∀ c ∈ s.head?, isWhitespace c = false
  last : ∀ c ∈ s.getLast?, isWhitespace c = false

theorem dropWhile_append_blank {before s : List Char} (h : ∀ c ∈ before, isWhitespace c = true)
    (hfirst : ∀ c ∈ s.head?, isWhitespace c = false) :
    (before ++ s).dropWhile isWhitespace = s := by
  rw [List.dropWhile_append_of_pos h]
  cases s with
  | nil => rfl
  | cons c s => rw [List.dropWhile_cons_of_neg (by rw [hfirst c rfl]; decide)]

/-- Trimming takes off what stands around a tight text. -/
theorem trim_around {before s after : List Char} (hbefore : ∀ c ∈ before, isWhitespace c = true)
    (hs : Tight s) (hafter : ∀ c ∈ after, isWhitespace c = true) :
    trim (before ++ s ++ after) = s := by
  have hfirst : ∀ c ∈ (s ++ after).head?, isWhitespace c = false := by
    intro c hc
    rw [List.head?_append_of_ne_nil _ hs.nonempty] at hc
    exact hs.first c hc
  have hlast : ∀ c ∈ s.reverse.head?, isWhitespace c = false := by
    rw [List.head?_reverse]
    exact hs.last
  unfold trim trimEnd
  rw [List.append_assoc, dropWhile_append_blank hbefore hfirst, List.reverse_append,
    dropWhile_append_blank (fun c hc => hafter c (List.mem_reverse.mp hc)) hlast,
    List.reverse_reverse]

theorem trim_tight {s : List Char} (h : Tight s) : trim s = s := by
  have := @trim_around [] s [] (fun c hc => by cases hc) h (fun c hc => by cases hc)
  rwa [List.nil_append, List.append_nil] at this

theorem trim_length_le (s : List Char) : (trim s).length ≤ s.length := by
  unfold trim trimEnd
  rw [List.length_reverse]
  have h := (List.dropWhile_suffix (l := (s.dropWhile isWhitespace).reverse) isWhitespace).length_le
  have h' := (List.dropWhile_suffix (l := s) isWhitespace).length_le
  rw [List.length_reverse] at h
  omega

theorem takeWhile_digits (d : Digits) (h : ∀ c ∈ rest.head?, c.isDigit = false) :
    (d.chars ++ rest).takeWhile Char.isDigit = d.chars := by
  rw [List.takeWhile_append_of_pos d.digits]
  cases rest with
  | nil => exact List.append_nil _
  | cons c rest => rw [List.takeWhile_cons_of_neg (by rw [h c rfl]; decide), List.append_nil]

theorem dropWhile_digits (d : Digits) (h : ∀ c ∈ rest.head?, c.isDigit = false) :
    (d.chars ++ rest).dropWhile Char.isDigit = rest := by
  rw [List.dropWhile_append_of_pos d.digits]
  cases rest with
  | nil => rfl
  | cons c rest => rw [List.dropWhile_cons_of_neg (by rw [h c rfl]; decide)]

theorem parsePower_text (e : Exponent) : parsePower e.text = some e.value := by
  obtain ⟨upper, negative, digits⟩ := e
  have hhead : ∀ c, digits.chars.head? = some c → c.isDigit = true :=
    fun c hc => digits.digits c (List.mem_of_mem_head? hc)
  have hminus : digits.chars.head? ≠ some '-' := fun h => absurd (hhead '-' h) (by decide)
  have hplus : digits.chars.head? ≠ some '+' := fun h => absurd (hhead '+' h) (by decide)
  have hne : digits.chars.isEmpty = false := by
    rw [List.isEmpty_eq_false_iff]
    exact digits.nonempty
  have hall : digits.chars.all Char.isDigit = true := List.all_eq_true.mpr digits.digits
  have hmark : ∀ text, parsePower ((if upper then 'E' else 'e') :: text) = parsePower ('e' :: text) := by
    intro text
    cases upper <;> rfl
  unfold Exponent.text
  rw [hmark]
  rcases negative with _ | _ | _
  · simp [parsePower, signText, hminus, hplus, hne, hall, Exponent.value, ofDigits]
  · simp [parsePower, signText, hne, hall, Exponent.value, ofDigits]
  · simp [parsePower, signText, hne, hall, Exponent.value, ofDigits]

/-- The double that a number denotes. -/
def numeralValue (n : Numeral) : Float :=
  let magnitude := scale n.mantissa n.power
  if n.negative then -magnitude else magnitude

theorem exponentText_head (exponent : Option Exponent) :
    ∀ c ∈ (exponentText exponent).head?, c.isDigit = false ∧ c ≠ '.' := by
  intro c hc
  cases exponent with
  | none => cases hc
  | some e =>
    obtain rfl := Option.some.inj hc
    cases e.upper <;> decide

theorem parsePower_option (exponent : Option Exponent) :
    parsePower (exponentText exponent) = some ((exponent.map Exponent.value).getD 0) := by
  cases exponent with
  | none => rfl
  | some e => exact parsePower_text e

theorem parseUnsignedF64_text (n : Numeral) :
    parseUnsignedF64 n.unsignedText = some (scale n.mantissa n.power) := by
  obtain ⟨negative, whole, canonical, fraction, exponent⟩ := n
  have hexp := exponentText_head exponent
  have hpower := parsePower_option exponent
  unfold Numeral.unsignedText parseUnsignedF64 Numeral.mantissa Numeral.power
  generalize exponentText exponent = tail at hexp hpower
  dsimp only
  have hwhole : whole.chars.isEmpty = false := by
    rw [List.isEmpty_eq_false_iff]
    exact whole.nonempty
  cases fraction with
  | none =>
    have hdot : tail.head? ≠ some '.' := fun h => (hexp '.' h).2 rfl
    rw [fractionText, List.nil_append, takeWhile_digits whole fun c hc => (hexp c hc).1,
      dropWhile_digits whole fun c hc => (hexp c hc).1]
    simp [hdot, hwhole, hpower, ofDigits]
  | some digits =>
    have hfraction : ∀ c ∈ (fractionText (some digits) ++ tail).head?, c.isDigit = false := by
      intro c hc
      obtain rfl := Option.some.inj hc
      decide
    rw [takeWhile_digits whole hfraction, dropWhile_digits whole hfraction]
    simp only [fractionText, List.cons_append, List.head?_cons, ↓reduceIte, List.tail_cons,
      takeWhile_digits digits fun c hc => (hexp c hc).1,
      dropWhile_digits digits fun c hc => (hexp c hc).1]
    simp [hwhole, hpower, ofDigits]

theorem parseF64_text (n : Numeral) : parseF64 n.text = some (numeralValue n) := by
  have hunsigned := parseUnsignedF64_text n
  have hhead : ∀ c, n.unsignedText.head? = some c → c.isDigit = true := by
    intro c hc
    unfold Numeral.unsignedText at hc
    rw [List.head?_append_of_ne_nil _ n.whole.nonempty] at hc
    exact n.whole.digits c (List.mem_of_mem_head? hc)
  have hminus : n.unsignedText.head? ≠ some '-' := fun h => absurd (hhead '-' h) (by decide)
  have hplus : n.unsignedText.head? ≠ some '+' := fun h => absurd (hhead '+' h) (by decide)
  unfold parseF64 numeralValue Numeral.text
  cases n.negative with
  | true => simp [hunsigned]
  | false => simp [hminus, hplus, hunsigned]

/-- No number starts with such a character. -/
theorem parseF64_none {c : Char} (hdigit : c.isDigit = false) (hdot : c ≠ '.')
    (hsign : c ≠ '-' ∧ c ≠ '+') (hletter : c.toLower ≠ 'i' ∧ c.toLower ≠ 'n') :
    parseF64 (c :: rest) = none := by
  have hunsigned : parseUnsignedF64 (c :: rest) = none := by
    simp [parseUnsignedF64, hdigit, hdot]
  have hwords : parseInfNan (c :: rest) = none := by
    simp [parseInfNan, hletter]
  simp [parseF64, hsign, hunsigned, hwords]

theorem numeralText_head (n : Numeral) :
    ∃ c chars, n.text = c :: chars ∧ (c = '-' ∨ c.isDigit = true) := by
  obtain ⟨negative, whole, canonical, fraction, exponent⟩ := n
  unfold Numeral.text Numeral.unsignedText
  cases negative with
  | true => exact ⟨'-', _, rfl, .inl rfl⟩
  | false =>
    obtain ⟨chars, digits, nonempty⟩ := whole
    cases chars with
    | nil => exact absurd rfl nonempty
    | cons c chars => exact ⟨c, _, rfl, .inr (digits c (by simp))⟩

end Numeral

end Cynos.Core
