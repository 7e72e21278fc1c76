import Mathlib.Data.List.Basic

/-! Characters as the standard library classifies them, and numbers written in decimal. -/
namespace Cynos.Core

section Chars

/-- `char::is_whitespace`: the property `White_Space` of Unicode. -/
def isWhitespace (c : Char) : Bool :=
  let n := c.toNat
  (9 ≤ n && n ≤ 13) || n == 0x20 || n == 0x85 || n == 0xA0 || n == 0x1680 ||
    (0x2000 ≤ n && n ≤ 0x200A) || n == 0x2028 || n == 0x2029 || n == 0x202F || n == 0x205F ||
    n == 0x3000

/-- What Unicode says of letters and digits, which is plain only within ASCII. -/
structure CharClasses where
  isAlphanumeric : Char → Bool
  isAlphanumeric_ascii : ∀ c : Char, c.toNat < 128 → isAlphanumeric c = c.isAlphanum
  not_isWhitespace : ∀ c, isAlphanumeric c = true → isWhitespace c = false

theorem isWhitespace_of_isAlphanum (c : Char) (h : c.isAlphanum = true) :
    isWhitespace c = false := by
  change ((decide (c.val ≥ 65 ∧ c.val ≤ 90) || (decide (c.val ≥ 97) && decide (c.val ≤ 122))) ||
    (decide (c.val ≥ 48) && decide (c.val ≤ 57))) = true at h
  simp only [Bool.or_eq_true, Bool.and_eq_true, decide_eq_true_eq, UInt32.le_iff_toNat_le,
    ge_iff_le] at h
  simp only [isWhitespace, Char.toNat, Bool.or_eq_false_iff, Bool.and_eq_false_iff,
    decide_eq_false_iff_not, beq_eq_false_iff_ne]
  change ((65 ≤ c.val.toNat ∧ c.val.toNat ≤ 90) ∨ (97 ≤ c.val.toNat ∧ c.val.toNat ≤ 122)) ∨
    (48 ≤ c.val.toNat ∧ c.val.toNat ≤ 57) at h
  omega

/-- Letters and digits of ASCII only. -/
def CharClasses.ascii : CharClasses where
  isAlphanumeric := Char.isAlphanum
  isAlphanumeric_ascii _ _ := rfl
  not_isWhitespace := isWhitespace_of_isAlphanum

end Chars

section Numbers

/-- The number that decimal digits spell. -/
def ofDigits (digits : List Char) : Nat := Nat.ofDigitChars 10 digits 0

/-- A text of digits with one dot at most, and one digit at least. -/
def parseUnsigned (text : List Char) : Option Float :=
  let whole := text.takeWhile Char.isDigit
  match text.dropWhile Char.isDigit with
  | [] => if whole.isEmpty then none else some (Float.ofScientific (ofDigits whole) true 0)
  | c :: fraction =>
    if c = '.' ∧ fraction.all Char.isDigit ∧ ¬ (whole.isEmpty ∧ fraction.isEmpty) then
      some (Float.ofScientific (ofDigits (whole ++ fraction)) true fraction.length)
    else none

/-- `str::parse::<f64>` of a text of digits, dots and a sign. -/
def parseDecimal (text : List Char) : Option Float :=
  if text.head? = some '-' then (parseUnsigned text.tail).map (- ·) else parseUnsigned text

/-- A sign, if there is one, in front of decimal digits. -/
inductive Spells : List Char → Int → Prop
  | plain {digits : List Char} (hne : digits ≠ []) (h : ∀ c ∈ digits, c.isDigit = true) :
      Spells digits (ofDigits digits)
  | plus {digits : List Char} (hne : digits ≠ []) (h : ∀ c ∈ digits, c.isDigit = true) :
      Spells ('+' :: digits) (ofDigits digits)
  | minus {digits : List Char} (hne : digits ≠ []) (h : ∀ c ∈ digits, c.isDigit = true) :
      Spells ('-' :: digits) (-(ofDigits digits : Int))

def inI64 (n : Int) : Option Int64 :=
  if Int64.minValue.toInt ≤ n ∧ n ≤ Int64.maxValue.toInt then some (Int64.ofInt n) else none

/-- `str::parse::<i64>` -/
def parseI64 (text : List Char) : Option Int64 :=
  let negative := text.head? = some '-'
  let digits := if negative ∨ text.head? = some '+' then text.tail else text
  if digits.isEmpty ∨ ¬ digits.all Char.isDigit then none
  else inI64 (if negative then -(ofDigits digits : Int) else ofDigits digits)

theorem toInt_of_inI64 {n : Int} {m : Int64} (h : inI64 n = some m) : m.toInt = n := by
  unfold inI64 at h
  split_ifs at h with hrange
  rw [← Option.some.inj h, Int64.toInt_ofInt_of_le hrange.1 (Int.lt_of_le_of_lt hrange.2 (by decide))]

theorem spells_of_parseI64 {text : List Char} {n : Int64} (h : parseI64 text = some n) :
    Spells text n.toInt := by
  unfold parseI64 at h
  dsimp only at h
  generalize hdigits : (if text.head? = some '-' ∨ text.head? = some '+' then text.tail else text) =
    digits at h
  split_ifs at h with hbad hminus
  · have htext : text = '-' :: digits := by
      rw [← hdigits, if_pos (.inl hminus)]
      exact (List.eq_cons_of_mem_head? hminus)
    rw [htext, toInt_of_inI64 h]
    simp only [List.isEmpty_iff, List.all_eq_true, not_or, not_not] at hbad
    exact .minus hbad.1 hbad.2
  · simp only [List.isEmpty_iff, List.all_eq_true, not_or, not_not] at hbad
    rw [toInt_of_inI64 h]
    by_cases hplus : text.head? = some '+'
    · have htext : text = '+' :: digits := by
        rw [← hdigits, if_pos (.inr hplus)]
        exact (List.eq_cons_of_mem_head? hplus)
      rw [htext]
      exact .plus hbad.1 hbad.2
    · rw [if_neg (not_or.mpr ⟨hminus, hplus⟩)] at hdigits
      rw [hdigits]
      exact .plain hbad.1 hbad.2

/-- `as usize` of a float, truncated towards zero and kept within the range. -/
def asUsize (x : Float) : Nat := x.toUInt64.toNat

@[simp] theorem ofDigits_toDigits (n : Nat) : ofDigits (Nat.toDigits 10 n) = n :=
  Nat.ofDigitChars_toDigits (by decide) (by decide)

end Numbers

end Cynos.Core
