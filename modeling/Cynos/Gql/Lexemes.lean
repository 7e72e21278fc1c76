import Cynos.Gql.Grammar

/-! Each token is read as what it stands for, with the others left. -/
namespace Cynos.Gql

open Core (parseF64 parseI64)
open Cursor
open Json (CodeUnit Digits Exponent Numeral ShortEscape exponentText fractionText)

variable {A B : Type} {ts ts' ts₂ : List Token} {v : A} {w : B} {s : List Char} {p : Punctuator}

section Reads

/-- From any text that shows the tokens, a parser gets the value, and the text that is left
shows the other tokens. -/
def Reads (p : Parser A) (before : List Token) (v : A) (after : List Token) : Prop :=
  ∀ s, Laid isLineFeed before s →
    Meets p s (fun w s' => w = v ∧ Laid isLineFeed after s') fun _ => False

/-- The same when nothing ignored is in front. -/
def Takes (p : Parser A) (before : List Token) (v : A) (after : List Token) : Prop :=
  ∀ s, Front before s → Meets p s (fun w s' => w = v ∧ Laid isLineFeed after s') fun _ => False

theorem Reads.takes {p : Parser A} (h : Reads p ts v ts') : Takes p ts v ts' :=
  fun s hs => h s hs.laid

theorem Reads.pure (v : A) (ts : List Token) : Reads (Pure.pure v) ts v ts :=
  fun _ hs => .pure ⟨rfl, hs⟩

theorem Reads.bind {p : Parser A} {f : A → Parser B} (h : Reads p ts v ts')
    (h' : Reads (f v) ts' w ts₂) : Reads (p >>= f) ts w ts₂ :=
  fun s hs => (h s hs).bind fun v' s' hs' => by rw [hs'.1]; exact h' s' hs'.2

theorem Takes.bind {p : Parser A} {f : A → Parser B} (h : Takes p ts v ts')
    (h' : Reads (f v) ts' w ts₂) : Takes (p >>= f) ts w ts₂ :=
  fun s hs => (h s hs).bind fun v' s' hs' => by rw [hs'.1]; exact h' s' hs'.2

theorem meets_front {F : GqlError → Prop} (h : Laid isLineFeed ts s) :
    Meets skipIgnored s (fun _ s' => Front ts s') F :=
  (meets_skipIgnored s).imp fun _ _ hs' => front_of_laid h hs'

theorem Reads.skip {f : List Unit → Parser A} (h : ∀ u, Takes (f u) ts v ts') :
    Reads (skipIgnored >>= f) ts v ts' :=
  fun _ hs => (meets_front hs).bind fun u s' hs' => h u s' hs'

theorem Front.head? (h : Front ts s) : s.head? = ts.head?.map Token.head := by
  cases ts with
  | nil =>
    cases h
    rfl
  | cons t ts => exact h.head

theorem Takes.peek {g : Option Char → Parser A} (h : Takes (g (ts.head?.map Token.head)) ts v ts') :
    Takes (peekChar >>= g) ts v ts' :=
  fun s hs => .peek_bind (hs.head? ▸ h s hs)

theorem Takes.advance {f : Option Char → Parser A} (h : Reads (f (some p.char)) ts v ts') :
    Takes (advanceChar >>= f) (.punct p :: ts) v ts' := by
  intro s hs
  obtain ⟨s', rfl, hs'⟩ := hs.punct
  exact .advance_bind (h s' hs')

theorem head_eq_char : ts.head?.map Token.head = some p.char ↔ ts.head? = some (.punct p) := by
  cases ts with
  | nil => exact iff_of_false nofun nofun
  | cons t ts =>
    rw [List.head?_cons, Option.map_some, Option.some.injEq, Option.some.injEq]
    exact starts_punct t.starts

theorem Takes.peek_pos {f g : Parser A} (p : Punctuator) (h : Takes f (.punct p :: ts) v ts') :
    Takes (peekChar >>= fun c => if c = some p.char then f else g) (.punct p :: ts) v ts' := by
  refine .peek ?_
  rw [if_pos (head_eq_char.mpr rfl)]
  exact h

theorem Takes.peek_neg {f g : Parser A} (p : Punctuator) (hne : ts.head? ≠ some (.punct p))
    (h : Takes g ts v ts') :
    Takes (peekChar >>= fun c => if c = some p.char then f else g) ts v ts' := by
  refine .peek ?_
  rw [if_neg (mt head_eq_char.mp hne)]
  exact h

theorem reads_expectChar (p : Punctuator) (ts : List Token) :
    Reads (expectChar p.char) (.punct p :: ts) () ts := by
  refine .skip fun _ s hs => ?_
  obtain ⟨s', rfl, hs'⟩ := hs.punct
  refine .advance_bind ?_
  change Meets (if p.char = p.char then _ else _) _ _ _
  rw [if_pos rfl]
  exact .pure ⟨rfl, hs'⟩

end Reads

section Words

theorem takeWhile_append_stop {q : Char → Bool} {front rest : List Char}
    (hfront : ∀ c ∈ front, q c = true) (hrest : ∀ c ∈ rest.head?, q c = false) :
    (front ++ rest).takeWhile q = front ∧ (front ++ rest).dropWhile q = rest := by
  rw [List.takeWhile_append_of_pos hfront, List.dropWhile_append_of_pos hfront]
  cases rest with
  | nil => exact ⟨List.append_nil _, rfl⟩
  | cons c rest =>
    have hc : ¬ q c = true := by rw [hrest c rfl]; decide
    rw [List.takeWhile_cons_of_neg hc, List.dropWhile_cons_of_neg hc]
    exact ⟨List.append_nil _, rfl⟩

/-- A loop over all of `front` stops behind it. -/
theorem meets_skipWhile {q : Char → Bool} {front rest : List Char} {F : GqlError → Prop}
    (hfront : ∀ c ∈ front, q c = true) (hrest : ∀ c ∈ rest.head?, q c = false) :
    Meets (skipWhile q) (front ++ rest) (fun v s' => v = (front != []) ∧ s' = rest) F := by
  obtain ⟨htake, hdrop⟩ := takeWhile_append_stop hfront hrest
  refine (Meets.skipWhile q (front ++ rest)).imp fun v s' hs' => ?_
  rwa [htake, hdrop] at hs'

/-- The text that a parser goes over is what was in front of the rest. -/
theorem meets_captured {q : Parser A} {front rest : List Char} {F : GqlError → Prop}
    (h : Meets q (front ++ rest) (fun w s' => w = v ∧ s' = rest) F) :
    Meets (captured q) (front ++ rest) (fun out s' => out = (v, front) ∧ s' = rest) F := by
  refine .captured (h.imp fun w s' hs' => ?_)
  obtain ⟨rfl, rfl⟩ := hs'
  refine ⟨by rw [List.length_append]; omega, fun taken htaken => ⟨?_, rfl⟩⟩
  rw [List.append_cancel_right htaken]

theorem meets_scanName {n : Name} {rest : List Char} {F : GqlError → Prop}
    (hrest : ∀ c ∈ rest.head?, isNameContinue c = false) :
    Meets scanName (n.chars ++ rest) (fun v s' => v = (n.rest != []) ∧ s' = rest) F := by
  refine .peek_bind ?_
  change Meets (if isNameStart n.start then _ else _) _ _ _
  rw [if_pos n.isStart]
  exact .advance_bind (meets_skipWhile n.isContinue hrest)

theorem reads_parseName (n : Name) (ts : List Token) :
    Reads parseName (.name n :: ts) n.string ts := by
  refine .skip fun _ s hs => ?_
  cases hs with
  | cons hrest hword =>
    refine (meets_captured (meets_scanName (hword rfl))).bind fun out s' hs' => ?_
    rw [hs'.1, hs'.2]
    exact .pure ⟨rfl, hrest⟩

/-- The name of a token behind what is ignored. -/
theorem takes_parseName (n : Name) (ts : List Token) :
    Takes parseName (.name n :: ts) n.string ts := (reads_parseName n ts).takes

end Words

section Numbers

variable {rest : List Char} {F : GqlError → Prop}

theorem meets_advanceIf_neg {q : Char → Bool} (h : ∀ c ∈ s.head?, q c = false) :
    Meets (advanceIf q) s (fun _ s' => s' = s) F := by
  refine .peek_bind ?_
  cases s with
  | nil => exact .pure rfl
  | cons c s =>
    change Meets (if q c = true then _ else _) _ _ _
    rw [if_neg (by rw [h c rfl]; decide)]
    exact .pure rfl

theorem meets_advanceIf_pos {q : Char → Bool} {c : Char} (h : q c = true) :
    Meets (advanceIf q) (c :: s) (fun _ s' => s' = s) F := by
  refine .peek_bind ?_
  change Meets (if q c = true then _ else _) _ _ _
  rw [if_pos h]
  exact .advance_bind (.pure rfl)

theorem meets_digits (d : Digits) (hrest : ∀ c ∈ rest.head?, c.isDigit = false) :
    Meets (skipWhile Char.isDigit) (d.chars ++ rest) (fun v s' => v = true ∧ s' = rest) F :=
  (meets_skipWhile d.digits hrest).imp fun v s' hs' => by
    rw [bne_iff_ne.mpr d.nonempty] at hs'
    exact hs'

theorem meets_scanFraction (fraction : Option Digits)
    (hrest : ∀ c ∈ rest.head?, c.isDigit = false ∧ c ≠ '.') :
    Meets scanFraction (fractionText fraction ++ rest)
      (fun v s' => v = fraction.isSome ∧ s' = rest) F := by
  refine .peek_bind ?_
  cases fraction with
  | none =>
    change Meets (if rest.head? = some '.' then _ else _) rest _ _
    have hdot : rest.head? ≠ some '.' := fun h => (hrest '.' h).2 rfl
    rw [if_neg hdot]
    exact .pure ⟨rfl, rfl⟩
  | some d =>
    change Meets (if some '.' = some '.' then _ else _) ('.' :: (d.chars ++ rest)) _ _
    rw [if_pos rfl]
    refine .advance_bind ((meets_digits d fun c hc => (hrest c hc).1).bind fun v s' hs' => ?_)
    rw [hs'.1, hs'.2]
    exact .pure ⟨rfl, rfl⟩

theorem meets_scanExponent (exponent : Option Exponent)
    (hrest : ∀ c ∈ rest.head?, c.isDigit = false ∧ c ≠ 'e' ∧ c ≠ 'E') :
    Meets scanExponent (exponentText exponent ++ rest)
      (fun v s' => v = exponent.isSome ∧ s' = rest) F := by
  refine .peek_bind ?_
  cases exponent with
  | none =>
    change Meets (if rest.head? = some 'e' ∨ rest.head? = some 'E' then _ else _) rest _ _
    have hlower : rest.head? ≠ some 'e' := fun h => (hrest 'e' h).2.1 rfl
    have hupper : rest.head? ≠ some 'E' := fun h => (hrest 'E' h).2.2 rfl
    rw [if_neg (not_or.mpr ⟨hlower, hupper⟩)]
    exact .pure ⟨rfl, rfl⟩
  | some e =>
    obtain ⟨upper, negative, d⟩ := e
    have hdigits : ∀ c ∈ (d.chars ++ rest).head?, (c == '+' || c == '-') = false := by
      intro c hc
      rw [List.head?_append_of_ne_nil _ d.nonempty] at hc
      have := isDigit_cases (d.digits c (List.mem_of_mem_head? hc))
      rw [Bool.or_eq_false_iff, beq_eq_false_iff_ne, beq_eq_false_iff_ne]
      constructor <;> rintro rfl <;> exact absurd this (by decide)
    have hsign : Meets (advanceIf fun c => c == '+' || c == '-')
        (Json.signText negative ++ (d.chars ++ rest)) (fun _ s' => s' = d.chars ++ rest) F := by
      cases negative with
      | none => exact meets_advanceIf_neg hdigits
      | some b => cases b <;> exact meets_advanceIf_pos rfl
    have hmark : (if upper then 'E' else 'e') = 'e' ∨ (if upper then 'E' else 'e') = 'E' := by
      cases upper
      · exact .inl rfl
      · exact .inr rfl
    have htext : exponentText (some ⟨upper, negative, d⟩) ++ rest =
        (if upper then 'E' else 'e') :: (Json.signText negative ++ (d.chars ++ rest)) := by
      rw [← List.append_assoc]
      rfl
    rw [htext, List.head?_cons]
    rw [if_pos (hmark.imp (congrArg some) (congrArg some))]
    refine .advance_bind (hsign.bind fun _ s' hs' => ?_)
    rw [hs']
    refine (meets_digits d fun c hc => (hrest c hc).1).bind fun v s' hs' => ?_
    rw [hs'.1, hs'.2]
    exact .pure ⟨rfl, rfl⟩

theorem exponentText_head (exponent : Option Exponent)
    (hrest : ∀ c ∈ rest.head?, isNameContinue c = false ∧ c ≠ '.') :
    ∀ c ∈ (exponentText exponent ++ rest).head?, c.isDigit = false ∧ c ≠ '.' := by
  intro c hc
  cases hexponent : exponentText exponent with
  | nil =>
    rw [hexponent] at hc
    have hword := (hrest c hc).1
    unfold isNameContinue at hword
    exact ⟨(Bool.or_eq_false_iff.mp hword).2, (hrest c hc).2⟩
  | cons d tail =>
    rw [hexponent] at hc
    exact Core.exponentText_head exponent c (hexponent ▸ hc)

theorem fractionText_head (fraction : Option Digits) (hrest : ∀ c ∈ rest.head?, c.isDigit = false) :
    ∀ c ∈ (fractionText fraction ++ rest).head?, c.isDigit = false := by
  intro c hc
  cases fraction with
  | none => exact hrest c hc
  | some d =>
    obtain rfl := Option.some.inj hc
    decide

theorem meets_scanNumber (n : Numeral)
    (hrest : ∀ c ∈ rest.head?, isNameContinue c = false ∧ c ≠ '.') :
    Meets scanNumber (n.text ++ rest) (fun v s' => v = isFloat n ∧ s' = rest) F := by
  obtain ⟨negative, whole, canonical, fraction, exponent⟩ := n
  have hexponent := exponentText_head exponent hrest
  have hletter : ∀ c ∈ rest.head?, c.isDigit = false ∧ c ≠ 'e' ∧ c ≠ 'E' := by
    intro c hc
    have hword := (hrest c hc).1
    refine ⟨(Bool.or_eq_false_iff.mp hword).2, ?_, ?_⟩ <;> rintro rfl <;> exact absurd hword (by decide)
  have hfraction := fractionText_head fraction fun c hc => (hexponent c hc).1
  have hsign : Meets (advanceIf (· == '-')) (Numeral.text ⟨negative, whole, canonical, fraction, exponent⟩ ++ rest)
      (fun _ s' => s' = whole.chars ++ (fractionText fraction ++ (exponentText exponent ++ rest))) F := by
    unfold Numeral.text Numeral.unsignedText
    dsimp only
    rw [List.append_assoc, List.append_assoc, List.append_assoc]
    cases negative with
    | true => exact meets_advanceIf_pos rfl
    | false =>
      refine meets_advanceIf_neg fun c hc => ?_
      rw [if_neg Bool.false_ne_true, List.nil_append, List.head?_append_of_ne_nil _ whole.nonempty] at hc
      have := isDigit_cases (whole.digits c (List.mem_of_mem_head? hc))
      rw [beq_eq_false_iff_ne]
      rintro rfl
      exact absurd this (by decide)
  refine hsign.bind fun _ s₁ hs₁ => ?_
  rw [hs₁]
  refine (meets_digits whole hfraction).bind fun v s₂ hs₂ => ?_
  rw [hs₂.1, hs₂.2]
  refine (meets_scanFraction fraction hexponent).bind fun v s₃ hs₃ => ?_
  rw [hs₃.1, hs₃.2]
  refine (meets_scanExponent exponent hletter).bind fun v s₄ hs₄ => ?_
  rw [hs₄.1, hs₄.2]
  exact .pure ⟨rfl, rfl⟩

theorem parseI64_text {n : Numeral} (h : isFloat n = false) :
    parseI64 n.text = Core.inI64 (intValue n) := by
  obtain ⟨negative, whole, canonical, fraction, exponent⟩ := n
  obtain ⟨hfraction, hexponent⟩ := Bool.or_eq_false_iff.mp h
  obtain rfl : fraction = none := Option.not_isSome_iff_eq_none.mp (Bool.eq_false_iff.mp hfraction)
  obtain rfl : exponent = none := Option.not_isSome_iff_eq_none.mp (Bool.eq_false_iff.mp hexponent)
  have hempty : whole.chars.isEmpty = false := List.isEmpty_eq_false_iff.mpr whole.nonempty
  have hall : whole.chars.all Char.isDigit = true := List.all_eq_true.mpr whole.digits
  have hdigit : ∀ c, whole.chars.head? = some c → c.isDigit = true :=
    fun c hc => whole.digits c (List.mem_of_mem_head? hc)
  have hminus : whole.chars.head? ≠ some '-' := fun h => absurd (hdigit '-' h) (by decide)
  have hplus : whole.chars.head? ≠ some '+' := fun h => absurd (hdigit '+' h) (by decide)
  have hmantissa : Numeral.mantissa ⟨negative, whole, canonical, none, none⟩ = Core.ofDigits whole.chars := by
    unfold Numeral.mantissa Core.ofDigits
    rw [Option.map_none, Option.getD_none, List.append_nil]
  unfold parseI64 intValue Numeral.text Numeral.unsignedText
  rw [hmantissa]
  cases negative with
  | true => simp [fractionText, exponentText, hempty, hall]
  | false => simp [fractionText, exponentText, hempty, hall, hminus, hplus]

theorem inI64_toInt (m : Int64) : Core.inI64 m.toInt = some m := by
  unfold Core.inI64
  rw [if_pos ⟨m.minValue_le_toInt, m.toInt_le⟩, Int64.ofInt_toInt]

/-- A number is read as a float or as an integer, as it is written. -/
theorem reads_parseNumberValue {n : Numeral} {value : InputValue}
    (hfloat : isFloat n = true → value = .float (Core.numeralValue n))
    (hint : isFloat n = false → ∃ m : Int64, m.toInt = intValue n ∧ value = .int m) :
    Takes parseNumberValue (.number n :: ts) value ts := by
  intro s hs
  cases hs with
  | @cons t ts rest hrest hword =>
    have hnext : ∀ c ∈ rest.head?, isNameContinue c = false ∧ c ≠ '.' :=
      fun c hc => ⟨hword rfl c hc, fun hdot => hrest.head_ne_dot (hdot ▸ hc)⟩
    refine (meets_captured (meets_scanNumber n hnext)).bind fun out s' hs' => ?_
    rw [hs'.1, hs'.2]
    dsimp only
    cases h : isFloat n with
    | true =>
      rw [if_pos rfl, Core.parseF64_text, hfloat h]
      exact .pure ⟨rfl, hrest⟩
    | false =>
      obtain ⟨m, hm, rfl⟩ := hint h
      rw [if_neg Bool.false_ne_true, parseI64_text h, ← hm, inI64_toInt]
      exact .pure ⟨rfl, hrest⟩

end Numbers

section Strings

variable {rest : List Char} {F : GqlError → Prop}

theorem meets_scanHex {digits : List Char} (hhex : ∀ c ∈ digits, Json.isHex c = true) :
    Meets (scanHex digits.length) (digits ++ rest) (fun _ s' => s' = rest) F := by
  induction digits with
  | nil => exact .pure rfl
  | cons c digits ih =>
    obtain ⟨hc, hdigits⟩ := List.forall_mem_cons.mp hhex
    refine .advance_bind ?_
    change Meets (if Json.isHex c = true then _ else _) _ _ _
    rw [if_pos hc]
    exact ih hdigits

theorem meets_parseUnicodeEscape (u : CodeUnit) (scalar : u.value.isValidChar) :
    Meets parseUnicodeEscape (u.digits ++ rest)
      (fun c s' => c = Char.ofNat u.value ∧ s' = rest) F := by
  have hscan : Meets (scanHex 4) (u.digits ++ rest) (fun w s' => w = () ∧ s' = rest) F := by
    rw [← u.length]
    exact (meets_scanHex u.hex).imp fun _ _ h => ⟨rfl, h⟩
  have hvalue : parseHex u.digits = some u.value := by
    have hempty : u.digits.isEmpty = false := by
      rw [List.isEmpty_eq_false_iff, ← List.length_pos_iff, u.length]
      decide
    have hall : u.digits.all Json.isHex = true := List.all_eq_true.mpr u.hex
    unfold parseHex
    rw [hempty, hall]
    rfl
  have hchar : charFromU32 u.value = some (Char.ofNat u.value) := if_pos scalar
  refine (meets_captured hscan).bind fun out s' hs' => ?_
  rw [hs'.1, hs'.2]
  dsimp only
  rw [hvalue]
  dsimp only
  rw [hchar]
  exact .pure ⟨rfl, rfl⟩

theorem meets_parseStringChar (item : StringItem) :
    Meets parseStringChar (item.text ++ rest)
      (fun r s' => r = some item.char ∧ s' = rest) F := by
  cases item with
  | raw c plain =>
    refine .advance_bind ?_
    change Meets (if c = '"' then _ else if c = '\\' then _ else _) rest _ _
    rw [if_neg plain.1, if_neg plain.2]
    exact .pure ⟨rfl, rfl⟩
  | short e =>
    refine .advance_bind (.advance_bind ?_)
    have hescape : parseEscape e.letter = Pure.pure e.char := by cases e <;> rfl
    change Meets (parseEscape e.letter >>= fun c => Pure.pure (some c)) rest _ _
    rw [hescape]
    exact .pure ⟨rfl, rfl⟩
  | unicode u scalar =>
    refine .advance_bind (.advance_bind ?_)
    change Meets (parseUnicodeEscape >>= fun c => Pure.pure (some c)) (u.digits ++ rest) _ _
    refine (meets_parseUnicodeEscape u scalar).bind fun c s' hs' => ?_
    rw [hs'.1, hs'.2]
    exact .pure ⟨rfl, rfl⟩

theorem meets_parseStringChar_quote :
    Meets parseStringChar ('"' :: rest) (fun r s' => r = none ∧ s' = rest) F :=
  .advance_bind (.pure ⟨rfl, rfl⟩)

theorem length_le_text (items : List StringItem) :
    items.length ≤ (items.flatMap StringItem.text).length := by
  induction items with
  | nil => exact Nat.le_refl _
  | cons item items ih =>
    have hitem : 0 < item.text.length := by cases item <;> exact Nat.zero_lt_succ _
    rw [List.flatMap_cons, List.length_append, List.length_cons]
    omega

/-- The characters of a string, each however it is written. -/
theorem takes_parseString (items : List StringItem) (ts : List Token) :
    Takes parseString (.string items :: ts) (stringValue items) ts := by
  intro s hs
  cases hs with
  | @cons t ts rest hrest hword =>
    -- the quote is what `expectChar` finds behind nothing to skip
    have hopen : Meets (expectChar '"') ('"' :: (items.flatMap StringItem.text ++ ['"']) ++ rest)
        (fun _ s' => s' = items.flatMap StringItem.text ++ ('"' :: rest)) fun _ => False := by
      refine (meets_skipIgnored _).bind fun _ s' hs' => ?_
      rw [stripped_solid (by decide) (by decide) hs']
      refine .advance_bind (.pure ?_)
      change _ ++ ['"'] ++ rest = _
      rw [List.append_assoc]
      rfl
    refine hopen.bind fun _ s' hs' => ?_
    rw [hs']
    have hchars := @Meets.collect_eq _ _ parseStringChar
      (items.flatMap StringItem.text ++ ('"' :: rest)) (fun _ : GqlError => False)
      (fun chars s => ∃ items : List StringItem, chars = items.map StringItem.char ∧
        s = items.flatMap StringItem.text ++ ('"' :: rest)) (· = rest) (items.map StringItem.char)
      ?_ ?_ ?_ ⟨items, rfl, rfl⟩
    · refine hchars.bind fun chars s' hs' => ?_
      rw [hs'.1, hs'.2]
      exact .pure ⟨rfl, hrest⟩
    · rintro c chars s ⟨items, hchars, rfl⟩
      cases items with
      | nil => cases hchars
      | cons item items =>
        obtain ⟨rfl, rfl⟩ := List.cons.inj hchars
        rw [List.flatMap_cons, List.append_assoc]
        exact (meets_parseStringChar item).imp fun r s' hs' => ⟨hs'.1, items, rfl, hs'.2⟩
    · rintro s ⟨items, hchars, rfl⟩
      obtain rfl := List.map_eq_nil_iff.mp hchars.symm
      exact meets_parseStringChar_quote
    · have := length_le_text items
      rw [List.length_map, List.length_append]
      omega

end Strings

end Cynos.Gql
