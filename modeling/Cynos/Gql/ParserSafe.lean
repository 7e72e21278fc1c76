import Cynos.Gql.Parser

/-! The parser comes to an end on every text, and slices none inside of a character. -/
namespace Cynos.Gql

open Core (parseF64 parseI64)
open Cursor

variable {A : Type} {n : Nat} {s s' : List Char}

section Ignored

theorem meets_skipLine {F : GqlError → Prop} (s : List Char) :
    Meets skipLine s (fun _ s' => s' = (s.dropWhile (· != '\n')).tail) F := by
  refine Meets.collect_rec (R := fun s _ s' => s' = (s.dropWhile (· != '\n')).tail)
    fun s _ => .advance_bind ?_
  cases s with
  | nil => exact .pure ⟨fun _ => rfl, nofun⟩
  | cons c s =>
    refine .pure ?_
    by_cases hc : c = '\n'
    · subst hc
      exact ⟨fun _ => rfl, nofun⟩
    · rw [if_neg hc, List.dropWhile_cons_of_pos (by simpa using hc)]
      exact ⟨nofun, fun _ _ => ⟨Nat.lt_succ_self _, fun _ _ h => h⟩⟩

/-- What is left of a text behind what is ignored in front. -/
inductive Stripped : List Char → List Char → Prop
  | stop {s : List Char} (h : (s.dropWhile isIgnored).head? ≠ some '#') :
      Stripped s (s.dropWhile isIgnored)
  | line {s rest s' : List Char} (h : s.dropWhile isIgnored = '#' :: rest)
      (hrest : Stripped (rest.dropWhile (· != '\n')).tail s') : Stripped s s'

theorem tail_dropWhile_le (p : Char → Bool) (s : List Char) :
    (s.dropWhile p).tail.length ≤ s.length := by
  have := (List.dropWhile_suffix (l := s) p).length_le
  rw [List.length_tail]
  omega

theorem Stripped.length_le (h : Stripped s s') : s'.length ≤ s.length := by
  induction h with
  | stop h => exact (List.dropWhile_suffix _).length_le
  | @line s rest s' h hrest ih =>
    have hdrop := (List.dropWhile_suffix (l := s) isIgnored).length_le
    have htail := tail_dropWhile_le (· != '\n') rest
    rw [h, List.length_cons] at hdrop
    omega

theorem meets_skipIgnored {F : GqlError → Prop} (s : List Char) :
    Meets skipIgnored s (fun _ s' => Stripped s s') F := by
  refine Meets.collect_rec (R := fun s _ s' => Stripped s s') fun s _ =>
    (Meets.skipWhile isIgnored s).bind fun v s' hs' => .peek_bind ?_
  have hle := (List.dropWhile_suffix (l := s) isIgnored).length_le
  rw [← hs'.2] at hle
  by_cases hhead : s'.head? = some '#'
  · rw [if_pos hhead]
    refine (meets_skipLine s').bind fun _ s'' hs'' => .pure ⟨nofun, fun _ _ => ?_⟩
    obtain ⟨rest, rfl⟩ : ∃ rest, s' = '#' :: rest := ⟨s'.tail, List.eq_cons_of_mem_head? hhead⟩
    have htail := tail_dropWhile_le (· != '\n') rest
    rw [List.length_cons] at hle
    rw [hs'']
    exact ⟨Nat.lt_of_le_of_lt htail (by omega), fun _ _ h => .line hs'.2.symm h⟩
  · rw [if_neg hhead]
    refine .pure ⟨fun _ => ?_, nofun⟩
    rw [hs'.2] at hhead ⊢
    exact .stop hhead

end Ignored

section Lexer

theorem keeps_skipIgnored : Keeps n skipIgnored :=
  fun s _ => (meets_skipIgnored s).imp fun _ _ h => h.length_le

theorem consumes_syntaxError (message : String) : Consumes n (syntaxError message : Parser A) :=
  fun _ _ => (Meets.position (S := fun _ s' => s' = _) fun _ => rfl).bind
    fun _ _ _ => .fail trivial

theorem consumes_expectChar (c : Char) : Consumes n (expectChar c) := by
  refine keeps_skipIgnored.bind_consumes fun _ s _ => .advance_bind ?_
  cases s with
  | nil => exact .fail trivial
  | cons d s =>
    by_cases hd : d = c
    · change Meets (if d = c then _ else _) _ _ _
      rw [if_pos hd]
      exact .pure (Nat.lt_succ_self _)
    · change Meets (if d = c then _ else _) _ _ _
      rw [if_neg hd]
      exact (Meets.position (S := fun _ s' => s' = s) fun _ => rfl).bind
        fun _ _ _ => .fail trivial

theorem consumes_scanName : Consumes n scanName := by
  intro s hs
  refine .peek_bind ?_
  cases s with
  | nil => exact consumes_syntaxError _ [] hs
  | cons c s =>
    change Meets (if isNameStart c then _ else _) _ _ _
    split_ifs with hc
    · exact .advance_bind ((keeps_skipWhile isNameContinue s (Nat.lt_of_succ_lt hs)).imp
        fun _ _ h => Nat.lt_succ_of_le h)
    · exact consumes_syntaxError _ _ hs

theorem consumes_parseName : Consumes n parseName :=
  keeps_skipIgnored.bind_consumes fun _ =>
    consumes_scanName.captured.bind_keeps fun _ => .pure _

theorem keeps_advanceIf (expected : Char → Bool) : Keeps n (advanceIf expected) := by
  refine keeps_peekChar.bind fun c => ?_
  split_ifs
  · exact keeps_advanceChar.bind fun _ => .pure _
  · exact .pure _

theorem keeps_scanFraction : Keeps n scanFraction := by
  refine keeps_peekChar.bind fun c => ?_
  split_ifs
  · refine keeps_advanceChar.bind fun _ => (keeps_skipWhile _).bind fun digits => ?_
    cases digits
    · exact (consumes_syntaxError _).keeps
    · exact .pure _
  · exact .pure _

theorem keeps_scanExponent : Keeps n scanExponent := by
  refine keeps_peekChar.bind fun c => ?_
  split_ifs
  · refine keeps_advanceChar.bind fun _ => (keeps_advanceIf _).bind fun _ =>
      (keeps_skipWhile _).bind fun digits => ?_
    cases digits
    · exact (consumes_syntaxError _).keeps
    · exact .pure _
  · exact .pure _

/-- A number without digits in front is refused. -/
theorem consumes_scanNumber : Consumes n scanNumber := by
  refine (keeps_advanceIf _).bind_consumes fun _ s hs => ?_
  refine (Meets.skipWhile Char.isDigit s).bind fun digits s' hs' => ?_
  have hle : s'.length ≤ s.length := hs'.2 ▸ (List.dropWhile_suffix _).length_le
  have hdigits : digits = true → s'.length < s.length := by
    intro h
    rw [h] at hs'
    refine Nat.lt_of_le_of_ne hle fun heq => ?_
    have htake := congrArg List.length (@List.takeWhile_append_dropWhile _ Char.isDigit s)
    rw [List.length_append, ← hs'.2, heq] at htake
    have hnil : s.takeWhile Char.isDigit = [] := List.eq_nil_of_length_eq_zero (by omega)
    rw [hnil] at hs'
    exact absurd hs'.1 (by decide)
  have htail : Keeps n (scanFraction >>= fun fraction => scanExponent >>= fun exponent =>
      if digits then pure (fraction || exponent) else syntaxError "expected numeric literal") := by
    refine keeps_scanFraction.bind fun _ => keeps_scanExponent.bind fun _ => ?_
    split_ifs
    · exact .pure _
    · exact (consumes_syntaxError _).keeps
  cases digits with
  | true =>
    have hlt := hdigits rfl
    exact (htail s' (Nat.lt_trans hlt hs)).imp fun _ _ h => Nat.lt_of_le_of_lt h hlt
  | false =>
    have herror : Consumes n (scanFraction >>= fun fraction => scanExponent >>= fun exponent =>
        if false then pure (fraction || exponent) else syntaxError "expected numeric literal") :=
      keeps_scanFraction.bind_consumes fun _ => keeps_scanExponent.bind_consumes fun _ =>
        consumes_syntaxError _
    exact (herror s' (Nat.lt_of_le_of_lt hle hs)).imp fun _ _ h => Nat.lt_of_lt_of_le h hle

theorem consumes_parseNumberValue : Consumes n parseNumberValue := by
  refine consumes_scanNumber.captured.bind_keeps fun out => ?_
  obtain ⟨isFloat, literal⟩ := out
  dsimp only
  split_ifs
  · cases parseF64 literal with
    | none => exact (Consumes.fail _).keeps
    | some value => exact .pure _
  · cases parseI64 literal with
    | none => exact (Consumes.fail _).keeps
    | some value => exact .pure _

theorem keeps_scanHex (count : Nat) : Keeps n (scanHex count) := by
  induction count with
  | zero => exact .pure _
  | succ count ih =>
    refine keeps_advanceChar.bind fun c => ?_
    cases c with
    | none => exact (consumes_syntaxError _).keeps
    | some c =>
      change Keeps n (if Json.isHex c then _ else _)
      split_ifs
      · exact ih
      · exact (consumes_syntaxError _).keeps

theorem keeps_parseUnicodeEscape : Keeps n parseUnicodeEscape := by
  refine (keeps_scanHex 4).captured.bind fun out => ?_
  cases parseHex out.2 with
  | none => exact (Consumes.fail _).keeps
  | some value =>
    dsimp only
    cases charFromU32 value with
    | none => exact (Consumes.fail _).keeps
    | some c => exact .pure _

theorem keeps_parseEscape (c : Char) : Keeps n (parseEscape c) := by
  unfold parseEscape
  split_ifs
  all_goals first
    | exact Keeps.pure _
    | exact keeps_parseUnicodeEscape
    | exact (Consumes.fail _).keeps

theorem advances_parseStringChar : Advances n parseStringChar := by
  intro s hs
  refine .advance_bind ?_
  cases s with
  | nil => exact .fail trivial
  | cons c s =>
    change Meets (if c = '"' then _ else if c = '\\' then _ else _) _ _ _
    split_ifs
    · exact .pure ⟨Nat.le_succ _, nofun⟩
    · refine Meets.imp (keeps_advanceChar.bind (fun escaped => ?_) s (Nat.lt_of_succ_lt hs))
        fun _ _ h => ⟨Nat.le_succ_of_le h, fun _ => Nat.lt_succ_of_le h⟩
      cases escaped with
      | none => exact (Consumes.fail _).keeps
      | some escaped => exact (keeps_parseEscape escaped).bind fun _ => .pure _
    · exact .pure ⟨Nat.le_succ _, fun _ => Nat.lt_succ_self _⟩

theorem consumes_parseString : Consumes n parseString :=
  (consumes_expectChar _).bind_keeps fun _ => advances_parseStringChar.collect.bind fun _ => .pure _

end Lexer

section Values

theorem keeps_parseUntil {close : Char} {item : Parser A} (h : Consumes n item) :
    Keeps n (parseUntil close item) := by
  refine Advances.collect (keeps_skipIgnored.bind_advances fun _ =>
    keeps_peekChar.bind_advances fun c => ?_)
  split_ifs
  · exact keeps_advanceChar.advances_none
  · exact (h.bind_keeps fun _ => .pure _).advances

theorem consumes_parseNamed {parseValue : Parser InputValue} (h : Consumes n parseValue) :
    Consumes n (parseNamed parseValue) :=
  consumes_parseName.bind_keeps fun _ => (consumes_expectChar _).keeps.bind fun _ =>
    h.keeps.bind fun _ => .pure _

/-- Every value that nests in another has less in front of it. -/
theorem consumes_parseInputValue (fuel : Nat) : Consumes fuel (parseInputValue fuel) := by
  induction fuel with
  | zero => exact fun s hs => absurd hs (Nat.not_lt_zero _)
  | succ fuel ih =>
    refine keeps_skipIgnored.bind_consumes fun _ => keeps_peekChar.bind_consumes fun c => ?_
    cases c with
    | none => exact consumes_syntaxError _
    | some c =>
      dsimp only
      split_ifs
      · exact consumes_parseString.bind_keeps fun _ => .pure _
      · exact (consumes_expectChar _).bind fun _ => (keeps_parseUntil ih).bind fun _ => .pure _
      · exact (consumes_expectChar _).bind fun _ =>
          (keeps_parseUntil (consumes_parseNamed ih)).bind fun _ => .pure _
      · exact keeps_advanceChar.bind_consumes fun _ => consumes_parseName.bind_keeps fun _ => .pure _
      · exact consumes_parseNumberValue
      · exact consumes_parseName.bind_keeps fun _ => .pure _

end Values

section Fields

variable {fuel : Nat}

theorem keeps_parseOptionalArguments : Keeps fuel (parseOptionalArguments fuel) := by
  refine keeps_skipIgnored.bind fun _ => keeps_peekChar.bind fun c => ?_
  split_ifs
  · exact (consumes_expectChar _).keeps.bind fun _ => keeps_parseUntil
      ((consumes_parseNamed (consumes_parseInputValue fuel)).bind_keeps fun _ => .pure _)
  · exact .pure _

theorem keeps_parseDirectives : Keeps fuel (parseDirectives fuel) := by
  refine Advances.collect (keeps_skipIgnored.bind_advances fun _ =>
    keeps_peekChar.bind_advances fun c => ?_)
  split_ifs
  · exact (keeps_advanceChar.bind_consumes fun _ => consumes_parseName.bind_keeps fun _ =>
      keeps_parseOptionalArguments.bind fun _ => .pure _).advances
  · exact advances_none

theorem consumes_parseFieldName : Consumes n parseFieldName := by
  refine keeps_skipIgnored.bind_consumes fun _ => consumes_parseName.bind_keeps fun _ =>
    keeps_skipIgnored.bind fun _ => keeps_peekChar.bind fun c => ?_
  split_ifs
  · exact keeps_advanceChar.bind fun _ => consumes_parseName.keeps.bind fun _ => .pure _
  · exact .pure _

theorem consumes_parseSelectionSetWith {field : Parser Field} (h : Consumes n field) :
    Consumes (n + 1) (parseSelectionSetWith field) := by
  refine (consumes_expectChar _).bind fun _ => Keeps.bind ?_ fun fields => ?_
  · refine Advances.collect (keeps_skipIgnored.bind_advances fun _ =>
      keeps_peekChar.bind_advances fun c => ?_)
    cases c with
    | none => exact (consumes_syntaxError _).advances
    | some c =>
      dsimp only
      split_ifs
      · exact keeps_advanceChar.advances_none
      · exact (Consumes.fail _).advances
      · exact (h.bind_keeps fun _ => .pure _).advances
  · split_ifs
    · exact (consumes_syntaxError _).keeps
    · exact .pure _

theorem consumes_parseField (fuel : Nat) : Consumes fuel (parseField fuel) := by
  induction fuel with
  | zero => exact fun s hs => absurd hs (Nat.not_lt_zero _)
  | succ fuel ih =>
    refine consumes_parseFieldName.bind fun name => keeps_parseOptionalArguments.bind fun _ =>
      keeps_parseDirectives.bind fun _ => keeps_skipIgnored.bind fun _ =>
        keeps_peekChar.bind fun c => ?_
    split_ifs
    · exact ((consumes_parseSelectionSetWith ih).mono (Nat.le_succ _)).keeps.bind fun _ => .pure _
    · exact .pure _

end Fields

section Operations

theorem consumes_parseTypeReference (fuel : Nat) : Consumes fuel (parseTypeReference fuel) := by
  induction fuel with
  | zero => exact fun s hs => absurd hs (Nat.not_lt_zero _)
  | succ fuel ih =>
    have hmark : ∀ ty, Keeps (fuel + 1) (do
        let _ ← skipIgnored
        if (← peekChar) = some '!' then do
          let _ ← advanceChar
          return .nonNull ty
        else return ty : Parser TypeReference) := by
      refine fun ty => keeps_skipIgnored.bind fun _ => keeps_peekChar.bind fun c => ?_
      split_ifs
      · exact keeps_advanceChar.bind fun _ => .pure _
      · exact .pure _
    refine keeps_skipIgnored.bind_consumes fun _ => Consumes.bind_keeps ?_ hmark
    intro s hs
    refine .peek_bind ?_
    split_ifs with hopen
    · obtain ⟨rest, rfl⟩ : ∃ rest, s = '[' :: rest := ⟨s.tail, List.eq_cons_of_mem_head? hopen⟩
      refine .advance_bind ?_
      have hinner : Keeps fuel (parseTypeReference fuel >>= fun inner =>
          expectChar ']' >>= fun _ => pure (TypeReference.list inner)) :=
        ih.keeps.bind fun _ => (consumes_expectChar _).keeps.bind fun _ => .pure _
      exact (hinner rest (Nat.lt_of_succ_lt_succ hs)).imp fun _ _ h => Nat.lt_succ_of_le h
    · exact (consumes_parseName.bind_keeps fun _ => .pure _ : Consumes (fuel + 1) _) s hs

variable {fuel : Nat}

theorem consumes_parseVariableDefinition : Consumes fuel (parseVariableDefinition fuel) := by
  refine (consumes_expectChar _).bind_keeps fun _ => consumes_parseName.keeps.bind fun _ =>
    (consumes_expectChar _).keeps.bind fun _ => (consumes_parseTypeReference fuel).keeps.bind
      fun _ => Keeps.bind ?_ fun _ => .pure _
  refine keeps_skipIgnored.bind fun _ => keeps_peekChar.bind fun c => ?_
  split_ifs
  · exact keeps_advanceChar.bind fun _ => (consumes_parseInputValue fuel).keeps.bind
      fun _ => .pure _
  · exact .pure _

theorem keeps_operationType (keyword : String) : Keeps n (operationType keyword) := by
  unfold operationType
  split_ifs
  · exact .pure _
  · exact .pure _
  · exact .pure _
  · exact (Consumes.fail _).keeps

theorem keeps_parseOperationName : Keeps n parseOperationName := by
  refine keeps_skipIgnored.bind fun _ => keeps_peekChar.bind fun c => ?_
  cases c with
  | none => exact .pure _
  | some c =>
    dsimp only
    split_ifs
    · exact .pure _
    · exact consumes_parseName.keeps.bind fun _ => .pure _
    · exact .pure _

theorem keeps_parseOperationVariables : Keeps fuel (parseOperationVariables fuel) := by
  refine keeps_skipIgnored.bind fun _ => keeps_peekChar.bind fun c => ?_
  split_ifs
  · exact (consumes_expectChar _).keeps.bind fun _ => keeps_parseUntil
      consumes_parseVariableDefinition
  · exact .pure _

theorem consumes_parseSelectionSet : Consumes fuel (parseSelectionSet fuel) :=
  (consumes_parseSelectionSetWith (consumes_parseField fuel)).mono (Nat.le_succ _)

theorem consumes_parseOperationDefinition : Consumes fuel (parseOperationDefinition fuel) := by
  refine keeps_skipIgnored.bind_consumes fun _ => keeps_peekChar.bind_consumes fun c => ?_
  split_ifs
  · exact consumes_parseSelectionSet.bind_keeps fun _ => .pure _
  · refine consumes_parseName.bind_keeps fun _ => (keeps_operationType _).bind fun _ =>
      keeps_parseOperationName.bind fun _ => keeps_parseOperationVariables.bind fun _ =>
        keeps_peekChar.bind fun c => ?_
    split_ifs
    · exact (Consumes.fail _).keeps
    · exact consumes_parseSelectionSet.keeps.bind fun _ => .pure _

theorem keeps_documentParser : Keeps fuel (documentParser fuel) := by
  refine Keeps.bind (Advances.collect (keeps_skipIgnored.bind_advances fun _ =>
    keeps_isEof.bind_advances fun eof => ?_)) fun operations => ?_
  · cases eof
    · exact (consumes_parseOperationDefinition.bind_keeps fun _ => .pure _).advances
    · exact advances_none
  · split_ifs
    · exact (consumes_syntaxError _).keeps
    · exact .pure _

/-- Every text is parsed to a document or to an error. -/
theorem parseDocument_total (input : List Char) :
    (∃ document, parseDocument input = .ok document) ∨
      ∃ e, parseDocument input = .error (.error e) := by
  have h := keeps_documentParser input (Nat.lt_succ_self _) input 0 (at_start input)
  unfold parseDocument
  cases hrun : documentParser (input.length + 1) input 0 with
  | ok out => exact .inl ⟨out.1, rfl⟩
  | error stop =>
    rw [hrun] at h
    cases stop with
    | slice => exact h.elim
    | fuel => exact h.elim
    | error e => exact .inr ⟨e, rfl⟩

end Operations

end Cynos.Gql
