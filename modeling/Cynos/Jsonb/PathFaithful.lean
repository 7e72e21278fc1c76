import Cynos.Jsonb.PathText

/-! Which paths come back from their text. -/
namespace Cynos.Jsonb

open Core Cynos.Jsonb.Parser

variable {chars : CharClasses}

section Run

def pathText (steps : List (StepSyntax chars)) : List Char :=
  '$' :: steps.flatMap StepSyntax.text

/-- The characters behind the steps are no more of them: no further characters of a name at
the end, and neither a dot nor a bracket after the whitespace. -/
structure Trails (steps : List (StepSyntax chars)) (trailing : List Char) : Prop where
  name : ∀ step ∈ steps.getLast?, step.endsInName = true →
    Stops (isIdentifierChar chars) trailing
  step : ∀ c ∈ (trailing.dropWhile isWhitespace).head?, c ≠ '.' ∧ c ≠ '['

theorem trails_nil (steps : List (StepSyntax chars)) : Trails steps [] :=
  ⟨fun _ _ _ => stops_nil, fun _ hc => nomatch hc⟩

variable {steps : List (StepSyntax chars)} {consumed trailing : List Char} {path : JsonPath}

theorem Trails.tail {step : StepSyntax chars} (h : Trails (step :: steps) trailing) :
    Trails steps trailing := by
  refine ⟨fun last hlast => h.name last ?_, h.step⟩
  rw [Option.mem_def] at hlast ⊢
  rw [List.getLast?_cons, hlast]
  rfl

theorem StepSyntax.exists_text (step : StepSyntax chars) :
    ∃ c text, step.text = c :: text ∧ isIdentifierChar chars c = false := by
  have hdot : isIdentifierChar chars '.' = false :=
    (isIdentifierChar_ascii (by decide)).trans (by decide)
  have hopen : isIdentifierChar chars '[' = false :=
    (isIdentifierChar_ascii (by decide)).trans (by decide)
  cases step with
  | dotField | dotWildcard | recursiveField => exact ⟨'.', _, rfl, hdot⟩
  | _ => exact ⟨'[', _, rfl, hopen⟩

/-- A name ends where the next step begins. -/
theorem Trails.stops {step : StepSyntax chars} (h : Trails (step :: steps) trailing)
    (hname : step.endsInName = true) :
    Stops (isIdentifierChar chars) (steps.flatMap StepSyntax.text ++ trailing) := by
  cases steps with
  | nil => exact h.name step rfl hname
  | cons next steps =>
    obtain ⟨c, text, htext, hc⟩ := next.exists_text
    rw [List.flatMap_cons, htext]
    exact stops_cons.mpr hc

theorem parseStep_trailing (h : Trails steps trailing) :
    (Parser.mk consumed trailing).parseStep chars path = .ok none := by
  have hpeek : ∀ c, (Parser.mk consumed trailing).skipWhitespace.peek = some c → c ≠ '.' ∧ c ≠ '[' :=
    h.step
  have hdot : (Parser.mk consumed trailing).skipWhitespace.peek ≠ some '.' :=
    fun heq => (hpeek _ heq).1 rfl
  have hopen : (Parser.mk consumed trailing).skipWhitespace.peek ≠ some '[' :=
    fun heq => (hpeek _ heq).2 rfl
  simp only [parseStep, hdot, hopen, ↓reduceIte]

/-- The loop reads the steps one by one and stops behind them, whatever comes there. -/
theorem parseSteps_text (h : Trails steps trailing) {rounds : Nat}
    (hrounds : (steps.flatMap StepSyntax.text ++ trailing).length ≤ rounds) :
    (Parser.mk consumed (steps.flatMap StepSyntax.text ++ trailing)).parseSteps chars rounds path =
      .ok ((StepSyntax.readAll (consumed.contains ':') steps).foldl JsonPath.then path) := by
  induction steps generalizing consumed path rounds with
  | nil =>
    cases rounds with
    | zero => rfl
    | succ rounds =>
      rw [List.flatMap_nil, List.nil_append, parseSteps, parseStep_trailing h]
      rfl
  | cons step steps ih =>
    obtain ⟨c, text, htext, -⟩ := step.exists_text
    rw [List.flatMap_cons, List.append_assoc] at hrounds ⊢
    cases rounds with
    | zero => simp [htext] at hrounds
    | succ rounds =>
      have hrest : (steps.flatMap StepSyntax.text ++ trailing).length ≤ rounds := by
        rw [htext] at hrounds
        simp only [List.length_append, List.length_cons] at hrounds ⊢
        omega
      rw [parseSteps, parseStep_text step path h.stops]
      have hread := @ih (consumed ++ step.text) (path.then (step.read (consumed.contains ':')))
        h.tail rounds hrest
      rw [show (consumed ++ step.text).contains ':' =
        (consumed.contains ':' || step.text.contains ':') by simp] at hread
      exact hread

/-- A text of steps is read as far as the steps go. -/
theorem parse_text (h : Trails steps trailing) :
    JsonPath.parse chars (String.ofList (pathText steps ++ trailing)) =
      .ok (JsonPath.ofSteps (StepSyntax.readAll false steps)) := by
  have hdollar : isWhitespace '$' = false := by decide
  have hspace : Stops isWhitespace ('$' :: (steps.flatMap StepSyntax.text ++ trailing)) :=
    stops_cons.mpr hdollar
  unfold JsonPath.parse Parser.new
  rw [String.toList_ofList, pathText, List.cons_append, skipWhitespace_stops hspace,
    expect_cons hdollar]
  exact parseSteps_text h le_rfl

end Run

section Faithful

/-- What a step must not hold for its own text to come back: backslashes and quotes of its
kind in a quoted text, and numbers that a float does not hold. -/
def PlainQuoted (quote : Quote) (text : String) : Prop :=
  ∀ c ∈ text.toList, c ≠ '\\' ∧ c ≠ quote.char

def LiteralSyntax.Plain : LiteralSyntax → Prop
  | .string quote text => PlainQuoted quote text
  | _ => True

def StepSyntax.Plain : StepSyntax chars → Prop
  | .quotedField quote name => PlainQuoted quote name
  | .index n => readNat n = n
  | .slice start stop => (∀ n ∈ start, readNat n = n) ∧ ∀ n ∈ stop, readNat n = n
  | .filterCompare _ _ value => value.Plain
  | _ => True

def StepSyntax.isIndex : StepSyntax chars → Bool
  | .index _ => true
  | _ => false

theorem ofList_quotedText_eq_iff {quote : Quote} {text : String} :
    String.ofList (quotedText quote text.toList) = text ↔ PlainQuoted quote text := by
  have hlength : ∀ text : List Char, text.length ≤ (quotedText quote text).length := fun text => by
    induction text with
    | nil => exact Nat.zero_le _
    | cons c text ih =>
      rw [quotedText, List.flatMap_cons, ← quotedText, List.length_append, List.length_cons]
      split <;> simp only [List.length_cons, List.length_nil] <;> omega
  rw [← String.toList_inj, String.toList_ofList, PlainQuoted]
  generalize text.toList = text
  induction text with
  | nil => simp [quotedText]
  | cons c text ih =>
    rw [quotedText, List.flatMap_cons, ← quotedText]
    by_cases hescaped : c = '\\' ∨ c = quote.char
    · rw [if_pos hescaped]
      refine iff_of_false (fun heq => ?_) fun h => ?_
      · have := congrArg List.length heq
        have := hlength text
        simp only [List.length_append, List.length_cons, List.length_nil] at *
        omega
      · have := h c List.mem_cons_self
        exact hescaped.elim this.1 this.2
    · rw [if_neg hescaped, List.singleton_append, List.cons_inj_right, List.forall_mem_cons]
      exact ih.trans (and_iff_right (not_or.mp hescaped)).symm

theorem LiteralSyntax.read_eq_meant_iff (value : LiteralSyntax) :
    value.read = value.meant ↔ value.Plain := by
  cases value with
  | string quote text =>
    rw [read, meant, PredicateValue.string.injEq]
    exact ofList_quotedText_eq_iff
  | _ => exact iff_of_true rfl trivial

theorem map_readNat_eq_iff {bound : Option Nat} :
    bound.map readNat = bound ↔ ∀ n ∈ bound, readNat n = n := by
  cases bound <;> simp

/-- One step is read as it is meant, just when it is plain and no index behind a colon. -/
theorem StepSyntax.read_eq_meant_iff (colon : Bool) (step : StepSyntax chars) :
    step.read colon = step.meant ↔ step.Plain ∧ (colon = true → step.isIndex = false) := by
  cases step with
  | quotedField quote name =>
    rw [read, meant, JsonPathStep.field.injEq, ofList_quotedText_eq_iff]
    exact (and_iff_left fun _ => rfl).symm
  | index n => cases colon <;> simp [read, meant, Plain, isIndex]
  | slice start stop =>
    rw [read, meant, JsonPathStep.slice.injEq, map_readNat_eq_iff, map_readNat_eq_iff]
    exact (and_iff_left fun _ => rfl).symm
  | filterCompare field op value =>
    rw [read, meant, JsonPathStep.filter.injEq, JsonPathPredicate.compare.injEq,
      value.read_eq_meant_iff]
    simp [Plain, isIndex]
  | _ => exact iff_of_true rfl ⟨trivial, fun _ => rfl⟩

/-- No index stands anywhere behind a step whose text has a colon. -/
def NoIndexBehindColon (steps : List (StepSyntax chars)) : Prop :=
  steps.Pairwise fun earlier later => ':' ∈ earlier.text → later.isIndex = false

theorem readAll_eq_meant_iff (colon : Bool) (steps : List (StepSyntax chars)) :
    StepSyntax.readAll colon steps = steps.map StepSyntax.meant ↔
      (∀ step ∈ steps, step.Plain) ∧ (colon = true → ∀ step ∈ steps, step.isIndex = false) ∧
        NoIndexBehindColon steps := by
  induction steps generalizing colon with
  | nil => simp [StepSyntax.readAll, NoIndexBehindColon]
  | cons step steps ih =>
    rw [StepSyntax.readAll, List.map_cons, List.cons.injEq, step.read_eq_meant_iff, ih,
      NoIndexBehindColon, NoIndexBehindColon, List.pairwise_cons, Bool.or_eq_true,
      List.contains_iff_mem]
    simp only [List.forall_mem_cons]
    grind

/-- The steps come back from their text, and what is no step behind them is refused;
whitespace is allowed anywhere. -/
def Faithful (steps : List (StepSyntax chars)) (trailing : List Char) : Prop :=
  if trailing.all isWhitespace then
    JsonPath.parse chars (String.ofList (pathText steps ++ trailing)) =
      .ok (JsonPath.ofSteps (steps.map StepSyntax.meant))
  else
    ∃ error, JsonPath.parse chars (String.ofList (pathText steps ++ trailing)) = .error error

/-- A path is parsed faithfully, just when nothing but whitespace follows it, its quoted texts
and its numbers are plain, and no index stands behind a colon. -/
theorem parse_faithful_iff {steps : List (StepSyntax chars)} {trailing : List Char}
    (h : Trails steps trailing) :
    Faithful steps trailing ↔
      trailing.all isWhitespace = true ∧ (∀ step ∈ steps, step.Plain) ∧
        NoIndexBehindColon steps := by
  unfold Faithful
  rw [parse_text h]
  by_cases hblank : trailing.all isWhitespace = true
  · rw [if_pos hblank, Except.ok.injEq, ofSteps_inj, readAll_eq_meant_iff, and_iff_right hblank]
    simp
  · rw [if_neg hblank]
    refine iff_of_false ?_ fun hsteps => hblank hsteps.1
    rintro ⟨error, herror⟩
    cases herror

/-- `$.items[0]`. -/
theorem parse_faithful_iff_items :
    Faithful [.dotField (.ofAscii .ascii "items" (by decide) (List.forall_iff_forall_mem.mp (by decide))), .index 0] [] :=
  (parse_faithful_iff (trails_nil _)).mpr ⟨rfl,
    List.forall_mem_cons.mpr ⟨trivial, List.forall_mem_singleton.mpr (show readNat 0 = 0 by decide +kernel)⟩,
    List.pairwise_cons.mpr ⟨by decide, List.pairwise_singleton _ _⟩⟩

/-- In `$[0:1][0]` the index is read as a slice. -/
theorem indexBehindSlice_readAsSlice :
    ¬ ∀ (steps : List (StepSyntax .ascii)) (trailing : List Char),
      Trails steps trailing → Faithful steps trailing := by
  intro h
  have htrails := trails_nil [(.slice (some 0) (some 1) : StepSyntax .ascii), .index 0]
  have hfaithful := h _ _ htrails
  rw [Faithful, if_pos List.all_nil, parse_text htrails, Except.ok.injEq, ofSteps_inj] at hfaithful
  cases hfaithful

end Faithful

end Cynos.Jsonb
