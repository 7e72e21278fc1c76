import Mathlib.Data.List.Infix

/-! Recursive descent over a text with a position in bytes, and triples that speak of the rest
of the text. -/
namespace Cynos.Cursor

section Slices

def utf8Length : List Char → Nat
  | [] => 0
  | c :: s => c.utf8Size + utf8Length s

/-- The text from a byte on, unless that is inside of a character or behind the end. -/
def sliceFrom : List Char → Nat → Option (List Char)
  | s, 0 => some s
  | [], _ + 1 => none
  | c :: s, pos + 1 =>
    if c.utf8Size ≤ pos + 1 then sliceFrom s (pos + 1 - c.utf8Size) else none

/-- The text up to a byte. -/
def sliceTo : List Char → Nat → Option (List Char)
  | _, 0 => some []
  | [], _ + 1 => none
  | c :: s, pos + 1 =>
    if c.utf8Size ≤ pos + 1 then (sliceTo s (pos + 1 - c.utf8Size)).map (c :: ·) else none

def slice (text : List Char) (start stop : Nat) : Option (List Char) :=
  if start ≤ stop then (sliceFrom text start).bind (sliceTo · (stop - start)) else none

/-- The position is in front of the rest. -/
def At (text : List Char) (pos : Nat) (rest : List Char) : Prop :=
  ∃ before, text = before ++ rest ∧ pos = utf8Length before

variable {text s s' : List Char} {pos pos' : Nat}

theorem utf8Length_append (s s' : List Char) :
    utf8Length (s ++ s') = utf8Length s + utf8Length s' := by
  induction s with
  | nil => exact (Nat.zero_add _).symm
  | cons c s ih =>
    rw [List.cons_append, utf8Length, utf8Length, ih]
    omega

theorem sliceFrom_append (before s : List Char) :
    sliceFrom (before ++ s) (utf8Length before) = some s := by
  induction before with
  | nil => cases s <;> rfl
  | cons c before ih =>
    have hpos := c.utf8Size_pos
    have hlength : utf8Length (c :: before) = c.utf8Size + utf8Length before := rfl
    obtain ⟨pos, hsucc⟩ : ∃ pos, utf8Length (c :: before) = pos + 1 :=
      ⟨utf8Length (c :: before) - 1, by omega⟩
    rw [List.cons_append, hsucc, sliceFrom, if_pos (by omega)]
    have hrest : pos + 1 - c.utf8Size = utf8Length before := by omega
    rw [hrest, ih]

theorem sliceTo_append (taken s : List Char) :
    sliceTo (taken ++ s) (utf8Length taken) = some taken := by
  induction taken with
  | nil => cases s <;> rfl
  | cons c taken ih =>
    have hpos := c.utf8Size_pos
    have hlength : utf8Length (c :: taken) = c.utf8Size + utf8Length taken := rfl
    obtain ⟨pos, hsucc⟩ : ∃ pos, utf8Length (c :: taken) = pos + 1 :=
      ⟨utf8Length (c :: taken) - 1, by omega⟩
    rw [List.cons_append, hsucc, sliceTo, if_pos (by omega)]
    have hrest : pos + 1 - c.utf8Size = utf8Length taken := by omega
    rw [hrest, ih]
    rfl

theorem at_start (text : List Char) : At text 0 text := ⟨[], rfl, rfl⟩

theorem At.sliceFrom (h : At text pos s) : Cursor.sliceFrom text pos = some s := by
  obtain ⟨before, rfl, rfl⟩ := h
  exact sliceFrom_append before s

theorem At.length_le (h : At text pos s) : s.length ≤ text.length := by
  obtain ⟨before, rfl, rfl⟩ := h
  rw [List.length_append]
  omega

theorem At.tail {c : Char} (h : At text pos (c :: s)) : At text (pos + c.utf8Size) s := by
  obtain ⟨before, rfl, rfl⟩ := h
  refine ⟨before ++ [c], by rw [List.append_assoc]; rfl, ?_⟩
  rw [utf8Length_append]
  rfl

/-- At the end is where nothing is left. -/
theorem At.eof (h : At text pos s) : utf8Length text ≤ pos ↔ s = [] := by
  obtain ⟨before, rfl, rfl⟩ := h
  rw [utf8Length_append]
  cases s with
  | nil => exact iff_of_true (Nat.le_refl _) rfl
  | cons c s =>
    have hpos := c.utf8Size_pos
    have hlength : utf8Length (c :: s) = c.utf8Size + utf8Length s := rfl
    exact iff_of_false (by omega) (List.cons_ne_nil c s)

/-- Between two positions is what was gone over. -/
theorem At.slice (h : At text pos s) (h' : At text pos' s') (hle : s'.length ≤ s.length) :
    ∃ taken, s = taken ++ s' ∧ Cursor.slice text pos pos' = some taken := by
  have hfrom := h.sliceFrom
  obtain ⟨before, hbefore, rfl⟩ := h
  obtain ⟨before', hbefore', rfl⟩ := h'
  have hsuffix : s' <:+ s := List.suffix_of_suffix_length_le ⟨before', hbefore'.symm⟩
    ⟨before, hbefore.symm⟩ hle
  obtain ⟨taken, rfl⟩ := hsuffix
  have heq : before' = before ++ taken := by
    rw [hbefore, ← List.append_assoc] at hbefore'
    exact (List.append_cancel_right hbefore').symm
  have hlength : utf8Length before' - utf8Length before = utf8Length taken := by
    rw [heq, utf8Length_append, Nat.add_sub_cancel_left]
  refine ⟨taken, rfl, ?_⟩
  unfold Cursor.slice
  rw [if_pos (by rw [heq, utf8Length_append]; omega), hfrom, hlength]
  exact sliceTo_append taken s'

end Slices

section Parser

/-- What a parser ends with, besides a value. -/
inductive Stop (E : Type) where
  | slice
  | fuel
  | error (e : E)
deriving DecidableEq

def Parser (E A : Type) := List Char → Nat → Except (Stop E) (A × Nat)

variable {E A B : Type}

instance : Monad (Parser E) where
  pure v := fun _ pos => .ok (v, pos)
  bind p f := fun text pos =>
    match p text pos with
    | .ok (v, pos) => f v text pos
    | .error stop => .error stop

def fail (e : E) : Parser E A := fun _ _ => .error (.error e)

def outOfFuel : Parser E A := fun _ _ => .error .fuel

def position : Parser E Nat := fun _ pos => .ok (pos, pos)

/-- How often a loop over the text may go on. -/
def steps : Parser E Nat := fun text pos => .ok (text.length + 1, pos)

def isEof : Parser E Bool := fun text pos => .ok (decide (utf8Length text ≤ pos), pos)

def peekChar : Parser E (Option Char) := fun text pos =>
  match sliceFrom text pos with
  | some rest => .ok (rest.head?, pos)
  | none => .error .slice

def advanceChar : Parser E (Option Char) := do
  match ← peekChar with
  | some ch => fun _ pos => .ok (some ch, pos + ch.utf8Size)
  | none => return none

/-- A parser with the text that it goes over. -/
def captured (p : Parser E A) : Parser E (A × List Char) := fun text pos =>
  match p text pos with
  | .ok (v, pos') =>
    match slice text pos pos' with
    | some taken => .ok ((v, taken), pos')
    | none => .error .slice
  | .error stop => .error stop

/-- The loop that collects values until there is none. -/
def collectFrom (body : Parser E (Option A)) : Nat → Parser E (List A)
  | 0 => outOfFuel
  | fuel + 1 => do
    match ← body with
    | some v => return v :: (← collectFrom body fuel)
    | none => return []

def collect (body : Parser E (Option A)) : Parser E (List A) := do
  collectFrom body (← steps)

/-- The loop that goes over characters, and whether there are any. -/
def skipFrom (p : Char → Bool) : Nat → Parser E Bool
  | 0 => outOfFuel
  | fuel + 1 => do
    match ← peekChar with
    | some ch =>
      if p ch then do
        let _ ← advanceChar
        let _ ← skipFrom p fuel
        return true
      else return false
    | none => return false

def skipWhile (p : Char → Bool) : Parser E Bool := do
  skipFrom p (← steps)

end Parser

section Triples

variable {E A B : Type} {p : Parser E A} {f : A → Parser E B} {s : List Char}
  {Q R : A → List Char → Prop} {S : B → List Char → Prop} {F : E → Prop}

/-- In front of `s`, a parser ends with a value and a rest as `Q` says, or an error as `F` says;
it never slices inside of a character and never runs out of fuel. -/
def Meets (p : Parser E A) (s : List Char) (Q : A → List Char → Prop) (F : E → Prop) : Prop :=
  ∀ text pos, At text pos s → match p text pos with
    | .ok (v, pos') => ∃ s', At text pos' s' ∧ Q v s'
    | .error (.error e) => F e
    | .error _ => False

namespace Meets

theorem pure {v : A} (h : Q v s) : Meets (Pure.pure v) s Q F := fun _ _ hat => ⟨s, hat, h⟩

theorem bind (h : Meets p s R F) (h' : ∀ v s', R v s' → Meets (f v) s' S F) :
    Meets (p >>= f) s S F := by
  intro text pos hat
  have hp := h text pos hat
  change match (match p text pos with
    | .ok (v, pos) => f v text pos
    | .error stop => .error stop) with
    | .ok (v, pos') => ∃ s', At text pos' s' ∧ S v s'
    | .error (.error e) => F e
    | .error _ => False
  cases hrun : p text pos with
  | error stop =>
    rw [hrun] at hp
    cases stop <;> exact hp
  | ok out =>
    rw [hrun] at hp
    obtain ⟨s', hat', hR⟩ := hp
    exact h' out.1 s' hR text out.2 hat'

theorem imp (h : Meets p s R F) (himp : ∀ v s', R v s' → Q v s') : Meets p s Q F := by
  intro text pos hat
  have hp := h text pos hat
  cases hrun : p text pos with
  | error stop =>
    rw [hrun] at hp
    cases stop <;> exact hp
  | ok out =>
    rw [hrun] at hp
    obtain ⟨s', hat', hR⟩ := hp
    exact ⟨s', hat', himp _ _ hR⟩

theorem fail {e : E} (h : F e) : Meets (Cursor.fail e) s Q F := fun _ _ _ => h

theorem position {S : Nat → List Char → Prop} (h : ∀ pos, S pos s) :
    Meets Cursor.position s S F := fun _ pos hat => ⟨s, hat, h pos⟩

theorem steps_bind {g : Nat → Parser E A} (h : ∀ n, s.length < n → Meets (g n) s Q F) :
    Meets (steps >>= g) s Q F := by
  intro text pos hat
  have := hat.length_le
  exact h (text.length + 1) (by omega) text pos hat

theorem isEof_bind {g : Bool → Parser E A} (h : Meets (g (decide (s = []))) s Q F) :
    Meets (isEof >>= g) s Q F := by
  intro text pos hat
  have hrun := h text pos hat
  rw [decide_eq_decide.mpr hat.eof.symm] at hrun
  exact hrun

theorem peekChar {S : Option Char → List Char → Prop} (h : S s.head? s) :
    Meets Cursor.peekChar s S F := by
  intro text pos hat
  unfold Cursor.peekChar
  rw [hat.sliceFrom]
  exact ⟨s, hat, h⟩

theorem peek_bind {g : Option Char → Parser E A} (h : Meets (g s.head?) s Q F) :
    Meets (Cursor.peekChar >>= g) s Q F :=
  @bind E (Option Char) A Cursor.peekChar g s (fun v s' => v = s.head? ∧ s' = s) Q F
    (peekChar ⟨rfl, rfl⟩) fun v s' hv => by rw [hv.1, hv.2]; exact h

theorem advanceChar {S : Option Char → List Char → Prop} (h : S s.head? s.tail) :
    Meets Cursor.advanceChar s S F := by
  refine peek_bind ?_
  cases s with
  | nil => exact pure h
  | cons c s => exact fun text pos hat => ⟨s, hat.tail, h⟩

theorem advance_bind {g : Option Char → Parser E A} (h : Meets (g s.head?) s.tail Q F) :
    Meets (Cursor.advanceChar >>= g) s Q F :=
  @bind E (Option Char) A Cursor.advanceChar g s (fun v s' => v = s.head? ∧ s' = s.tail) Q F
    (advanceChar ⟨rfl, rfl⟩) fun v s' hv => by rw [hv.1, hv.2]; exact h

theorem captured {S : A × List Char → List Char → Prop}
    (h : Meets p s (fun v s' => s'.length ≤ s.length ∧
      ∀ taken, s = taken ++ s' → S (v, taken) s') F) : Meets (Cursor.captured p) s S F := by
  intro text pos hat
  have hp := h text pos hat
  unfold Cursor.captured
  cases hrun : p text pos with
  | error stop =>
    rw [hrun] at hp
    cases stop <;> exact hp
  | ok out =>
    rw [hrun] at hp
    obtain ⟨s', hat', hle, hS⟩ := hp
    obtain ⟨taken, htaken, hslice⟩ := hat.slice hat' hle
    dsimp only
    rw [hslice]
    exact ⟨s', hat', hS taken htaken⟩

end Meets

end Triples

section Loops

variable {E A : Type} {body : Parser E (Option A)} {s : List Char} {F : E → Prop}

/-- A loop that goes on only when it gets further: `R` says what a run from a text collects and
where it ends. -/
theorem Meets.collect_rec {R : List Char → List A → List Char → Prop}
    (h : ∀ s', s'.length ≤ s.length → Meets body s' (fun v s'' =>
      (v = none → R s' [] s'') ∧ ∀ a, v = some a →
        s''.length < s'.length ∧ ∀ vs s₃, R s'' vs s₃ → R s' (a :: vs) s₃) F) :
    Meets (collect body) s (R s) F := by
  refine steps_bind fun n hn => ?_
  induction n generalizing s with
  | zero => exact absurd hn (Nat.not_lt_zero _)
  | succ n ih =>
    refine (h s (Nat.le_refl _)).bind fun v s' hs' => ?_
    cases v with
    | none => exact .pure (hs'.1 rfl)
    | some v =>
      obtain ⟨hlt, hR⟩ := hs'.2 v rfl
      exact (ih (fun s'' hs'' => h s'' (by omega)) (by omega)).bind fun vs s'' hs'' =>
        .pure (hR vs s'' hs'')

/-- A loop that gets one value after the other, as long as some are left. -/
theorem Meets.collect_eq {I : List A → List Char → Prop} {Q : List Char → Prop} {vs : List A}
    (hsome : ∀ v vs s, I (v :: vs) s → Meets body s (fun r s' => r = some v ∧ I vs s') F)
    (hnone : ∀ s, I [] s → Meets body s (fun r s' => r = none ∧ Q s') F)
    (hlength : vs.length ≤ s.length) (h : I vs s) :
    Meets (collect body) s (fun r s' => r = vs ∧ Q s') F := by
  refine steps_bind fun n hn => ?_
  replace hn : vs.length < n := by omega
  clear hlength
  induction vs generalizing s n with
  | nil =>
    obtain ⟨n, rfl⟩ := Nat.exists_eq_succ_of_ne_zero (Nat.ne_of_gt hn)
    refine (hnone s h).bind fun r s' hr => ?_
    rw [hr.1]
    exact .pure ⟨rfl, hr.2⟩
  | cons v vs ih =>
    obtain ⟨n, rfl⟩ := Nat.exists_eq_succ_of_ne_zero (Nat.ne_of_gt (Nat.zero_lt_of_lt hn))
    refine (hsome v vs s h).bind fun r s' hr => ?_
    rw [hr.1]
    refine (ih hr.2 n (Nat.lt_of_succ_lt_succ hn)).bind fun r' s'' hr' => ?_
    rw [hr'.1]
    exact .pure ⟨rfl, hr'.2⟩

theorem Meets.skipWhile (p : Char → Bool) (s : List Char) :
    Meets (skipWhile p : Parser E Bool) s
      (fun v s' => v = (s.takeWhile p != []) ∧ s' = s.dropWhile p) F := by
  refine steps_bind fun n hn => ?_
  induction s generalizing n with
  | nil =>
    obtain ⟨n, rfl⟩ := Nat.exists_eq_succ_of_ne_zero (Nat.ne_of_gt (Nat.zero_lt_of_lt hn))
    exact .peek_bind (.pure ⟨rfl, rfl⟩)
  | cons c s ih =>
    obtain ⟨n, rfl⟩ := Nat.exists_eq_succ_of_ne_zero (Nat.ne_of_gt (Nat.zero_lt_of_lt hn))
    refine .peek_bind ?_
    change Meets (if p c then _ else _) _ _ _
    by_cases hc : p c = true
    · rw [if_pos hc, List.takeWhile_cons_of_pos hc, List.dropWhile_cons_of_pos hc]
      refine .advance_bind ?_
      exact (ih n (Nat.lt_of_succ_lt_succ hn)).bind fun v s' hs' => .pure ⟨rfl, hs'.2⟩
    · rw [if_neg hc, List.takeWhile_cons_of_neg hc, List.dropWhile_cons_of_neg hc]
      exact .pure ⟨rfl, rfl⟩

end Loops

section Progress

variable {E A B : Type} {p : Parser E A} {f : A → Parser E B} {n m : Nat}

/-- In front of less than `n` characters, a parser goes back nowhere. -/
def Keeps (n : Nat) (p : Parser E A) : Prop :=
  ∀ s, s.length < n → Meets p s (fun _ s' => s'.length ≤ s.length) fun _ => True

/-- A parser gets further whenever it succeeds. -/
def Consumes (n : Nat) (p : Parser E A) : Prop :=
  ∀ s, s.length < n → Meets p s (fun _ s' => s'.length < s.length) fun _ => True

/-- A parser gets further whenever there is a value. -/
def Advances (n : Nat) (p : Parser E (Option A)) : Prop :=
  ∀ s, s.length < n → Meets p s
    (fun v s' => s'.length ≤ s.length ∧ (v.isSome → s'.length < s.length)) fun _ => True

theorem Keeps.pure (v : A) : Keeps n (Pure.pure v : Parser E A) :=
  fun _ _ => .pure (Nat.le_refl _)

theorem Consumes.fail (e : E) : Consumes n (Cursor.fail e : Parser E A) :=
  fun _ _ => .fail trivial

theorem Consumes.keeps (h : Consumes n p) : Keeps n p :=
  fun s hs => (h s hs).imp fun _ _ => Nat.le_of_lt

theorem Consumes.mono (h : Consumes n p) (hle : m ≤ n) : Consumes m p :=
  fun s hs => h s (Nat.lt_of_lt_of_le hs hle)

theorem Keeps.mono (h : Keeps n p) (hle : m ≤ n) : Keeps m p :=
  fun s hs => h s (Nat.lt_of_lt_of_le hs hle)

theorem Keeps.bind (h : Keeps n p) (h' : ∀ v, Keeps n (f v)) : Keeps n (p >>= f) :=
  fun s hs => (h s hs).bind fun v s' hs' =>
    (h' v s' (Nat.lt_of_le_of_lt hs' hs)).imp fun _ _ hs'' => Nat.le_trans hs'' hs'

theorem Keeps.bind_consumes (h : Keeps n p) (h' : ∀ v, Consumes n (f v)) :
    Consumes n (p >>= f) :=
  fun s hs => (h s hs).bind fun v s' hs' =>
    (h' v s' (Nat.lt_of_le_of_lt hs' hs)).imp fun _ _ hs'' => Nat.lt_of_lt_of_le hs'' hs'

/-- What follows has a character less in front of it. -/
theorem Consumes.bind (h : Consumes (n + 1) p) (h' : ∀ v, Keeps n (f v)) :
    Consumes (n + 1) (p >>= f) :=
  fun s hs => (h s hs).bind fun v s' hs' =>
    (h' v s' (by omega)).imp fun _ _ hs'' => Nat.lt_of_le_of_lt hs'' hs'

theorem Consumes.bind_keeps (h : Consumes n p) (h' : ∀ v, Keeps n (f v)) :
    Consumes n (p >>= f) :=
  fun s hs => (h s hs).bind fun v s' hs' =>
    (h' v s' (Nat.lt_trans hs' hs)).imp fun _ _ hs'' => Nat.lt_of_le_of_lt hs'' hs'

theorem Keeps.bind_advances {f : A → Parser E (Option B)} (h : Keeps n p)
    (h' : ∀ v, Advances n (f v)) : Advances n (p >>= f) :=
  fun s hs => (h s hs).bind fun v s' hs' =>
    (h' v s' (Nat.lt_of_le_of_lt hs' hs)).imp fun _ _ hs'' =>
      ⟨Nat.le_trans hs''.1 hs', fun hsome => Nat.lt_of_lt_of_le (hs''.2 hsome) hs'⟩

theorem Consumes.advances {p : Parser E (Option A)} (h : Consumes n p) : Advances n p :=
  fun s hs => (h s hs).imp fun _ _ hs' => ⟨Nat.le_of_lt hs', fun _ => hs'⟩

theorem Keeps.advances_none (h : Keeps n p) :
    Advances n (p >>= fun _ => (Pure.pure none : Parser E (Option B))) :=
  fun s hs => (h s hs).bind fun _ _ hs' => .pure ⟨hs', fun hnone => by cases hnone⟩

theorem advances_none : Advances n (Pure.pure none : Parser E (Option A)) :=
  fun _ _ => .pure ⟨Nat.le_refl _, fun hnone => by cases hnone⟩

theorem keeps_peekChar : Keeps n (peekChar : Parser E (Option Char)) :=
  fun _ _ => .peekChar (Nat.le_refl _)

theorem keeps_advanceChar : Keeps n (advanceChar : Parser E (Option Char)) :=
  fun s _ => .advanceChar (by rw [List.length_tail]; omega)

theorem keeps_skipWhile (q : Char → Bool) : Keeps n (skipWhile q : Parser E Bool) :=
  fun s _ => (Meets.skipWhile q s).imp fun _ _ h => h.2 ▸ (List.dropWhile_suffix q).length_le

theorem keeps_isEof : Keeps n (isEof : Parser E Bool) :=
  fun s _ _ _ hat => ⟨s, hat, Nat.le_refl _⟩

theorem Advances.collect {body : Parser E (Option A)} (h : Advances n body) :
    Keeps n (collect body) :=
  fun s hs => Meets.collect_rec (R := fun s _ s' => s'.length ≤ s.length) fun s' hs' =>
    (h s' (Nat.lt_of_le_of_lt hs' hs)).imp fun v s'' hs'' => ⟨fun _ => hs''.1, fun a ha =>
      have hlt := hs''.2 (by rw [ha]; rfl)
      ⟨hlt, fun _ _ hs₃ => Nat.le_trans hs₃ (Nat.le_of_lt hlt)⟩⟩

theorem Consumes.captured (h : Consumes n p) : Consumes n (captured p) :=
  fun s hs => .captured ((h s hs).imp fun _ _ hs' => ⟨Nat.le_of_lt hs', fun _ _ => hs'⟩)

theorem Keeps.captured (h : Keeps n p) : Keeps n (captured p) :=
  fun s hs => .captured ((h s hs).imp fun _ _ hs' => ⟨hs', fun _ _ => hs'⟩)

end Progress

end Cynos.Cursor
