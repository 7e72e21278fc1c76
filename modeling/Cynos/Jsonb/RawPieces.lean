import Cynos.Jsonb.RawScan
import Cynos.Jsonb.TextParser
import Mathlib.Data.List.Basic

/-! The scans for the ends of pieces on texts in the grammar of JSON: from the start of a string or
value they stop behind it. A position is known by the text that follows it. -/
namespace Cynos.Jsonb

open Json (Blank Digits Key StringItem CodeUnit Doc Elements Members Scan quoted stringText)

section Position

variable {text front rest : List Char} {pos : Nat} {c : Char}

theorem drop_append (h : text.drop pos = front ++ rest) : text.drop (pos + front.length) = rest := by
  rw [← List.drop_drop, h, List.drop_left]

theorem drop_succ (h : text.drop pos = c :: rest) : text.drop (pos + 1) = rest := by
  rw [← List.drop_drop, h]
  rfl

theorem getElem?_pos (h : text.drop pos = c :: rest) : text[pos]? = some c := by
  have hget : (text.drop pos)[0]? = text[pos + 0]? := List.getElem?_drop
  rw [h, Nat.add_zero] at hget
  exact hget.symm

/-- Blanks are skipped up to the next token. -/
theorem skip_blank (blank : Blank) (h : text.drop pos = blank.chars ++ c :: rest)
    (hc : isAsciiWhitespace c = false) :
    skipJsonWhitespace text pos = pos + blank.chars.length := by
  have hblank : ∀ c ∈ blank.chars, isAsciiWhitespace c = true := by
    intro c hc
    have := blank.blank c hc
    simp only [Json.isBlank, Bool.or_eq_true, beq_iff_eq] at this
    rcases this with ((rfl | rfl) | rfl) | rfl <;> rfl
  unfold skipJsonWhitespace
  rw [h, List.takeWhile_append_of_pos hblank, List.takeWhile_cons_of_neg (by simp [hc]),
    List.append_nil]

theorem skip_token (h : text.drop pos = c :: rest) (hc : isAsciiWhitespace c = false) :
    skipJsonWhitespace text pos = pos :=
  skip_blank .none h hc

end Position

section Strings

variable {front rest text : List Char} {pos : Nat}

/-- Characters of a string that neither end it nor escape the next one. -/
theorem scanStringFrom_plain (h : ∀ c ∈ front, c ≠ '"' ∧ c ≠ '\\') :
    scanStringFrom false pos (front ++ rest) = scanStringFrom false (pos + front.length) rest := by
  induction front generalizing pos with
  | nil => rfl
  | cons c front ih =>
    obtain ⟨⟨hquote, hslash⟩, hfront⟩ := List.forall_mem_cons.mp h
    rw [List.cons_append, scanStringFrom, if_neg Bool.false_ne_true, if_neg hslash, if_neg hquote,
      ih hfront, List.length_cons, Nat.add_right_comm, Nat.add_assoc]

theorem scanStringFrom_escape {c : Char} (h : ∀ c ∈ front, c ≠ '"' ∧ c ≠ '\\') :
    scanStringFrom false pos ('\\' :: c :: front ++ rest) =
      scanStringFrom false (pos + ('\\' :: c :: front).length) rest := by
  rw [List.cons_append, List.cons_append, scanStringFrom, if_neg Bool.false_ne_true, if_pos rfl,
    scanStringFrom, if_pos rfl, scanStringFrom_plain h]
  congr 1
  simp only [List.length_cons]
  omega

theorem scanStringFrom_item (item : StringItem) :
    scanStringFrom false pos (item.text ++ rest) =
      scanStringFrom false (pos + item.text.length) rest := by
  cases item with
  | plain c printable =>
    refine scanStringFrom_plain fun c' hc' => ?_
    obtain rfl := List.mem_singleton.mp hc'
    exact ⟨printable.1, printable.2.1⟩
  | short escape => exact scanStringFrom_escape fun c hc => by cases hc
  | unicode u scalar => exact scanStringFrom_escape u.ne
  | surrogates high low highRange lowRange =>
    rw [StringItem.text, List.append_assoc, scanStringFrom_escape high.ne,
      scanStringFrom_escape low.ne, List.length_append, Nat.add_assoc]

theorem scanStringFrom_text (items : List StringItem) :
    scanStringFrom false pos (stringText items ++ '"' :: rest) =
      some (pos + (stringText items).length + 1) := by
  induction items generalizing pos with
  | nil => rfl
  | cons item items ih =>
    rw [stringText, List.flatMap_cons, List.append_assoc, scanStringFrom_item]
    refine ih.trans (congrArg some ?_)
    rw [List.length_append]
    simp only [stringText]
    omega

/-- A string literal ends behind its closing quote. -/
theorem scanJsonStringEnd_quoted (items : List StringItem)
    (h : text.drop pos = quoted items ++ rest) :
    scanJsonStringEnd text pos = some (pos + (quoted items).length) := by
  have htext : text.drop pos = '"' :: (stringText items ++ '"' :: rest) := by
    rw [h, quoted, List.cons_append, List.cons_append, List.append_assoc, List.singleton_append]
  have hlength : (quoted items).length = (stringText items).length + 2 := by simp [quoted]
  unfold scanJsonStringEnd
  rw [if_neg (not_not.mpr (getElem?_pos htext)), drop_succ htext, scanStringFrom_text, hlength]
  exact congrArg some (by omega)

end Strings

section Brackets

open Json.Scan (Passes outside)

/-- At least so deep, and no bracket is closed there but one that was opened behind. -/
def Enclosed (e : Int) (st : Scan) (c : Char) : Prop :=
  e ≤ st.depth ∧ (st = outside e → c ≠ '}' ∧ c ≠ ']')

theorem enclosed_of_inside {e : Int} (st : Scan) (c : Char) (h : Scan.Inside e st c) :
    Enclosed e st c :=
  ⟨h.1, fun hst => (h.2 hst).2.2⟩

variable {e : Int}

theorem passes_comma : Passes (Enclosed e) (outside e) [','] (outside e) :=
  .cons (Scan.step_inert (by decide)) ⟨Int.le_refl e, fun _ => by decide⟩ (.nil _)

theorem element_enclosed (before : Blank) (value : Doc) (after : Blank) :
    Passes (Enclosed e) (outside e) (before.chars ++ value.text ++ after.chars) (outside e) := by
  have hle := Int.le_refl e
  exact (((before.passes hle).append (value.passes hle)).append (after.passes hle)).imp
    enclosed_of_inside

theorem member_enclosed (key : Key) (value : Doc) (after : Blank) :
    Passes (Enclosed e) (outside e) (key.text ++ value.text ++ after.chars) (outside e) := by
  have hle := Int.le_refl e
  have hfront := ((key.before.passes hle).append (Json.quoted_inside hle key.name)).append
    (key.after.passes hle)
  have hcolon : Passes (Enclosed e) (outside e) [':'] (outside e) :=
    .cons (Scan.step_inert (by decide)) ⟨hle, fun _ => by decide⟩ (.nil _)
  have hgap := hcolon.append ((key.gap.passes hle).imp enclosed_of_inside)
  exact (((hfront.imp enclosed_of_inside).append hgap).append
    ((value.passes hle).imp enclosed_of_inside)).append
    ((after.passes hle).imp enclosed_of_inside)

theorem elements_enclosed (es : Elements) :
    Passes (Enclosed e) (outside e) es.text (outside e) := by
  refine @Elements.induct (fun es => Passes (Enclosed e) (outside e) es.text (outside e))
    element_enclosed (fun before value after rest ih => ?_) es
  exact (element_enclosed before value after).append (passes_comma.append ih)

theorem members_enclosed (ms : Members) :
    Passes (Enclosed e) (outside e) ms.text (outside e) := by
  refine @Members.induct (fun ms => Passes (Enclosed e) (outside e) ms.text (outside e))
    member_enclosed (fun key value after rest ih => ?_) ms
  exact (member_enclosed key value after).append (passes_comma.append ih)

/-- The scan for the closing bracket in the state of the automaton. -/
def scanAt (st : Scan) (pos : Nat) (text : List Char) : Option Nat :=
  scanCompositeFrom st.depth.toNat st.inString st.escape pos text

/-- Only a string has escapes. -/
def EscapesInString (st : Scan) : Prop := st.escape = true → st.inString = true

variable {st : Scan} {c : Char} {front rest text : List Char} {pos : Nat}

theorem scanAt_step (h : Enclosed 1 st c) (hescape : EscapesInString st) :
    scanAt st pos (c :: rest) = scanAt (st.step c) (pos + 1) rest ∧
      EscapesInString (st.step c) := by
  obtain ⟨depth, inString, escape⟩ := st
  obtain ⟨hdepth, hclose⟩ := h
  unfold EscapesInString at hescape ⊢
  simp only [Scan.mk.injEq, outside] at hdepth hclose hescape
  unfold scanAt
  rw [scanCompositeFrom]
  cases inString with
  | true =>
    cases escape with
    | true => exact ⟨rfl, fun _ => rfl⟩
    | false =>
      by_cases hslash : c = '\\'
      · subst hslash
        exact ⟨rfl, fun _ => rfl⟩
      · by_cases hquote : c = '"'
        · subst hquote
          exact ⟨rfl, fun h => h⟩
        · simp [Scan.step, hslash, hquote]
  | false =>
    obtain rfl : escape = false := by
      cases escape with
      | false => rfl
      | true => exact (hescape rfl).symm
    by_cases hquote : c = '"'
    · subst hquote
      exact ⟨rfl, fun h => by cases h⟩
    · by_cases hopen : c = '{' ∨ c = '['
      · have hnat : (depth + 1).toNat = depth.toNat + 1 := by omega
        simp [Scan.step, hquote, hopen, hnat]
      · by_cases hend : c = '}' ∨ c = ']'
        · have hdeep : 2 ≤ depth := by
            by_contra hlt
            have hone : depth = 1 := by omega
            rcases hend with rfl | rfl
            · exact (hclose ⟨hone, rfl, rfl⟩).1 rfl
            · exact (hclose ⟨hone, rfl, rfl⟩).2 rfl
          have hnat : (depth - 1).toNat = depth.toNat - 1 := by omega
          have hpos : depth.toNat ≠ 0 ∧ depth.toNat - 1 ≠ 0 := by omega
          simp [Scan.step, hquote, hopen, hend, hnat, hpos]
        · simp [Scan.step, hquote, hopen, hend]

theorem scanAt_along (h : Scan.Along (Enclosed 1) st front) (hescape : EscapesInString st) :
    scanAt st pos (front ++ rest) = scanAt (st.run front) (pos + front.length) rest := by
  induction front generalizing st pos with
  | nil => rfl
  | cons c front ih =>
    obtain ⟨hstep, hnext⟩ := @scanAt_step st c (front ++ rest) pos h.1 hescape
    rw [List.cons_append, hstep, ih h.2 hnext, Scan.run_cons, List.length_cons,
      Nat.add_right_comm, Nat.add_assoc]

/-- A text in brackets ends behind the closing one. -/
theorem scanJsonCompositeEnd_brackets {first last : Char} {body : List Char}
    (hfirst : first = '{' ∨ first = '[') (hlast : last = '}' ∨ last = ']')
    (hbody : Passes (Enclosed 1) (outside 1) body (outside 1))
    (h : text.drop pos = first :: body ++ [last] ++ rest) :
    scanJsonCompositeEnd text pos = some (pos + (first :: body ++ [last]).length) := by
  have hopen : scanCompositeFrom 0 false false pos (first :: body ++ [last] ++ rest) =
      scanAt (outside 1) (pos + 1) (body ++ (last :: rest)) := by
    rw [List.append_assoc, List.cons_append, scanCompositeFrom]
    rcases hfirst with rfl | rfl <;> rfl
  have hclose : scanAt (outside 1) (pos + 1 + body.length) (last :: rest) =
      some (pos + 1 + body.length + 1) := by
    unfold scanAt
    rw [scanCompositeFrom]
    rcases hlast with rfl | rfl <;> rfl
  unfold scanJsonCompositeEnd
  rw [h, hopen, scanAt_along hbody.along (fun h => by cases h), hbody.run, hclose]
  refine congrArg some ?_
  simp only [List.length_append, List.length_cons, List.length_nil]
  omega

end Brackets

section Values

open Json.Scan (Passes outside Lexical)

variable {text rest : List Char} {pos : Nat} {c : Char}

theorem noAsciiWhitespace (h : Core.isWhitespace c = false) : isAsciiWhitespace c = false := by
  by_contra hspace
  have hwhite : Core.isWhitespace c = true := by
    simp only [isAsciiWhitespace, Bool.or_eq_true, beq_iff_eq, Bool.not_eq_false] at hspace
    rcases hspace with (((rfl | rfl) | rfl) | hspace) | rfl
    · decide
    · decide
    · decide
    · simp [Core.isWhitespace, hspace]
    · decide
  exact Bool.false_ne_true (h.symm.trans hwhite)

/-- A character that stands for no token on its own. -/
theorem not_endsScalar (h : Lexical c) : endsScalar c = false := by
  obtain ⟨⟨-, -, -, hbrace, hbracket⟩, hcomma, -⟩ := h
  simp [endsScalar, hcomma, hbracket, hbrace]

/-- A number or a word is read up to the next delimiter, with the blanks behind it. -/
theorem scanJsonValueEnd_word {word : List Char} (hword : ∀ c ∈ word, Lexical c) (after : Blank)
    {first : Char} (hfirst : word.head? = some first) (hspace : isAsciiWhitespace first = false)
    (h : text.drop pos = word ++ (after.chars ++ c :: rest)) (hc : endsScalar c = true) :
    scanJsonValueEnd text pos = some (pos + (word ++ after.chars).length) := by
  obtain ⟨tail, rfl⟩ := List.head?_eq_some_iff.mp hfirst
  obtain ⟨⟨hquote, hbrace, hbracket, -, -⟩, -, -⟩ := hword first List.mem_cons_self
  have hskip : skipJsonWhitespace text pos = pos := skip_token h hspace
  have htake : (text.drop pos).takeWhile (!endsScalar ·) = first :: tail ++ after.chars := by
    rw [h, ← List.append_assoc, List.takeWhile_append_of_pos, List.takeWhile_cons_of_neg,
      List.append_nil]
    · simp [hc]
    · intro c hmem
      rcases List.mem_append.mp hmem with hmem | hmem
      · simp [not_endsScalar (hword c hmem)]
      · simp [not_endsScalar (after.lexical c hmem)]
  unfold scanJsonValueEnd
  simp only [hskip, getElem?_pos h, hquote, hbrace, hbracket, or_self, ↓reduceIte, htake]

/-- The words of the grammar and its numbers. -/
theorem word_of_doc (d : Doc) :
    (∃ items, d = .string items) ∨
      (∃ first last body, d.text = first :: body ++ [last] ∧ (first = '{' ∨ first = '[') ∧
        (last = '}' ∨ last = ']') ∧ Passes (Enclosed 1) (outside 1) body (outside 1)) ∨
      ((∀ c ∈ d.text, Lexical c) ∧ ∃ first, d.text.head? = some first ∧
        isAsciiWhitespace first = false) := by
  cases d with
  | null => exact .inr (.inr ⟨List.forall_iff_forall_mem.mp (by decide), 'n', rfl, rfl⟩)
  | bool b =>
    cases b with
    | true => exact .inr (.inr ⟨List.forall_iff_forall_mem.mp (by decide), 't', rfl, rfl⟩)
    | false => exact .inr (.inr ⟨List.forall_iff_forall_mem.mp (by decide), 'f', rfl, rfl⟩)
  | number n =>
    obtain ⟨first, chars, htext, -⟩ := Core.numeralText_head n
    have hof := n.ofNumber first (by rw [htext]; exact List.mem_cons_self)
    exact .inr (.inr ⟨n.lexical, first, by rw [Doc.text, htext]; rfl,
      noAsciiWhitespace (Json.ofNumber_noWhitespace hof)⟩)
  | string items => exact .inl ⟨items, rfl⟩
  | emptyArray blank =>
    exact .inr (.inl ⟨'[', ']', blank.chars, rfl, .inr rfl, .inr rfl,
      (blank.passes (Int.le_refl 1)).imp enclosed_of_inside⟩)
  | array es => exact .inr (.inl ⟨'[', ']', es.text, rfl, .inr rfl, .inr rfl, elements_enclosed es⟩)
  | emptyObject blank =>
    exact .inr (.inl ⟨'{', '}', blank.chars, rfl, .inl rfl, .inl rfl,
      (blank.passes (Int.le_refl 1)).imp enclosed_of_inside⟩)
  | object ms => exact .inr (.inl ⟨'{', '}', ms.text, rfl, .inl rfl, .inl rfl, members_enclosed ms⟩)

/-- From the start of a value the scan stops behind it, or behind the blanks that follow. -/
theorem scanJsonValueEnd_text (value : Doc) (after : Blank)
    (h : text.drop pos = value.text ++ (after.chars ++ c :: rest)) (hc : endsScalar c = true) :
    ∃ tail left : Blank, after.chars = tail.chars ++ left.chars ∧
      scanJsonValueEnd text pos = some (pos + (value.text ++ tail.chars).length) := by
  rcases word_of_doc value with ⟨items, rfl⟩ | ⟨first, last, body, htext, hfirst, hlast, hbody⟩ |
    ⟨hword, first, hfirst, hspace⟩
  · refine ⟨.none, after, rfl, ?_⟩
    have hskip : skipJsonWhitespace text pos = pos := skip_token h rfl
    have hend := scanJsonStringEnd_quoted items h
    unfold scanJsonValueEnd
    simp only [hskip, getElem?_pos h, ↓reduceIte]
    rw [hend, Blank.none, List.append_nil]
    rfl
  · refine ⟨.none, after, rfl, ?_⟩
    rw [htext] at h
    have hspace : isAsciiWhitespace first = false := by rcases hfirst with rfl | rfl <;> rfl
    have hquote : first ≠ '"' := by rcases hfirst with rfl | rfl <;> decide
    have hskip : skipJsonWhitespace text pos = pos := skip_token h hspace
    have hend := scanJsonCompositeEnd_brackets hfirst hlast hbody h
    unfold scanJsonValueEnd
    simp only [hskip, getElem?_pos h, hquote, hfirst, ↓reduceIte]
    rw [hend, htext, Blank.none, List.append_nil]
  · exact ⟨after, .none, (List.append_nil _).symm,
      scanJsonValueEnd_word hword after hfirst hspace h hc⟩

/-- The text between two positions. -/
def between (text : List Char) (start stop : Nat) : List Char := (text.drop start).take (stop - start)

theorem between_append {front : List Char} (h : text.drop pos = front ++ rest) :
    between text pos (pos + front.length) = front := by
  unfold between
  rw [h, Nat.add_sub_cancel_left, List.take_left]

/-- What the scans find of an element: the text of its value, up to blanks, and what stands behind
the blanks that follow it. -/
structure ElementAt (text : List Char) (pos : Nat) (value : Doc) (behind : List Char) : Prop where
  first : ∃ first tail, text.drop (skipJsonWhitespace text pos) = first :: tail ∧ first ≠ ']'
  value : ∃ stop, scanJsonValueEnd text (skipJsonWhitespace text pos) = some stop ∧
    (∃ tail : Blank, between text (skipJsonWhitespace text pos) stop = value.text ++ tail.chars) ∧
    text.drop (skipJsonWhitespace text stop) = behind

/-- What they find of a member. -/
structure MemberAt (text : List Char) (pos : Nat) (key : Key) (value : Doc) (behind : List Char) :
    Prop where
  literal : ∃ tail, text.drop (skipJsonWhitespace text pos) = quoted key.name ++ tail
  stop : ∃ keyEnd, keyEnd = skipJsonWhitespace text pos + (quoted key.name).length ∧
    scanJsonStringEnd text (skipJsonWhitespace text pos) = some keyEnd ∧
    text[skipJsonWhitespace text keyEnd]? = some ':' ∧
    ElementAt text (skipJsonWhitespace text keyEnd + 1) value behind

/-- The text of the key without its quotes. -/
theorem MemberAt.name {text : List Char} {pos : Nat} {key : Key} {value : Doc} {behind : List Char}
    (h : MemberAt text pos key value behind) :
    between text (skipJsonWhitespace text pos + 1)
      (skipJsonWhitespace text pos + (quoted key.name).length - 1) = stringText key.name := by
  obtain ⟨tail, hliteral⟩ := h.literal
  rw [quoted, List.cons_append, List.cons_append, List.append_assoc] at hliteral
  have hlength : skipJsonWhitespace text pos + (quoted key.name).length - 1 =
      skipJsonWhitespace text pos + 1 + (stringText key.name).length := by
    simp only [quoted, List.length_append, List.length_cons, List.length_nil]
    omega
  rw [hlength]
  exact between_append (drop_succ hliteral)

theorem first_of_doc (d : Doc) : ∃ first tail, d.text = first :: tail ∧
    isAsciiWhitespace first = false ∧ first ≠ ']' := by
  rcases word_of_doc d with ⟨items, rfl⟩ | ⟨first, last, body, htext, hfirst, -, -⟩ |
    ⟨hword, first, hfirst, hspace⟩
  · exact ⟨'"', _, rfl, rfl, by decide⟩
  · refine ⟨first, body ++ [last], htext, ?_, ?_⟩
    · rcases hfirst with rfl | rfl <;> rfl
    · rcases hfirst with rfl | rfl <;> decide
  · obtain ⟨tail, htext⟩ := List.head?_eq_some_iff.mp hfirst
    refine ⟨first, tail, htext, hspace, ?_⟩
    rw [htext] at hword
    exact (hword first List.mem_cons_self).1.2.2.2.2

theorem delimiter_solid (hc : endsScalar c = true) : isAsciiWhitespace c = false := by
  simp only [endsScalar, Bool.or_eq_true, beq_iff_eq] at hc
  rcases hc with (rfl | rfl) | rfl <;> rfl

/-- An element between its blanks. -/
theorem element_at (before : Blank) (value : Doc) (after : Blank)
    (h : text.drop pos = before.chars ++ value.text ++ after.chars ++ c :: rest)
    (hc : endsScalar c = true) : ElementAt text pos value (c :: rest) := by
  obtain ⟨first, body, hvalue, hspace, hbracket⟩ := first_of_doc value
  have hblank : text.drop pos = before.chars ++ (value.text ++ (after.chars ++ c :: rest)) := by
    rw [h, List.append_assoc, List.append_assoc]
  have hdrop := drop_append hblank
  have hstart : skipJsonWhitespace text pos = pos + before.chars.length := by
    rw [hvalue] at hblank
    exact skip_blank before hblank hspace
  obtain ⟨tail, left, hafter, hend⟩ := scanJsonValueEnd_text value after hdrop hc
  have hslice : text.drop (pos + before.chars.length) =
      (value.text ++ tail.chars) ++ (left.chars ++ c :: rest) := by
    rw [hdrop, hafter, List.append_assoc, List.append_assoc]
  have hnext := drop_append hslice
  have hskip := skip_blank left hnext (delimiter_solid hc)
  constructor
  · rw [hstart, hdrop, hvalue]
    exact ⟨first, _, rfl, hbracket⟩
  · rw [hstart]
    exact ⟨_, hend, ⟨tail, between_append hslice⟩, by rw [hskip, drop_append hnext]⟩

/-- A member between its blanks. -/
theorem member_at (key : Key) (value : Doc) (after : Blank)
    (h : text.drop pos = key.text ++ value.text ++ after.chars ++ c :: rest)
    (hc : endsScalar c = true) : MemberAt text pos key value (c :: rest) := by
  have hblank : text.drop pos = key.before.chars ++ (quoted key.name ++ (key.after.chars ++ ':' ::
      (key.gap.chars ++ value.text ++ after.chars ++ c :: rest))) := by
    rw [h, Key.text]
    simp only [List.append_assoc, List.cons_append]
  have hkey := drop_append hblank
  have hstart : skipJsonWhitespace text pos = pos + key.before.chars.length :=
    skip_blank key.before hblank rfl
  have hcolon := drop_append hkey
  have hskip := skip_blank key.after hcolon rfl
  have hvalue := drop_append hcolon
  constructor
  · rw [hstart]
    exact ⟨_, hkey⟩
  · rw [hstart]
    refine ⟨_, rfl, scanJsonStringEnd_quoted key.name hkey, ?_, ?_⟩
    · rw [hskip]
      exact getElem?_pos hvalue
    · rw [hskip]
      exact element_at key.gap value after (drop_succ hvalue) hc

end Values

end Cynos.Jsonb
