import Cynos.Query.RegexMatch
import Cynos.Query.RegexSyntax

/-! Which documented regular expressions the runner matches as documented. -/
namespace Cynos.Query

open Regex (Quantifier Element Matches Step AcceptsAt)

section Ops

def Shorthand.op : Shorthand → RegexOp
  | .digit => .digit
  | .nonDigit => .nonDigit
  | .word => .word
  | .nonWord => .nonWord
  | .whitespace => .whitespace
  | .nonWhitespace => .nonWhitespace

/-- What the class parser makes of an item. -/
def BracketItem.compiled : BracketItem → List CharClassItem
  | .plain c | .escaped c => [.char c]
  | .control k => [.char k.char]
  | .shorthand s => classEscape s.letter
  | .range first last => [.range first last]

def Atom.op : Atom → RegexOp
  | .any => .any
  | .plain c | .escaped c => .char c
  | .control k => .char k.char
  | .shorthand s => s.op
  | .bracket false items => .charClass (items.flatMap BracketItem.compiled)
  | .bracket true items => .negCharClass (items.flatMap BracketItem.compiled)

def quantified : Quantifier → RegexOp → RegexOp
  | .one, op => op
  | .star, op => .star op
  | .plus, op => .plus op
  | .question, op => .question op

end Ops

section Compile

variable {ops : List RegexOp} {inGroup : Bool} {chars rest : List Char} {c : Char}

theorem ne_of_escapable (h : Escapable c) {letter : Char} (hletter : letter.isAlphanum = true) :
    c ≠ letter := by
  rintro rfl
  exact Bool.false_ne_true (h.symm.trans hletter)

theorem escapeOp_of_escapable (h : Escapable c) : escapeOp c = .char c := by
  have hne := fun letter => @ne_of_escapable c h letter
  simp [escapeOp, hne 'd' (by decide), hne 'D' (by decide), hne 'w' (by decide),
    hne 'W' (by decide), hne 's' (by decide), hne 'S' (by decide), hne 'n' (by decide),
    hne 't' (by decide), hne 'r' (by decide)]

theorem classEscape_of_escapable (h : Escapable c) : classEscape c = [.char c] := by
  have hne := fun letter => @ne_of_escapable c h letter
  simp [classEscape, hne 'd' (by decide), hne 'w' (by decide), hne 's' (by decide),
    hne 'n' (by decide), hne 't' (by decide), hne 'r' (by decide)]

/-- No quantifier follows. -/
def NoQuantifier (chars : List Char) : Prop := ∀ q ∈ chars.head?, q ≠ '*' ∧ q ≠ '+' ∧ q ≠ '?'

theorem applyQuantifier_text (quantifier : Quantifier) (ops : List RegexOp) (base : RegexOp)
    (h : NoQuantifier rest) :
    applyQuantifier (quantifierText quantifier ++ rest) ops base =
      (ops ++ [quantified quantifier base], rest) := by
  cases quantifier with
  | one =>
    cases rest with
    | nil => rfl
    | cons q rest =>
      obtain ⟨hstar, hplus, hquestion⟩ := h q rfl
      simp [quantifierText, applyQuantifier, hstar, hplus, hquestion, quantified]
  | star => rfl
  | plus => rfl
  | question => rfl

theorem applyGroupQuantifier_none (ops : List RegexOp) (h : NoQuantifier rest) :
    applyGroupQuantifier rest ops = (ops, rest) := by
  cases rest with
  | nil => rfl
  | cons q rest =>
    obtain ⟨hstar, hplus, hquestion⟩ := h q rfl
    simp [applyGroupQuantifier, hstar, hplus, hquestion]

theorem noHyphen_cases {items : List BracketItem} (h : NoHyphen items)
    (hwf : ItemsWellFormed items) :
    items = [.plain '-'] ∨
      ∃ d chars, itemsText items ++ ']' :: rest = d :: chars ∧ d ≠ '-' := by
  cases items with
  | nil => exact .inr ⟨']', rest, rfl, by decide⟩
  | cons item items =>
    cases item with
    | plain c =>
      by_cases hc : c = '-'
      · obtain rfl := hc
        exact .inl (by rw [h rfl])
      · exact .inr ⟨c, _, rfl, hc⟩
    | range first last => exact .inr ⟨first, _, rfl, h⟩
    | escaped c => exact .inr ⟨'\\', _, rfl, by decide⟩
    | control k => exact .inr ⟨'\\', _, rfl, by decide⟩
    | shorthand s => exact .inr ⟨'\\', _, rfl, by decide⟩

theorem parseClassItems_text {items : List BracketItem} (h : ItemsWellFormed items)
    (parsed : List CharClassItem) (rest : List Char) :
    parseClassItems parsed (itemsText items ++ ']' :: rest) =
      some (parsed ++ items.flatMap BracketItem.compiled, rest) := by
  induction items generalizing parsed with
  | nil => simpa [itemsText] using parseClassItems_close
  | cons item items ih =>
    have hescape : ∀ e, (item :: items).flatMap BracketItem.compiled =
        classEscape e ++ items.flatMap BracketItem.compiled → ItemsWellFormed items →
        parseClassItems parsed ('\\' :: e :: (itemsText items ++ ']' :: rest)) =
          some (parsed ++ (item :: items).flatMap BracketItem.compiled, rest) := by
      intro e heq hitems
      rw [parseClassItems_escape, heq, ← List.append_assoc]
      exact ih hitems _
    cases item with
    | plain c =>
      obtain ⟨⟨hclose, hescaped⟩, hhyphen, hitems⟩ := h
      rcases @noHyphen_cases rest items hhyphen hitems with rfl | ⟨d, chars, hchars, hd⟩
      · exact parseClassItems_hyphen hclose hescaped
      · have hrest := ih hitems (parsed ++ [.char c])
        change parseClassItems parsed (c :: (itemsText items ++ ']' :: rest)) = _
        rw [hchars] at hrest ⊢
        rw [parseClassItems_char hclose hescaped hd, hrest]
        simp [BracketItem.compiled]
    | escaped c =>
      exact hescape c (by rw [classEscape_of_escapable h.1]; rfl) h.2
    | control k => exact hescape k.letter (by cases k <;> rfl) h
    | shorthand s => exact hescape s.letter rfl h
    | range first last =>
      obtain ⟨⟨hclose, hescaped⟩, ⟨hclose', -⟩, hitems⟩ := h
      change parseClassItems parsed (first :: '-' :: last :: (itemsText items ++ ']' :: rest)) = _
      rw [parseClassItems_range hclose hescaped hclose', ih hitems]
      simp [BracketItem.compiled]

theorem parseCharClass_text {negated : Bool} {items : List BracketItem}
    (h : (Atom.bracket negated items).WellFormed) (rest : List Char) :
    parseCharClass ((Atom.bracket negated items).text.tail ++ rest) =
      some ((Atom.bracket negated items).op, rest) := by
  obtain ⟨hitems, hcaret⟩ := h
  have hparsed := parseClassItems_text hitems [] rest
  cases negated with
  | true =>
    change parseCharClass ('^' :: (itemsText items ++ [']'] ++ rest)) = _
    rw [List.append_assoc]
    simp only [parseCharClass, ↓reduceIte]
    exact congrArg (Option.map _) hparsed
  | false =>
    change parseCharClass (itemsText items ++ [']'] ++ rest) = _
    rw [List.append_assoc]
    have hclass : ∀ chars, chars.head? ≠ some '^' → chars ≠ [] → parseCharClass chars =
        (parseClassItems [] chars).map fun parsed => (RegexOp.charClass parsed.1, parsed.2) := by
      intro chars hhead hne
      cases chars with
      | nil => exact absurd rfl hne
      | cons c chars => exact if_neg fun heq => hhead (congrArg some heq)
    rw [hclass]
    · exact congrArg (Option.map _) hparsed
    · cases htext : itemsText items with
      | nil => exact fun heq => by cases heq
      | cons c chars =>
        rw [htext] at hcaret
        exact hcaret rfl
    · simp

/-- The compiler makes an instruction of each atom with its quantifier. -/
theorem compileFrom_atom {atom : Atom} (h : atom.WellFormed) (quantifier : Quantifier)
    (hrest : NoQuantifier rest) :
    compileFrom (atom.text ++ quantifierText quantifier ++ rest) ops inGroup =
      compileFrom rest (ops ++ [quantified quantifier atom.op]) inGroup := by
  have hquantifier := fun base => applyQuantifier_text quantifier ops base hrest
  rw [List.append_assoc]
  cases atom with
  | any =>
    change compileFrom ('.' :: (quantifierText quantifier ++ rest)) ops inGroup = _
    rw [compileFrom_any, hquantifier]
    rfl
  | plain c =>
    change compileFrom (c :: (quantifierText quantifier ++ rest)) ops inGroup = _
    rw [compileFrom_char h, hquantifier]
    rfl
  | escaped c =>
    change compileFrom ('\\' :: c :: (quantifierText quantifier ++ rest)) ops inGroup = _
    rw [compileFrom_escape, hquantifier, escapeOp_of_escapable h]
    rfl
  | control k =>
    change compileFrom ('\\' :: k.letter :: (quantifierText quantifier ++ rest)) ops inGroup = _
    rw [compileFrom_escape, hquantifier]
    cases k <;> rfl
  | shorthand s =>
    change compileFrom ('\\' :: s.letter :: (quantifierText quantifier ++ rest)) ops inGroup = _
    rw [compileFrom_escape, hquantifier]
    cases s <;> rfl
  | bracket negated items =>
    have hparsed := parseCharClass_text h (quantifierText quantifier ++ rest)
    have htext : (Atom.bracket negated items).text =
        '[' :: (Atom.bracket negated items).text.tail := by cases negated <;> rfl
    rw [htext]
    refine (compileFrom_bracket hparsed).trans ?_
    rw [hquantifier]

end Compile

section Linear

/-- A class of characters means what the code tests, on the text at hand. -/
def Shorthand.Settled (value : String) : Shorthand → Prop
  | .whitespace | .nonWhitespace => verticalTab ∉ value.toList
  | .digit | .nonDigit | .word | .nonWord => True

/-- In brackets, the negated shorthands are read as letters, and whitespace has no form feed. -/
def BracketItem.Settled (value : String) : BracketItem → Prop
  | .shorthand .whitespace => verticalTab ∉ value.toList ∧ formFeed ∉ value.toList
  | .shorthand .nonDigit | .shorthand .nonWord | .shorthand .nonWhitespace => False
  | _ => True

def Atom.Settled (value : String) : Atom → Prop
  | .shorthand s => s.Settled value
  | .bracket _ items => ∀ item ∈ items, item.Settled value
  | _ => True

def Term.Plain (value : String) : Term → Prop
  | .atom a _ => a.Settled value
  | _ => False

/-- An atom, or a group that holds one sequence of atoms and is not repeated. -/
def Term.Linear (value : String) : Term → Prop
  | .atom a _ => a.Settled value
  | .group [terms] .one => ∀ term ∈ terms, term.Plain value
  | _ => False

variable {value : String}

theorem classEscape_digit (c : Char) : charMatchesClass c (classEscape 'd') = c.isDigit := by
  change (decide ('0' ≤ c) && decide (c ≤ '9') || false) = _
  rw [Bool.or_false]
  rfl

theorem classEscape_word (c : Char) : charMatchesClass c (classEscape 'w') = isWordChar c := by
  change (decide ('a' ≤ c) && decide (c ≤ 'z') || (decide ('A' ≤ c) && decide (c ≤ 'Z') ||
    (decide ('0' ≤ c) && decide (c ≤ '9') || (c == '_' || false)))) = _
  change _ = ((c.isUpper || c.isLower || c.isDigit) || c == '_')
  have hlower : c.isLower = (decide ('a' ≤ c) && decide (c ≤ 'z')) := rfl
  have hupper : c.isUpper = (decide ('A' ≤ c) && decide (c ≤ 'Z')) :=
    Bool.decide_and _ _
  have hdigit : c.isDigit = (decide ('0' ≤ c) && decide (c ≤ '9')) := rfl
  rw [← hlower, ← hupper, ← hdigit]
  cases c.isLower <;> cases c.isUpper <;> cases c.isDigit <;> cases (c == '_') <;> rfl

theorem classEscape_whitespace {c : Char} (htab : c ≠ verticalTab) (hfeed : c ≠ formFeed) :
    charMatchesClass c (classEscape 's') = isSpace c := by
  change (c == ' ' || (c == '\t' || (c == '\n' || (c == '\r' || false)))) = _
  have hne := beq_eq_false_iff_ne.mpr htab
  have hne' := beq_eq_false_iff_ne.mpr hfeed
  simp [isSpace, hne, hne', Bool.or_assoc]

theorem BracketItem.compiled_accepts {item : BracketItem} (h : item.Settled value) {c : Char}
    (hc : c ∈ value.toList) : charMatchesClass c item.compiled = item.accepts c := by
  cases item with
  | plain e => exact Bool.or_false _
  | escaped e => exact Bool.or_false _
  | control k => exact Bool.or_false _
  | range first last => exact Bool.or_false _
  | shorthand s =>
    cases s with
    | digit => exact classEscape_digit c
    | word => exact classEscape_word c
    | whitespace =>
      exact classEscape_whitespace (ne_of_mem_of_not_mem hc h.1) (ne_of_mem_of_not_mem hc h.2)
    | nonDigit => exact absurd h id
    | nonWord => exact absurd h id
    | nonWhitespace => exact absurd h id

theorem items_accepts {items : List BracketItem} (h : ∀ item ∈ items, item.Settled value)
    {c : Char} (hc : c ∈ value.toList) :
    charMatchesClass c (items.flatMap BracketItem.compiled) =
      items.any fun item => item.accepts c := by
  rw [charMatchesClass, List.any_flatMap]
  induction items with
  | nil => rfl
  | cons item items ih =>
    obtain ⟨hitem, hitems⟩ := List.forall_mem_cons.mp h
    rw [List.any_cons, List.any_cons, ih hitems]
    exact congrArg (· || _) (BracketItem.compiled_accepts hitem hc)

theorem isAsciiWhitespace_eq {c : Char} (h : c ≠ verticalTab) : isAsciiWhitespace c = isSpace c := by
  simp [isAsciiWhitespace, isSpace, beq_eq_false_iff_ne.mpr h, formFeed]

theorem Atom.op_accepts {a : Atom} (h : a.Settled value) {c : Char}
    (hc : c ∈ value.toList) : singleOpMatches a.op c = a.accepts c := by
  cases a with
  | any => rfl
  | plain e => rfl
  | escaped e => rfl
  | control k => rfl
  | shorthand s =>
    have hspace := fun h : verticalTab ∉ value.toList =>
      isAsciiWhitespace_eq (ne_of_mem_of_not_mem hc h)
    cases s with
    | digit => rfl
    | nonDigit => rfl
    | word => rfl
    | nonWord => rfl
    | whitespace => exact hspace h
    | nonWhitespace => exact congrArg Bool.not (hspace h)
  | bracket negated items =>
    have hitems := items_accepts h hc
    cases negated with
    | false => exact hitems.trans (Bool.xor_false _).symm
    | true => exact (congrArg Bool.not hitems).trans (Bool.xor_true _).symm

/-- The instructions for a linear term, and the classes that they match one after the other. -/
def Term.ops : Term → List RegexOp
  | .atom a quantifier => [quantified quantifier a.op]
  | .group [terms] _ => .groupStart :: terms.flatMap atomOps ++ [.groupEnd]
  | .group _ _ => []
  | .start => [.start]
  | .stop => [.end]
where
  atomOps : Term → List RegexOp
    | .atom a quantifier => [quantified quantifier a.op]
    | _ => []

def Term.elements : Term → List (Element Char)
  | .atom a quantifier => [⟨a.accepts, quantifier⟩]
  | .group [terms] _ => terms.flatMap atomElements
  | _ => []
where
  atomElements : Term → List (Element Char)
    | .atom a quantifier => [⟨a.accepts, quantifier⟩]
    | _ => []

/-- The class that an instruction tests. -/
theorem regexMatchOps_quantified (chars : List Char) (quantifier : Quantifier) (a : Atom)
    (ops : List RegexOp) (pos : Nat) :
    regexMatchOps chars (quantified quantifier a.op :: ops) pos =
      (Element.ends chars ⟨singleOpMatches a.op, quantifier⟩ pos).any (regexMatchOps chars ops) := by
  cases quantifier with
  | one =>
    have hone : regexMatchOps chars (a.op :: ops) pos =
        (chars[pos]?.any (singleOpMatches a.op) && regexMatchOps chars ops (pos + 1)) := by
      cases a with
      | shorthand s => cases s <;> rfl
      | bracket negated items => cases negated <;> rfl
      | _ => rfl
    refine hone.trans ?_
    simp only [Element.ends]
    cases chars[pos]?.any (singleOpMatches a.op) <;> simp
  | star => rfl
  | plus =>
    simp only [Element.ends, quantified, regexMatchOps]
    cases chars[pos]?.any (singleOpMatches a.op) <;> simp
  | question =>
    simp only [Element.ends, quantified, regexMatchOps]
    cases chars[pos]?.any (singleOpMatches a.op) <;> simp

/-- On the text at hand, the instruction tests the class. -/
theorem element_congr {a : Atom} (h : a.Settled value) (quantifier : Quantifier) {i j : Nat} :
    Element.Matches value.toList ⟨singleOpMatches a.op, quantifier⟩ i j ↔
      Element.Matches value.toList ⟨a.accepts, quantifier⟩ i j :=
  Element.matches_congr (fun _ hc => a.op_accepts h hc) quantifier

theorem regexMatchOps_atom {a : Atom} (h : a.Settled value) (quantifier : Quantifier)
    (ops : List RegexOp) (pos : Nat) :
    regexMatchOps value.toList (quantified quantifier a.op :: ops) pos = true ↔
      ∃ m, Element.Matches value.toList ⟨a.accepts, quantifier⟩ pos m ∧
        regexMatchOps value.toList ops m = true := by
  simp only [regexMatchOps_quantified, List.any_eq_true, Regex.mem_ends, element_congr h]

/-- One element of a sequence after the other. -/
theorem regexMatchOps_append {front back : List RegexOp} {first rest : List (Element Char)}
    (hfront : ∀ ops pos, regexMatchOps value.toList (front ++ ops) pos = true ↔
      ∃ m, Matches value.toList first pos m ∧ regexMatchOps value.toList ops m = true)
    (hback : ∀ ops pos, regexMatchOps value.toList (back ++ ops) pos = true ↔
      ∃ m, Matches value.toList rest pos m ∧ regexMatchOps value.toList ops m = true)
    (ops : List RegexOp) (pos : Nat) :
    regexMatchOps value.toList (front ++ back ++ ops) pos = true ↔
      ∃ m, Matches value.toList (first ++ rest) pos m ∧
        regexMatchOps value.toList ops m = true := by
  simp only [List.append_assoc, hfront, hback, Regex.matches_append]
  constructor
  · rintro ⟨m, hfirst, m', hrest, hops⟩
    exact ⟨m', ⟨m, hfirst, hrest⟩, hops⟩
  · rintro ⟨m', ⟨m, hfirst, hrest⟩, hops⟩
    exact ⟨m, hfirst, m', hrest, hops⟩

theorem regexMatchOps_flatMap {terms : List Term} {codeOf : Term → List RegexOp}
    {elementsOf : Term → List (Element Char)}
    (h : ∀ term ∈ terms, ∀ ops pos, regexMatchOps value.toList (codeOf term ++ ops) pos = true ↔
      ∃ m, Matches value.toList (elementsOf term) pos m ∧
        regexMatchOps value.toList ops m = true)
    (ops : List RegexOp) (pos : Nat) :
    regexMatchOps value.toList (terms.flatMap codeOf ++ ops) pos = true ↔
      ∃ m, Matches value.toList (terms.flatMap elementsOf) pos m ∧
        regexMatchOps value.toList ops m = true := by
  induction terms generalizing ops pos with
  | nil => simp [Matches]
  | cons term terms ih =>
    obtain ⟨hterm, hterms⟩ := List.forall_mem_cons.mp h
    exact regexMatchOps_append hterm (ih hterms) ops pos

theorem regexMatchOps_plain {term : Term} (h : term.Plain value) (ops : List RegexOp) (pos : Nat) :
    regexMatchOps value.toList (Term.ops.atomOps term ++ ops) pos = true ↔
      ∃ m, Matches value.toList (Term.elements.atomElements term) pos m ∧
        regexMatchOps value.toList ops m = true := by
  cases term with
  | atom a quantifier =>
    refine (regexMatchOps_atom h quantifier ops pos).trans ?_
    simp [Matches, Term.elements.atomElements]
  | group alternatives quantifier => exact absurd h id
  | start => exact absurd h id
  | stop => exact absurd h id

theorem regexMatchOps_linear {term : Term} (h : term.Linear value) (ops : List RegexOp)
    (pos : Nat) :
    regexMatchOps value.toList (term.ops ++ ops) pos = true ↔
      ∃ m, Matches value.toList term.elements pos m ∧
        regexMatchOps value.toList ops m = true := by
  unfold Term.Linear at h
  split at h
  · rename_i a quantifier
    exact @regexMatchOps_plain value (.atom a quantifier) h ops pos
  · rename_i terms
    change regexMatchOps value.toList
      (terms.flatMap Term.ops.atomOps ++ [.groupEnd] ++ ops) pos = true ↔ _
    rw [List.append_assoc]
    exact regexMatchOps_flatMap (fun term hterm => regexMatchOps_plain (h term hterm))
      (.groupEnd :: ops) pos
  · exact absurd h id

theorem sequenceMatches_flatMap {terms : List Term} {elementsOf : Term → List (Element Char)}
    (h : ∀ term ∈ terms, ∀ i j, term.Matches value.toList i j ↔
      Matches value.toList (elementsOf term) i j) (i j : Nat) :
    SequenceMatches value.toList terms i j ↔
      Matches value.toList (terms.flatMap elementsOf) i j := by
  induction terms generalizing i with
  | nil =>
    rw [SequenceMatches]
    rfl
  | cons term terms ih =>
    obtain ⟨hterm, hterms⟩ := List.forall_mem_cons.mp h
    rw [SequenceMatches, List.flatMap_cons, Regex.matches_append]
    simp only [hterm, ih hterms]

theorem matches_atom (s : List Char) (a : Atom) (quantifier : Quantifier) (i j : Nat) :
    (Term.atom a quantifier).Matches s i j ↔ Matches s [⟨a.accepts, quantifier⟩] i j := by
  rw [Term.Matches, Regex.repeats_step_iff]
  simp [Matches]

theorem matches_plain {term : Term} (h : term.Plain value) (i j : Nat) :
    term.Matches value.toList i j ↔
      Matches value.toList (Term.elements.atomElements term) i j := by
  cases term with
  | atom a quantifier => exact matches_atom _ a quantifier i j
  | group alternatives quantifier => exact absurd h id
  | start => exact absurd h id
  | stop => exact absurd h id

theorem matches_linear {term : Term} (h : term.Linear value) (i j : Nat) :
    term.Matches value.toList i j ↔ Matches value.toList term.elements i j := by
  unfold Term.Linear at h
  split at h
  · rename_i a quantifier
    exact matches_atom _ a quantifier i j
  · rename_i terms
    rw [Term.Matches, Quantifier.Repeats, AlternativesMatch, AlternativesMatch]
    refine (or_iff_left fun hnone : False => hnone).trans ?_
    exact sequenceMatches_flatMap (fun term hterm => matches_plain (h term hterm)) i j
  · exact absurd h id

theorem noQuantifier_cons {c : Char} (h : c ≠ '*' ∧ c ≠ '+' ∧ c ≠ '?') (chars : List Char) :
    NoQuantifier (c :: chars) := by
  intro q hq
  obtain rfl := Option.some.inj hq
  exact h

theorem noQuantifier_atom {a : Atom} (h : a.WellFormed) (chars : List Char) :
    NoQuantifier (a.text ++ chars) := by
  cases a with
  | plain c =>
    refine noQuantifier_cons ⟨?_, ?_, ?_⟩ chars <;>
      · rintro rfl
        exact h (by decide)
  | bracket negated items => cases negated <;> exact noQuantifier_cons (by decide) _
  | any => exact noQuantifier_cons (by decide) _
  | escaped c => exact noQuantifier_cons (by decide) _
  | control k => exact noQuantifier_cons (by decide) _
  | shorthand s => exact noQuantifier_cons (by decide) _

theorem noQuantifier_linear {term : Term} (hterm : term.Linear value) (h : term.WellFormed)
    (chars : List Char) : NoQuantifier (term.text ++ chars) := by
  unfold Term.Linear at hterm
  split at hterm
  · rw [Term.text, List.append_assoc]
    exact noQuantifier_atom h _
  · rw [Term.text, List.cons_append, List.cons_append]
    exact noQuantifier_cons (by decide) _
  · exact absurd hterm id

theorem compileFrom_plain {terms : List Term} (hterms : ∀ term ∈ terms, term.Plain value)
    (h : SequenceWellFormed terms) (ops : List RegexOp) (inGroup : Bool) {rest : List Char}
    (hrest : NoQuantifier rest) :
    compileFrom (sequenceText terms ++ rest) ops inGroup =
        compileFrom rest (ops ++ terms.flatMap Term.ops.atomOps) inGroup ∧
      NoQuantifier (sequenceText terms ++ rest) := by
  induction terms generalizing ops with
  | nil =>
    rw [sequenceText, List.flatMap_nil, List.append_nil]
    exact ⟨rfl, hrest⟩
  | cons term terms ih =>
    obtain ⟨hterm, htail⟩ := List.forall_mem_cons.mp hterms
    obtain ⟨hwf, hwfs⟩ := h
    cases term with
    | atom a quantifier =>
      obtain ⟨-, hnext⟩ := ih htail hwfs ops
      obtain ⟨hrun, -⟩ := ih htail hwfs (ops ++ [quantified quantifier a.op])
      rw [sequenceText, Term.text, List.append_assoc, compileFrom_atom hwf quantifier hnext, hrun,
        List.append_assoc]
      refine ⟨rfl, ?_⟩
      rw [List.append_assoc]
      exact noQuantifier_atom hwf _
    | group alternatives quantifier => exact absurd hterm id
    | start => exact absurd hterm id
    | stop => exact absurd hterm id

theorem compileFrom_linear {term : Term} (hterm : term.Linear value) (h : term.WellFormed)
    (ops : List RegexOp) {rest : List Char} (hrest : NoQuantifier rest) :
    compileFrom (term.text ++ rest) ops false = compileFrom rest (ops ++ term.ops) false := by
  unfold Term.Linear at hterm
  split at hterm
  · exact compileFrom_atom h _ hrest
  · rename_i terms
    have hclose : NoQuantifier (')' :: rest) := noQuantifier_cons (by decide) rest
    obtain ⟨hrun, -⟩ := compileFrom_plain hterm h.2.1 (ops ++ [.groupStart]) true hclose
    have htext : (Term.group [terms] .one).text ++ rest =
        '(' :: (sequenceText terms ++ ')' :: rest) := by
      simp [Term.text, alternativesText, quantifierText]
    rw [htext, compileFrom_open, hrun, compileFrom_close, applyGroupQuantifier_none _ hrest]
    simp [Term.ops]
  · exact absurd hterm id

theorem compileFrom_sequence {terms : List Term} (hterms : ∀ term ∈ terms, term.Linear value)
    (h : SequenceWellFormed terms) (ops : List RegexOp) {rest : List Char}
    (hrest : NoQuantifier rest) :
    compileFrom (sequenceText terms ++ rest) ops false =
        compileFrom rest (ops ++ terms.flatMap Term.ops) false ∧
      NoQuantifier (sequenceText terms ++ rest) := by
  induction terms generalizing ops with
  | nil =>
    rw [sequenceText, List.flatMap_nil, List.append_nil]
    exact ⟨rfl, hrest⟩
  | cons term terms ih =>
    obtain ⟨hterm, hterms⟩ := List.forall_mem_cons.mp hterms
    obtain ⟨hwf, hwfs⟩ := h
    obtain ⟨-, hnext⟩ := ih hterms hwfs ops
    obtain ⟨hrun, -⟩ := ih hterms hwfs (ops ++ term.ops)
    rw [sequenceText, List.append_assoc, compileFrom_linear hterm hwf ops hnext, hrun,
      List.flatMap_cons, List.append_assoc]
    exact ⟨rfl, noQuantifier_linear hterm hwf _⟩

theorem mem_quantified_ops {a : Atom} (quantifier : Quantifier) :
    quantified quantifier a.op ≠ .alternation ∧ quantified quantifier a.op ≠ .start := by
  cases quantifier with
  | one =>
    cases a with
    | shorthand s => cases s <;> decide
    | bracket negated items => cases negated <;> exact ⟨nofun, nofun⟩
    | _ => exact ⟨nofun, nofun⟩
  | _ => exact ⟨nofun, nofun⟩

theorem linear_ops {term : Term} (h : term.Linear value) :
    ∀ op ∈ term.ops, op ≠ .alternation ∧ op ≠ .start := by
  unfold Term.Linear at h
  split at h
  · intro op hop
    obtain rfl := List.mem_singleton.mp hop
    exact mem_quantified_ops _
  · intro op hop
    rcases List.mem_append.mp hop with hop | hop
    · rcases List.mem_cons.mp hop with rfl | hop
      · decide
      · obtain ⟨term, hterm, hop⟩ := List.mem_flatMap.mp hop
        have hplain := h term hterm
        cases term with
        | atom a quantifier =>
          obtain rfl := List.mem_singleton.mp hop
          exact mem_quantified_ops quantifier
        | group alternatives quantifier => exact absurd hplain id
        | start => exact absurd hplain id
        | stop => exact absurd hplain id
    · obtain rfl := List.mem_singleton.mp hop
      decide
  · exact absurd h id

theorem splitAlternatives_none {ops : List RegexOp} (h : ∀ op ∈ ops, op ≠ .alternation)
    (depth : Int) (current : List RegexOp) :
    splitAlternatives ops depth current = [current ++ ops] := by
  induction ops generalizing depth current with
  | nil => rw [splitAlternatives, List.append_nil]
  | cons op ops ih =>
    obtain ⟨hop, hops⟩ := List.forall_mem_cons.mp h
    rw [List.append_cons]
    unfold splitAlternatives
    split
    · exact ih hops _ _
    · exact ih hops _ _
    · exact absurd rfl hop
    · exact ih hops _ _

end Linear

section Faithful

/-- A sequence between anchors at its ends. -/
def anchored (start stop : Bool) (terms : List Term) : List Term :=
  (if start then [.start] else []) ++ terms ++ if stop then [.stop] else []

/-- One alternative: a sequence of atoms and plain groups, with anchors at most at its ends. -/
def Linear (value : String) (pattern : List (List Term)) : Prop :=
  ∃ start stop terms, pattern = [anchored start stop terms] ∧
    ∀ term ∈ terms, term.Linear value

/-- The instructions behind the start anchor. -/
def bodyOps (stop : Bool) (terms : List Term) : List RegexOp :=
  terms.flatMap Term.ops ++ if stop then [.end] else []

variable {value : String} {terms : List Term}

theorem sequenceText_append (terms terms' : List Term) :
    sequenceText (terms ++ terms') = sequenceText terms ++ sequenceText terms' := by
  induction terms with
  | nil => rfl
  | cons term terms ih =>
    rw [List.cons_append, sequenceText, sequenceText, ih, List.append_assoc]

theorem sequenceWellFormed_append {terms terms' : List Term} :
    SequenceWellFormed (terms ++ terms') ↔ SequenceWellFormed terms ∧ SequenceWellFormed terms' := by
  induction terms with
  | nil => simp [SequenceWellFormed]
  | cons term terms ih => simp [SequenceWellFormed, ih, and_assoc]

theorem sequenceMatches_append (s : List Char) {terms terms' : List Term} {i j : Nat} :
    SequenceMatches s (terms ++ terms') i j ↔
      ∃ m, SequenceMatches s terms i m ∧ SequenceMatches s terms' m j := by
  induction terms generalizing i with
  | nil => simp [SequenceMatches]
  | cons term terms ih =>
    simp only [List.cons_append, SequenceMatches, ih]
    constructor
    · rintro ⟨m, hterm, m', hterms, hterms'⟩
      exact ⟨m', ⟨m, hterm, hterms⟩, hterms'⟩
    · rintro ⟨m', ⟨m, hterm, hterms⟩, hterms'⟩
      exact ⟨m, hterm, m', hterms, hterms'⟩

theorem compileRegex_anchored {start stop : Bool} (hterms : ∀ term ∈ terms, term.Linear value)
    (h : SequenceWellFormed (anchored start stop terms)) :
    compileRegex (String.ofList (sequenceText (anchored start stop terms))) =
      some ((if start then [.start] else []) ++ bodyOps stop terms) := by
  unfold compileRegex
  rw [String.toList_ofList]
  unfold anchored at h ⊢
  rw [sequenceWellFormed_append, sequenceWellFormed_append] at h
  rw [sequenceText_append, sequenceText_append]
  have hstop : ∀ ops, compileFrom (sequenceText (if stop then [.stop] else [])) ops false =
      some (ops ++ if stop then [.end] else []) := by
    intro ops
    cases stop with
    | false =>
      refine (compileFrom.eq_def ..).trans ?_
      exact congrArg some (List.append_nil ops).symm
    | true =>
      refine compileFrom_end.trans ?_
      rw [compileFrom.eq_def]
      rfl
  have hnext : NoQuantifier (sequenceText (if stop then [.stop] else [])) := by
    cases stop with
    | false => exact fun q hq => by cases hq
    | true => exact noQuantifier_cons (by decide) []
  have hrun := fun ops => (compileFrom_sequence hterms h.1.2 ops hnext).1
  cases start with
  | false => exact (hrun []).trans (hstop _)
  | true =>
    rw [List.append_assoc]
    exact compileFrom_start.trans ((hrun [.start]).trans (hstop _))

/-- The instructions for the sequence and the end, from a position on. -/
theorem regexMatchOps_stop (hterms : ∀ term ∈ terms, term.Linear value) (stop : Bool) (i : Nat) :
    regexMatchOps value.toList (bodyOps stop terms) i = true ↔
      ∃ j, SequenceMatches value.toList (terms ++ if stop then [.stop] else []) i j := by
  rw [bodyOps, regexMatchOps_flatMap fun term hterm => regexMatchOps_linear (hterms term hterm)]
  simp only [sequenceMatches_append,
    sequenceMatches_flatMap fun term hterm => matches_linear (hterms term hterm)]
  have hstop : ∀ m, regexMatchOps value.toList (if stop then [.end] else []) m = true ↔ ∃ j, SequenceMatches value.toList (if stop then [.stop] else []) m j := by
    intro m
    cases stop with
    | false => exact iff_of_true rfl ⟨m, by rw [if_neg Bool.false_ne_true, SequenceMatches]⟩
    | true =>
      change (m == value.toList.length) = true ↔ _
      rw [beq_iff_eq, if_pos rfl]
      simp only [SequenceMatches, Term.Matches]
      constructor
      · exact fun h => ⟨m, m, ⟨h, rfl⟩, rfl⟩
      · rintro ⟨j, m', ⟨h, -⟩, -⟩
        exact h
  simp only [hstop]
  constructor
  · rintro ⟨m, hmatch, j, hj⟩
    exact ⟨j, m, hmatch, hj⟩
  · rintro ⟨j, m, hmatch, hj⟩
    exact ⟨m, hmatch, j, hj⟩

/-- No instruction behind the start anchor is one or parts the pattern. -/
theorem bodyOps_ne (hterms : ∀ term ∈ terms, term.Linear value) (stop : Bool) :
    ∀ op ∈ bodyOps stop terms, op ≠ .alternation ∧ op ≠ .start := by
  intro op hop
  rcases List.mem_append.mp hop with hop | hop
  · obtain ⟨term, hterm, hop⟩ := List.mem_flatMap.mp hop
    exact linear_ops (hterms term hterm) op hop
  · cases stop with
    | false => cases hop
    | true =>
      obtain rfl := List.mem_singleton.mp hop
      decide

/-- Letters and digits, from the start to the end. -/
def identifierPattern : List Term :=
  anchored true true [.atom (.bracket false [.range 'a' 'z']) .plus,
    .atom (.shorthand .digit) .plus]

end Faithful

end Cynos.Query
