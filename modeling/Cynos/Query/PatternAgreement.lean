import Cynos.Core.PatternMatch
import Cynos.Query.Kernels
import Cynos.Query.RegexFaithful

/-! Where a query that is run again and one that is maintained match the same texts. -/
namespace Cynos.Query

open Core (CharClasses isWhitespace)
open Core.PatternMatch (likeRecursive escapeMatches classMatches classMatches_cons parseBracketClass parseToken
  regexMatchAt parseAnchors)
open Regex (Quantifier Element Matches)

section Like

/-- The language of a LIKE pattern. -/
inductive LikeMatches : List Char → List Char → Prop where
  | nil : LikeMatches [] []
  | percent {pattern value : List Char} (skipped : List Char) :
    LikeMatches pattern value → LikeMatches ('%' :: pattern) (skipped ++ value)
  | underscore {pattern value : List Char} (c : Char) :
    LikeMatches pattern value → LikeMatches ('_' :: pattern) (c :: value)
  | literal {pattern value : List Char} {c : Char} :
    c ≠ '%' → c ≠ '_' → LikeMatches pattern value → LikeMatches (c :: pattern) (c :: value)

variable {pattern value : List Char} {c : Char}

theorem likeMatches_nil : LikeMatches [] value ↔ value = [] := by
  constructor
  · intro h
    cases h
    rfl
  · rintro rfl
    exact .nil

theorem likeMatches_percent :
    LikeMatches ('%' :: pattern) value ↔ ∃ rest, rest <:+ value ∧ LikeMatches pattern rest := by
  constructor
  · intro h
    cases h with
    | percent skipped h => exact ⟨_, List.suffix_append skipped _, h⟩
    | literal hpercent => exact absurd rfl hpercent
  · rintro ⟨rest, ⟨skipped, rfl⟩, h⟩
    exact .percent skipped h

theorem likeMatches_underscore :
    LikeMatches ('_' :: pattern) value ↔ ∃ c rest, value = c :: rest ∧ LikeMatches pattern rest := by
  constructor
  · intro h
    cases h with
    | underscore c h => exact ⟨c, _, rfl, h⟩
    | literal _ hunderscore => exact absurd rfl hunderscore
  · rintro ⟨c, rest, rfl, h⟩
    exact .underscore c h

theorem likeMatches_literal (hpercent : c ≠ '%') (hunderscore : c ≠ '_') :
    LikeMatches (c :: pattern) value ↔ ∃ rest, value = c :: rest ∧ LikeMatches pattern rest := by
  constructor
  · intro h
    cases h with
    | percent => exact absurd rfl hpercent
    | underscore => exact absurd rfl hunderscore
    | literal _ _ h => exact ⟨_, rfl, h⟩
  · rintro ⟨rest, rfl, h⟩
    exact .literal hpercent hunderscore h

theorem likeRecursive_iff : likeRecursive pattern value = true ↔ LikeMatches pattern value := by
  induction pattern generalizing value with
  | nil => rw [likeRecursive, List.isEmpty_iff, likeMatches_nil]
  | cons c pattern ih =>
    rw [likeRecursive.eq_def]
    dsimp only
    by_cases hpercent : c = '%'
    · obtain rfl := hpercent
      simp only [↓reduceIte, List.any_eq_true, List.mem_tails, ih, likeMatches_percent]
    · rw [if_neg hpercent]
      by_cases hunderscore : c = '_'
      · obtain rfl := hunderscore
        rw [likeMatches_underscore]
        cases value with
        | nil => simp
        | cons v value => simp [ih]
      · rw [likeMatches_literal hpercent hunderscore]
        cases value with
        | nil => simp
        | cons v value => simp [ih, hunderscore]

theorem matchLikeRecursive_iff :
    matchLikeRecursive pattern value = true ↔ LikeMatches pattern value := by
  induction pattern generalizing value with
  | nil => rw [matchLikeRecursive_nil, List.isEmpty_iff, likeMatches_nil]
  | cons c pattern ih =>
    by_cases hpercent : c = '%'
    · obtain rfl := hpercent
      simp only [matchLikeRecursive_percent, List.any_eq_true, List.mem_tails, ih,
        likeMatches_percent]
    · by_cases hunderscore : c = '_'
      · obtain rfl := hunderscore
        rw [likeMatches_underscore]
        cases value with
        | nil => simp [matchLikeRecursive]
        | cons v value => simp [matchLikeRecursive, ih]
      · rw [likeMatches_literal hpercent hunderscore,
          matchLikeRecursive_cons hpercent hunderscore]
        cases value with
        | nil => simp
        | cons v value => simp [ih]

end Like

section Tokens

variable (classes : CharClasses)

/-- The characters that incremental maintenance reads an atom as. -/
def Atom.read : Atom → Char → Bool
  | .any, _ => true
  | .plain e, c | .escaped e, c => c == e
  | .control k, c => c == k.letter
  | .shorthand s, c => escapeMatches classes s.letter c
  | .bracket negated items, c => classMatches (itemsText items) c ^^ negated

variable {classes} {rest : List Char} {items : List BracketItem}

theorem escapeMatches_of_escapable {e : Char} (h : Escapable e) (c : Char) :
    escapeMatches classes e c = (c == e) := by
  have hne := fun letter => @ne_of_escapable e h letter
  simp [escapeMatches, hne 'd' (by decide), hne 'D' (by decide), hne 'w' (by decide),
    hne 'W' (by decide), hne 's' (by decide), hne 'S' (by decide)]

/-- Written as it is read, without a backslash. -/
def BracketItem.Verbatim : BracketItem → Prop
  | .plain _ | .range _ _ => True
  | _ => False

theorem itemsText_cons (item : BracketItem) (items : List BracketItem) :
    itemsText (item :: items) = item.text ++ itemsText items := List.flatMap_cons

theorem itemsText_noClose (hwf : ItemsWellFormed items)
    (hverbatim : ∀ item ∈ items, item.Verbatim) : ∀ c ∈ itemsText items, (c != ']') = true := by
  induction items with
  | nil => exact fun c hc => by cases hc
  | cons item items ih =>
    obtain ⟨hitem, hitems⟩ := List.forall_mem_cons.mp hverbatim
    intro c hc
    rw [itemsText_cons, List.mem_append] at hc
    rcases hc with hc | hc
    · cases item with
      | plain e =>
        obtain rfl := List.mem_singleton.mp hc
        exact bne_iff_ne.mpr hwf.1.1
      | range first last =>
        simp only [BracketItem.text, List.mem_cons, List.not_mem_nil, or_false] at hc
        rcases hc with rfl | rfl | rfl
        · exact bne_iff_ne.mpr hwf.1.1
        · decide
        · exact bne_iff_ne.mpr hwf.2.1.1
      | escaped e => exact absurd hitem id
      | control k => exact absurd hitem id
      | shorthand s => exact absurd hitem id
    · cases item with
      | plain e => exact ih hwf.2.2 hitems c hc
      | range first last => exact ih hwf.2.2 hitems c hc
      | escaped e => exact absurd hitem id
      | control k => exact absurd hitem id
      | shorthand s => exact absurd hitem id

/-- No hyphen at the front is taken for a range. -/
theorem classMatches_plain (hhyphen : NoHyphen items) (hwf : ItemsWellFormed items) (e c : Char) :
    classMatches (e :: itemsText items) c = (c == e || classMatches (itemsText items) c) := by
  refine classMatches_cons (fun d b chars hchars => ?_) e c
  rcases @noHyphen_cases [] items hhyphen hwf with rfl | ⟨d', chars', hchars', hd⟩
  · cases hchars
  · rw [hchars] at hchars'
    exact (List.cons.inj hchars').1 ▸ hd

theorem classMatches_text (hwf : ItemsWellFormed items)
    (hverbatim : ∀ item ∈ items, item.Verbatim) (c : Char) :
    classMatches (itemsText items) c = items.any fun item => item.accepts c := by
  induction items with
  | nil => rfl
  | cons item items ih =>
    obtain ⟨hitem, hitems⟩ := List.forall_mem_cons.mp hverbatim
    rw [List.any_cons]
    cases item with
    | plain e =>
      rw [← ih hwf.2.2 hitems]
      exact classMatches_plain hwf.2.1 hwf.2.2 e c
    | range first last =>
      rw [← ih hwf.2.2 hitems]
      change classMatches (first :: '-' :: last :: itemsText items) c = _
      conv_lhs => rw [Core.PatternMatch.classMatches.eq_def]
      rfl
    | escaped e => exact absurd hitem id
    | control k => exact absurd hitem id
    | shorthand s => exact absurd hitem id

/-- Read alike on the text at hand, by the runner and by incremental maintenance. -/
def Atom.Shared (classes : CharClasses) (value : String) : Atom → Prop
  | .control k => k.char ∉ value.toList ∧ k.letter ∉ value.toList
  | .shorthand .word | .shorthand .nonWord =>
    ∀ c ∈ value.toList, classes.isAlphanumeric c = c.isAlphanum
  | .shorthand .whitespace | .shorthand .nonWhitespace =>
    ∀ c ∈ value.toList, isWhitespace c = isAsciiWhitespace c
  | .bracket _ items => ∀ item ∈ items, item.Verbatim
  | _ => True

theorem parseBracketClass_text {negated : Bool}
    (hwf : (Atom.bracket negated items).WellFormed) (hverbatim : ∀ item ∈ items, item.Verbatim)
    (rest : List Char) :
    parseBracketClass ((Atom.bracket negated items).text.tail ++ rest) =
      some (rest, (Atom.bracket negated items).read classes) := by
  have hclose := itemsText_noClose hwf.1 hverbatim
  have hdrop : (itemsText items ++ ']' :: rest).dropWhile (· != ']') = ']' :: rest := by
    rw [List.dropWhile_append_of_pos hclose]
    rfl
  have htake : (itemsText items ++ ']' :: rest).takeWhile (· != ']') = itemsText items := by
    rw [List.takeWhile_append_of_pos hclose]
    exact List.append_nil _
  cases negated with
  | true =>
    have htext : (Atom.bracket true items).text.tail ++ rest =
        '^' :: (itemsText items ++ ']' :: rest) := by simp [Atom.text]
    simp only [htext, parseBracketClass, List.head?_cons, BEq.rfl, ↓reduceIte, List.tail_cons,
      hdrop, htake]
    rfl
  | false =>
    have htext : (Atom.bracket false items).text.tail ++ rest =
        itemsText items ++ ']' :: rest := by simp [Atom.text]
    have hhead : ((itemsText items ++ ']' :: rest).head? == some '^') = false := by
      rw [beq_eq_false_iff_ne]
      have hcaret := hwf.2 rfl
      cases hitems : itemsText items with
      | nil => exact fun h => by cases h
      | cons c chars =>
        rw [hitems] at hcaret
        exact hcaret
    simp only [htext, parseBracketClass, hhead, Bool.false_eq_true, ↓reduceIte, hdrop, htake]
    rfl

/-- The token of an atom. -/
theorem parseToken_text {value : String} {a : Atom} (hwf : a.WellFormed)
    (hshared : a.Shared classes value) (rest : List Char) :
    parseToken classes (a.text ++ rest) = some (rest, a.read classes) := by
  have hescape : ∀ e, parseToken classes ('\\' :: e :: rest) =
      some (rest, escapeMatches classes e) := fun e => rfl
  cases a with
  | any => rfl
  | plain e =>
    have hdot : e ≠ '.' := fun h => hwf (h ▸ by decide)
    have hopen : e ≠ '[' := fun h => hwf (h ▸ by decide)
    have hbackslash : e ≠ '\\' := fun h => hwf (h ▸ by decide)
    change parseToken classes (e :: rest) = _
    cases rest <;> simp [parseToken, hdot, hopen, hbackslash] <;> rfl
  | escaped e =>
    refine (hescape e).trans ?_
    exact congrArg (fun read => some (rest, read)) (funext (escapeMatches_of_escapable hwf))
  | control k =>
    refine (hescape k.letter).trans ?_
    cases k <;> rfl
  | shorthand s => exact hescape s.letter
  | bracket negated items =>
    have htext : (Atom.bracket negated items).text ++ rest =
        '[' :: ((Atom.bracket negated items).text.tail ++ rest) := by cases negated <;> rfl
    rw [htext]
    exact parseBracketClass_text hwf hshared rest

/-- Both engines test the same characters. -/
theorem Atom.op_read {value : String} {a : Atom} (hwf : a.WellFormed)
    (hshared : a.Shared classes value) {c : Char} (hc : c ∈ value.toList) :
    singleOpMatches a.op c = a.read classes c := by
  cases a with
  | any => rfl
  | plain e => rfl
  | escaped e => rfl
  | control k =>
    have hchar : (c == k.char) = false := beq_eq_false_iff_ne.mpr (ne_of_mem_of_not_mem hc hshared.1)
    have hletter : (c == k.letter) = false :=
      beq_eq_false_iff_ne.mpr (ne_of_mem_of_not_mem hc hshared.2)
    exact hchar.trans hletter.symm
  | shorthand s =>
    cases s with
    | digit => rfl
    | nonDigit => rfl
    | word => exact congrArg (· || c == '_') (hshared c hc).symm
    | nonWord =>
      refine (congrArg (fun b => !(b || c == '_')) (hshared c hc).symm).trans ?_
      exact Bool.not_or _ _
    | whitespace => exact (hshared c hc).symm
    | nonWhitespace => exact congrArg Bool.not (hshared c hc).symm
  | bracket negated items =>
    have hread := classMatches_text hwf.1 hshared c
    have hsettled : ∀ item ∈ items, item.Settled value := by
      intro item hitem
      have hverbatim := hshared item hitem
      cases item with
      | shorthand s => exact absurd hverbatim id
      | _ => trivial
    have hop := items_accepts hsettled hc
    cases negated with
    | false => exact hop.trans ((Bool.xor_false _).trans hread).symm
    | true => exact (congrArg Bool.not (hop.trans hread.symm)).trans (Bool.xor_true _).symm

end Tokens

section Terms

/-- An atom that is read alike, or an anchor. -/
def Term.Flat (classes : CharClasses) (value : String) : Term → Prop
  | .atom a _ => a.Shared classes value
  | .start | .stop => True
  | .group _ _ => False

/-- The classes that a term inside a pattern stands for: there an anchor is a character. -/
def Term.inner (read : Atom → Char → Bool) : Term → List (Element Char)
  | .atom a quantifier => [⟨read a, quantifier⟩]
  | .start => [⟨(· == '^'), .one⟩]
  | .stop => [⟨(· == '$'), .one⟩]
  | .group _ _ => []

def Term.innerOps : Term → List RegexOp
  | .atom a quantifier => [quantified quantifier a.op]
  | .start => [.char '^']
  | .stop => [.char '$']
  | .group _ _ => []

variable {classes : CharClasses} {value : String} {term : Term} {terms : List Term}
  {ops : List RegexOp} {chars rest : List Char}

theorem compileFrom_caret (hops : ops ≠ []) (h : NoQuantifier chars) :
    compileFrom ('^' :: chars) ops false = compileFrom chars (ops ++ [.char '^']) false := by
  have hquantifier := applyQuantifier_text .one ops (.char '^') h
  conv_lhs => rw [compileFrom.eq_def]
  change applyQuantifier chars ops (.char '^') = _ at hquantifier
  simp [hops, hquantifier, quantified]

theorem compileFrom_dollar (hchars : chars ≠ []) (h : NoQuantifier chars) :
    compileFrom ('$' :: chars) ops false = compileFrom chars (ops ++ [.char '$']) false := by
  have hquantifier := applyQuantifier_text .one ops (.char '$') h
  conv_lhs => rw [compileFrom.eq_def]
  change applyQuantifier chars ops (.char '$') = _ at hquantifier
  simp [hchars, hquantifier, quantified]

theorem noQuantifier_flat (hterms : ∀ term ∈ terms, term.Flat classes value)
    (hwf : SequenceWellFormed terms) (h : NoQuantifier rest) :
    NoQuantifier (sequenceText terms ++ rest) := by
  cases terms with
  | nil => exact h
  | cons term terms =>
    have hterm := hterms term (by simp)
    rw [sequenceText, List.append_assoc]
    cases term with
    | atom a quantifier =>
      rw [Term.text, List.append_assoc]
      exact noQuantifier_atom hwf.1 _
    | start => exact noQuantifier_cons (by decide) _
    | stop => exact noQuantifier_cons (by decide) _
    | group alternatives quantifier => exact absurd hterm id

theorem atom_text_ne (a : Atom) : a.text ≠ [] := by
  cases a with
  | bracket negated items => cases negated <;> exact List.cons_ne_nil _ _
  | _ => exact List.cons_ne_nil _ _

theorem text_ne (term : Term) : term.text ≠ [] := by
  cases term with
  | atom a quantifier =>
    rw [Term.text]
    exact List.append_ne_nil_of_left_ne_nil (atom_text_ne a) _
  | group alternatives quantifier => exact List.cons_ne_nil _ _
  | start => exact List.cons_ne_nil _ _
  | stop => exact List.cons_ne_nil _ _

theorem getLast?_tail {terms : List Term} (h : (term :: terms).getLast? ≠ some .stop) :
    terms.getLast? ≠ some .stop := by
  intro hlast
  rw [List.getLast?_cons, hlast] at h
  exact h rfl

/-- The runner makes an instruction of each term inside a pattern. -/
theorem compileFrom_flat (hterms : ∀ term ∈ terms, term.Flat classes value)
    (hwf : SequenceWellFormed terms) (hstart : ops = [] → terms.head? ≠ some .start)
    (hstop : rest = [] → terms.getLast? ≠ some .stop) (hrest : NoQuantifier rest) :
    compileFrom (sequenceText terms ++ rest) ops false =
      compileFrom rest (ops ++ terms.flatMap Term.innerOps) false := by
  induction terms generalizing ops with
  | nil => rw [sequenceText, List.flatMap_nil, List.append_nil, List.nil_append]
  | cons term terms ih =>
    obtain ⟨hterm, hterms⟩ := List.forall_mem_cons.mp hterms
    have hnext := noQuantifier_flat hterms hwf.2 hrest
    have hrun : ∀ op, compileFrom (sequenceText terms ++ rest) (ops ++ [op]) false =
        compileFrom rest (ops ++ [op] ++ terms.flatMap Term.innerOps) false :=
      fun op => ih hterms hwf.2
        (fun h => absurd h (List.append_ne_nil_of_right_ne_nil _ (List.cons_ne_nil _ _)))
        (fun h => getLast?_tail (hstop h))
    rw [sequenceText, List.append_assoc, List.flatMap_cons, ← List.append_assoc ops]
    cases term with
    | atom a quantifier => exact (compileFrom_atom hwf.1 quantifier hnext).trans (hrun _)
    | start =>
      have hops : ops ≠ [] := fun h => hstart h rfl
      exact (compileFrom_caret hops hnext).trans (hrun _)
    | stop =>
      have hchars : sequenceText terms ++ rest ≠ [] := by
        cases terms with
        | nil => exact fun h => hstop h rfl
        | cons term terms =>
          rw [sequenceText, List.append_assoc]
          exact List.append_ne_nil_of_left_ne_nil (text_ne term) _
      exact (compileFrom_dollar hchars hnext).trans (hrun _)
    | group alternatives quantifier => exact absurd hterm id

/-- The instructions for a term test its classes. -/
theorem regexMatchOps_inner (hterm : term.Flat classes value) (ops : List RegexOp) (pos : Nat) :
    regexMatchOps value.toList (term.innerOps ++ ops) pos = true ↔
      ∃ m, Matches value.toList (term.inner fun a => singleOpMatches a.op) pos m ∧
        regexMatchOps value.toList ops m = true := by
  have hsingle : ∀ e : Element Char, (e.ends value.toList pos).any (regexMatchOps value.toList ops)
      = true ↔ ∃ m, Matches value.toList [e] pos m ∧ regexMatchOps value.toList ops m = true := by
    intro e
    simp [Matches, Regex.mem_ends]
  have hchar : ∀ c, regexMatchOps value.toList (.char c :: ops) pos = true ↔
      ∃ m, Matches value.toList [⟨(· == c), .one⟩] pos m ∧
        regexMatchOps value.toList ops m = true := by
    intro c
    rw [← hsingle]
    have hquantified := regexMatchOps_quantified value.toList .one (.plain c) ops pos
    exact Eq.congr_left hquantified
  cases term with
  | atom a quantifier =>
    refine Iff.trans ?_ (hsingle _)
    exact Eq.congr_left (regexMatchOps_quantified value.toList quantifier a ops pos)
  | start => exact hchar '^'
  | stop => exact hchar '$'
  | group alternatives quantifier => exact absurd hterm id

/-- One step of the scanner, over a token and its quantifier. -/
theorem regexMatchAt_token {pat : List Char} {accepts : Char → Bool} (quantifier : Quantifier)
    (htoken : parseToken classes pat = some (quantifierText quantifier ++ rest, accepts))
    (hrest : NoQuantifier rest) (ci : Nat) :
    regexMatchAt classes chars pat ci =
      (Element.ends chars ⟨accepts, quantifier⟩ ci).findSome? (regexMatchAt classes chars rest) := by
  have hne : pat.isEmpty = false := by
    cases pat with
    | nil => cases htoken
    | cons c pat => rfl
  rw [Core.PatternMatch.regexMatchAt.eq_def]
  simp only [hne, Bool.false_eq_true, ↓reduceIte]
  split
  · rename_i hnone
    cases hnone.symm.trans htoken
  · rename_i hsome
    obtain ⟨rfl, rfl⟩ := Prod.mk.inj (Option.some.inj (hsome.symm.trans htoken))
    cases quantifier with
    | one =>
      have hhead : ∀ q, rest.head? = some q → q ≠ '*' ∧ q ≠ '+' ∧ q ≠ '?' := fun q hq => hrest q hq
      have hstar : rest.head? ≠ some '*' := fun h => (hhead _ h).1 rfl
      have hplus : rest.head? ≠ some '+' := fun h => (hhead _ h).2.1 rfl
      have hquestion : rest.head? ≠ some '?' := fun h => (hhead _ h).2.2 rfl
      simp only [quantifierText, List.nil_append, hstar, hplus, hquestion, ↓reduceIte,
        Element.ends]
      split <;> simp
    | star => rfl
    | plus =>
      simp only [quantifierText, Element.ends, List.cons_append, List.nil_append, List.head?_cons,
        Option.some.injEq, Char.reduceEq, ↓reduceIte, List.tail_cons]
      split <;> simp
    | question =>
      simp only [quantifierText, Element.ends, List.cons_append, List.nil_append, List.head?_cons,
        Option.some.injEq, Char.reduceEq, ↓reduceIte, List.tail_cons]
      split
      · cases hlonger : regexMatchAt classes chars rest (ci + 1) with
        | none => simp [hlonger]
        | some stop => simp [hlonger]
      · simp

theorem regexMatchAt_flat (hterms : ∀ term ∈ terms, term.Flat classes value)
    (hwf : SequenceWellFormed terms) (ci : Nat) :
    regexMatchAt classes chars (sequenceText terms) ci =
      Regex.firstEnd chars (terms.flatMap (Term.inner (Atom.read classes))) ci := by
  induction terms generalizing ci with
  | nil =>
    rw [sequenceText, Core.PatternMatch.regexMatchAt.eq_def]
    rfl
  | cons term terms ih =>
    obtain ⟨hterm, hterms⟩ := List.forall_mem_cons.mp hterms
    have hnext : NoQuantifier (sequenceText terms) := by
      have hnil : NoQuantifier [] := fun q hq => by cases hq
      have := noQuantifier_flat hterms hwf.2 hnil
      rwa [List.append_nil] at this
    have hrest := funext (ih hterms hwf.2)
    have hanchor : ∀ c, parseToken classes (c :: sequenceText terms) =
        some (quantifierText .one ++ sequenceText terms, (· == c)) →
        regexMatchAt classes chars (c :: sequenceText terms) ci = Regex.firstEnd chars
          (⟨(· == c), .one⟩ :: terms.flatMap (Term.inner (Atom.read classes))) ci := by
      intro c htoken
      rw [regexMatchAt_token .one htoken hnext, hrest]
      rfl
    have hliteral : ∀ c, c ≠ '.' → c ≠ '[' → c ≠ '\\' →
        parseToken classes (c :: sequenceText terms) =
          some (quantifierText .one ++ sequenceText terms, (· == c)) := by
      intro c hdot hopen hbackslash
      cases sequenceText terms <;> simp [parseToken, hdot, hopen, hbackslash, quantifierText]
    rw [sequenceText]
    cases term with
    | atom a quantifier =>
      have htoken := parseToken_text hwf.1 hterm (quantifierText quantifier ++ sequenceText terms)
      rw [Term.text, List.append_assoc, regexMatchAt_token quantifier htoken hnext, hrest]
      rfl
    | start => exact hanchor '^' (hliteral '^' (by decide) (by decide) (by decide))
    | stop => exact hanchor '$' (hliteral '$' (by decide) (by decide) (by decide))
    | group alternatives quantifier => exact absurd hterm id

end Terms

section Anchors

variable {classes : CharClasses} {value : String} {term : Term} {terms : List Term}

/-- What the last character of a term tells. -/
def LastTells (term : Term) (front : List Char) (c : Char) : Prop :=
  (c = '$' → term = .stop ∨ front.getLast? = some '\\') ∧
    (c = '\\' → term = .atom (.escaped '\\') .one)

theorem lastTells_of_ne {front : List Char} {c : Char} (hstop : c ≠ '$') (hbackslash : c ≠ '\\') :
    LastTells term front c := ⟨fun h => absurd h hstop, fun h => absurd h hbackslash⟩

theorem text_last (hterm : term.Flat classes value) (hwf : term.WellFormed) :
    ∃ front c, term.text = front ++ [c] ∧ LastTells term front c := by
  cases term with
  | start => exact ⟨[], '^', rfl, lastTells_of_ne (by decide) (by decide)⟩
  | stop => exact ⟨[], '$', rfl, fun _ => .inl rfl, fun h => by cases h⟩
  | group alternatives quantifier => exact absurd hterm id
  | atom a quantifier =>
    cases quantifier with
    | star => exact ⟨a.text, '*', rfl, lastTells_of_ne (by decide) (by decide)⟩
    | plus => exact ⟨a.text, '+', rfl, lastTells_of_ne (by decide) (by decide)⟩
    | question => exact ⟨a.text, '?', rfl, lastTells_of_ne (by decide) (by decide)⟩
    | one =>
      rw [Term.text, quantifierText, List.append_nil]
      cases a with
      | any => exact ⟨[], '.', rfl, lastTells_of_ne (by decide) (by decide)⟩
      | plain c =>
        have hne : ∀ d ∈ metacharacters, c ≠ d := fun d hd h => hwf (h ▸ hd)
        exact ⟨[], c, rfl, lastTells_of_ne (hne '$' (by decide)) (hne '\\' (by decide))⟩
      | escaped c => exact ⟨['\\'], c, rfl, fun _ => .inr rfl, fun h => h ▸ rfl⟩
      | control k =>
        refine ⟨['\\'], k.letter, rfl, lastTells_of_ne ?_ ?_⟩ <;> cases k <;> decide
      | shorthand s =>
        refine ⟨['\\'], s.letter, rfl, lastTells_of_ne ?_ ?_⟩ <;> cases s <;> decide
      | bracket negated items =>
        have hclose := @lastTells_of_ne (.atom (.bracket negated items) .one)
        cases negated with
        | false => exact ⟨'[' :: itemsText items, ']', rfl, hclose (by decide) (by decide)⟩
        | true => exact ⟨'[' :: '^' :: itemsText items, ']', rfl, hclose (by decide) (by decide)⟩

/-- A text ends the pattern: a dollar sign behind no backslash. -/
def endsAnchored (text : List Char) : Bool :=
  ['$'].isSuffixOf text && !(['\\', '$'].isSuffixOf text)

theorem endsAnchored_concat (front : List Char) (c : Char) :
    endsAnchored (front ++ [c]) = (c == '$' && front.getLast? != some '\\') := by
  rw [List.getLast?_eq_head?_reverse]
  simp only [endsAnchored, List.isSuffixOf, List.reverse_append, List.reverse_cons,
    List.reverse_nil, List.nil_append, List.cons_append]
  have hdollar : ('$' == c) = (c == '$') := BEq.comm
  cases front.reverse with
  | nil => simp [List.isPrefixOf, hdollar]
  | cons b front =>
    have hbackslash : (some b != some '\\') = !('\\' == b) :=
      congrArg Bool.not (BEq.comm (a := b) (b := '\\'))
    simp only [List.isPrefixOf, hdollar, List.head?_cons, hbackslash, Bool.and_true]
    cases c == '$' <;> rfl

/-- What the last character of a sequence tells is what that of its last term does. -/
theorem sequenceText_last (hterms : ∀ term ∈ terms, term.Flat classes value)
    (hwf : SequenceWellFormed terms) (hne : terms ≠ []) :
    ∃ term front c, terms.getLast? = some term ∧ sequenceText terms = front ++ [c] ∧
      LastTells term front c := by
  have hlast := List.dropLast_concat_getLast hne
  generalize terms.dropLast = init at hlast
  generalize terms.getLast hne = term at hlast
  subst hlast
  have hwf := sequenceWellFormed_append.mp hwf
  obtain ⟨front, c, htext, hstop, hbackslash⟩ := text_last (hterms term (by simp)) hwf.2.1
  refine ⟨term, sequenceText init ++ front, c, by simp, ?_, fun hc => ?_, hbackslash⟩
  · rw [sequenceText_append, sequenceText, sequenceText, List.append_nil, htext,
      List.append_assoc]
  · rcases hstop hc with h | h
    · exact .inl h
    · rw [List.getLast?_append, h]
      exact .inr rfl

/-- The dollar sign that the scanner takes for the anchor is the one of the pattern. -/
theorem endsAnchored_text (stop : Bool) (hterms : ∀ term ∈ terms, term.Flat classes value)
    (hwf : SequenceWellFormed terms) (hstop : stop = false → terms.getLast? ≠ some .stop)
    (hbackslash : stop = true → terms.getLast? ≠ some (.atom (.escaped '\\') .one)) :
    endsAnchored (sequenceText (terms ++ if stop then [.stop] else [])) = stop := by
  rw [sequenceText_append]
  by_cases hne : terms = []
  · subst hne
    cases stop <;> decide
  obtain ⟨term, front, c, hlast, htext, htells⟩ := sequenceText_last hterms hwf hne
  cases stop with
  | true =>
    refine (endsAnchored_concat (sequenceText terms) '$').trans ?_
    rw [htext, List.getLast?_concat, BEq.rfl, Bool.true_and, bne_iff_ne]
    intro hc
    rw [htells.2 (Option.some.inj hc)] at hlast
    exact hbackslash rfl hlast
  | false =>
    rw [if_neg Bool.false_ne_true, sequenceText, List.append_nil, htext, endsAnchored_concat]
    by_cases hc : c = '$'
    · rcases htells.1 hc with h | h
      · exact absurd (h ▸ hlast) (hstop rfl)
      · simp [h]
    · simp [hc]

theorem text_head (hterm : term.Flat classes value) (hwf : term.WellFormed)
    (hstart : term ≠ .start) (rest : List Char) : (term.text ++ rest).head? ≠ some '^' := by
  cases term with
  | start => exact absurd rfl hstart
  | stop => exact fun h => by cases h
  | group alternatives quantifier => exact absurd hterm id
  | atom a quantifier =>
    rw [Term.text, List.append_assoc]
    cases a with
    | plain c => exact fun h => hwf (Option.some.inj h ▸ by decide)
    | bracket negated items => cases negated <;> exact fun h => by cases h
    | any => exact fun h => by cases h
    | escaped c => exact fun h => by cases h
    | control k => exact fun h => by cases h
    | shorthand s => exact fun h => by cases h

theorem sequenceText_head (stop : Bool) (hterms : ∀ term ∈ terms, term.Flat classes value)
    (hwf : SequenceWellFormed terms) (hstart : terms.head? ≠ some .start) :
    (sequenceText terms ++ sequenceText (if stop then [.stop] else [])).head? ≠ some '^' := by
  cases terms with
  | nil => cases stop <;> decide
  | cons term terms =>
    rw [sequenceText, List.append_assoc]
    exact text_head (hterms term (by simp)) hwf.1 (fun h => hstart (congrArg some h)) _

/-- An anchor at an end is not one at the other end of a term inside. -/
structure Delimited (start stop : Bool) (terms : List Term) : Prop where
  head : start = false → terms.head? ≠ some .start
  last : stop = false → terms.getLast? ≠ some .stop
  notEscaped : stop = true → terms.getLast? ≠ some (.atom (.escaped '\\') .one)

theorem parseAnchors_text {start stop : Bool} (hterms : ∀ term ∈ terms, term.Flat classes value)
    (hwf : SequenceWellFormed terms) (h : Delimited start stop terms) :
    parseAnchors (sequenceText (anchored start stop terms)) =
      (sequenceText terms, start, stop) := by
  have hstop : endsAnchored (sequenceText (anchored start stop terms)) = stop := by
    refine @endsAnchored_text classes value ((if start then [.start] else []) ++ terms) stop
      ?_ ?_ ?_ ?_
    · cases start with
      | false => exact hterms
      | true => exact List.forall_mem_cons.mpr ⟨trivial, hterms⟩
    · cases start with
      | false => exact hwf
      | true => exact ⟨trivial, hwf⟩
    · intro hstop
      rw [List.getLast?_append, ne_eq, Option.or_eq_some_iff]
      rintro (hlast | ⟨-, hlast⟩)
      · exact h.last hstop hlast
      · cases start <;> cases hlast
    · intro hstop
      rw [List.getLast?_append, ne_eq, Option.or_eq_some_iff]
      rintro (hlast | ⟨-, hlast⟩)
      · exact h.notEscaped hstop hlast
      · cases start <;> cases hlast
  have hends : ∀ text, endsAnchored text =
      (['$'].isSuffixOf text && !(['\\', '$'].isSuffixOf text)) := fun _ => rfl
  rw [hends] at hstop
  have hbody : ∀ text : List Char,
      (if (stop && !(text ++ sequenceText (if stop then [.stop] else [])).isEmpty) = true then
        (text ++ sequenceText (if stop then [.stop] else [])).dropLast
      else text ++ sequenceText (if stop then [.stop] else [])) = text := by
    intro text
    cases stop with
    | false => exact List.append_nil text
    | true => simp [sequenceText, Term.text]
  cases start with
  | true =>
    have hstart : ['^'].isPrefixOf (sequenceText (anchored true stop terms)) = true := rfl
    have htail : (sequenceText (anchored true stop terms)).tail =
        sequenceText terms ++ sequenceText (if stop then [.stop] else []) :=
      sequenceText_append terms _
    simp only [parseAnchors, hstart, hstop, ↓reduceIte, htail, hbody]
  | false =>
    have htext : sequenceText (anchored false stop terms) =
        sequenceText terms ++ sequenceText (if stop then [.stop] else []) :=
      sequenceText_append terms _
    have hstart : ['^'].isPrefixOf (sequenceText (anchored false stop terms)) = false := by
      have hhead := sequenceText_head stop hterms hwf (h.head rfl)
      cases hchars : sequenceText (anchored false stop terms) with
      | nil => rfl
      | cons c chars =>
        rw [← htext, hchars] at hhead
        have hc : c ≠ '^' := fun hc => hhead (congrArg some hc)
        simp [List.isPrefixOf, hc.symm]
    simp only [parseAnchors, hstart, hstop, Bool.false_eq_true, ↓reduceIte]
    rw [htext, hbody]

end Anchors

section Agreement

variable {classes : CharClasses} {value : String} {terms : List Term}

/-- The elements match in a text, at its start or its end where the pattern is anchored there. -/
def Occurs (s : List Char) (start stop : Bool) (elements : List (Element Char)) : Prop :=
  ∃ i j, i ≤ s.length ∧ (start = true → i = 0) ∧ Matches s elements i j ∧
    (stop = true → j = s.length)

/-- The scanner finds a longest match, which reaches the end when any does. -/
theorem firstEnd_any_iff {s : List Char} {elements : List (Element Char)} {i : Nat}
    (hi : i ≤ s.length) (stop : Bool) :
    ((Regex.firstEnd s elements i).any fun j => !stop || j == s.length) = true ↔
      ∃ j, Matches s elements i j ∧ (stop = true → j = s.length) := by
  cases stop with
  | true =>
    have hend : Regex.firstEnd s elements i = some s.length ↔ Matches s elements i s.length :=
      Regex.firstEnd_eq_some_iff fun j hj => hj.le_length hi
    constructor
    · intro hany
      obtain ⟨j, hj, hlast⟩ := (Option.any_eq_true _ _).mp hany
      obtain rfl : j = s.length := by simpa using hlast
      exact ⟨s.length, hend.mp hj, fun _ => rfl⟩
    · rintro ⟨j, h, hj⟩
      rw [hend.mpr (hj rfl ▸ h)]
      simp
  | false =>
    have hany : ((Regex.firstEnd s elements i).any fun j => !false || j == s.length) =
        (Regex.firstEnd s elements i).isSome := by
      cases Regex.firstEnd s elements i <;> rfl
    rw [hany, Regex.firstEnd_isSome_iff]
    simp

theorem occurs_start {s : List Char} {elements : List (Element Char)} (stop : Bool) :
    Occurs s true stop elements ↔ ∃ j, Matches s elements 0 j ∧ (stop = true → j = s.length) := by
  constructor
  · rintro ⟨i, j, -, hi, h, hj⟩
    exact ⟨j, hi rfl ▸ h, hj⟩
  · rintro ⟨j, h, hj⟩
    exact ⟨0, j, Nat.zero_le _, fun _ => rfl, h, hj⟩

theorem occurs_anywhere {s : List Char} {elements : List (Element Char)} (stop : Bool) :
    Occurs s false stop elements ↔
      ∃ i < s.length + 1, ∃ j, Matches s elements i j ∧ (stop = true → j = s.length) := by
  constructor
  · rintro ⟨i, j, hi, -, h, hj⟩
    exact ⟨i, Nat.lt_succ_of_le hi, j, h, hj⟩
  · rintro ⟨i, hi, j, h, hj⟩
    exact ⟨i, j, Nat.le_of_lt_succ hi, fun hstart => absurd hstart Bool.false_ne_true, h, hj⟩

theorem regex_iff_occurs {start stop : Bool} (hterms : ∀ term ∈ terms, term.Flat classes value)
    (hwf : SequenceWellFormed terms) (h : Delimited start stop terms) :
    Core.PatternMatch.regex classes value
        (String.ofList (sequenceText (anchored start stop terms))) = true ↔
      Occurs value.toList start stop (terms.flatMap (Term.inner (Atom.read classes))) := by
  have hmatch := fun ci => @regexMatchAt_flat classes value terms value.toList hterms hwf ci
  generalize terms.flatMap (Term.inner (Atom.read classes)) = elements at hmatch ⊢
  unfold Core.PatternMatch.regex
  rw [String.toList_ofList, parseAnchors_text hterms hwf h]
  simp only [hmatch]
  cases start with
  | true =>
    rw [occurs_start, ← firstEnd_any_iff (Nat.zero_le _)]
    cases stop <;> cases Regex.firstEnd value.toList elements 0 <;> simp
  | false =>
    rw [occurs_anywhere, Bool.false_and, if_neg Bool.false_ne_true, if_neg Bool.false_ne_true,
      List.any_eq_true]
    refine exists_congr fun i => ?_
    rw [List.mem_range]
    exact and_congr_right fun hi => firstEnd_any_iff (Nat.le_of_lt_succ hi) stop

theorem compileRegex_flat {start stop : Bool} (hterms : ∀ term ∈ terms, term.Flat classes value)
    (hwf : SequenceWellFormed terms) (h : Delimited start stop terms) :
    compileRegex (String.ofList (sequenceText (anchored start stop terms))) =
      some ((if start then [.start] else []) ++
        (terms.flatMap Term.innerOps ++ if stop then [.end] else [])) := by
  unfold compileRegex
  rw [String.toList_ofList, anchored, sequenceText_append, sequenceText_append]
  have hend : ∀ ops, compileFrom (sequenceText (if stop then [.stop] else [])) ops false =
      some (ops ++ if stop then [.end] else []) := by
    intro ops
    cases stop with
    | false =>
      refine (compileFrom.eq_def ..).trans ?_
      exact congrArg some (List.append_nil ops).symm
    | true =>
      refine compileFrom_end.trans ?_
      rw [compileFrom.eq_def]
      rfl
  have hnext : NoQuantifier (sequenceText (if stop then [.stop] else [])) := by
    cases stop with
    | false => exact fun q hq => by cases hq
    | true => exact noQuantifier_cons (by decide) []
  have hlast : sequenceText (if stop then [.stop] else []) = [] → terms.getLast? ≠ some .stop := by
    intro htext
    cases stop with
    | false => exact h.last rfl
    | true => cases htext
  cases start with
  | false =>
    exact (compileFrom_flat hterms hwf (fun _ => h.head rfl) hlast hnext).trans (hend _)
  | true =>
    have hrun := @compileFrom_flat classes value terms [.start] _ hterms hwf
      (fun hops => by cases hops) hlast hnext
    rw [List.append_assoc]
    exact compileFrom_start.trans (hrun.trans (hend _))

theorem innerOps_ne (hterms : ∀ term ∈ terms, term.Flat classes value) (stop : Bool) :
    ∀ op ∈ terms.flatMap Term.innerOps ++ (if stop then [.end] else []),
      op ≠ .alternation ∧ op ≠ .start := by
  intro op hop
  rcases List.mem_append.mp hop with hop | hop
  · obtain ⟨term, hterm, hop⟩ := List.mem_flatMap.mp hop
    have hflat := hterms term hterm
    cases term with
    | atom a quantifier =>
      obtain rfl := List.mem_singleton.mp hop
      exact mem_quantified_ops quantifier
    | start =>
      obtain rfl := List.mem_singleton.mp hop
      decide
    | stop =>
      obtain rfl := List.mem_singleton.mp hop
      decide
    | group alternatives quantifier => exact absurd hflat id
  · cases stop with
    | false => cases hop
    | true =>
      obtain rfl := List.mem_singleton.mp hop
      decide

theorem regexMatchOps_flat (hterms : ∀ term ∈ terms, term.Flat classes value) (stop : Bool)
    (i : Nat) :
    regexMatchOps value.toList (terms.flatMap Term.innerOps ++ if stop then [.end] else []) i = true
      ↔ ∃ j, Matches value.toList (terms.flatMap (Term.inner fun a => singleOpMatches a.op)) i j ∧
        (stop = true → j = value.toList.length) := by
  rw [regexMatchOps_flatMap fun term hterm => regexMatchOps_inner (hterms term hterm)]
  refine exists_congr fun j => and_congr_right fun _ => ?_
  cases stop with
  | false => exact iff_of_true rfl fun h => by cases h
  | true =>
    change (j == value.toList.length) = true ↔ _
    rw [beq_iff_eq]
    exact ⟨fun h _ => h, fun h => h rfl⟩

theorem matchRegexPattern_iff_occurs {start stop : Bool}
    (hterms : ∀ term ∈ terms, term.Flat classes value) (hwf : SequenceWellFormed terms)
    (h : Delimited start stop terms) :
    matchRegexPattern value (String.ofList (sequenceText (anchored start stop terms))) = true ↔
      Occurs value.toList start stop
        (terms.flatMap (Term.inner fun a => singleOpMatches a.op)) := by
  have hops := innerOps_ne hterms stop
  have hrun := regexMatchOps_flat hterms stop
  have hsingle : ∀ ops : List RegexOp, (∀ op ∈ ops, op ≠ .alternation) →
      ¬ 1 < (splitAlternatives ops 0 []).length := by
    intro ops hnone
    rw [splitAlternatives_none hnone]
    exact Nat.lt_irrefl 1
  unfold matchRegexPattern
  rw [compileRegex_flat hterms hwf h]
  generalize terms.flatMap Term.innerOps ++ (if stop then [.end] else []) = ops at hops hrun
  cases start with
  | true =>
    have hnone : ∀ op ∈ RegexOp.start :: ops, op ≠ .alternation :=
      List.forall_mem_cons.mpr ⟨by decide, fun op hop => (hops op hop).1⟩
    change regexMatchCompiled value (.start :: ops) = true ↔ _
    unfold regexMatchCompiled
    dsimp only
    rw [if_neg (hsingle _ hnone), List.head?_cons, if_pos rfl, List.tail_cons, hrun, occurs_start]
  | false =>
    have hhead : ops.head? ≠ some .start := fun hhead =>
      (hops .start (List.mem_of_mem_head? hhead)).2 rfl
    change regexMatchCompiled value ops = true ↔ _
    unfold regexMatchCompiled
    dsimp only
    rw [if_neg (hsingle _ fun op hop => (hops op hop).1), if_neg hhead, List.any_eq_true,
      occurs_anywhere]
    refine exists_congr fun i => ?_
    rw [List.mem_range, hrun]

theorem matches_inner (hterms : ∀ term ∈ terms, term.Flat classes value)
    (hwf : SequenceWellFormed terms) (i j : Nat) :
    Matches value.toList (terms.flatMap (Term.inner fun a => singleOpMatches a.op)) i j ↔
      Matches value.toList (terms.flatMap (Term.inner (Atom.read classes))) i j := by
  induction terms generalizing i with
  | nil => rfl
  | cons term terms ih =>
    obtain ⟨hterm, hterms⟩ := List.forall_mem_cons.mp hterms
    have hinner : ∀ m, Matches value.toList (term.inner fun a => singleOpMatches a.op) i m ↔
        Matches value.toList (term.inner (Atom.read classes)) i m := by
      intro m
      cases term with
      | atom a quantifier =>
        simp only [Term.inner, Matches]
        refine exists_congr fun m => and_congr_left fun _ => ?_
        exact Element.matches_congr (fun c hc => a.op_read hwf.1 hterm hc) quantifier
      | _ => rfl
    simp only [List.flatMap_cons, Regex.matches_append, hinner, ih hterms hwf.2]

/-- One sequence, of atoms that are read alike and of anchors. -/
def Common (classes : CharClasses) (value : String) (pattern : List (List Term)) : Prop :=
  ∃ start stop terms, pattern = [anchored start stop terms] ∧ Delimited start stop terms ∧
    ∀ term ∈ terms, term.Flat classes value

end Agreement

end Cynos.Query
