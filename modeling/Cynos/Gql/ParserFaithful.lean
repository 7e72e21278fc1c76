import Cynos.Gql.Lexemes

/-! Every text of a document is parsed to that document. -/
namespace Cynos.Gql

open Cursor

variable {A : Type} {W : A → List Token → Prop} {vs : List A} {v : A}
  {ts ts' us rest : List Token} {fuel : Nat} {p : Punctuator}

section Rows

theorem Row.follow {P : List Token → Prop} (hP : ∀ v ts us, W v ts → P (ts ++ us))
    (hrest : P rest) (h : Row W vs us) : P (us ++ rest) := by
  cases h with
  | nil => exact hrest
  | cons h hs =>
    rw [List.append_assoc]
    exact hP _ _ _ h

theorem Row.length_le (hne : ∀ v ts, W v ts → ts ≠ []) (h : Row W vs ts) :
    vs.length ≤ ts.length := by
  induction h with
  | nil => exact Nat.le_refl _
  | @cons v vs ts us h hs ih =>
    have := List.length_pos_iff.mpr (hne v ts h)
    rw [List.length_cons, List.length_append]
    omega

/-- A loop that reads an item at a time reads a row of them, where `P` says what may follow. -/
theorem reads_collect {body : Parser (Option A)} {P : List Token → Prop} {after : List Token}
    (hne : ∀ v ts, W v ts → ts ≠ []) (hP : ∀ v ts us, W v ts → P (ts ++ us)) (hrest : P rest)
    (hitem : ∀ v us rest, W v us → us.length ≤ ts.length → P rest →
      Reads body (us ++ rest) (some v) rest)
    (hnone : Reads body rest none after) (h : Row W vs ts) :
    Reads (collect body) (ts ++ rest) vs after := by
  intro s hs
  have hlength := hs.length_le
  have hvs := h.length_le hne
  rw [List.length_append] at hlength
  refine (@Meets.collect_eq _ _ body s (fun _ : GqlError => False)
    (fun vs s => ∃ us, Row W vs us ∧ us.length ≤ ts.length ∧ Laid isLineFeed (us ++ rest) s)
    (fun s => Laid isLineFeed after s) vs ?_ ?_ (by omega) ⟨ts, h, Nat.le_refl _, hs⟩)
  · rintro v vs s ⟨us, hrow, hle, hlaid⟩
    cases hrow with
    | @cons _ _ ts₁ us hv hvs =>
      rw [List.append_assoc] at hlaid
      rw [List.length_append] at hle
      exact (hitem v ts₁ (us ++ rest) hv (by omega) (hvs.follow hP hrest) s hlaid).imp
        fun r s' hs' => ⟨hs'.1, us, hvs, by omega, hs'.2⟩
  · rintro s ⟨us, hrow, hle, hlaid⟩
    cases hrow
    exact hnone s hlaid

/-- The loop up to a closing punctuator, which starts no item. -/
theorem reads_parseUntil {item : Parser A} {P : List Token → Prop}
    (hne : ∀ v ts, W v ts → ∃ t us, ts = t :: us ∧ t ≠ .punct p)
    (hP : ∀ v ts us, W v ts → P (ts ++ us)) (hclose : P (.punct p :: rest))
    (hitem : ∀ v us rest, W v us → us.length ≤ ts.length → P rest →
      Reads item (us ++ rest) v rest) (h : Row W vs ts) :
    Reads (parseUntil p.char item) (ts ++ .punct p :: rest) vs rest := by
  refine reads_collect (fun v ts hv => ?_) hP hclose (fun v us rest hv hle hrest => ?_) ?_ h
  · obtain ⟨t, us, rfl, -⟩ := hne v ts hv
    exact List.cons_ne_nil t us
  · refine .skip fun _ => .peek_neg p ?_ ((hitem v us rest hv hle hrest).bind
      (.pure (some v) rest)).takes
    obtain ⟨t, us, rfl, ht⟩ := hne v us hv
    rw [List.cons_append, List.head?_cons, Ne, Option.some.injEq]
    exact ht
  · exact .skip fun _ => .peek_pos p (.advance (.pure _ _))

end Rows

section Values

theorem nameValue_of_ne {name : String} (h : name ≠ "true" ∧ name ≠ "false" ∧ name ≠ "null") :
    nameValue name = .enum name := by
  unfold nameValue
  rw [if_neg h.1, if_neg h.2.1, if_neg h.2.2]

theorem IsValue.first {value : InputValue} (h : IsValue value ts) :
    ∃ t us, ts = t :: us ∧ t ≠ .punct .bracketClose := by
  cases h <;> exact ⟨_, _, rfl, nofun⟩

theorem IsNamed.first {field : String × InputValue} (h : IsNamed IsValue field ts) :
    ∃ t us, ts = t :: us ∧ t ≠ .punct p := by
  cases h
  exact ⟨_, _, rfl, nofun⟩

theorem reads_parseNamed {parseValue : Parser InputValue} {field : String × InputValue}
    {Q : InputValue → List Token → Prop}
    (hvalue : ∀ value us, Q value us → us.length < ts.length →
      Reads parseValue (us ++ rest) value rest) (h : IsNamed Q field ts) :
    Reads (parseNamed parseValue) (ts ++ rest) field rest := by
  cases h with
  | @mk value us n h =>
    refine (reads_parseName n _).bind ((reads_expectChar .colon _).bind ?_)
    exact (hvalue value us h (Nat.lt_succ_of_lt (Nat.lt_succ_self _))).bind (.pure _ _)

theorem value_of_name {X : Type} {c : Char} (h : isNameStart c = true) (a b d e f g : X) :
    (if c = '"' then a else if c = '[' then b else if c = '\x7b' then d else if c = '$' then e
      else if c = '-' ∨ c.isDigit then f else g) = g := by
  have hcode := isNameStart_cases h
  have hne : ∀ d : Char, ¬ (d.toNat = 95 ∨ (65 ≤ d.toNat ∧ d.toNat ≤ 90) ∨
      (97 ≤ d.toNat ∧ d.toNat ≤ 122)) → c ≠ d := by
    rintro d hd rfl
    exact hd hcode
  have hdigit : ¬ c.isDigit = true := fun hc => by
    have := isDigit_cases hc
    omega
  rw [if_neg (hne '"' (by decide)), if_neg (hne '[' (by decide)), if_neg (hne '\x7b' (by decide)),
    if_neg (hne '$' (by decide)), if_neg (not_or.mpr ⟨hne '-' (by decide), hdigit⟩)]

theorem value_of_number {X : Type} {c : Char} (h : c = '-' ∨ c.isDigit = true) (a b d e f g : X) :
    (if c = '"' then a else if c = '[' then b else if c = '\x7b' then d else if c = '$' then e
      else if c = '-' ∨ c.isDigit then f else g) = f := by
  have hcode : c.toNat = 45 ∨ (48 ≤ c.toNat ∧ c.toNat ≤ 57) := by
    rcases h with rfl | h
    · exact .inl rfl
    · exact .inr (isDigit_cases h)
  have hne : ∀ d : Char, ¬ (d.toNat = 45 ∨ (48 ≤ d.toNat ∧ d.toNat ≤ 57)) → c ≠ d := by
    rintro d hd rfl
    exact hd hcode
  rw [if_neg (hne '"' (by decide)), if_neg (hne '[' (by decide)), if_neg (hne '\x7b' (by decide)),
    if_neg (hne '$' (by decide)), if_pos h]

theorem numeral_head (n : Json.Numeral) :
    (Token.number n).head = '-' ∨ (Token.number n).head.isDigit = true := by
  have h := (Token.number n).starts
  generalize (Token.number n).head = c at h
  cases h with
  | minus => exact .inl rfl
  | digit h => exact .inr h

theorem reads_parseInputValue {value : InputValue} (h : IsValue value ts)
    (hfuel : ts.length < fuel) (rest : List Token) :
    Reads (parseInputValue fuel) (ts ++ rest) value rest := by
  induction fuel generalizing value ts rest with
  | zero => exact absurd hfuel (Nat.not_lt_zero _)
  | succ fuel ih =>
    refine .skip fun _ => .peek ?_
    cases h with
    | null => exact (takes_parseName .nullWord rest).bind (.pure _ _)
    | true => exact (takes_parseName .trueWord rest).bind (.pure _ _)
    | false => exact (takes_parseName .falseWord rest).bind (.pure _ _)
    | @enum n hne =>
      refine (congrArg (Takes · (.name n :: rest) (InputValue.enum n.string) rest)
        (value_of_name n.isStart _ _ _ _ _ _)).mpr ?_
      rw [← nameValue_of_ne hne]
      exact (takes_parseName n rest).bind (.pure _ _)
    | @int n m hint hm =>
      refine (congrArg (Takes · (.number n :: rest) _ rest)
        (value_of_number (numeral_head n) _ _ _ _ _ _)).mpr ?_
      exact reads_parseNumberValue (fun h => absurd (hint.symm.trans h) (by decide))
        fun _ => ⟨m, hm, rfl⟩
    | @float n hfloat =>
      refine (congrArg (Takes · (.number n :: rest) _ rest)
        (value_of_number (numeral_head n) _ _ _ _ _ _)).mpr ?_
      exact reads_parseNumberValue (fun _ => rfl)
        fun h => absurd (hfloat.symm.trans h) (by decide)
    | string items => exact (takes_parseString items rest).bind (.pure _ _)
    | «variable» n => exact .advance ((reads_parseName n rest).bind (.pure _ _))
    | @list values ts h =>
      rw [List.length_cons, List.length_append] at hfuel
      rw [List.cons_append, List.append_assoc]
      refine Reads.takes ((reads_expectChar .bracketOpen _).bind (Reads.bind ?_ (.pure _ _)))
      exact reads_parseUntil (P := fun _ => True) (fun _ _ => IsValue.first) (fun _ _ _ _ => trivial)
        trivial (fun value us rest hvalue hle _ => ih hvalue (by omega) rest) h
    | @object fields ts h =>
      rw [List.length_cons, List.length_append] at hfuel
      rw [List.cons_append, List.append_assoc]
      refine Reads.takes ((reads_expectChar .braceOpen _).bind (Reads.bind ?_ (.pure _ _)))
      exact reads_parseUntil (P := fun _ => True) (fun _ _ => IsNamed.first) (fun _ _ _ _ => trivial)
        trivial (fun field us rest hfield hle _ =>
          reads_parseNamed (fun value us hvalue hlt => ih hvalue (by omega) rest) hfield) h

end Values

section Fields

theorem reads_enclosed {parse : Parser (List A)} {P : List Token → Prop} {item : Parser A}
    (hparse : parse = do expectChar '('; parseUntil ')' item)
    (hne : ∀ v ts, W v ts → ∃ t us, ts = t :: us ∧ t ≠ .punct .parenClose)
    (hP : ∀ v ts us, W v ts → P (ts ++ us)) (hclose : ∀ ts, P (.punct .parenClose :: ts))
    (hitem : ∀ v us rest, W v us → us.length ≤ ts.length → P rest →
      Reads item (us ++ rest) v rest)
    (hrest : rest.head? ≠ some (.punct .parenOpen)) (h : Enclosed W vs ts) :
    Reads (do
      let _ ← skipIgnored
      if (← peekChar) = some '(' then parse else return []) (ts ++ rest) vs rest := by
  cases h with
  | none => exact .skip fun _ => .peek_neg .parenOpen hrest (Reads.pure _ _).takes
  | @some vs ts h hne' =>
    rw [List.cons_append, List.append_assoc, hparse]
    refine .skip fun _ => .peek_pos .parenOpen ((reads_expectChar .parenOpen _).bind ?_).takes
    refine reads_parseUntil hne hP (hclose rest) (fun v us rest hv hle hP => ?_) h
    rw [List.length_cons, List.length_append] at hitem
    exact hitem v us rest hv (by omega) hP

theorem reads_arguments {args : List Argument} (h : Enclosed IsArgument args ts)
    (hfuel : ts.length < fuel) (hrest : rest.head? ≠ some (.punct .parenOpen)) :
    Reads (parseOptionalArguments fuel) (ts ++ rest) args rest := by
  refine reads_enclosed (P := fun _ => True) rfl (fun arg ts harg => ?_) (fun _ _ _ _ => trivial)
    (fun _ => trivial) (fun arg us rest harg hle _ => ?_) hrest h
  · cases harg
    exact ⟨_, _, rfl, nofun⟩
  · cases harg with
    | @mk value us n hvalue =>
      rw [List.length_cons, List.length_cons] at hle
      exact (reads_parseNamed (fun value us hvalue hlt => reads_parseInputValue hvalue
        (by rw [List.length_cons, List.length_cons] at hlt; omega) rest)
        (IsNamed.mk n hvalue)).bind (.pure _ _)

theorem reads_directives {directives : List Directive} (h : Row IsDirective directives ts)
    (hfuel : ts.length < fuel) (hparen : rest.head? ≠ some (.punct .parenOpen))
    (hat : rest.head? ≠ some (.punct .at)) :
    Reads (parseDirectives fuel) (ts ++ rest) directives rest := by
  refine reads_collect (P := fun ts => ts.head? ≠ some (.punct .parenOpen)) ?_ ?_ hparen ?_ ?_ h
  · rintro directive ts ⟨n, harguments⟩
    exact List.cons_ne_nil _ _
  · rintro directive ts us ⟨n, harguments⟩
    exact nofun
  · rintro directive us rest hdirective hle hrest
    cases hdirective with
    | @mk args us n harguments =>
      rw [List.length_cons, List.length_cons] at hle
      refine .skip fun _ => .peek_pos .at (.advance ((reads_parseName n _).bind ?_))
      exact (reads_arguments harguments (by omega) hrest).bind (.pure _ _)
  · exact .skip fun _ => .peek_neg .at hat (Reads.pure _ _).takes

theorem reads_fieldName {aliasName : Option String} {name : String}
    (h : IsFieldName aliasName name ts) (hrest : rest.head? ≠ some (.punct .colon)) :
    Reads parseFieldName (ts ++ rest) (aliasName, name) rest := by
  cases h with
  | plain n =>
    exact .skip fun _ => ((reads_parseName n _).bind
      (.skip fun _ => .peek_neg .colon hrest (Reads.pure _ _).takes)).takes
  | aliased a n =>
    exact .skip fun _ => ((reads_parseName a _).bind (.skip fun _ =>
      .peek_pos .colon (.advance ((reads_parseName n rest).bind
        (.pure (some a.string, n.string) rest))))).takes

/-- What may follow a field: another one, or the end of the selections. -/
def AfterField (ts : List Token) : Prop :=
  (∃ n us, ts = .name n :: us) ∨ ∃ us, ts = .punct .braceClose :: us

theorem AfterField.ne (h : AfterField rest) (hp : p ≠ .braceClose) :
    rest.head? ≠ some (.punct p) := by
  rcases h with ⟨n, us, rfl⟩ | ⟨us, rfl⟩
  · exact nofun
  · rintro ⟨⟩
    exact hp rfl

theorem IsField.first {field : Field} (h : IsField field ts) : ∃ n us, ts = .name n :: us := by
  cases h with
  | leaf hname => cases hname <;> exact ⟨_, _, rfl⟩
  | node hname => cases hname <;> exact ⟨_, _, rfl⟩

theorem reads_selections {parse : Parser Field} {fields : List Field}
    (hfield : ∀ field us rest, IsField field us → us.length ≤ ts.length → AfterField rest →
      Reads parse (us ++ rest) field rest) (h : Row IsField fields ts) :
    Reads (parseSelections parse) (ts ++ .punct .braceClose :: rest) fields rest := by
  refine reads_collect (P := AfterField) ?_ ?_ (.inr ⟨_, rfl⟩) ?_ ?_ h
  · intro field ts hfield
    obtain ⟨n, us, rfl⟩ := hfield.first
    exact List.cons_ne_nil _ _
  · intro field ts us hfield
    obtain ⟨n, us', rfl⟩ := hfield.first
    exact .inl ⟨n, _, rfl⟩
  · intro field us rest hus hle hrest
    have hread := hfield field us rest hus hle hrest
    obtain ⟨n, us, rfl⟩ := hus.first
    refine .skip fun _ => .peek ?_
    have hcode := isNameStart_cases n.isStart
    have hclose : n.start ≠ '\x7d' := fun h => by
      rw [h] at hcode
      exact absurd hcode (by decide)
    have hdot : n.start ≠ '.' := fun h => by
      rw [h] at hcode
      exact absurd hcode (by decide)
    change Takes (if n.start = '\x7d' then _ else if n.start = '.' then _ else _) _ _ _
    rw [if_neg hclose, if_neg hdot]
    exact (hread.bind (.pure (some field) rest)).takes
  · exact .skip fun _ => .peek (.advance (.pure _ _))

theorem reads_selectionSetWith {parse : Parser Field} {fields : SelectionSet}
    (hfield : ∀ field us rest, IsField field us → us.length < ts.length → AfterField rest →
      Reads parse (us ++ rest) field rest) (h : IsSelectionSet fields ts) :
    Reads (parseSelectionSetWith parse) (ts ++ rest) fields rest := by
  cases h with
  | @mk ts h hne =>
    rw [List.cons_append, List.append_assoc]
    refine (reads_expectChar .braceOpen _).bind (Reads.bind (reads_selections
      (fun field us rest hus hle hrest => hfield field us rest hus ?_ hrest) h) ?_)
    · rw [List.length_cons, List.length_append]
      omega
    · rw [if_neg (by rw [List.isEmpty_iff]; exact hne)]
      exact .pure _ _

theorem enclosed_head_ne (h : Enclosed W vs ts) (hp : p ≠ .parenOpen)
    (hrest : rest.head? ≠ some (.punct p)) : (ts ++ rest).head? ≠ some (.punct p) := by
  cases h with
  | none => exact hrest
  | some h hne =>
    rintro ⟨⟩
    exact hp rfl

theorem directives_head_ne {directives : List Directive} (h : Row IsDirective directives ts)
    (hp : p ≠ .at) (hrest : rest.head? ≠ some (.punct p)) :
    (ts ++ rest).head? ≠ some (.punct p) := by
  cases h with
  | nil => exact hrest
  | cons h hs =>
    cases h
    rintro ⟨⟩
    exact hp rfl

theorem brace_head_ne (hp : p ≠ .braceOpen) :
    (Token.punct .braceOpen :: ts).head? ≠ some (.punct p) := by
  rintro ⟨⟩
  exact hp rfl

theorem IsFieldName.length_pos {aliasName : Option String} {name : String}
    (h : IsFieldName aliasName name ts) : 0 < ts.length := by
  cases h <;> exact Nat.zero_lt_succ _

theorem reads_parseField {field : Field} (h : IsField field ts) (hfuel : ts.length < fuel)
    (rest : List Token) (hrest : AfterField rest) :
    Reads (parseField fuel) (ts ++ rest) field rest := by
  induction fuel generalizing field ts rest with
  | zero => exact absurd hfuel (Nat.not_lt_zero _)
  | succ fuel ih =>
    cases h with
    | @leaf aliasName name args directives ts₁ ts₂ ts₃ hname hargs hdirectives =>
      have hpos := hname.length_pos
      rw [List.length_append, List.length_append] at hfuel
      rw [List.append_assoc, List.append_assoc]
      refine (reads_fieldName hname (enclosed_head_ne hargs (by decide)
        (directives_head_ne hdirectives (by decide) (hrest.ne (by decide))))).bind ?_
      refine (reads_arguments hargs (by omega)
        (directives_head_ne hdirectives (by decide) (hrest.ne (by decide)))).bind ?_
      refine (reads_directives hdirectives (by omega) (hrest.ne (by decide))
        (hrest.ne (by decide))).bind ?_
      exact .skip fun _ => .peek_neg .braceOpen (hrest.ne (by decide)) (Reads.pure _ _).takes
    | @node aliasName name args directives fields ts₁ ts₂ ts₃ ts₄ hname hargs hdirectives hfields
        hne =>
      have hpos := hname.length_pos
      rw [List.length_append, List.length_append, List.length_append, List.length_cons,
        List.length_append] at hfuel
      have hset : Reads (parseSelectionSetWith (parseField fuel)) (_ ++ rest) fields rest :=
        reads_selectionSetWith (fun field us rest hus hlt hrest => ih hus (by
          rw [List.length_cons, List.length_append] at hlt
          omega) rest hrest) (.mk hfields hne)
      rw [List.append_assoc, List.append_assoc, List.append_assoc]
      refine (reads_fieldName hname (enclosed_head_ne hargs (by decide)
        (directives_head_ne hdirectives (by decide) (brace_head_ne (by decide))))).bind ?_
      refine (reads_arguments hargs (by omega)
        (directives_head_ne hdirectives (by decide) (brace_head_ne (by decide)))).bind ?_
      refine (reads_directives hdirectives (by omega) (brace_head_ne (by decide))
        (brace_head_ne (by decide))).bind ?_
      exact .skip fun _ => .peek_pos .braceOpen
        (hset.bind (.pure (Field.mk aliasName name args directives (some fields)) rest)).takes

theorem reads_parseSelectionSet {fields : SelectionSet} (h : IsSelectionSet fields ts)
    (hfuel : ts.length < fuel) (rest : List Token) :
    Reads (parseSelectionSet fuel) (ts ++ rest) fields rest :=
  reads_selectionSetWith (fun _ _ rest hus hlt hrest =>
    reads_parseField hus (Nat.lt_trans hlt hfuel) rest hrest) h

end Fields

section Types

theorem IsType.length_pos {ty : TypeReference} (h : IsType ty ts) : 0 < ts.length := by
  cases h with
  | nonNull h hnullable => rw [List.length_append]; exact Nat.zero_lt_succ _
  | _ => exact Nat.zero_lt_succ _

/-- A type without a mark behind it. -/
theorem takes_baseType {parse : Parser TypeReference} {ty : TypeReference}
    (hparse : ∀ inner us rest, IsType inner us → us.length < ts.length →
      rest.head? ≠ some (.punct .bang) → Reads parse (us ++ rest) inner rest)
    (h : IsType ty ts) (hnullable : ∀ inner, ty ≠ .nonNull inner) :
    Takes (parseBaseType parse) (ts ++ rest) ty rest := by
  cases h with
  | named n =>
    exact .peek_neg .bracketOpen nofun ((reads_parseName n rest).bind
      (.pure (TypeReference.named n.string) rest)).takes
  | @list inner us h =>
    rw [List.cons_append, List.append_assoc]
    refine .peek_pos .bracketOpen (.advance ((hparse inner us _ h ?_ ?_).bind
      ((reads_expectChar .bracketClose rest).bind (.pure _ _))))
    · rw [List.length_cons, List.length_append]
      omega
    · exact nofun
  | nonNull h hinner => exact absurd rfl (hnullable _)

theorem reads_parseTypeReference {ty : TypeReference} (h : IsType ty ts) (hfuel : ts.length < fuel)
    (rest : List Token) (hrest : rest.head? ≠ some (.punct .bang)) :
    Reads (parseTypeReference fuel) (ts ++ rest) ty rest := by
  induction fuel generalizing ty ts rest with
  | zero => exact absurd hfuel (Nat.not_lt_zero _)
  | succ fuel ih =>
    have hbase : ∀ {ty : TypeReference} {us : List Token} (rest : List Token), IsType ty us →
        us.length ≤ fuel → (∀ inner, ty ≠ .nonNull inner) →
        Takes (parseBaseType (parseTypeReference fuel)) (us ++ rest) ty rest :=
      fun rest h hle hnullable => takes_baseType
        (fun inner us rest hinner hlt hrest => ih hinner (by omega) rest hrest) h hnullable
    by_cases hnullable : ∀ inner, ty ≠ .nonNull inner
    · exact .skip fun _ => (hbase rest h (by omega) hnullable).bind
        (.skip fun _ => .peek_neg .bang hrest (Reads.pure _ _).takes)
    · cases h with
      | @nonNull inner us h hinner =>
        rw [List.length_append] at hfuel
        rw [List.append_assoc]
        exact .skip fun _ => (hbase _ h (by omega) hinner).bind
          (.skip fun _ => .peek_pos .bang (.advance (.pure _ _)))
      | _ => exact absurd nofun hnullable

end Types

section Operations

theorem reads_parseDefaultValue {value : Option InputValue} (h : IsDefault value ts)
    (hfuel : ts.length ≤ fuel) (hrest : rest.head? ≠ some (.punct .equals)) :
    Reads (parseDefaultValue fuel) (ts ++ rest) value rest := by
  cases h with
  | none => exact .skip fun _ => .peek_neg .equals hrest (Reads.pure _ _).takes
  | @some value us h =>
    exact .skip fun _ => .peek_pos .equals
      (.advance ((reads_parseInputValue h hfuel rest).bind (.pure (some value) rest)))

/-- What may follow the definition of a variable. -/
def AfterDefinition (ts : List Token) : Prop :=
  ∃ p us, ts = .punct p :: us ∧ (p = .dollar ∨ p = .parenClose)

theorem AfterDefinition.ne (h : AfterDefinition rest) (hp : p ≠ .dollar ∧ p ≠ .parenClose) :
    rest.head? ≠ some (.punct p) := by
  obtain ⟨q, us, rfl, rfl | rfl⟩ := h
  · rintro ⟨⟩
    exact hp.1 rfl
  · rintro ⟨⟩
    exact hp.2 rfl

theorem default_head_ne {value : Option InputValue} (h : IsDefault value ts) (hp : p ≠ .equals)
    (hrest : rest.head? ≠ some (.punct p)) : (ts ++ rest).head? ≠ some (.punct p) := by
  cases h with
  | none => exact hrest
  | some h =>
    rintro ⟨⟩
    exact hp rfl

theorem reads_parseVariableDefinition {definition : VariableDefinition}
    (h : IsVariableDefinition definition ts) (hfuel : ts.length ≤ fuel) (rest : List Token)
    (hrest : AfterDefinition rest) :
    Reads (parseVariableDefinition fuel) (ts ++ rest) definition rest := by
  cases h with
  | @mk ty value us us' n hty hvalue =>
    rw [List.length_cons, List.length_cons, List.length_cons, List.length_append] at hfuel
    rw [List.cons_append, List.cons_append, List.cons_append, List.append_assoc]
    refine (reads_expectChar .dollar _).bind ((reads_parseName n _).bind
      ((reads_expectChar .colon _).bind ?_))
    refine (reads_parseTypeReference hty (by omega) _
      (default_head_ne hvalue (by decide) (hrest.ne (by decide)))).bind ?_
    exact (reads_parseDefaultValue hvalue (by omega) (hrest.ne (by decide))).bind (.pure _ _)

theorem reads_parseOperationVariables {definitions : List VariableDefinition}
    (h : Enclosed IsVariableDefinition definitions ts) (hfuel : ts.length ≤ fuel)
    (hrest : rest.head? ≠ some (.punct .parenOpen)) :
    Reads (parseOperationVariables fuel) (ts ++ rest) definitions rest := by
  refine reads_enclosed (P := AfterDefinition) rfl ?_ ?_ (fun _ => ⟨_, _, rfl, .inr rfl⟩) ?_ hrest h
  · rintro definition ts ⟨n, hty, hvalue⟩
    exact ⟨_, _, rfl, nofun⟩
  · rintro definition ts us ⟨n, hty, hvalue⟩
    exact ⟨_, _, rfl, .inl rfl⟩
  · exact fun definition us rest h hle hrest =>
      reads_parseVariableDefinition h (by omega) rest hrest

theorem operationType_keyword (kind : OperationType) :
    operationType kind.keyword.string = pure kind := by
  cases kind <;> rfl

/-- The name of an operation, in front of its variables or its selections. -/
theorem reads_parseOperationName {name : Option String} (h : IsOperationName name ts)
    (hrest : ∃ us, rest = .punct .parenOpen :: us ∨ rest = .punct .braceOpen :: us) :
    Reads parseOperationName (ts ++ rest) name rest := by
  refine .skip fun _ => .peek ?_
  cases h with
  | none =>
    obtain ⟨us, rfl | rfl⟩ := hrest
    · exact (Reads.pure _ _).takes
    · exact (Reads.pure _ _).takes
  | some n =>
    have hcode := isNameStart_cases n.isStart
    have hmark : ¬ (n.start = '$' ∨ n.start = '\x7b') := by
      rintro (h | h) <;> rw [h] at hcode <;> exact absurd hcode (by decide)
    change Takes (if n.start = '$' ∨ n.start = '\x7b' then _ else if isNameStart n.start then _
      else _) _ _ _
    rw [if_neg hmark, if_pos n.isStart]
    exact (takes_parseName n rest).bind (.pure _ _)

theorem IsSelectionSet.first {fields : SelectionSet} (h : IsSelectionSet fields ts) :
    ∃ us, ts = .punct .braceOpen :: us := by
  cases h
  exact ⟨_, rfl⟩

theorem reads_keywordOperation {name : Option String} {definitions : List VariableDefinition}
    {fields : SelectionSet} {ts₁ ts₂ ts₃ : List Token} (kind : OperationType)
    (hname : IsOperationName name ts₁) (hdefinitions : Enclosed IsVariableDefinition definitions ts₂)
    (hfields : IsSelectionSet fields ts₃) (hfuel₂ : ts₂.length < fuel) (hfuel₃ : ts₃.length < fuel)
    (rest : List Token) :
    Reads (parseKeywordOperation fuel) (.name kind.keyword :: (ts₁ ++ (ts₂ ++ (ts₃ ++ rest))))
      ⟨kind, name, definitions, fields⟩ rest := by
  have hselections := reads_parseSelectionSet hfields hfuel₃ rest
  obtain ⟨us, rfl⟩ := hfields.first
  refine (reads_parseName kind.keyword _).bind ?_
  rw [operationType_keyword]
  refine (Reads.pure kind _).bind ((reads_parseOperationName hname ?_).bind
    ((reads_parseOperationVariables hdefinitions (by omega) (brace_head_ne (by decide))).bind ?_))
  · cases hdefinitions with
    | none => exact ⟨_, .inr rfl⟩
    | some h hne => exact ⟨_, .inl rfl⟩
  · intro s hs
    have hat : s.head? ≠ some '@' := hs.head_ne (by decide) nofun
    refine .peek_bind ?_
    rw [if_neg hat]
    exact (hselections.bind (.pure (OperationDefinition.mk kind name definitions fields) rest)) s hs

theorem reads_parseOperationDefinition {operation : OperationDefinition}
    (h : IsOperation operation ts) (hfuel : ts.length ≤ fuel) (rest : List Token) :
    Reads (parseOperationDefinition (fuel + 1)) (ts ++ rest) operation rest := by
  cases h with
  | @short fields ts h =>
    have hselections := reads_parseSelectionSet h (Nat.lt_succ_of_le hfuel) rest
    obtain ⟨us, rfl⟩ := h.first
    exact .skip fun _ => .peek_pos .braceOpen
      (hselections.bind (.pure (OperationDefinition.mk .query none [] fields) rest)).takes
  | @keyword name definitions fields ts₁ ts₂ ts₃ kind hname hdefinitions hfields =>
    rw [List.length_cons, List.length_append, List.length_append] at hfuel
    have hread := reads_keywordOperation kind hname hdefinitions hfields
      (Nat.lt_succ_of_le (by omega : ts₂.length ≤ fuel))
      (Nat.lt_succ_of_le (by omega : ts₃.length ≤ fuel)) rest
    rw [List.cons_append, List.append_assoc, List.append_assoc]
    exact .skip fun _ => .peek_neg .braceOpen nofun hread.takes

theorem IsOperation.first {operation : OperationDefinition} (h : IsOperation operation ts) :
    ∃ t us, ts = t :: us := by
  cases h with
  | short h =>
    obtain ⟨us, rfl⟩ := h.first
    exact ⟨_, us, rfl⟩
  | keyword kind hname hdefinitions hfields => exact ⟨_, _, rfl⟩

/-- A text ends where no token is left. -/
theorem takes_isEof {f : Bool → Parser A} {v : A} (h : Reads (f ts.isEmpty) ts v ts') :
    Takes (isEof >>= f) ts v ts' := by
  intro s hs
  have hempty : decide (s = []) = ts.isEmpty := by
    cases hs with
    | nil => rfl
    | @cons t ts rest hrest hword =>
      obtain ⟨tail, htail⟩ := t.text_eq
      rw [htail]
      rfl
  refine .isEof_bind ?_
  rw [hempty]
  exact h s hs.laid

theorem reads_documentParser {document : Document} (h : IsDocument document ts)
    (hfuel : ts.length ≤ fuel) : Reads (documentParser (fuel + 1)) ts document [] := by
  have hoperations : Reads (parseOperations (fuel + 1)) (ts ++ []) document.operations [] := by
    refine reads_collect (P := fun _ => True) ?_ (fun _ _ _ _ => trivial) trivial ?_ ?_
      h.operations
    · intro operation ts hoperation
      obtain ⟨t, us, rfl⟩ := hoperation.first
      exact List.cons_ne_nil t us
    · intro operation us rest hoperation hle _
      have hread := reads_parseOperationDefinition hoperation (by omega : us.length ≤ fuel) rest
      obtain ⟨t, us, rfl⟩ := hoperation.first
      exact .skip fun _ => takes_isEof (hread.bind (.pure (some operation) rest))
    · exact .skip fun _ => takes_isEof (.pure _ _)
  rw [List.append_nil] at hoperations
  refine hoperations.bind ?_
  rw [if_neg (by rw [List.isEmpty_iff]; exact h.nonempty)]
  exact .pure _ _

/-- Whatever is ignored between its tokens and however its strings are written, a document is
read back from its text; and any text is read as a document or refused. -/
theorem parseDocument_faithful :
    (∀ document text, Writes isLineFeed document text → parseDocument text = .ok document) ∧
      ∀ text, (∃ document, parseDocument text = .ok document) ∨
        ∃ e, parseDocument text = .error (.error e) := by
  refine ⟨?_, parseDocument_total⟩
  rintro document text ⟨ts, hdocument, hlaid⟩
  have hread := reads_documentParser hdocument hlaid.length_le text hlaid text 0 (at_start text)
  unfold parseDocument
  cases hrun : documentParser (text.length + 1) text 0 with
  | error stop =>
    rw [hrun] at hread
    cases stop <;> exact hread.elim
  | ok out =>
    rw [hrun] at hread
    obtain ⟨s', -, rfl, -⟩ := hread
    rfl

end Operations

section Texts

/-- A line ends with a line feed or with a carriage return. -/
def isLineTerminator (c : Char) : Bool := c == '\n' || c == '\r'

def nameA : Name := ⟨'a', [], rfl, List.all_eq_true.mp rfl⟩

/-- The query of one field. -/
def queryA : Document := ⟨[⟨.query, none, [], [.mk none nameA.string [] [] none]⟩]⟩

theorem isDocument_queryA :
    IsDocument queryA [.punct .braceOpen, .name nameA, .punct .braceClose] := by
  have hfield : IsField (.mk none nameA.string [] [] none) [.name nameA] :=
    .leaf (.plain nameA) .none .nil
  have hset : IsSelectionSet [.mk none nameA.string [] [] none]
      [.punct .braceOpen, .name nameA, .punct .braceClose] :=
    .mk (.cons hfield .nil) (List.cons_ne_nil _ _)
  exact ⟨.cons (IsOperation.short hset) .nil, List.cons_ne_nil _ _⟩

theorem laid_queryA (lineEnd : Char → Bool) {gap : List Char} (hgap : Gap lineEnd gap) :
    Laid lineEnd [.punct .braceOpen, .name nameA, .punct .braceClose] (gap ++ ['\x7b', 'a', '\x7d']) :=
  .next hgap (.next .nil (.next .nil (.stop .nil) nofun) (fun _ => by rintro _ ⟨⟩; rfl)) nofun

theorem parseDocument_faithful_comment :
    parseDocument ['#', '\n', '\x7b', 'a', '\x7d'] = .ok queryA :=
  parseDocument_faithful.1 queryA _ ⟨_, isDocument_queryA,
    laid_queryA isLineFeed (@Gap.comment isLineFeed [] '\n' [] nofun rfl .nil)⟩

/-- A comment that a carriage return ends swallows what stands behind it. -/
theorem parseDocument_carriageReturn :
    ∃ document text, Writes isLineTerminator document text ∧ parseDocument text ≠ .ok document := by
  refine ⟨queryA, ['#', '\r', '\x7b', 'a', '\x7d'], ⟨_, isDocument_queryA,
    laid_queryA isLineTerminator (@Gap.comment isLineTerminator [] '\r' [] nofun rfl .nil)⟩, ?_⟩
  have hrun : parseDocument ['#', '\r', '\x7b', 'a', '\x7d'] =
      .error (.error ⟨.syntaxError, "expected GraphQL operation at offset 5"⟩) := by rfl
  rw [hrun]
  exact nofun

end Texts

end Cynos.Gql
