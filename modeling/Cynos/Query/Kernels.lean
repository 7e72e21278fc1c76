import Mathlib.Data.List.Infix
import Cynos.Query.Predicate

/-! What the kernels of compiled predicates compute: comparisons, bounds, lists and
patterns as the evaluator of expressions has them. -/
namespace Cynos.Query

open Core

section Families

/-- The place of a family in the order of types. -/
def InListKernelFamily.rank : InListKernelFamily → Nat
  | .boolean => 1
  | .numeric => 2
  | .string => 5
  | .dateTime => 6
  | .bytes => 7
  | .jsonb => 8

theorem cmp_of_family_ne {a b : Scalar} (h : inListKernelFamily a ≠ inListKernelFamily b) :
    a.cmp b = compare (inListKernelFamily a).rank (inListKernelFamily b).rank := by
  cases a <;> cases b <;> first | rfl | exact absurd rfl h

theorem rank_inj {f g : InListKernelFamily} (h : f.rank = g.rank) : f = g := by
  cases f <;> cases g <;> first | rfl | cases h

theorem eq_of_family_ne {a b : Scalar} (h : inListKernelFamily a ≠ inListKernelFamily b) :
    a.eq b = false := by
  cases a <;> cases b <;> first | rfl | exact absurd rfl h

/-- An integer and a float that compare as equal, which no equality holds of. -/
def equalAcrossTypes (a b : Scalar) : Bool :=
  match a, b with
  | .int32 _, .float64 _ | .int64 _, .float64 _ | .float64 _, .int32 _ | .float64 _, .int64 _ =>
    a.cmp b == .eq
  | _, _ => false

theorem sqlEq_of_typeOrder {a b : Scalar} (h : a.typeOrder = b.typeOrder) :
    a.sqlEq b = a.eq b ∧ equalAcrossTypes a b = false := by
  cases a <;> cases b <;> first | exact ⟨rfl, rfl⟩ | cases h

/-- Values of one family compare as equal when an equality holds or the types differ. -/
theorem cmp_eq_iff {a b : Scalar} (h : inListKernelFamily a = inListKernelFamily b) :
    (a.cmp b == .eq) = (a.sqlEq b || equalAcrossTypes a b) := by
  by_cases htype : a.typeOrder = b.typeOrder
  · obtain ⟨hsql, hacross⟩ := sqlEq_of_typeOrder htype
    rw [hsql, hacross, Bool.or_false, Bool.eq_iff_iff, beq_iff_eq, Scalar.eq_iff_cmp htype]
  · cases a <;> cases b <;>
      first
      | exact absurd rfl htype
      | exact InListKernelFamily.noConfusion h
      | rfl
      | (rw [Bool.eq_iff_iff]
         simp [Scalar.cmp, Scalar.sqlEq, equalAcrossTypes])

theorem equalAcrossTypes_of_family_ne {a b : Scalar}
    (h : inListKernelFamily a ≠ inListKernelFamily b) : equalAcrossTypes a b = false := by
  cases a <;> cases b <;> first | rfl | exact absurd rfl h

end Families

section Comparisons

variable {op : BinaryOp} {comparison : ComparisonOp} {columnOnLeft : Bool} {a b : Scalar}

/-- A kernel compares values of the family of its literal. -/
theorem simplePredicateKernel_eval (h : normalizeComparisonOp op columnOnLeft = some comparison) :
    (simplePredicateKernel op (some b) columnOnLeft).eval (some a) =
      if inListKernelFamily a = inListKernelFamily b then
        some (evalComparisonOp comparison (a.cmp b))
      else none := by
  unfold simplePredicateKernel
  rw [h]
  cases a <;> cases b <;> rfl

theorem simplePredicateKernel_of_none (h : normalizeComparisonOp op columnOnLeft = none)
    (value literal : Value Scalar) :
    (simplePredicateKernel op literal columnOnLeft).eval value = none := by
  unfold simplePredicateKernel
  rw [h]
  rfl

/-- The two operands of a comparison, in the order in which it names them. -/
def operands (columnOnLeft : Bool) (value literal : Value Scalar) : Value Scalar × Value Scalar :=
  if columnOnLeft then (value, literal) else (literal, value)

theorem SimpleBinaryPredicate.holds_of_eval {predicate : SimpleBinaryPredicate}
    {value : Value Scalar} {result : Bool} (h : predicate.kernel.eval value = some result) :
    predicate.holds value = result := by
  rw [holds, h]

theorem SimpleBinaryPredicate.holds_of_eval_none {predicate : SimpleBinaryPredicate}
    {value : Value Scalar} (h : predicate.kernel.eval value = none) :
    predicate.holds value = evalBinaryOpBool predicate.op
      (operands predicate.columnOnLeft value predicate.literal).1
      (operands predicate.columnOnLeft value predicate.literal).2 := by
  simp only [holds, h, operands]
  cases predicate.columnOnLeft <;> rfl

/-- A comparison read from the other side. -/
theorem evalComparisonOp_normalized (h : normalizeComparisonOp op columnOnLeft = some comparison)
    (hop : op ≠ .eq ∧ op ≠ .ne) :
    evalComparisonOp comparison (a.cmp b) =
      evalBinaryOpBool op (operands columnOnLeft (some a) (some b)).1
        (operands columnOnLeft (some a) (some b)).2 := by
  have hswap : Value.cmp (some b) (some a) = (a.cmp b).swap := Scalar.cmp_swap a b
  cases columnOnLeft with
  | true =>
    cases op <;> cases h <;> first | rfl | exact absurd rfl hop.1 | exact absurd rfl hop.2
  | false =>
    cases op <;> cases h <;> first | exact absurd rfl hop.1 | exact absurd rfl hop.2 | skip
    all_goals
      simp only [operands, evalBinaryOpBool, Value.lt, Value.le, Value.gt, Value.ge, hswap,
        evalComparisonOp, Bool.false_eq_true, if_false]
      cases a.cmp b <;> rfl

/-- What a compiled comparison says of two values, which differs from their evaluation
only where an integer and a float compare as equal. -/
theorem holds_eq (op : BinaryOp) (columnOnLeft : Bool) (columnIndex : Nat) (a b : Scalar) :
    (SimpleBinaryPredicate.mk columnIndex op (some b) columnOnLeft
      (simplePredicateKernel op (some b) columnOnLeft)).holds (some a) =
        match op with
        | .eq => a.sqlEq b || equalAcrossTypes a b
        | .ne => !(a.sqlEq b || equalAcrossTypes a b)
        | op => Value.isTrue (evalBinaryOp op (operands columnOnLeft (some a) (some b)).1
            (operands columnOnLeft (some a) (some b)).2) := by
  cases hop : normalizeComparisonOp op columnOnLeft with
  | none =>
    refine (SimpleBinaryPredicate.holds_of_eval_none
      (simplePredicateKernel_of_none hop (some a) (some b))).trans ?_
    cases columnOnLeft <;> cases op <;> first | rfl | cases hop
  | some comparison =>
    have heval := simplePredicateKernel_eval (a := a) (b := b) hop
    by_cases hfamily : inListKernelFamily a = inListKernelFamily b
    · rw [if_pos hfamily] at heval
      refine (SimpleBinaryPredicate.holds_of_eval heval).trans ?_
      by_cases heq : op = .eq ∨ op = .ne
      · rcases heq with rfl | rfl
        · cases columnOnLeft <;> cases hop <;> exact cmp_eq_iff hfamily
        · cases columnOnLeft <;> cases hop <;> exact congrArg (!·) (cmp_eq_iff hfamily)
      · rw [not_or] at heq
        rw [evalComparisonOp_normalized hop heq]
        cases columnOnLeft <;> cases op <;>
          first | rfl | exact absurd rfl heq.1 | exact absurd rfl heq.2
    · rw [if_neg hfamily] at heval
      refine (SimpleBinaryPredicate.holds_of_eval_none heval).trans ?_
      rw [equalAcrossTypes_of_family_ne hfamily, Bool.or_false]
      have hcomm : Value.sqlEq (some b) (some a) = a.sqlEq b := Scalar.sqlEq_comm b a
      cases columnOnLeft <;> cases op <;>
        first | rfl | exact hcomm | exact congrArg (!·) hcomm

end Comparisons

section Bounds

/-- Bounds of one family compare values of that family; no other value lies between them. -/
theorem evalBetween_of_family {low high : Scalar}
    (h : inListKernelFamily low = inListKernelFamily high) (value : Value Scalar) :
    evalBetweenPredicateValue value (compileBetweenPredicateKernel (some low) (some high)) =
      match value with
      | some a => decide (inListKernelFamily a = inListKernelFamily low) &&
          (a.cmp low != .lt && a.cmp high != .gt)
      | none => false := by
  cases value with
  | none =>
    cases low <;> cases high <;> rfl
  | some a =>
    cases low <;> cases high <;>
      first | exact InListKernelFamily.noConfusion h | (cases a <;> rfl)

theorem between_of_family_ne {a low high : Scalar}
    (h : inListKernelFamily low = inListKernelFamily high)
    (ha : inListKernelFamily a ≠ inListKernelFamily low) :
    (a.cmp low != .lt && a.cmp high != .gt) = false := by
  have hrank : (inListKernelFamily a).rank ≠ (inListKernelFamily low).rank :=
    fun heq => ha (rank_inj heq)
  rw [cmp_of_family_ne ha, cmp_of_family_ne (h ▸ ha), ← h]
  rcases Nat.lt_or_gt_of_ne hrank with hlt | hgt
  · simp [Nat.compare_eq_lt.mpr hlt]
  · simp [Nat.compare_eq_gt.mpr hgt]

theorem compileBetween_of_family_ne {low high : Scalar}
    (h : inListKernelFamily low ≠ inListKernelFamily high) :
    compileBetweenPredicateKernel (some low) (some high) = .generic (some low) (some high) := by
  cases low <;> cases high <;> first | rfl | exact absurd rfl h

theorem compileBetween_of_null {low high : Value Scalar} (h : low = none ∨ high = none) :
    compileBetweenPredicateKernel low high = .generic low high := by
  rcases h with rfl | rfl
  · rfl
  · rcases low with _ | low
    · rfl
    · cases low <;> rfl

/-- The kernels of bounds compute the evaluation of BETWEEN. -/
theorem evalBetweenPredicateValue_eq (value low high : Value Scalar) :
    evalBetweenPredicateValue value (compileBetweenPredicateKernel low high) =
      (Value.ge value low && Value.le value high) := by
  rcases low with _ | low
  · exact congrArg (evalBetweenPredicateValue value) (compileBetween_of_null (.inl rfl))
  rcases high with _ | high
  · exact congrArg (evalBetweenPredicateValue value) (compileBetween_of_null (.inr rfl))
  by_cases h : inListKernelFamily low = inListKernelFamily high
  · rw [evalBetween_of_family h]
    rcases value with _ | a
    · rfl
    · by_cases ha : inListKernelFamily a = inListKernelFamily low
      · simp [ha, Value.ge, Value.le, Value.cmp]
      · have hfalse := between_of_family_ne h ha
        simp [Value.ge, Value.le, Value.cmp, hfalse]
  · rw [compileBetween_of_family_ne h]
    rfl

/-- NOT BETWEEN is the complement. -/
theorem notBetween_eq (value low high : Value Scalar) :
    (Value.lt value low || Value.gt value high) =
      !(Value.ge value low && Value.le value high) := by
  simp only [Value.lt, Value.gt, Value.ge, Value.le]
  cases Value.cmp value low <;> cases Value.cmp value high <;> rfl

end Bounds

section Lists

theorem any_picked {A B : Type} {pick : A → Option B} {p : B → Bool} {q : A → Bool}
    (h : ∀ a, (pick a).any p = q a) (as : List A) : (as.filterMap pick).any p = as.any q := by
  rw [List.any_filterMap]
  congr 1
  funext a
  rw [← h a]
  cases pick a <;> rfl

theorem contains_picked {A B : Type} [BEq B] {pick : A → Option B} {b : B} {q : A → Bool}
    (h : ∀ a, (pick a).any (b == ·) = q a) (as : List A) :
    (as.filterMap pick).contains b = as.any q := by
  rw [List.contains_eq_any_beq, any_picked h]

theorem any_isNull (literals : List (Value Scalar)) :
    literals.any Value.isNull = literals.any (Value.eq none) := by
  congr 1
  funext literal
  cases literal <;> rfl

theorem jsonb_beq (a b : JsonbValue) : (a == b) = (a.data == b.data) := by
  cases a
  cases b
  rw [Bool.eq_iff_iff]
  simp

/-- A kernel of one family finds the values that equal a literal of the list. -/
theorem evalInList_familyKernel {literals : List (Value Scalar)} {family : InListKernelFamily}
    (h : ∀ b, some b ∈ literals → inListKernelFamily b = family) (value : Value Scalar) :
    evalInListPredicateValue value (familyKernel literals family) =
      literals.any (Value.eq value) := by
  rcases value with _ | a
  · rw [← any_isNull]
    cases family <;> rfl
  by_cases ha : inListKernelFamily a = family
  · subst ha
    cases a with
    | float64 a => exact any_picked (Option.rec rfl fun b => by cases b <;> rfl) literals
    | jsonb a =>
      refine contains_picked (Option.rec rfl fun b => ?_) literals
      cases b <;> first | rfl | exact (jsonb_beq _ _).symm
    | _ a => exact contains_picked (Option.rec rfl fun b => by cases b <;> rfl) literals
  · have hnone : literals.any (Value.eq (some a)) = false := by
      rw [List.any_eq_false]
      rintro (_ | b) hb
      · exact Bool.false_ne_true
      · have hne : inListKernelFamily a ≠ inListKernelFamily b := fun heq => ha (heq.trans (h b hb))
        exact Bool.eq_false_iff.mp (eq_of_family_ne hne)
    rw [hnone]
    cases family <;> cases a <;> first | rfl | exact absurd rfl ha

theorem mem_families {literals : List (Value Scalar)} {b : Scalar} (h : some b ∈ literals) :
    inListKernelFamily b ∈
      literals.filterMap fun literal => literal.map inListKernelFamily :=
  List.mem_filterMap.mpr ⟨some b, h, rfl⟩

/-- The kernels of lists compute the evaluation of IN. -/
theorem evalInListPredicateValue_eq (value : Value Scalar) (literals : List (Value Scalar)) :
    evalInListPredicateValue value (compileInListPredicateKernel literals) =
      literals.any (Value.eq value) := by
  unfold compileInListPredicateKernel
  cases literals with
  | nil => rfl
  | cons literal rest =>
    rw [List.isEmpty_cons, if_neg Bool.false_ne_true]
    split
    · rename_i hnil
      have hnull : ∀ l ∈ literal :: rest, l = none := by
        rintro (_ | b) hl
        · rfl
        · exact absurd (mem_families hl) (by rw [hnil]; exact List.not_mem_nil)
      change Value.isNull value = (literal :: rest).any (Value.eq value)
      rcases value with _ | a
      · rw [hnull literal List.mem_cons_self]
        rfl
      · refine (List.any_eq_false.mpr fun l hl => ?_).symm
        rw [hnull l hl]
        exact Bool.false_ne_true
    · rename_i family families hfamilies
      split
      · rename_i hall
        refine evalInList_familyKernel (fun b hb => ?_) value
        have hmem := mem_families hb
        rw [hfamilies] at hmem
        rcases List.mem_cons.mp hmem with heq | hmem
        · exact heq
        · exact of_decide_eq_true (List.all_eq_true.mp hall _ hmem)
      · rfl

end Lists

section Patterns

theorem matchLikeRecursive_cons {c : Char} (hpercent : c ≠ '%') (hunderscore : c ≠ '_')
    (pattern value : List Char) :
    matchLikeRecursive (c :: pattern) value =
      match value with
      | [] => false
      | v :: value => v == c && matchLikeRecursive pattern value := by
  rw [matchLikeRecursive.eq_def]
  split
  · rename_i heq
    cases heq
  · rename_i heq
    exact absurd (List.cons.inj heq).1 hpercent
  · rename_i heq
    exact absurd (List.cons.inj heq).1 hunderscore
  · rename_i heq
    obtain ⟨rfl, rfl⟩ := List.cons.inj heq
    rfl

/-- Text without wildcards matches itself, and the rest of a pattern what follows. -/
theorem matchLikeRecursive_append {text : List Char} (h : ∀ c ∈ text, c ≠ '%' ∧ c ≠ '_')
    (pattern value : List Char) :
    matchLikeRecursive (text ++ pattern) value =
      (text.isPrefixOf value && matchLikeRecursive pattern (value.drop text.length)) := by
  induction text generalizing value with
  | nil => simp
  | cons c text ih =>
    have hc := h c List.mem_cons_self
    have htext : ∀ d ∈ text, d ≠ '%' ∧ d ≠ '_' := fun d hd => h d (List.mem_cons_of_mem c hd)
    rw [List.cons_append, matchLikeRecursive_cons hc.1 hc.2]
    cases value with
    | nil => rfl
    | cons v value =>
      simp only [ih htext, List.isPrefixOf_cons_cons, List.length_cons, List.drop_succ_cons,
        Bool.and_assoc]
      rw [Bool.beq_comm (a := v)]

theorem matchLikeRecursive_nil (value : List Char) :
    matchLikeRecursive [] value = value.isEmpty := rfl

theorem matchLikeRecursive_percent (pattern value : List Char) :
    matchLikeRecursive ('%' :: pattern) value =
      value.tails.any (matchLikeRecursive pattern) := rfl

theorem matchLikeRecursive_text {text : List Char} (h : ∀ c ∈ text, c ≠ '%' ∧ c ≠ '_')
    (value : List Char) : matchLikeRecursive text value = (value == text) := by
  have happend := matchLikeRecursive_append h [] value
  rw [List.append_nil] at happend
  rw [happend, matchLikeRecursive_nil, Bool.eq_iff_iff]
  simp only [Bool.and_eq_true, List.isPrefixOf_iff_prefix, List.isEmpty_iff, beq_iff_eq,
    List.drop_eq_nil_iff]
  constructor
  · rintro ⟨hstart, hle⟩
    exact (hstart.eq_of_length (Nat.le_antisymm hstart.length_le hle)).symm
  · rintro rfl
    exact ⟨List.prefix_rfl, le_rfl⟩

theorem matchLikeRecursive_all (value : List Char) : matchLikeRecursive ['%'] value = true := by
  rw [matchLikeRecursive_percent, List.any_eq_true]
  exact ⟨[], (List.mem_tails [] value).mpr List.nil_suffix, rfl⟩

theorem matchLikeRecursive_prefix {text : List Char} (h : ∀ c ∈ text, c ≠ '%' ∧ c ≠ '_')
    (value : List Char) :
    matchLikeRecursive (text ++ ['%']) value = text.isPrefixOf value := by
  rw [matchLikeRecursive_append h, matchLikeRecursive_all, Bool.and_true]

theorem matchLikeRecursive_suffix {text : List Char} (h : ∀ c ∈ text, c ≠ '%' ∧ c ≠ '_')
    (value : List Char) :
    matchLikeRecursive ('%' :: text) value = text.isSuffixOf value := by
  rw [matchLikeRecursive_percent, Bool.eq_iff_iff, List.any_eq_true, List.isSuffixOf_iff_suffix]
  simp [matchLikeRecursive_text h]

theorem matchLikeRecursive_infix {text : List Char} (h : ∀ c ∈ text, c ≠ '%' ∧ c ≠ '_')
    (value : List Char) :
    matchLikeRecursive ('%' :: (text ++ ['%'])) value = value.tails.any text.isPrefixOf := by
  rw [matchLikeRecursive_percent]
  congr 1
  funext rest
  exact matchLikeRecursive_prefix h rest

theorem text_of_count {chars text : List Char} (hunderscore : '_' ∉ chars)
    (hsub : ∀ c ∈ text, c ∈ chars) (hcount : text.count '%' = 0) :
    ∀ c ∈ text, c ≠ '%' ∧ c ≠ '_' := by
  intro c hc
  refine ⟨?_, fun heq => hunderscore (heq ▸ hsub c hc)⟩
  rintro rfl
  exact List.count_eq_zero.mp hcount hc

theorem eq_append_of_getLast? {chars : List Char} {c : Char} (h : chars.getLast? = some c) :
    chars = chars.dropLast ++ [c] := by
  obtain ⟨rest, rfl⟩ := List.getLast?_eq_some_iff.mp h
  rw [List.dropLast_concat]

/-- The kernels of patterns compute the evaluation of LIKE. -/
theorem evalLikePattern_eq (value pattern : String) :
    evalLikePattern value (compileLikePattern pattern) = matchLikePattern value pattern := by
  unfold compileLikePattern matchLikePattern
  generalize hchars : pattern.toList = chars
  dsimp only
  split
  · rw [evalLikePattern, matchLikePattern, hchars]
  · rename_i hunderscore
    split
    · rename_i hcount
      rw [evalLikePattern, matchLikeRecursive_text (text_of_count hunderscore (fun _ => id) hcount),
        ← hchars, Bool.eq_iff_iff, beq_iff_eq, beq_iff_eq, String.toList_inj]
    · split
      · rename_i hstart
        have hsplit := eq_append_of_getLast? hstart.2
        have hcount : chars.dropLast.count '%' = 0 := by
          have h := hstart.1
          rw [hsplit, List.count_append] at h
          simpa using h
        rw [evalLikePattern, String.toList_ofList, hsplit, List.dropLast_concat,
          matchLikeRecursive_prefix]
        rw [hsplit] at hunderscore
        exact text_of_count hunderscore (fun _ hc => List.mem_append_left _ hc) hcount
      · split
        · rename_i hsuffix
          cases chars with
          | nil => cases hsuffix.2
          | cons c text =>
            obtain rfl : c = '%' := Option.some.inj hsuffix.2
            have hcount : text.count '%' = 0 := by simpa using hsuffix.1
            rw [evalLikePattern, String.toList_ofList, List.tail_cons, matchLikeRecursive_suffix]
            exact text_of_count hunderscore (fun _ hc => List.mem_cons_of_mem _ hc) hcount
        · split
          · rename_i hinfix
            obtain ⟨hcount, hhead, hlast⟩ := hinfix
            cases chars with
            | nil => cases hhead
            | cons c rest =>
              obtain rfl : c = '%' := Option.some.inj hhead
              have hrest : rest ≠ [] := by
                rintro rfl
                simp at hcount
              rw [List.getLast?_cons_of_ne_nil hrest] at hlast
              have hsplit := eq_append_of_getLast? hlast
              have hmiddle : rest.dropLast.count '%' = 0 := by
                rw [hsplit] at hcount
                simpa using hcount
              rw [evalLikePattern, String.toList_ofList, List.tail_cons, hsplit,
                List.dropLast_concat, matchLikeRecursive_infix]
              rw [hsplit] at hunderscore
              exact text_of_count hunderscore
                (fun _ hc => List.mem_cons_of_mem _ (List.mem_append_left _ hc)) hmiddle
          · rw [evalLikePattern, matchLikePattern, hchars]

end Patterns

end Cynos.Query
