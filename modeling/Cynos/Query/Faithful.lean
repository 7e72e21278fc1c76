import Cynos.Query.Kernels

/-! Compiled predicates against evaluated ones. Under a NOT the whole state of a compiled
predicate has to be that of the value, elsewhere only its truth. -/
namespace Cynos.Query

open Core

section States

def PredicateValueState.Agrees (underNot : Bool) (state : PredicateValueState)
    (value : Value Scalar) : Prop :=
  if underNot then state = predicateValueState value else state.isTrue = Value.isTrue value

theorem isTrue_predicateValueState (value : Value Scalar) :
    (predicateValueState value).isTrue = Value.isTrue value := by
  rcases value with _ | a
  · rfl
  · cases a with
    | boolean b => cases b <;> rfl
    | _ => rfl

theorem PredicateValueState.Agrees.of_eq {state : PredicateValueState} {value : Value Scalar}
    (h : state = predicateValueState value) (underNot : Bool) : state.Agrees underNot value := by
  cases underNot with
  | true => exact h
  | false => exact h ▸ isTrue_predicateValueState value

theorem PredicateValueState.Agrees.isTrue {underNot : Bool} {state : PredicateValueState}
    {value : Value Scalar} (h : state.Agrees underNot value) :
    state.isTrue = Value.isTrue value := by
  cases underNot with
  | true => exact (congrArg PredicateValueState.isTrue h).trans (isTrue_predicateValueState value)
  | false => exact h

theorem predicateValueState_some_ne (a : Scalar) : predicateValueState (some a) ≠ .null := by
  cases a <;> exact nofun

/-- Conjunction of values is conjunction of their states. -/
theorem predicateValueState_and (a b : Value Scalar) :
    predicateValueState (evalBinaryOp .and a b) =
      combineAnd (predicateValueState a) (predicateValueState b) := by
  rcases a with _ | a <;> rcases b with _ | b
  · rfl
  · cases b with
    | boolean b => cases b <;> rfl
    | _ => rfl
  · cases a with
    | boolean a => cases a <;> rfl
    | _ => rfl
  · have hne : ¬ (predicateValueState (some a) = .null ∨ predicateValueState (some b) = .null) :=
      not_or.mpr ⟨predicateValueState_some_ne a, predicateValueState_some_ne b⟩
    rw [combineAnd, if_neg hne]
    exact congrArg PredicateValueState.boolean (congrArg₂ and
      (isTrue_predicateValueState (some a)).symm (isTrue_predicateValueState (some b)).symm)

theorem predicateValueState_or (a b : Value Scalar) :
    predicateValueState (evalBinaryOp .or a b) =
      combineOr (predicateValueState a) (predicateValueState b) := by
  rcases a with _ | a <;> rcases b with _ | b
  · rfl
  · cases b with
    | boolean b => cases b <;> rfl
    | _ => rfl
  · cases a with
    | boolean a => cases a <;> rfl
    | _ => rfl
  · have hne : ¬ (predicateValueState (some a) = .null ∨ predicateValueState (some b) = .null) :=
      not_or.mpr ⟨predicateValueState_some_ne a, predicateValueState_some_ne b⟩
    rw [combineOr, if_neg hne]
    exact congrArg PredicateValueState.boolean (congrArg₂ or
      (isTrue_predicateValueState (some a)).symm (isTrue_predicateValueState (some b)).symm)

theorem predicateValueState_not (a : Value Scalar) :
    predicateValueState (evalUnaryOp .not a) = (predicateValueState a).not := by
  rcases a with _ | a
  · rfl
  · cases a <;> rfl

@[simp] theorem combineAnd_isTrue (a b : PredicateValueState) :
    (combineAnd a b).isTrue = (a.isTrue && b.isTrue) := by
  rcases a with _ | a | _ <;> rcases b with _ | b | _ <;> (try cases a) <;> (try cases b) <;> rfl

@[simp] theorem combineOr_isTrue (a b : PredicateValueState) :
    (combineOr a b).isTrue = (a.isTrue || b.isTrue) := by
  rcases a with _ | a | _ <;> rcases b with _ | b | _ <;> (try cases a) <;> (try cases b) <;> rfl

theorem combineAnd_ne_other (a b : PredicateValueState) : combineAnd a b ≠ .other := by
  unfold combineAnd
  split
  · split <;> exact nofun
  · exact nofun

theorem combineOr_ne_other (a b : PredicateValueState) : combineOr a b ≠ .other := by
  unfold combineOr
  split
  · split <;> exact nofun
  · exact nofun

theorem combineAnd_true {a : PredicateValueState} (h : a ≠ .other) :
    combineAnd (.boolean true) a = a := by
  rcases a with _ | a | _
  · rfl
  · cases a <;> rfl
  · exact absurd rfl h

theorem combineOr_false {a : PredicateValueState} (h : a ≠ .other) :
    combineOr (.boolean false) a = a := by
  rcases a with _ | a | _
  · rfl
  · cases a <;> rfl
  · exact absurd rfl h

/-- A conjunction associates where every state is a Boolean or `Null`. -/
theorem combineAnd_assoc {s a b : PredicateValueState} (hs : s ≠ .other) (ha : a ≠ .other)
    (hb : b ≠ .other) : combineAnd (combineAnd s a) b = combineAnd s (combineAnd a b) := by
  rcases s with _ | s | _
  · rcases a with _ | a | _ <;> rcases b with _ | b | _ <;> (try cases a) <;> (try cases b) <;>
      first | rfl | exact absurd rfl ha | exact absurd rfl hb
  · rcases a with _ | a | _ <;> rcases b with _ | b | _ <;> (try cases a) <;> (try cases b) <;>
      cases s <;> first | rfl | exact absurd rfl ha
  · exact absurd rfl hs

theorem combineOr_assoc {s : PredicateValueState} (a b : PredicateValueState)
    (hs : s ≠ .other) : combineOr (combineOr s a) b = combineOr s (combineOr a b) := by
  rcases s with _ | s | _
  · rcases a with _ | a | _ <;> rcases b with _ | b | _ <;> (try cases a) <;> (try cases b) <;> rfl
  · rcases a with _ | a | _ <;> rcases b with _ | b | _ <;> (try cases a) <;> (try cases b) <;>
      cases s <;> rfl
  · exact absurd rfl hs

end States

section Folds

variable (functions : Functions) (get : Nat → Option (Value Scalar))

theorem foldl_combineAnd_false (states : List PredicateValueState) :
    states.foldl combineAnd (.boolean false) = .boolean false := by
  induction states with
  | nil => rfl
  | cons state states ih =>
    have hfalse : combineAnd (.boolean false) state = .boolean false := by
      rcases state with _ | b | _ <;> rfl
    rw [List.foldl_cons, hfalse, ih]

theorem foldl_combineOr_true (states : List PredicateValueState) :
    states.foldl combineOr (.boolean true) = .boolean true := by
  induction states with
  | nil => rfl
  | cons state states ih =>
    have htrue : combineOr (.boolean true) state = .boolean true := by
      rcases state with _ | b | _ <;> rfl
    rw [List.foldl_cons, htrue, ih]

/-- Stopping at a false state changes nothing. -/
theorem evalAnd_eq_foldl (predicates : List CompiledRowPredicate) (state : PredicateValueState) :
    evalAnd functions get predicates state =
      (predicates.map (evalCompiledPredicateAccessor functions get)).foldl combineAnd state := by
  induction predicates generalizing state with
  | nil => rw [evalAnd]; rfl
  | cons predicate predicates ih =>
    rw [evalAnd, List.map_cons, List.foldl_cons]
    split
    · rename_i hfalse
      rw [of_decide_eq_true hfalse, foldl_combineAnd_false]
    · exact ih _

theorem evalOr_eq_foldl (predicates : List CompiledRowPredicate) (state : PredicateValueState) :
    evalOr functions get predicates state =
      (predicates.map (evalCompiledPredicateAccessor functions get)).foldl combineOr state := by
  induction predicates generalizing state with
  | nil => rw [evalOr]; rfl
  | cons predicate predicates ih =>
    rw [evalOr, List.map_cons, List.foldl_cons]
    split
    · rename_i htrue
      rw [of_decide_eq_true htrue, foldl_combineOr_true]
    · exact ih _

theorem foldl_combineAnd_isTrue (states : List PredicateValueState) (s : PredicateValueState) :
    (states.foldl combineAnd s).isTrue =
      (s.isTrue && states.all PredicateValueState.isTrue) := by
  induction states generalizing s with
  | nil => simp
  | cons state states ih => rw [List.foldl_cons, ih, combineAnd_isTrue, List.all_cons, Bool.and_assoc]

theorem foldl_combineOr_isTrue (states : List PredicateValueState) (s : PredicateValueState) :
    (states.foldl combineOr s).isTrue = (s.isTrue || states.any PredicateValueState.isTrue) := by
  induction states generalizing s with
  | nil => simp
  | cons state states ih => rw [List.foldl_cons, ih, combineOr_isTrue, List.any_cons, Bool.or_assoc]

/-- The states of the operands of a conjunction against its value. -/
def AndAgrees (underNot : Bool) (states : List PredicateValueState) (value : Value Scalar) : Prop :=
  if underNot then ∀ s, s ≠ .other →
    states.foldl combineAnd s = combineAnd s (predicateValueState value)
  else states.all PredicateValueState.isTrue = Value.isTrue value

def OrAgrees (underNot : Bool) (states : List PredicateValueState) (value : Value Scalar) : Prop :=
  if underNot then ∀ s, s ≠ .other →
    states.foldl combineOr s = combineOr s (predicateValueState value)
  else states.any PredicateValueState.isTrue = Value.isTrue value

variable {underNot : Bool} {state : PredicateValueState} {value left right : Value Scalar}
  {states leftStates rightStates : List PredicateValueState}

theorem AndAgrees.single (h : state.Agrees underNot value) : AndAgrees underNot [state] value := by
  cases underNot with
  | true =>
    intro s _
    rw [List.foldl_cons, List.foldl_nil, show state = predicateValueState value from h]
  | false =>
    change (state.isTrue && true) = _
    rw [Bool.and_true]
    exact h

theorem OrAgrees.single (h : state.Agrees underNot value) : OrAgrees underNot [state] value := by
  cases underNot with
  | true =>
    intro s _
    rw [List.foldl_cons, List.foldl_nil, show state = predicateValueState value from h]
  | false =>
    change (state.isTrue || false) = _
    rw [Bool.or_false]
    exact h

theorem AndAgrees.append (hleft : AndAgrees underNot leftStates left)
    (hright : AndAgrees underNot rightStates right)
    (hother : underNot = true →
      predicateValueState left ≠ .other ∧ predicateValueState right ≠ .other) :
    AndAgrees underNot (leftStates ++ rightStates) (evalBinaryOp .and left right) := by
  cases underNot with
  | true =>
    intro s hs
    obtain ⟨hl, hr⟩ := hother rfl
    rw [List.foldl_append, hleft s hs, hright _ (combineAnd_ne_other _ _),
      combineAnd_assoc hs hl hr, predicateValueState_and]
  | false =>
    have hl : leftStates.all PredicateValueState.isTrue = Value.isTrue left := hleft
    have hr : rightStates.all PredicateValueState.isTrue = Value.isTrue right := hright
    change (leftStates ++ rightStates).all PredicateValueState.isTrue = _
    rw [List.all_append, hl, hr, ← isTrue_predicateValueState (evalBinaryOp .and left right),
      predicateValueState_and, combineAnd_isTrue, isTrue_predicateValueState,
      isTrue_predicateValueState]

theorem OrAgrees.append (hleft : OrAgrees underNot leftStates left)
    (hright : OrAgrees underNot rightStates right) :
    OrAgrees underNot (leftStates ++ rightStates) (evalBinaryOp .or left right) := by
  cases underNot with
  | true =>
    intro s hs
    rw [List.foldl_append, hleft s hs, hright _ (combineOr_ne_other _ _),
      combineOr_assoc _ _ hs, predicateValueState_or]
  | false =>
    have hl : leftStates.any PredicateValueState.isTrue = Value.isTrue left := hleft
    have hr : rightStates.any PredicateValueState.isTrue = Value.isTrue right := hright
    change (leftStates ++ rightStates).any PredicateValueState.isTrue = _
    rw [List.any_append, hl, hr, ← isTrue_predicateValueState (evalBinaryOp .or left right),
      predicateValueState_or, combineOr_isTrue, isTrue_predicateValueState,
      isTrue_predicateValueState]

/-- A conjunction as a whole. -/
theorem AndAgrees.agrees (h : AndAgrees underNot states (evalBinaryOp .and left right)) :
    (states.foldl combineAnd (.boolean true)).Agrees underNot (evalBinaryOp .and left right) := by
  cases underNot with
  | true =>
    refine (h (.boolean true) nofun).trans ?_
    rw [predicateValueState_and, combineAnd_true (combineAnd_ne_other _ _)]
  | false =>
    change (states.foldl combineAnd (.boolean true)).isTrue = _
    rw [foldl_combineAnd_isTrue]
    exact h

theorem OrAgrees.agrees (h : OrAgrees underNot states (evalBinaryOp .or left right)) :
    (states.foldl combineOr (.boolean false)).Agrees underNot (evalBinaryOp .or left right) := by
  cases underNot with
  | true =>
    refine (h (.boolean false) nofun).trans ?_
    rw [predicateValueState_or, combineOr_false (combineOr_ne_other _ _)]
  | false =>
    change (states.foldl combineOr (.boolean false)).isTrue = _
    rw [foldl_combineOr_isTrue]
    exact h

end Folds

section Comparisons

variable (functions : Functions) (get : Nat → Option (Value Scalar))

/-- The value of a column. -/
def columnValue (columnIndex : Nat) : Value Scalar := (get columnIndex).getD none

theorem simpleBinaryPredicate_kernel {predicate : Expr} {simple : SimpleBinaryPredicate}
    (h : simpleBinaryPredicate predicate = some simple) :
    simple.kernel = simplePredicateKernel simple.op simple.literal simple.columnOnLeft := by
  unfold simpleBinaryPredicate at h
  split at h
  · obtain rfl := Option.some.inj h
    rfl
  · obtain rfl := Option.some.inj h
    rfl
  · cases h

theorem simpleBinaryPredicate_binaryOp {predicate : Expr} {simple : SimpleBinaryPredicate}
    (h : simpleBinaryPredicate predicate = some simple) :
    ∃ left right, predicate = .binaryOp left simple.op right := by
  unfold simpleBinaryPredicate at h
  split at h
  · obtain rfl := Option.some.inj h
    exact ⟨_, _, rfl⟩
  · obtain rfl := Option.some.inj h
    exact ⟨_, _, rfl⟩
  · cases h

/-- A comparison of a column with a literal, read off its two sides. -/
theorem simpleBinaryPredicate_eq {predicate : Expr} {simple : SimpleBinaryPredicate}
    (h : simpleBinaryPredicate predicate = some simple) :
    evalAccessorExpr functions get none predicate =
      evalBinaryOp simple.op
        (operands simple.columnOnLeft (columnValue get simple.columnIndex) simple.literal).1
        (operands simple.columnOnLeft (columnValue get simple.columnIndex) simple.literal).2 := by
  unfold simpleBinaryPredicate at h
  split at h
  · obtain rfl := Option.some.inj h
    simp [evalAccessorExpr, operands, evalColumn, columnValue]
  · obtain rfl := Option.some.inj h
    simp [evalAccessorExpr, operands, evalColumn, columnValue]
  · cases h

/-- Where a compiled comparison says what its evaluation says. -/
def ComparisonFaithful (underNot : Bool) (op : BinaryOp) : Value Scalar → Value Scalar → Prop
  | some a, some b =>
    match op with
    | .eq | .ne => equalAcrossTypes a b = false
    | .lt | .le | .gt | .ge | .and | .or => True
    | _ => underNot = false
  | _, _ => True

theorem agrees_boolean (underNot a b : Bool) :
    (PredicateValueState.boolean a).Agrees underNot (Value.boolean b) ↔ a = b := by
  cases underNot with
  | true =>
    change PredicateValueState.boolean a = .boolean b ↔ _
    rw [PredicateValueState.boolean.injEq]
  | false =>
    change (PredicateValueState.boolean a).isTrue = b ↔ _
    cases a <;> rfl

def isBoolean : Value Scalar → Bool
  | some (.boolean _) => true
  | _ => false

theorem predicateValueState_ne_boolean {value : Value Scalar} (h : isBoolean value = false)
    (b : Bool) : predicateValueState value ≠ .boolean b := by
  rcases value with _ | a
  · exact nofun
  · cases a with
    | boolean a => cases h
    | _ => exact nofun

theorem isTrue_of_not_boolean {value : Value Scalar} (h : isBoolean value = false) :
    Value.isTrue value = false := by
  rcases value with _ | a
  · rfl
  · cases a with
    | boolean a => cases h
    | _ => rfl

theorem agrees_of_not_boolean (underNot : Bool) {value : Value Scalar}
    (h : isBoolean value = false) :
    (PredicateValueState.boolean (Value.isTrue value)).Agrees underNot value ↔
      underNot = false := by
  cases underNot with
  | true =>
    refine iff_of_false (fun hstate => ?_) nofun
    exact predicateValueState_ne_boolean h _ (Eq.symm hstate)
  | false =>
    refine iff_of_true ?_ rfl
    rw [isTrue_of_not_boolean h]
    exact (isTrue_of_not_boolean h).symm

theorem isBoolean_evalArithmetic (left right : Value Scalar) (op : Float → Float → Float) :
    isBoolean (evalArithmetic left right op) = false := by
  rcases left with _ | l
  · rcases right with _ | r
    · rfl
    · cases r <;> rfl
  · rcases right with _ | r
    · cases l <;> rfl
    · cases l <;> cases r <;> rfl

theorem isBoolean_ite {p : Prop} [Decidable p] {a b : Value Scalar} (ha : isBoolean a = false)
    (hb : isBoolean b = false) : isBoolean (if p then a else b) = false := by
  by_cases h : p
  · rw [if_pos h]
    exact ha
  · rw [if_neg h]
    exact hb

theorem isBoolean_evalDivision (left right : Value Scalar) :
    isBoolean (evalDivision left right) = false := by
  have hdivide := isBoolean_evalArithmetic left right fun a b => if b != 0 then a / b else 0
  rcases right with _ | r
  · exact hdivide
  · cases r with
    | int32 r => exact isBoolean_ite rfl hdivide
    | int64 r => exact isBoolean_ite rfl hdivide
    | float64 r => exact isBoolean_ite rfl hdivide
    | _ => exact hdivide

/-- What is no comparison yields no Boolean. -/
theorem isBoolean_evalBinaryOp {op : BinaryOp} (hop : op ≠ .and ∧ op ≠ .or)
    (h : normalizeComparisonOp op true = none) (a b : Scalar) :
    isBoolean (evalBinaryOp op (some a) (some b)) = false := by
  cases op with
  | and => exact absurd rfl hop.1
  | or => exact absurd rfl hop.2
  | add => exact isBoolean_evalArithmetic _ _ _
  | sub => exact isBoolean_evalArithmetic _ _ _
  | mul => exact isBoolean_evalArithmetic _ _ _
  | div => exact isBoolean_evalDivision _ _
  | mod =>
    cases a <;> cases b
    case int32.int32 a b =>
      change isBoolean (if b ≠ 0 then (some (.int32 (a % b)) : Value Scalar) else none) = false
      exact isBoolean_ite rfl rfl
    case int64.int64 a b =>
      change isBoolean (if b ≠ 0 then (some (.int64 (a % b)) : Value Scalar) else none) = false
      exact isBoolean_ite rfl rfl
    all_goals rfl
  | like => rfl
  | «in» => rfl
  | between => rfl
  | _ => cases h

theorem sqlEq_of_equalAcrossTypes {a b : Scalar} (h : equalAcrossTypes a b = true) :
    a.sqlEq b = false := by
  cases a <;> cases b <;> first | rfl | exact absurd h Bool.false_ne_true

theorem comparison_agrees_iff (underNot : Bool) {predicate : Expr} {simple : SimpleBinaryPredicate}
    (h : simpleBinaryPredicate predicate = some simple)
    (hop : simple.op ≠ .and ∧ simple.op ≠ .or) :
    (evalCompiledRowComparisonValue (columnValue get simple.columnIndex) simple).Agrees underNot
        (evalAccessorExpr functions get none predicate) ↔
      ComparisonFaithful underNot simple.op (columnValue get simple.columnIndex)
        simple.literal := by
  have hkernel := simpleBinaryPredicate_kernel h
  rw [simpleBinaryPredicate_eq functions get h]
  obtain ⟨columnIndex, op, literal, columnOnLeft, kernel⟩ := simple
  dsimp only at hkernel hop ⊢
  subst hkernel
  generalize columnValue get columnIndex = value
  rcases value with _ | a
  · refine iff_of_true (.of_eq ?_ underNot) trivial
    rw [evalBinaryOp_null hop]
    · rfl
    · cases columnOnLeft
      · exact .inr rfl
      · exact .inl rfl
  rcases literal with _ | b
  · refine iff_of_true (.of_eq ?_ underNot) trivial
    rw [evalBinaryOp_null hop]
    · rfl
    · cases columnOnLeft
      · exact .inl rfl
      · exact .inr rfl
  have hcomm : b.sqlEq a = a.sqlEq b := Scalar.sqlEq_comm b a
  have hacross : (a.sqlEq b || equalAcrossTypes a b) = a.sqlEq b ↔ equalAcrossTypes a b = false := by
    cases hmixed : equalAcrossTypes a b with
    | false => simp
    | true => simp [sqlEq_of_equalAcrossTypes hmixed]
  change (PredicateValueState.boolean (SimpleBinaryPredicate.holds _ (some a))).Agrees _ _ ↔ _
  rw [holds_eq]
  cases op with
  | and => exact absurd rfl hop.1
  | or => exact absurd rfl hop.2
  | eq =>
    refine Iff.trans ?_ hacross
    cases columnOnLeft with
    | true => exact agrees_boolean _ _ _
    | false => exact hcomm ▸ agrees_boolean _ _ (b.sqlEq a)
  | ne =>
    refine Iff.trans ?_ hacross
    rw [← Bool.not_inj_iff]
    cases columnOnLeft with
    | true => exact agrees_boolean _ _ _
    | false => exact hcomm ▸ agrees_boolean _ _ (!b.sqlEq a)
  | lt => cases columnOnLeft <;> exact iff_of_true ((agrees_boolean _ _ _).mpr rfl) trivial
  | le => cases columnOnLeft <;> exact iff_of_true ((agrees_boolean _ _ _).mpr rfl) trivial
  | gt => cases columnOnLeft <;> exact iff_of_true ((agrees_boolean _ _ _).mpr rfl) trivial
  | ge => cases columnOnLeft <;> exact iff_of_true ((agrees_boolean _ _ _).mpr rfl) trivial
  | _ =>
    refine agrees_of_not_boolean underNot ?_
    cases columnOnLeft <;> exact isBoolean_evalBinaryOp hop rfl _ _

end Comparisons

section Chains

/-- An equality of a column with a literal that is not `Null`. -/
def EqualityTerm (columnIndex : Nat) (term : Expr) : Prop :=
  ∃ b columnOnLeft, simpleBinaryPredicate term = some ⟨columnIndex, .eq, some b, columnOnLeft,
    simplePredicateKernel .eq (some b) columnOnLeft⟩

/-- The literals that a chain compares its column with. -/
def chainLiterals (terms : List Expr) : List (Value Scalar) :=
  terms.filterMap fun term => (simpleBinaryPredicate term).map SimpleBinaryPredicate.literal

theorem normalizeComparisonOp_eq {op : BinaryOp} {columnOnLeft : Bool}
    (h : normalizeComparisonOp op columnOnLeft = some .eq) : op = .eq := by
  cases columnOnLeft <;> cases op <;> first | rfl | cases h

theorem orEqualityTerm_eq {found found' : Option Nat × List (Value Scalar)} {term : Expr}
    (h : orEqualityTerm found term = some found') :
    ∃ columnIndex, EqualityTerm columnIndex term ∧ found'.1 = some columnIndex ∧
      (∀ i, found.1 = some i → i = columnIndex) ∧
      ∀ value, found'.2.any (Value.eq value) =
        (found.2.any (Value.eq value) || (chainLiterals [term]).any (Value.eq value)) := by
  rw [orEqualityTerm, Option.bind_eq_bind, Option.bind_eq_some_iff] at h
  obtain ⟨simple, hsimple, h⟩ := h
  rw [Option.bind_eq_bind, Option.bind_eq_some_iff] at h
  obtain ⟨comparison, hcomparison, h⟩ := h
  have hkernel := simpleBinaryPredicate_kernel hsimple
  split at h
  · cases h
  rename_i hop
  rw [not_not] at hop
  split at h
  · cases h
  rename_i hliteral
  split at h
  · cases h
  rename_i hcolumn
  obtain rfl := Option.some.inj h
  obtain ⟨columnIndex, op, literal, columnOnLeft, kernel⟩ := simple
  dsimp only at hkernel hcomparison hliteral hcolumn ⊢
  obtain rfl := normalizeComparisonOp_eq (hop ▸ hcomparison)
  rcases literal with _ | b
  · exact absurd rfl hliteral
  refine ⟨columnIndex, ⟨b, columnOnLeft, hkernel ▸ hsimple⟩, rfl, ?_, ?_⟩
  · intro i hi
    rw [hi] at hcolumn
    simpa using hcolumn
  · intro value
    have hterm : (chainLiterals [term]).any (Value.eq value) = Value.eq value (some b) := by
      rw [chainLiterals, List.filterMap_cons, hsimple]
      exact Bool.or_false _
    rw [hterm]
    split
    · rename_i hfound
      -- a literal equal to one that is in the list already adds nothing
      obtain ⟨l, hl, heq⟩ := List.any_eq_true.mp hfound
      rw [Bool.eq_iff_iff, Bool.or_eq_true]
      refine ⟨.inl, ?_⟩
      rintro (hany | hb)
      · exact hany
      · exact List.any_eq_true.mpr ⟨l, hl, ((Value.eq_comm value l).trans
          ((Value.eq_congr heq value).trans (Value.eq_comm _ value))).trans hb⟩
    · rw [List.any_append]
      exact congrArg (_ || ·) (Bool.or_false _)

theorem foldlM_orEqualityTerm {terms : List Expr} {found found' : Option Nat × List (Value Scalar)}
    (h : terms.foldlM orEqualityTerm found = some found') :
    (∀ i, found.1 = some i → found'.1 = some i) ∧
      (∀ term ∈ terms, ∃ columnIndex, found'.1 = some columnIndex ∧
        EqualityTerm columnIndex term) ∧
      ∀ value, found'.2.any (Value.eq value) =
        (found.2.any (Value.eq value) || (chainLiterals terms).any (Value.eq value)) := by
  induction terms generalizing found with
  | nil =>
    obtain rfl := Option.some.inj h
    exact ⟨fun _ => id, nofun, fun value => (Bool.or_false _).symm⟩
  | cons term terms ih =>
    rw [List.foldlM_cons, Option.bind_eq_bind, Option.bind_eq_some_iff] at h
    obtain ⟨next, hterm, h⟩ := h
    obtain ⟨columnIndex, hequality, hnext, hcolumn, hliterals⟩ := orEqualityTerm_eq hterm
    obtain ⟨hkept, hterms, hrest⟩ := ih h
    refine ⟨?_, ?_, ?_⟩
    · intro i hi
      obtain rfl := hcolumn i hi
      exact hkept i hnext
    · intro t ht
      rcases List.mem_cons.mp ht with rfl | ht
      · exact ⟨columnIndex, hkept columnIndex hnext, hequality⟩
      · exact hterms t ht
    · intro value
      have hcons : chainLiterals (term :: terms) = chainLiterals [term] ++ chainLiterals terms := by
        rw [chainLiterals, chainLiterals, chainLiterals, ← List.filterMap_append,
          List.singleton_append]
      rw [hrest, hliterals, hcons, List.any_append, Bool.or_assoc]

/-- A compiled chain: equalities of one column, and the list of their literals. -/
theorem compileOrEqualityChain_eq {predicate : Expr} {compiled : CompiledRowPredicate}
    (h : compileOrEqualityChain predicate = some compiled) :
    ∃ columnIndex literals,
      compiled = .inList columnIndex (compileInListPredicateKernel literals) false ∧
      2 ≤ (collectLogicalTerms .or predicate).length ∧
      (∀ term ∈ collectLogicalTerms .or predicate, EqualityTerm columnIndex term) ∧
      ∀ value, literals.any (Value.eq value) =
        (chainLiterals (collectLogicalTerms .or predicate)).any (Value.eq value) := by
  rw [compileOrEqualityChain] at h
  dsimp only at h
  split at h
  · cases h
  rename_i hlength
  rw [Option.bind_eq_bind, Option.bind_eq_some_iff] at h
  obtain ⟨⟨column, literals⟩, hfold, h⟩ := h
  obtain ⟨-, hterms, hliterals⟩ := foldlM_orEqualityTerm hfold
  rw [Option.bind_eq_bind, Option.bind_eq_some_iff] at h
  obtain ⟨columnIndex, hcolumn, h⟩ := h
  obtain rfl : column = some columnIndex := hcolumn
  refine ⟨columnIndex, literals, (Option.some.inj h).symm, Nat.le_of_not_lt hlength, ?_, ?_⟩
  · intro term ht
    obtain ⟨i, hi, hequality⟩ := hterms term ht
    obtain rfl := Option.some.inj hi
    exact hequality
  · intro value
    rw [hliterals]
    rfl

variable (functions : Functions) (get : Nat → Option (Value Scalar))

theorem EqualityTerm.value {columnIndex : Nat} {term : Expr} (h : EqualityTerm columnIndex term) :
    evalAccessorExpr functions get none term =
      match columnValue get columnIndex with
      | none => none
      | some a => Value.boolean ((chainLiterals [term]).any (Value.sqlEq (some a))) := by
  obtain ⟨b, columnOnLeft, hsimple⟩ := h
  rw [simpleBinaryPredicate_eq functions get hsimple]
  dsimp only
  generalize columnValue get columnIndex = value
  have hterm : chainLiterals [term] = [(some b : Value Scalar)] := by
    rw [chainLiterals, List.filterMap_cons, hsimple]
    rfl
  rw [hterm]
  rcases value with _ | a
  · cases columnOnLeft <;> rfl
  · have hcomm : b.sqlEq a = a.sqlEq b := Scalar.sqlEq_comm b a
    cases columnOnLeft with
    | true => exact congrArg Value.boolean (Bool.or_false _).symm
    | false => exact congrArg Value.boolean (hcomm.trans (Bool.or_false _).symm)

theorem chainLiterals_append (terms terms' : List Expr) :
    chainLiterals (terms ++ terms') = chainLiterals terms ++ chainLiterals terms' :=
  List.filterMap_append

theorem collectLogicalTerms_or (left right : Expr) :
    collectLogicalTerms .or (.binaryOp left .or right) =
      collectLogicalTerms .or left ++ collectLogicalTerms .or right := by
  rw [collectLogicalTerms, if_pos rfl]

/-- The value of a chain of equalities: `Null` for a `Null` column, else whether the
column equals one of the literals. -/
theorem chain_value {columnIndex : Nat} (predicate : Expr)
    (h : ∀ term ∈ collectLogicalTerms .or predicate, EqualityTerm columnIndex term) :
    evalAccessorExpr functions get none predicate =
      match columnValue get columnIndex with
      | none => none
      | some a => Value.boolean
          ((chainLiterals (collectLogicalTerms .or predicate)).any (Value.sqlEq (some a))) := by
  match predicate with
  | .binaryOp left op right =>
    by_cases hop : op = .or
    · subst hop
      rw [collectLogicalTerms_or] at h ⊢
      have hleft := chain_value left fun term ht => h term (List.mem_append_left _ ht)
      have hright := chain_value right fun term ht => h term (List.mem_append_right _ ht)
      rw [evalAccessorExpr, hleft, hright, chainLiterals_append]
      rcases columnValue get columnIndex with _ | a
      · rfl
      · exact congrArg Value.boolean (by rw [List.any_append]; rfl)
    · have hsingle : collectLogicalTerms .or (.binaryOp left op right) =
          [.binaryOp left op right] := by rw [collectLogicalTerms, if_neg hop]
      rw [hsingle] at h ⊢
      exact (h _ List.mem_cons_self).value functions get
  | .column _ | .literal _ | .unaryOp _ _ | .function _ _ | .aggregate _ _ _ | .between _ _ _
  | .notBetween _ _ _ | .in _ _ | .notIn _ _ | .like _ _ | .notLike _ _ | .match _ _
  | .notMatch _ _ => exact (h _ List.mem_cons_self).value functions get

/-- Where a compiled chain of equalities says what its evaluation says: the column is not
`Null` under a NOT, and a literal that equals it in the other width has one beside it that
equals it in its own. -/
def ChainFaithful (underNot : Bool) (predicate : Expr) : Prop :=
  ∀ term ∈ collectLogicalTerms .or predicate, ∀ simple, simpleBinaryPredicate term = some simple →
    match columnValue get simple.columnIndex with
    | none => underNot = false
    | some a => Value.sqlEq (some a) simple.literal = true →
        (chainLiterals (collectLogicalTerms .or predicate)).any (Value.eq (some a)) = true

theorem sqlEq_of_eq {a b : Value Scalar} (h : Value.eq a b = true) : Value.sqlEq a b = true := by
  rcases a with _ | a <;> rcases b with _ | b <;> first | rfl | cases h | skip
  change a.sqlEq b = true
  cases a <;> cases b <;> first | exact h | cases h

theorem chainFaithful_iff {columnIndex : Nat} (underNot : Bool) {predicate : Expr}
    (hlength : 2 ≤ (collectLogicalTerms .or predicate).length)
    (hterms : ∀ term ∈ collectLogicalTerms .or predicate, EqualityTerm columnIndex term) :
    ChainFaithful get underNot predicate ↔
      match columnValue get columnIndex with
      | none => underNot = false
      | some a =>
        (chainLiterals (collectLogicalTerms .or predicate)).any (Value.sqlEq (some a)) = true →
          (chainLiterals (collectLogicalTerms .or predicate)).any (Value.eq (some a)) = true := by
  constructor
  · intro h
    split
    · rename_i hvalue
      obtain ⟨term, hterm⟩ : ∃ term, term ∈ collectLogicalTerms .or predicate :=
        List.exists_mem_of_length_pos (by omega)
      obtain ⟨b, columnOnLeft, hsimple⟩ := hterms term hterm
      have hnull := h term hterm _ hsimple
      dsimp only at hnull
      rw [hvalue] at hnull
      exact hnull
    · rename_i a hvalue
      intro hany
      obtain ⟨literal, hliteral, heq⟩ := List.any_eq_true.mp hany
      obtain ⟨term, hterm, hpicked⟩ := List.mem_filterMap.mp hliteral
      obtain ⟨simple, hsimple, rfl⟩ := Option.map_eq_some_iff.mp hpicked
      obtain ⟨b, columnOnLeft, hequality⟩ := hterms term hterm
      obtain rfl := Option.some.inj (hsimple.symm.trans hequality)
      have hfound := h term hterm _ hsimple
      dsimp only at hfound
      rw [hvalue] at hfound
      exact hfound heq
  · intro h term hterm simple hsimple
    obtain ⟨b, columnOnLeft, hequality⟩ := hterms term hterm
    obtain rfl := Option.some.inj (hsimple.symm.trans hequality)
    dsimp only
    split
    · rename_i hvalue
      rw [hvalue] at h
      exact h
    · rename_i a hvalue
      rw [hvalue] at h
      intro heq
      refine h (List.any_eq_true.mpr ⟨some b, ?_, heq⟩)
      exact List.mem_filterMap.mpr ⟨term, hterm, by rw [hsimple]; rfl⟩

theorem chain_any_eq_none {columnIndex : Nat} {terms : List Expr}
    (hterms : ∀ term ∈ terms, EqualityTerm columnIndex term) :
    (chainLiterals terms).any (Value.eq none) = false := by
  rw [List.any_eq_false]
  intro literal hliteral
  obtain ⟨term, hterm, hsimple⟩ := List.mem_filterMap.mp hliteral
  obtain ⟨b, columnOnLeft, hequality⟩ := hterms term hterm
  rw [hequality] at hsimple
  obtain rfl := Option.some.inj hsimple
  exact Bool.false_ne_true

theorem chain_agrees_iff (underNot : Bool) {predicate : Expr} {compiled : CompiledRowPredicate}
    (h : compileOrEqualityChain predicate = some compiled) :
    (evalCompiledPredicateAccessor functions get compiled).Agrees underNot
        (evalAccessorExpr functions get none predicate) ↔
      ChainFaithful get underNot predicate := by
  obtain ⟨columnIndex, literals, rfl, hlength, hterms, hliterals⟩ := compileOrEqualityChain_eq h
  have hstate : evalCompiledPredicateAccessor functions get
      (.inList columnIndex (compileInListPredicateKernel literals) false) =
        .boolean ((chainLiterals (collectLogicalTerms .or predicate)).any
          (Value.eq (columnValue get columnIndex))) := by
    rw [evalCompiledPredicateAccessor, Bool.xor_false]
    exact congrArg PredicateValueState.boolean
      ((evalInListPredicateValue_eq _ _).trans (hliterals _))
  rw [chain_value functions get predicate hterms, hstate,
    chainFaithful_iff get underNot hlength hterms]
  rcases columnValue get columnIndex with _ | a
  · have hnone : (chainLiterals (collectLogicalTerms .or predicate)).any (Value.eq none) =
        Value.isTrue none := chain_any_eq_none hterms
    exact hnone ▸ agrees_of_not_boolean underNot rfl
  · refine (agrees_boolean underNot _ _).trans ?_
    rw [Bool.eq_iff_iff]
    refine ⟨Iff.mpr, fun hany => ⟨fun heq => ?_, hany⟩⟩
    obtain ⟨literal, hliteral, heq⟩ := List.any_eq_true.mp heq
    exact List.any_eq_true.mpr ⟨literal, hliteral, sqlEq_of_eq heq⟩

end Chains

section Predicates

variable (functions : Functions) (get : Nat → Option (Value Scalar))

/-- A JSON function on the parsed value of its column. -/
def CompiledJsonPredicate.parsed (predicate : CompiledJsonPredicate) (jsonb : JsonbValue) :
    Value Scalar :=
  match predicate.kind with
  | .eq expected => functions.jsonbPathEq jsonb predicate.path expected
  | .contains expected => functions.jsonbContains jsonb predicate.path expected
  | .exists => functions.jsonbPathExists jsonb predicate.path

/-- A JSON function on the text of its column. -/
def CompiledJsonPredicate.raw (predicate : CompiledJsonPredicate) (jsonb : JsonbValue) : Bool :=
  match predicate.kind with
  | .eq expected => functions.rawJsonEqValue jsonb predicate.path expected
  | .contains expected => functions.rawJsonContainsValue jsonb predicate.path expected
  | .exists => functions.rawJsonExists jsonb predicate.path

/-- Where the JSON function on the text agrees with the one on the parsed value. -/
def JsonFaithful (underNot : Bool) (predicate : CompiledJsonPredicate) : Prop :=
  ∀ jsonb, columnValue get predicate.columnIndex = some (.jsonb jsonb) →
    (PredicateValueState.boolean (predicate.raw functions jsonb)).Agrees underNot
      (predicate.parsed functions jsonb)

theorem evalFunction_pathEq {name : String} (h : functions.uppercase name = "JSONB_PATH_EQ")
    (value : Value Scalar) (path : String) (expected : Value Scalar) (rest : List (Value Scalar)) :
    evalFunction functions name (value :: some (.string path) :: expected :: rest) =
      match value with
      | some (.jsonb jsonb) => functions.jsonbPathEq jsonb path expected
      | _ => Value.boolean false := by
  unfold evalFunction
  rw [h]
  simp only [List.head?_cons]
  rcases value with _ | a
  · rfl
  · cases a <;> rfl

theorem evalFunction_contains {name : String} (h : functions.uppercase name = "JSONB_CONTAINS")
    (value : Value Scalar) (path : String) (expected : Value Scalar) (rest : List (Value Scalar)) :
    evalFunction functions name (value :: some (.string path) :: expected :: rest) =
      match value with
      | some (.jsonb jsonb) => functions.jsonbContains jsonb path expected
      | _ => Value.boolean false := by
  unfold evalFunction
  rw [h]
  simp only [List.head?_cons]
  rcases value with _ | a
  · rfl
  · cases a <;> rfl

theorem evalFunction_exists {name : String} (h : functions.uppercase name = "JSONB_EXISTS")
    (value : Value Scalar) (path : String) (rest : List (Value Scalar)) :
    evalFunction functions name (value :: some (.string path) :: rest) =
      match value with
      | some (.jsonb jsonb) => functions.jsonbPathExists jsonb path
      | _ => Value.boolean false := by
  unfold evalFunction
  rw [h]
  simp only [List.head?_cons]
  rcases value with _ | a
  · rfl
  · cases a <;> rfl

/-- A JSON function, as it is evaluated and as it is compiled. -/
theorem compileJsonRowPredicate_eq {name : String} {args : List Expr}
    {compiled : CompiledRowPredicate}
    (h : compileJsonRowPredicate functions name args = some compiled) :
    ∃ predicate, compiled = .json predicate ∧
      evalAccessorExpr functions get none (.function name args) =
        match columnValue get predicate.columnIndex with
        | some (.jsonb jsonb) => predicate.parsed functions jsonb
        | _ => Value.boolean false := by
  unfold compileJsonRowPredicate at h
  split at h
  · rename_i column path expected rest hname
    split at h
    · obtain rfl := Option.some.inj h
      refine ⟨_, rfl, ?_⟩
      simp only [evalAccessorExpr, evalAccessorExprs]
      exact evalFunction_pathEq functions (uppercase_of_toUpper functions hname (by decide)) _ _ _ _
    · cases h
  · rename_i column path expected rest hname
    split at h
    · obtain rfl := Option.some.inj h
      refine ⟨_, rfl, ?_⟩
      simp only [evalAccessorExpr, evalAccessorExprs]
      exact evalFunction_contains functions (uppercase_of_toUpper functions hname (by decide))
        _ _ _ _
    · cases h
  · rename_i column path rest hname
    split at h
    · obtain rfl := Option.some.inj h
      refine ⟨_, rfl, ?_⟩
      simp only [evalAccessorExpr, evalAccessorExprs]
      exact evalFunction_exists functions (uppercase_of_toUpper functions hname (by decide)) _ _ _
    · cases h
  · cases h

theorem json_agrees_iff (underNot : Bool) (predicate : CompiledJsonPredicate) :
    (evalCompiledJsonPredicateAccessor functions get predicate).Agrees underNot
        (match columnValue get predicate.columnIndex with
          | some (.jsonb jsonb) => predicate.parsed functions jsonb
          | _ => Value.boolean false) ↔
      JsonFaithful functions get underNot predicate := by
  have hvacuous : (∀ jsonb, columnValue get predicate.columnIndex ≠ some (.jsonb jsonb)) →
      ((PredicateValueState.boolean false).Agrees underNot (Value.boolean false) ↔
        JsonFaithful functions get underNot predicate) := fun hne =>
    iff_of_true ((agrees_boolean _ _ _).mpr rfl) fun jsonb h => absurd h (hne jsonb)
  unfold evalCompiledJsonPredicateAccessor
  unfold JsonFaithful columnValue at *
  generalize get predicate.columnIndex = field at *
  rcases field with _ | value
  · exact hvacuous fun _ h => by cases h
  rcases value with _ | a
  · exact hvacuous fun _ h => by cases h
  cases a with
  | jsonb jsonb =>
    constructor
    · intro h jsonb' heq
      obtain rfl : jsonb = jsonb' := Scalar.jsonb.inj (Option.some.inj heq)
      exact h
    · intro h
      exact h jsonb rfl
  | _ => exact hvacuous fun _ h => by cases h

/-- A value that is neither a Boolean nor `Null`. -/
def isOther (value : Value Scalar) : Bool := predicateValueState value = .other

/-- Where a comparison or a JSON function says what its evaluation says. -/
def AtomFaithful (underNot : Bool) (predicate : Expr) : Prop :=
  (∀ simple, simpleBinaryPredicate predicate = some simple →
    ComparisonFaithful underNot simple.op (columnValue get simple.columnIndex) simple.literal) ∧
  ∀ name args json, predicate = .function name args →
    compileJsonRowPredicate functions name args = some (.json json) →
      JsonFaithful functions get underNot json

/-- Where a compiled predicate says what its evaluation says: at every comparison, chain of
equalities and JSON function; and under a NOT no operand of an AND is a value that is
neither a Boolean nor `Null`. The operands of an OR that is no chain are not asked for
chains of their own. -/
def Faithful (underNot orOperand : Bool) : Expr → Prop
  | .binaryOp left op right =>
    match op with
    | .and => Faithful underNot false left ∧ Faithful underNot false right ∧
        (underNot = true → isOther (evalAccessorExpr functions get none left) = false ∧
          isOther (evalAccessorExpr functions get none right) = false)
    | .or =>
      if orOperand = false ∧ (compileOrEqualityChain (.binaryOp left .or right)).isSome then
        ChainFaithful get underNot (.binaryOp left .or right)
      else Faithful underNot true left ∧ Faithful underNot true right
    | op => AtomFaithful functions get underNot (.binaryOp left op right)
  | .unaryOp op expr =>
    match op with
    | .not => Faithful true false expr
    | _ => True
  | predicate => AtomFaithful functions get underNot predicate

/-- A predicate that is compiled as a whole: no conjunction, no negation, and a disjunction
only where it is a chain of equalities. -/
def isAtom : Expr → Bool
  | .binaryOp _ .and _ => false
  | .binaryOp left .or right => (compileOrEqualityChain (.binaryOp left .or right)).isSome
  | .unaryOp .not _ => false
  | _ => true

/-- What is not compiled is evaluated. -/
theorem generic_agrees (underNot : Bool) (predicate : Expr) :
    (evalCompiledPredicateAccessor functions get (.generic predicate)).Agrees underNot
      (evalAccessorExpr functions get none predicate) := by
  refine .of_eq ?_ underNot
  rw [evalCompiledPredicateAccessor]

theorem like_agrees (underNot negated : Bool) (columnIndex : Nat) (pattern : String) :
    (evalCompiledPredicateAccessor functions get
        (.like columnIndex (compileLikePattern pattern) negated)).Agrees underNot
      (match columnValue get columnIndex with
        | some (.string s) => Value.boolean (matchLikePattern s pattern ^^ negated)
        | _ => Value.boolean negated) := by
  rw [evalCompiledPredicateAccessor, columnValue]
  rcases get columnIndex with _ | value
  · exact (agrees_boolean _ _ _).mpr rfl
  rcases value with _ | a
  · exact (agrees_boolean _ _ _).mpr rfl
  cases a with
  | string s => exact (agrees_boolean _ _ _).mpr (congrArg (· ^^ negated) (evalLikePattern_eq s pattern))
  | _ => exact (agrees_boolean _ _ _).mpr rfl

theorem match_agrees (underNot negated : Bool) (columnIndex : Nat) (pattern : String) :
    (evalCompiledPredicateAccessor functions get (.match columnIndex pattern negated)).Agrees
        underNot
      (match columnValue get columnIndex with
        | some (.string s) => Value.boolean (functions.matchRegexPattern s pattern ^^ negated)
        | _ => Value.boolean negated) := by
  rw [evalCompiledPredicateAccessor, columnValue]
  rcases get columnIndex with _ | value
  · exact (agrees_boolean _ _ _).mpr rfl
  rcases value with _ | a
  · exact (agrees_boolean _ _ _).mpr rfl
  cases a <;> exact (agrees_boolean _ _ _).mpr rfl

theorem columnLiterals_eq {list : List Expr} {literals : List (Value Scalar)}
    (h : columnLiterals list = some literals) :
    evalAccessorExprs functions get none list = literals := by
  induction list generalizing literals with
  | nil =>
    obtain rfl := Option.some.inj h
    rw [evalAccessorExprs]
    rfl
  | cons item list ih =>
    rw [columnLiterals, List.mapM_cons, Option.bind_eq_bind, Option.bind_eq_some_iff] at h
    obtain ⟨literal, hitem, h⟩ := h
    rw [Option.bind_eq_bind, Option.bind_eq_some_iff] at h
    obtain ⟨rest, hrest, h⟩ := h
    obtain rfl := Option.some.inj h
    rw [evalAccessorExprs, ih hrest]
    cases item <;> cases hitem
    rw [evalAccessorExpr]

theorem inList_agrees (underNot negated : Bool) (columnIndex : Nat)
    (literals : List (Value Scalar)) :
    (evalCompiledPredicateAccessor functions get
        (.inList columnIndex (compileInListPredicateKernel literals) negated)).Agrees underNot
      (Value.boolean ((literals.any fun item => Value.eq item (columnValue get columnIndex)) ^^
        negated)) := by
  rw [evalCompiledPredicateAccessor, agrees_boolean, evalInListPredicateValue_eq]
  congr 2
  funext item
  exact Value.eq_comm _ _

theorem compileRowInList_agrees (underNot negated : Bool) {predicate expr : Expr}
    {list : List Expr} (h : evalAccessorExpr functions get none predicate =
      Value.boolean (((evalAccessorExprs functions get none list).any fun item =>
        Value.eq item (evalAccessorExpr functions get none expr)) ^^ negated)) :
    (evalCompiledPredicateAccessor functions get
        (compileRowInList predicate expr list negated)).Agrees underNot
      (evalAccessorExpr functions get none predicate) := by
  unfold compileRowInList
  split
  · split
    · rename_i column _ literals hliterals
      rw [h, columnLiterals_eq functions get hliterals, evalAccessorExpr]
      exact inList_agrees functions get underNot negated column.index literals
    · exact generic_agrees functions get underNot predicate
  · exact generic_agrees functions get underNot predicate

theorem faithful_binaryOp {op : BinaryOp} (hop : op ≠ .and ∧ op ≠ .or)
    (underNot orOperand : Bool) (left right : Expr) :
    Faithful functions get underNot orOperand (.binaryOp left op right) ↔
      AtomFaithful functions get underNot (.binaryOp left op right) := by
  rw [Faithful]
  · exact hop.1
  · exact hop.2

theorem faithful_unaryOp {op : UnaryOp} (hop : op ≠ .not) (underNot orOperand : Bool)
    (expr : Expr) : Faithful functions get underNot orOperand (.unaryOp op expr) := by
  rw [Faithful]
  · trivial
  · exact hop

/-- A predicate that is no disjunction is faithful where its comparison or JSON function is. -/
theorem faithful_iff_atom {predicate : Expr} (hatom : isAtom predicate = true)
    (hor : ∀ left right, predicate ≠ .binaryOp left .or right) (underNot : Bool) :
    Faithful functions get underNot false predicate ↔
      AtomFaithful functions get underNot predicate := by
  cases predicate with
  | binaryOp left op right =>
    refine faithful_binaryOp functions get ⟨?_, ?_⟩ underNot false left right
    · rintro rfl
      cases hatom
    · rintro rfl
      exact hor left right rfl
  | unaryOp op expr =>
    refine iff_of_true (faithful_unaryOp functions get ?_ underNot false expr)
      ⟨fun _ h => (by cases h), fun _ _ _ h => (by cases h)⟩
    rintro rfl
    cases hatom
  | _ => rw [Faithful] <;> (intros; contradiction)

theorem atomFaithful_of_generic {predicate : Expr} (hsimple : simpleBinaryPredicate predicate = none)
    (hfunction : ∀ name args, predicate = .function name args →
      compileJsonRowPredicate functions name args = none) (underNot : Bool) :
    AtomFaithful functions get underNot predicate := by
  refine ⟨fun simple h => ?_, fun name args json hpredicate h => ?_⟩
  · rw [hsimple] at h
    cases h
  · rw [hfunction name args hpredicate] at h
    cases h

/-- A predicate without operators and functions. -/
def isPlain : Expr → Bool
  | .binaryOp _ _ _ | .unaryOp _ _ | .function _ _ => false
  | _ => true

theorem faithful_of_plain {predicate : Expr} (h : isPlain predicate = true) (underNot : Bool) :
    Faithful functions get underNot false predicate := by
  cases predicate with
  | binaryOp | unaryOp | function => cases h
  | _ =>
    refine (faithful_iff_atom functions get rfl (fun _ _ h => by cases h) underNot).mpr ?_
    exact atomFaithful_of_generic functions get rfl (fun _ _ h => by cases h) underNot

theorem faithful_or_chain {left right : Expr} {compiled : CompiledRowPredicate} (underNot : Bool)
    (h : compileOrEqualityChain (.binaryOp left .or right) = some compiled) :
    Faithful functions get underNot false (.binaryOp left .or right) ↔
      ChainFaithful get underNot (.binaryOp left .or right) := by
  rw [Faithful, h]
  exact Iff.of_eq (if_pos ⟨rfl, rfl⟩)

theorem function_agrees_iff (underNot : Bool) (name : String) (args : List Expr) :
    (evalCompiledPredicateAccessor functions get ((compileJsonRowPredicate functions name
        args).getD (.generic (.function name args)))).Agrees underNot
        (evalAccessorExpr functions get none (.function name args)) ↔
      Faithful functions get underNot false (.function name args) := by
  rw [faithful_iff_atom functions get rfl (fun _ _ h => by cases h) underNot]
  cases hcompiled : compileJsonRowPredicate functions name args with
  | none =>
    refine iff_of_true (generic_agrees functions get underNot _) ?_
    refine atomFaithful_of_generic functions get rfl ?_ underNot
    intro name' args' heq
    cases heq
    exact hcompiled
  | some compiled =>
    obtain ⟨json, rfl, hvalue⟩ := compileJsonRowPredicate_eq functions get hcompiled
    rw [Option.getD_some, evalCompiledPredicateAccessor, hvalue,
      json_agrees_iff functions get underNot json]
    constructor
    · intro hjson
      refine ⟨fun _ h => (by cases h), fun name' args' json' heq h => ?_⟩
      cases heq
      obtain rfl := CompiledRowPredicate.json.inj (Option.some.inj (hcompiled.symm.trans h))
      exact hjson
    · intro h
      exact h.2 name args json rfl hcompiled

theorem atom_agrees_iff (underNot : Bool) {predicate : Expr} (hatom : isAtom predicate = true) :
    (evalCompiledPredicateAccessor functions get
        (compileRowPredicate functions predicate)).Agrees underNot
        (evalAccessorExpr functions get none predicate) ↔
      Faithful functions get underNot false predicate := by
  rw [compileRowPredicate.eq_def]
  split
  · cases hatom
  · rename_i left right
    cases hchain : compileOrEqualityChain (.binaryOp left .or right) with
    | none =>
      rw [isAtom, hchain] at hatom
      cases hatom
    | some compiled =>
      rw [faithful_or_chain functions get underNot hchain]
      exact chain_agrees_iff functions get underNot hchain
  · cases hatom
  · rw [evalCompiledPredicateAccessor, evalAccessorExpr, evalAccessorExpr]
    exact iff_of_true ((agrees_boolean _ _ _).mpr rfl)
      (faithful_unaryOp functions get (by decide : UnaryOp.isNull ≠ .not) underNot false _)
  · rw [evalCompiledPredicateAccessor, evalAccessorExpr, evalAccessorExpr]
    exact iff_of_true ((agrees_boolean _ _ _).mpr rfl)
      (faithful_unaryOp functions get (by decide : UnaryOp.isNotNull ≠ .not) underNot false _)
  · refine iff_of_true ?_ (faithful_of_plain functions get rfl underNot)
    simp only [evalCompiledPredicateAccessor, evalAccessorExpr]
    rw [agrees_boolean, evalBetweenPredicateValue_eq, Bool.xor_false]
    rfl
  · refine iff_of_true ?_ (faithful_of_plain functions get rfl underNot)
    simp only [evalCompiledPredicateAccessor, evalAccessorExpr]
    rw [agrees_boolean, evalBetweenPredicateValue_eq, Bool.xor_true, notBetween_eq]
    rfl
  · refine iff_of_true ?_ (faithful_of_plain functions get rfl underNot)
    exact compileRowInList_agrees functions get underNot false
      (by rw [evalAccessorExpr, Bool.xor_false])
  · refine iff_of_true ?_ (faithful_of_plain functions get rfl underNot)
    exact compileRowInList_agrees functions get underNot true
      (by rw [evalAccessorExpr, Bool.xor_true])
  · rename_i column pattern
    refine iff_of_true ?_ (faithful_of_plain functions get rfl underNot)
    rw [evalAccessorExpr, evalAccessorExpr]
    refine Eq.mp (congrArg (PredicateValueState.Agrees underNot _) ?_)
      (like_agrees functions get underNot false column.index pattern)
    change _ = match columnValue get column.index with
      | some (.string s) => Value.boolean (matchLikePattern s pattern)
      | _ => Value.boolean false
    simp only [Bool.xor_false]
  · rename_i column pattern
    refine iff_of_true ?_ (faithful_of_plain functions get rfl underNot)
    rw [evalAccessorExpr, evalAccessorExpr]
    refine Eq.mp (congrArg (PredicateValueState.Agrees underNot _) ?_)
      (like_agrees functions get underNot true column.index pattern)
    change _ = match columnValue get column.index with
      | some (.string s) => Value.boolean !(matchLikePattern s pattern)
      | _ => Value.boolean true
    simp only [Bool.xor_true]
  · rename_i column pattern
    refine iff_of_true ?_ (faithful_of_plain functions get rfl underNot)
    rw [evalAccessorExpr, evalAccessorExpr]
    refine Eq.mp (congrArg (PredicateValueState.Agrees underNot _) ?_)
      (match_agrees functions get underNot false column.index pattern)
    change _ = match columnValue get column.index with
      | some (.string s) => Value.boolean (functions.matchRegexPattern s pattern)
      | _ => Value.boolean false
    simp only [Bool.xor_false]
  · rename_i column pattern
    refine iff_of_true ?_ (faithful_of_plain functions get rfl underNot)
    rw [evalAccessorExpr, evalAccessorExpr]
    refine Eq.mp (congrArg (PredicateValueState.Agrees underNot _) ?_)
      (match_agrees functions get underNot true column.index pattern)
    change _ = match columnValue get column.index with
      | some (.string s) => Value.boolean !(functions.matchRegexPattern s pattern)
      | _ => Value.boolean true
    simp only [Bool.xor_true]
  · exact function_agrees_iff functions get underNot _ _
  · rw [evalCompiledPredicateAccessor, evalAccessorExpr]
    exact iff_of_true (.of_eq rfl underNot) (faithful_of_plain functions get rfl underNot)
  · rename_i hand hor _ _ _ _ _ _ _ _ _ _ _ hfunction _
    rw [faithful_iff_atom functions get hatom hor underNot]
    split
    · rename_i simple hsimple
      have hop : simple.op ≠ .and ∧ simple.op ≠ .or := by
        obtain ⟨left, right, hbinary⟩ := simpleBinaryPredicate_binaryOp hsimple
        exact ⟨fun h => hand left right (h ▸ hbinary), fun h => hor left right (h ▸ hbinary)⟩
      rw [evalCompiledPredicateAccessor]
      refine (comparison_agrees_iff functions get underNot hsimple hop).trans ?_
      constructor
      · intro hcomparison
        refine ⟨fun other hother => ?_, fun name args _ h => absurd h (hfunction name args)⟩
        obtain rfl := Option.some.inj (hsimple.symm.trans hother)
        exact hcomparison
      · intro h
        exact h.1 simple hsimple
    · rename_i hsimple
      refine iff_of_true (generic_agrees functions get underNot _) ?_
      exact atomFaithful_of_generic functions get hsimple
        (fun name args h => absurd h (hfunction name args)) underNot

/-- The operands of a conjunction and of a disjunction, and a predicate as a whole, against
its value. -/
structure Compiles (underNot : Bool) (predicate : Expr) : Prop where
  agrees : Faithful functions get underNot false predicate →
    (evalCompiledPredicateAccessor functions get
      (compileRowPredicate functions predicate)).Agrees underNot
      (evalAccessorExpr functions get none predicate)
  and : Faithful functions get underNot false predicate →
    AndAgrees underNot ((pushCompiledLogicalTerms functions .and predicate).map
      (evalCompiledPredicateAccessor functions get)) (evalAccessorExpr functions get none predicate)
  or : Faithful functions get underNot true predicate →
    OrAgrees underNot ((pushCompiledLogicalTerms functions .or predicate).map
      (evalCompiledPredicateAccessor functions get)) (evalAccessorExpr functions get none predicate)

theorem faithful_operand {predicate : Expr} {underNot : Bool}
    (hor : ∀ left right, predicate ≠ .binaryOp left .or right)
    (h : Faithful functions get underNot true predicate) :
    Faithful functions get underNot false predicate := by
  cases predicate with
  | binaryOp left op right =>
    by_cases hand : op = .and
    · subst hand
      rw [Faithful] at h ⊢
      exact h
    · have hop : op ≠ .and ∧ op ≠ .or := ⟨hand, fun heq => hor left right (heq ▸ rfl)⟩
      rw [faithful_binaryOp functions get hop] at h ⊢
      exact h
  | unaryOp op expr =>
    by_cases hnot : op = .not
    · subst hnot
      rw [Faithful] at h ⊢
      exact h
    · exact faithful_unaryOp functions get hnot underNot false expr
  | _ => simpa only [Faithful] using h

theorem pushCompiledLogicalTerms_single {op : BinaryOp} {predicate : Expr}
    (h : ∀ left right, predicate ≠ .binaryOp left op right) :
    pushCompiledLogicalTerms functions op predicate = [compileRowPredicate functions predicate] := by
  rw [pushCompiledLogicalTerms.eq_def]
  split
  · exact if_neg fun heq => h _ _ (by rw [heq])
  · rfl

variable {functions get}

/-- A predicate that is neither a conjunction nor a disjunction. -/
theorem Compiles.of_agrees {underNot : Bool} {predicate : Expr}
    (hand : ∀ left right, predicate ≠ .binaryOp left .and right)
    (hor : ∀ left right, predicate ≠ .binaryOp left .or right)
    (h : Faithful functions get underNot false predicate →
      (evalCompiledPredicateAccessor functions get
        (compileRowPredicate functions predicate)).Agrees underNot
        (evalAccessorExpr functions get none predicate)) :
    Compiles functions get underNot predicate where
  agrees := h
  and hfaithful := by
    rw [pushCompiledLogicalTerms_single functions hand]
    exact .single (h hfaithful)
  or hfaithful := by
    rw [pushCompiledLogicalTerms_single functions hor]
    exact .single (h (faithful_operand functions get hor hfaithful))

theorem isOther_eq_false {value : Value Scalar} (h : isOther value = false) :
    predicateValueState value ≠ .other :=
  of_decide_eq_false h

theorem Compiles.binaryOp_and {underNot : Bool} {left right : Expr}
    (hleft : Compiles functions get underNot left)
    (hright : Compiles functions get underNot right) :
    Compiles functions get underNot (.binaryOp left .and right) := by
  have hterms : Faithful functions get underNot false (.binaryOp left .and right) →
      AndAgrees underNot ((pushCompiledLogicalTerms functions .and left ++
          pushCompiledLogicalTerms functions .and right).map
        (evalCompiledPredicateAccessor functions get))
        (evalAccessorExpr functions get none (.binaryOp left .and right)) := by
    intro h
    rw [Faithful] at h
    obtain ⟨hl, hr, hother⟩ := h
    rw [List.map_append, evalAccessorExpr]
    exact (hleft.and hl).append (hright.and hr) fun hnot =>
      ⟨isOther_eq_false (hother hnot).1, isOther_eq_false (hother hnot).2⟩
  have hagrees : Faithful functions get underNot false (.binaryOp left .and right) →
      (evalCompiledPredicateAccessor functions get
        (compileRowPredicate functions (.binaryOp left .and right))).Agrees underNot
        (evalAccessorExpr functions get none (.binaryOp left .and right)) := by
    intro h
    have hstates := hterms h
    rw [evalAccessorExpr] at hstates ⊢
    rw [compileRowPredicate, evalCompiledPredicateAccessor, evalAnd_eq_foldl]
    exact hstates.agrees
  have hor : ∀ l r, Expr.binaryOp left .and right ≠ .binaryOp l .or r := fun _ _ h => by cases h
  refine ⟨hagrees, fun h => ?_, fun h => ?_⟩
  · rw [pushCompiledLogicalTerms, if_pos rfl]
    exact hterms h
  · rw [pushCompiledLogicalTerms_single functions hor]
    exact .single (hagrees (faithful_operand functions get hor h))

theorem Compiles.binaryOp_or {underNot : Bool} {left right : Expr}
    (hleft : Compiles functions get underNot left)
    (hright : Compiles functions get underNot right) :
    Compiles functions get underNot (.binaryOp left .or right) := by
  have hterms : Faithful functions get underNot true left →
      Faithful functions get underNot true right →
      OrAgrees underNot ((pushCompiledLogicalTerms functions .or left ++
          pushCompiledLogicalTerms functions .or right).map
        (evalCompiledPredicateAccessor functions get))
        (evalAccessorExpr functions get none (.binaryOp left .or right)) := by
    intro hl hr
    rw [List.map_append, evalAccessorExpr]
    exact (hleft.or hl).append (hright.or hr)
  have hagrees : Faithful functions get underNot false (.binaryOp left .or right) →
      (evalCompiledPredicateAccessor functions get
        (compileRowPredicate functions (.binaryOp left .or right))).Agrees underNot
        (evalAccessorExpr functions get none (.binaryOp left .or right)) := by
    intro h
    cases hchain : compileOrEqualityChain (.binaryOp left .or right) with
    | some compiled =>
      refine (atom_agrees_iff functions get underNot ?_).mpr h
      rw [isAtom, hchain]
      rfl
    | none =>
      rw [Faithful, hchain, if_neg (fun h => Bool.false_ne_true h.2)] at h
      have hstates := hterms h.1 h.2
      rw [evalAccessorExpr] at hstates ⊢
      rw [compileRowPredicate, hchain]
      dsimp only
      rw [evalCompiledPredicateAccessor, evalOr_eq_foldl]
      exact hstates.agrees
  have hand : ∀ l r, Expr.binaryOp left .or right ≠ .binaryOp l .and r := fun _ _ h => by cases h
  refine ⟨hagrees, fun h => ?_, fun h => ?_⟩
  · rw [pushCompiledLogicalTerms_single functions hand]
    exact .single (hagrees h)
  · rw [Faithful, if_neg (fun h => Bool.false_ne_true h.1.symm)] at h
    rw [pushCompiledLogicalTerms, if_pos rfl]
    exact hterms h.1 h.2

theorem Compiles.unaryOp_not {underNot : Bool} {expr : Expr}
    (h : Compiles functions get true expr) :
    Compiles functions get underNot (.unaryOp .not expr) := by
  refine .of_agrees (fun _ _ h => by cases h) (fun _ _ h => by cases h) fun hfaithful => ?_
  rw [Faithful] at hfaithful
  have hstate : evalCompiledPredicateAccessor functions get (compileRowPredicate functions expr) =
      predicateValueState (evalAccessorExpr functions get none expr) := h.agrees hfaithful
  rw [compileRowPredicate, evalCompiledPredicateAccessor, evalAccessorExpr, hstate]
  exact .of_eq (predicateValueState_not _).symm underNot

theorem compiles (underNot : Bool) (predicate : Expr) :
    Compiles functions get underNot predicate := by
  match predicate with
  | .binaryOp left .and right =>
    exact (compiles underNot left).binaryOp_and (compiles underNot right)
  | .binaryOp left .or right =>
    exact (compiles underNot left).binaryOp_or (compiles underNot right)
  | .unaryOp .not expr => exact (compiles true expr).unaryOp_not
  | .binaryOp _ .eq _ | .binaryOp _ .ne _ | .binaryOp _ .lt _ | .binaryOp _ .le _
  | .binaryOp _ .gt _ | .binaryOp _ .ge _ | .binaryOp _ .add _ | .binaryOp _ .sub _
  | .binaryOp _ .mul _ | .binaryOp _ .div _ | .binaryOp _ .mod _ | .binaryOp _ .like _
  | .binaryOp _ .in _ | .binaryOp _ .between _ | .unaryOp .neg _ | .unaryOp .isNull _
  | .unaryOp .isNotNull _ | .column _ | .literal _ | .function _ _ | .aggregate _ _ _
  | .between _ _ _ | .notBetween _ _ _ | .in _ _ | .notIn _ _ | .like _ _ | .notLike _ _
  | .match _ _ | .notMatch _ _ =>
    exact .of_agrees (fun _ _ h => by cases h) (fun _ _ h => by cases h)
      (atom_agrees_iff functions get underNot rfl).mpr

theorem PredicateValueState.isTrue_iff {state : PredicateValueState} :
    state.isTrue = true ↔ state = .boolean true :=
  decide_eq_true_iff

theorem isTrue_iff {value : Value Scalar} :
    Value.isTrue value = true ↔ value = Value.boolean true := by
  rcases value with _ | a
  · exact iff_of_false Bool.false_ne_true fun h => by cases h
  · cases a with
    | boolean b =>
      cases b
      · exact iff_of_false Bool.false_ne_true fun h => by cases h
      · exact iff_of_true rfl rfl
    | _ => exact iff_of_false Bool.false_ne_true fun h => by cases h

/-- A compiled predicate is true where its evaluation is. -/
def TrueTogether (functions : Functions) (get : Nat → Option (Value Scalar)) (predicate : Expr) :
    Prop :=
  evalCompiledPredicateAccessor functions get (compileRowPredicate functions predicate) =
      .boolean true ↔
    evalAccessorExpr functions get none predicate = Value.boolean true

theorem trueTogether_iff_agrees {predicate : Expr} :
    TrueTogether functions get predicate ↔
      (evalCompiledPredicateAccessor functions get
        (compileRowPredicate functions predicate)).Agrees false
        (evalAccessorExpr functions get none predicate) := by
  rw [TrueTogether, ← PredicateValueState.isTrue_iff, ← isTrue_iff]
  exact Bool.eq_iff_iff.symm

end Predicates

section Samples

def sampleFunctions : Functions where
  toUppercase := String.toUpper
  toLowercase := String.toLower
  matchRegexPattern s pattern := s == pattern
  jsonbPathEq _ _ _ := Value.boolean false
  jsonbContains _ _ _ := Value.boolean false
  jsonbPathExists _ _ := Value.boolean false
  jsonPathParses _ := true
  rawJsonEqValue _ _ _ := false
  rawJsonContainsValue _ _ _ := false
  rawJsonExists _ _ := false

/-- A comparison of the first column with a wide integer. -/
def sampleEq (literal : Int64) : Expr :=
  .binaryOp (.column ⟨"items", "qty", 0⟩) .eq (.literal (some (.int64 literal)))

theorem sampleEq_simple (literal : Int64) : simpleBinaryPredicate (sampleEq literal) =
    some ⟨0, .eq, some (.int64 literal), true, .numeric .eq (.int64 literal)⟩ := rfl

end Samples

end Cynos.Query
