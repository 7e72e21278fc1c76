import Cynos.Gql.Filter
import Cynos.Gql.Lowering
import Cynos.Query.Checked
import Cynos.Query.PatternAgreement

/-! The operations of a filter against the expressions they are lowered to. The one side compares
with the order and the equality of values, where `Null` is a value like any other, and reads JSON
cells in the binary form; the other compares as SQL does and reads JSON cells as text. -/
namespace Cynos.Gql

open Cynos.Core (CharClasses Scalar Value)
open Jsonb (JsonPath SimpleJsonPath)
open Query

section Answers

/-- Both sides give the same answer without a panic. -/
def Answers (matched : Option Bool) (value : Option (Value Scalar)) : Prop :=
  ∃ v, value = some v ∧ matched = some v.isTrue

/-- The filter accepts the row if and only if the expression is true on it. -/
def SameAnswer (matched : Option Bool) (value : Option (Value Scalar)) : Prop :=
  matched = some true ↔ ∃ v, value = some v ∧ v.isTrue = true

variable {matched : Option Bool} {value : Option (Value Scalar)}

theorem Answers.same (h : Answers matched value) : SameAnswer matched value := by
  obtain ⟨v, rfl, rfl⟩ := h
  refine ⟨fun h => ⟨v, rfl, Option.some.inj h⟩, ?_⟩
  rintro ⟨w, hw, htrue⟩
  rw [Option.some.inj hw, htrue]

theorem sameAnswer_some {b : Bool} {v : Value Scalar} :
    SameAnswer (some b) (some v) ↔ b = v.isTrue := by
  refine ⟨fun h => ?_, fun h => Answers.same ⟨v, rfl, congrArg some h⟩⟩
  rw [Bool.eq_iff_iff]
  refine ⟨fun hb => ?_, fun hv => Option.some.inj (h.mpr ⟨v, rfl, hv⟩)⟩
  obtain ⟨w, hw, htrue⟩ := h.mp (congrArg some hb)
  rwa [Option.some.inj hw]

end Answers

section Conditions

variable (machine : Jsonb.Machine) (limit : Nat) (chars : CharClasses)

def PathParses (path : String) : Prop := (JsonPath.parse chars path).toOption.isSome = true

/-- What the lowered predicate asks of a cell that it finds no document in. -/
def AcceptedWithoutDocument (value : Value Scalar) (predicate : JsonPredicate) : Prop :=
  predicate.contains = none ∧
    (∀ existence ∈ predicate.existence,
      existence = if predicate.path.isSome then false else !Value.isNull value) ∧
    ∀ expected ∈ predicate.eq, predicate.path = none ∧
      (evalBinaryOp .eq value (jsonbValueToLiteral expected)).isTrue = true

/-- Both sides look into the cell: the one for the binary form, the other for text. -/
def ReadTwice (value : Value Scalar) : PredicateOp → Prop
  | .json predicate => ∃ data, value = some (.jsonb data) ∧
      (decodeCell machine limit data.data = none ∨
        (∃ path ∈ predicate.path, PathParses chars path) ∨
        (predicate.path = none ∧ predicate.contains.isSome = true ∧ predicate.existence ≠ some false))
  | _ => False

/-- No path leads into the document, or none that can be read. -/
def DocumentMeets (data : Core.JsonbValue) (predicate : JsonPredicate) : Prop :=
  ∃ json, decodeCell machine limit data.data = some json ∧
    match predicate.path with
    | some path => ¬ PathParses chars path ∧
        ¬ (predicate.existence = some false ∧ predicate.eq = none ∧ predicate.contains = none)
    | none => predicate.existence = some false ∨ (predicate.contains = none ∧
        ∀ expected ∈ predicate.eq,
          (json.eq expected = true ↔ jsonbValueToLiteral expected = some (.jsonb data)))

/-- When an operation answers alike on both sides. -/
def OpMeets (value : Value Scalar) : PredicateOp → Prop
  | .isNull _ | .between _ _ => True
  | .eq expected => ¬ (value = none ∧ expected = none)
  | .ne expected => value = none ↔ expected = none
  | .in expected | .notIn expected => ∀ candidate ∈ expected,
      Value.sqlEq value candidate = true → ∃ other ∈ expected, Value.eq other value = true
  | .gt expected => expected = none → value = none
  | .gte expected => expected ≠ none
  | .lt expected => value = none → expected = none
  | .lte _ => value ≠ none
  | .like pattern => ∀ bytes text, value = some (.bytes bytes) → Bytes.ofUtf8? bytes = some text →
      Core.PatternMatch.like text pattern = false
  | .json predicate =>
    match value with
    | some (.jsonb data) => DocumentMeets machine limit chars data predicate
    | value => ¬ AcceptedWithoutDocument value predicate

end Conditions

section Operations

variable {functions : CheckedFunctions} {get : Nat → Option (Value Scalar)} {ctx : Option EvalContext}
  {column : Expr} {value : Value Scalar} {expression : Expr}

/-- A comparison of a column with a literal. -/
theorem try_comparison (hcolumn : tryAccessorExpr functions get ctx column = some value)
    (op : BinaryOp) (hop : op ≠ .mod) (literal : Value Scalar) :
    tryAccessorExpr functions get ctx (.binaryOp column op (.literal literal)) =
      some (evalBinaryOp op value literal) := by
  rw [tryAccessorExpr, hcolumn, tryAccessorExpr]
  exact if_neg fun h => hop h.1

theorem tryAny_literals (value : Value Scalar) (list : List (Value Scalar)) :
    tryAny functions get ctx value (list.map .literal) =
      some (list.any fun item => Value.eq item value) := by
  induction list with
  | nil => rfl
  | cons item list ih =>
    rw [List.map_cons, tryAny, tryAccessorExpr, List.any_cons]
    cases h : Value.eq item value with
    | true => simp [h]
    | false => simpa [h] using ih

theorem try_in (hcolumn : tryAccessorExpr functions get ctx column = some value)
    (list : List (Value Scalar)) :
    tryAccessorExpr functions get ctx (.in column (list.map .literal)) =
      some (Value.boolean (list.any fun item => Value.eq item value)) := by
  rw [tryAccessorExpr, hcolumn]
  change (tryAny functions get ctx value (list.map .literal) >>= fun found =>
    some (Value.boolean found)) = _
  rw [tryAny_literals]
  rfl

theorem try_notIn (hcolumn : tryAccessorExpr functions get ctx column = some value)
    (list : List (Value Scalar)) :
    tryAccessorExpr functions get ctx (.notIn column (list.map .literal)) =
      some (Value.boolean !(list.any fun item => Value.eq item value)) := by
  rw [tryAccessorExpr, hcolumn]
  change (tryAny functions get ctx value (list.map .literal) >>= fun found =>
    some (Value.boolean !found)) = _
  rw [tryAny_literals]
  rfl

/-- Both LIKE matchers follow the same relation. -/
theorem like_eq_matchLikePattern (text pattern : String) :
    Core.PatternMatch.like text pattern = matchLikePattern text pattern := by
  rw [Bool.eq_iff_iff]
  exact likeRecursive_iff.trans matchLikeRecursive_iff.symm

/-- Both sides answer without a panic, and alike if and only if the condition holds. -/
def Compared (matched : Option Bool) (value : Option (Value Scalar)) (meets : Prop) : Prop :=
  ∃ b v, matched = some b ∧ value = some v ∧ (meets ↔ b = v.isTrue)

theorem sqlEq_of_eq {a b : Value Scalar} (h : Value.eq a b = true) : Value.sqlEq b a = true := by
  rcases a with _ | a <;> rcases b with _ | b
  · rfl
  · cases h
  · cases h
  · refine (Value.sqlEq_comm (some b) (some a)).trans ?_
    change a.sqlEq b = true
    have heq : a.eq b = true := h
    cases a <;> cases b <;> first | exact heq | cases heq

/-- The candidates that equal the value as SQL does, against those that are equal to it. -/
theorem any_sqlEq_iff (value : Value Scalar) (candidates : List (Value Scalar)) :
    (∀ candidate ∈ candidates, Value.sqlEq value candidate = true →
        ∃ other ∈ candidates, Value.eq other value = true) ↔
      (candidates.any fun candidate => Value.sqlEq value candidate) =
        candidates.any fun item => Value.eq item value := by
  rw [Bool.eq_iff_iff, List.any_eq_true, List.any_eq_true]
  constructor
  · intro h
    refine ⟨fun ⟨candidate, hmem, heq⟩ => h candidate hmem heq, ?_⟩
    rintro ⟨other, hmem, heq⟩
    exact ⟨other, hmem, sqlEq_of_eq heq⟩
  · intro h candidate hmem heq
    exact h.mp ⟨candidate, hmem, heq⟩

variable {machine : Jsonb.Machine} {limit : Nat} {chars : CharClasses}

theorem compared_like (hcolumn : tryAccessorExpr functions get ctx column = some value)
    (pattern : String) : Compared (some (matchesLike value pattern))
      (tryAccessorExpr functions get ctx (.like column pattern))
      (OpMeets machine limit chars value (.like pattern)) := by
  refine ⟨_, _, rfl, by rw [tryAccessorExpr, hcolumn]; rfl, ?_⟩
  rcases value with _ | scalar
  · exact iff_of_true nofun rfl
  · cases scalar with
    | string text =>
      refine iff_of_true nofun ?_
      exact like_eq_matchLikePattern text pattern
    | bytes bytes =>
      change _ ↔ (Bytes.ofUtf8? bytes).any (Core.PatternMatch.like · pattern) = false
      cases htext : Bytes.ofUtf8? bytes with
      | none =>
        refine iff_of_true ?_ rfl
        rintro _ text ⟨⟩ h
        exact nomatch htext.symm.trans h
      | some text =>
        refine ⟨fun h => h bytes text rfl htext, ?_⟩
        rintro h _ other ⟨⟩ hother
        rw [← Option.some.inj (htext.symm.trans hother)]
        exact h
    | _ => exact iff_of_true nofun rfl

/-- What every operation but the JSON predicates answers. -/
theorem compared_op (hcolumn : tryAccessorExpr functions get ctx column = some value)
    {op : PredicateOp} (hop : ∀ predicate, op ≠ .json predicate)
    (hbuild : buildPredicateExpr column op = .ok expression) :
    Compared (matchesOp machine limit chars value op)
      (tryAccessorExpr functions get ctx expression) (OpMeets machine limit chars value op) := by
  cases op with
  | json predicate => exact absurd rfl (hop predicate)
  | isNull expected =>
    cases expected with
    | true =>
      cases hbuild
      refine ⟨_, _, rfl, by rw [tryAccessorExpr, hcolumn]; rfl, iff_of_true trivial ?_⟩
      cases value <;> rfl
    | false =>
      cases hbuild
      refine ⟨_, _, rfl, by rw [tryAccessorExpr, hcolumn]; rfl, iff_of_true trivial ?_⟩
      cases value <;> rfl
  | «in» expected =>
    cases hbuild
    exact ⟨_, _, rfl, try_in hcolumn expected, any_sqlEq_iff value expected⟩
  | notIn expected =>
    cases hbuild
    refine ⟨_, _, rfl, try_notIn hcolumn expected, ?_⟩
    rw [← List.not_any_eq_all_not]
    exact (any_sqlEq_iff value expected).trans Bool.not_inj_iff.symm
  | between lower upper =>
    cases hbuild
    exact ⟨_, _, rfl, by rw [tryAccessorExpr, hcolumn]; rfl, iff_of_true trivial rfl⟩
  | like pattern =>
    cases hbuild
    exact compared_like hcolumn pattern
  | eq expected =>
    cases hbuild
    refine ⟨_, _, rfl, try_comparison hcolumn .eq nofun expected, ?_⟩
    rcases value with _ | a <;> rcases expected with _ | b
    · exact iff_of_false (fun h => h ⟨rfl, rfl⟩) nofun
    · exact iff_of_true nofun rfl
    · exact iff_of_true nofun rfl
    · exact iff_of_true nofun rfl
  | ne expected =>
    cases hbuild
    refine ⟨_, _, rfl, try_comparison hcolumn .ne nofun expected, ?_⟩
    rcases value with _ | a <;> rcases expected with _ | b
    · exact iff_of_true Iff.rfl rfl
    · exact iff_of_false (fun h => nomatch h.mp rfl) nofun
    · exact iff_of_false (fun h => nomatch h.mpr rfl) nofun
    · exact iff_of_true ⟨nofun, nofun⟩ rfl
  | gt expected =>
    cases hbuild
    refine ⟨_, _, rfl, try_comparison hcolumn .gt nofun expected, ?_⟩
    rcases value with _ | a <;> rcases expected with _ | b
    · exact iff_of_true (fun _ => rfl) rfl
    · exact iff_of_true nofun rfl
    · exact iff_of_false (fun h => nomatch h rfl) nofun
    · exact iff_of_true nofun rfl
  | gte expected =>
    cases hbuild
    refine ⟨_, _, rfl, try_comparison hcolumn .ge nofun expected, ?_⟩
    rcases value with _ | a <;> rcases expected with _ | b
    · exact iff_of_false (fun h => h rfl) nofun
    · exact iff_of_true nofun rfl
    · exact iff_of_false (fun h => h rfl) nofun
    · exact iff_of_true nofun rfl
  | lt expected =>
    cases hbuild
    refine ⟨_, _, rfl, try_comparison hcolumn .lt nofun expected, ?_⟩
    rcases value with _ | a <;> rcases expected with _ | b
    · exact iff_of_true (fun _ => rfl) rfl
    · exact iff_of_false (fun h => nomatch h rfl) nofun
    · exact iff_of_true nofun rfl
    · exact iff_of_true nofun rfl
  | lte expected =>
    cases hbuild
    refine ⟨_, _, rfl, try_comparison hcolumn .le nofun expected, ?_⟩
    rcases value with _ | a <;> rcases expected with _ | b
    · exact iff_of_false (fun h => h rfl) nofun
    · exact iff_of_false (fun h => h rfl) nofun
    · exact iff_of_true nofun rfl
    · exact iff_of_true nofun rfl

end Operations

section Combined

variable {functions : CheckedFunctions} {get : Nat → Option (Value Scalar)} {ctx : Option EvalContext}
  {A : Type} {answer : A → Option Bool} {items : List A} {expressions : List Expr}

theorem answers_binary {op : BinaryOp} {combine : Bool → Bool → Bool}
    (hop : ∀ a b, (evalBinaryOp op a b).isTrue = combine a.isTrue b.isTrue) (hmod : op ≠ .mod)
    {left right : Expr} {a b : Bool} (ha : Answers (some a) (tryAccessorExpr functions get ctx left))
    (hb : Answers (some b) (tryAccessorExpr functions get ctx right)) :
    Answers (some (combine a b)) (tryAccessorExpr functions get ctx (.binaryOp left op right)) := by
  obtain ⟨v, hv, hav⟩ := ha
  obtain ⟨w, hw, hbw⟩ := hb
  refine ⟨evalBinaryOp op v w, ?_, ?_⟩
  · rw [tryAccessorExpr, hv, hw]
    exact if_neg fun h => hmod h.1
  · rw [hop, Option.some.inj hav, Option.some.inj hbw]

/-- The items are asked up to the first that fails, the expressions all of them. -/
theorem answers_andAll (h : List.Forall₂ (fun item expression =>
      Answers (answer item) (tryAccessorExpr functions get ctx expression)) items expressions) :
    Answers (items.allM answer) (tryAccessorExpr functions get ctx (andAll expressions)) := by
  induction h with
  | nil => exact ⟨_, rfl, rfl⟩
  | @cons item expression items expressions hitem hitems ih =>
    obtain ⟨v, hv, hanswer⟩ := hitem
    obtain ⟨w, hw, hrest⟩ := ih
    rw [List.allM, hanswer]
    cases expressions with
    | nil =>
      cases hitems
      refine ⟨v, hv, ?_⟩
      cases v.isTrue <;> rfl
    | cons next expressions =>
      have hboth := answers_binary isTrue_evalBinaryOp_and nofun ⟨v, hv, rfl⟩ ⟨w, hw, rfl⟩
      cases hv' : v.isTrue with
      | true => rwa [hv', Bool.true_and, ← hrest] at hboth
      | false => rwa [hv', Bool.false_and] at hboth

theorem answers_orAll (h : List.Forall₂ (fun item expression =>
      Answers (answer item) (tryAccessorExpr functions get ctx expression)) items expressions) :
    Answers (items.anyM answer) (tryAccessorExpr functions get ctx (orAll expressions)) := by
  induction h with
  | nil => exact ⟨_, rfl, rfl⟩
  | @cons item expression items expressions hitem hitems ih =>
    obtain ⟨v, hv, hanswer⟩ := hitem
    obtain ⟨w, hw, hrest⟩ := ih
    rw [List.anyM, hanswer]
    cases expressions with
    | nil =>
      cases hitems
      refine ⟨v, hv, ?_⟩
      cases v.isTrue <;> rfl
    | cons next expressions =>
      have hboth := answers_binary isTrue_evalBinaryOp_or nofun ⟨v, hv, rfl⟩ ⟨w, hw, rfl⟩
      cases hv' : v.isTrue with
      | true => rwa [hv', Bool.true_or] at hboth
      | false => rwa [hv', Bool.false_or, ← hrest] at hboth

theorem forall₂_of_mapM {B : Type} {build : A → GqlResult B} {results : List B}
    (h : items.mapM build = .ok results) :
    List.Forall₂ (fun item result => build item = .ok result) items results := by
  induction items generalizing results with
  | nil =>
    cases h
    exact .nil
  | cons item items ih =>
    rw [List.mapM_cons] at h
    cases hitem : build item with
    | error e =>
      rw [hitem] at h
      cases h
    | ok result =>
      cases hitems : items.mapM build with
      | error e =>
        rw [hitem, hitems] at h
        cases h
      | ok rest =>
        rw [hitem, hitems] at h
        cases h
        exact .cons hitem (ih hitems)

end Combined

section Json

variable {functions : CheckedFunctions} {get : Nat → Option (Value Scalar)} {ctx : Option EvalContext}
  {column : Expr} {value : Value Scalar} {expression : Expr}

/-- A JSON function is called on documents only. -/
def onDocument (value : Value Scalar) (call : Core.JsonbValue → Option (Value Scalar)) :
    Option (Value Scalar) :=
  match value with
  | some (.jsonb data) => call data
  | _ => some (Value.boolean false)

theorem uppercase_of_chars (functions : Functions) {name upper : String}
    (h : name.toList.map Char.toUpper = upper.toList) (hascii : isAscii upper = true) :
    functions.uppercase name = upper :=
  uppercase_of_toUpper functions
    (String.toList_inj.mp (by rw [String.toUpper, String.toList_map, h])) hascii

theorem try_jsonbExists (hcolumn : tryAccessorExpr functions get ctx column = some value)
    (path : String) : tryAccessorExpr functions get ctx (jsonbExists column path) =
      onDocument value fun data => tryJsonbPathExists functions data path := by
  rw [jsonbExists, tryAccessorExpr, tryAccessorExprs, hcolumn]
  change tryFunction functions "jsonb_exists" [value, some (.string path)] = _
  have hname : functions.total.uppercase "jsonb_exists" = "JSONB_EXISTS" :=
    uppercase_of_chars _ (by rfl) (by decide)
  unfold tryFunction
  dsimp only
  rw [hname, if_neg (by decide), if_neg (by decide), if_neg (by decide), if_pos rfl]
  rcases value with _ | scalar
  · rfl
  · cases scalar <;> rfl

theorem try_jsonbPathEq (hcolumn : tryAccessorExpr functions get ctx column = some value)
    (path : String) (expected : Value Scalar) :
    tryAccessorExpr functions get ctx (jsonbPathEq column path expected) =
      onDocument value fun data => tryJsonbPathEq functions data path expected := by
  rw [jsonbPathEq, tryAccessorExpr, tryAccessorExprs, hcolumn]
  change tryFunction functions "jsonb_path_eq" [value, some (.string path), expected] = _
  have hname : functions.total.uppercase "jsonb_path_eq" = "JSONB_PATH_EQ" :=
    uppercase_of_chars _ (by rfl) (by decide)
  unfold tryFunction
  dsimp only
  rw [hname, if_neg (by decide), if_pos rfl]
  rcases value with _ | scalar
  · rfl
  · cases scalar <;> rfl

theorem try_jsonbContains (hcolumn : tryAccessorExpr functions get ctx column = some value)
    (path : String) (expected : Value Scalar) :
    tryAccessorExpr functions get ctx (jsonbContains column path expected) =
      onDocument value fun data => tryJsonbContains functions data path expected := by
  rw [jsonbContains, tryAccessorExpr, tryAccessorExprs, hcolumn]
  change tryFunction functions "jsonb_contains" [value, some (.string path), expected] = _
  have hname : functions.total.uppercase "jsonb_contains" = "JSONB_CONTAINS" :=
    uppercase_of_chars _ (by rfl) (by decide)
  unfold tryFunction
  dsimp only
  rw [hname, if_neg (by decide), if_neg (by decide), if_pos rfl]
  rcases value with _ | scalar
  · rfl
  · cases scalar <;> rfl

/-- What the lowered parts of a JSON predicate answer where no path leads into a document. -/
def partAnswers (value : Value Scalar) (predicate : JsonPredicate)
    (contains : Jsonb.JsonbValue → Bool) : List Bool :=
  (predicate.existence.map fun existence =>
      if predicate.path.isSome then !existence else existence == !Value.isNull value).toList ++
    (predicate.eq.map fun expected => predicate.path.isNone &&
      (evalBinaryOp .eq value (jsonbValueToLiteral expected)).isTrue).toList ++
    (predicate.contains.map contains).toList

theorem forall₂_toList {A B C : Type} {R : B → C → Prop} {f : A → B} {g : A → C} {o : Option A}
    (h : ∀ a ∈ o, R (f a) (g a)) : List.Forall₂ R (o.map f).toList (o.map g).toList := by
  cases o with
  | none => exact .nil
  | some a => exact .cons (h a rfl) .nil

theorem forall₂_trans {A B C : Type} {R : A → B → Prop} {S : B → C → Prop} {T : A → C → Prop}
    (h : ∀ a b c, R a b → S b c → T a c) {as : List A} {bs : List B} {cs : List C}
    (hab : List.Forall₂ R as bs) (hbc : List.Forall₂ S bs cs) : List.Forall₂ T as cs := by
  induction hab generalizing cs with
  | nil =>
    cases hbc
    exact .nil
  | cons hhead _ ih =>
    cases hbc with
    | cons hhead' htail' => exact .cons (h _ _ _ hhead hhead') (ih htail')

theorem forall₂_imp_mem {A B : Type} {R S : A → B → Prop} {as : List A} {bs : List B}
    (h : List.Forall₂ R as bs) (himp : ∀ a ∈ as, ∀ b, R a b → S a b) : List.Forall₂ S as bs := by
  induction h with
  | nil => exact .nil
  | cons hhead _ ih =>
    exact .cons (himp _ (List.mem_cons_self ..) _ hhead)
      (ih fun a ha => himp a (List.mem_cons_of_mem _ ha))

theorem exists_of_forall₂ {A B : Type} {R : A → B → Prop} {as : List A} {bs : List B} {a : A}
    (h : List.Forall₂ R as bs) (ha : a ∈ as) : ∃ b, R a b := by
  induction h with
  | nil => cases ha
  | cons hhead _ ih =>
    rcases List.mem_cons.mp ha with rfl | ha
    · exact ⟨_, hhead⟩
    · exact ih ha

theorem allM_some (answers : List Bool) : answers.allM some = some (answers.all id) := by
  induction answers with
  | nil => rfl
  | cons b answers ih =>
    cases b with
    | true => exact ih
    | false => rfl

/-- The parts that a JSON predicate is lowered to, one by one. -/
theorem answers_jsonParts {predicate : JsonPredicate} {contains : Jsonb.JsonbValue → Bool}
    (hcolumn : tryAccessorExpr functions get ctx column = some value)
    (hexists : ∀ path ∈ predicate.path, onDocument value (tryJsonbPathExists functions · path) =
      some (Value.boolean false))
    (heq : ∀ path ∈ predicate.path, ∀ expected,
      onDocument value (tryJsonbPathEq functions · path expected) = some (Value.boolean false))
    (hcontains : ∀ expected ∈ predicate.contains, ∀ scalar,
      jsonbValueToScalarValue expected = some scalar → Answers (some (contains expected))
        (onDocument value (tryJsonbContains functions · (predicate.path.getD "$") scalar))) :
    List.Forall₂ (fun answer part => ∀ expression, part = Except.ok expression →
        Answers (some answer) (tryAccessorExpr functions get ctx expression))
      (partAnswers value predicate contains) (buildJsonParts column predicate) := by
  refine List.rel_append (List.rel_append (forall₂_toList ?_) (forall₂_toList ?_))
    (forall₂_toList ?_)
  · rintro existence - expression ⟨⟩
    unfold buildExistsExpr
    cases hpath : predicate.path with
    | none =>
      cases existence with
      | true => exact ⟨_, by rw [if_pos rfl, tryAccessorExpr, hcolumn]; rfl, by cases value <;> rfl⟩
      | false =>
        exact ⟨_, by rw [if_neg nofun, tryAccessorExpr, hcolumn]; rfl, by cases value <;> rfl⟩
    | some path =>
      have hfalse := (try_jsonbExists hcolumn path).trans (hexists path hpath)
      cases existence with
      | true => exact ⟨_, hfalse, rfl⟩
      | false =>
        refine ⟨Value.boolean true, ?_, rfl⟩
        change tryAccessorExpr functions get ctx (.unaryOp .not (jsonbExists column path)) = _
        rw [tryAccessorExpr, hfalse]
        rfl
  · rintro expected - expression hpart
    unfold buildJsonEqExpr at hpart
    cases hpath : predicate.path with
    | none =>
      rw [hpath] at hpart
      cases hpart
      exact ⟨_, try_comparison hcolumn .eq nofun _, rfl⟩
    | some path =>
      rw [hpath] at hpart
      cases hscalar : jsonbValueToScalarValue expected with
      | none =>
        rw [hscalar] at hpart
        cases hpart
      | some scalar =>
        rw [hscalar] at hpart
        cases hpart
        exact ⟨_, (try_jsonbPathEq hcolumn path scalar).trans (heq path hpath scalar), rfl⟩
  · rintro expected hmem expression hpart
    unfold buildJsonContainsExpr at hpart
    cases hscalar : jsonbValueToScalarValue expected with
    | none =>
      rw [hscalar] at hpart
      cases hpart
    | some scalar =>
      rw [hscalar] at hpart
      cases hpart
      rw [try_jsonbContains hcolumn]
      exact hcontains expected hmem scalar hscalar

/-- A JSON predicate that is compiled asks for something. -/
theorem build_json {predicate : JsonPredicate}
    (hbuild : buildJsonPredicateExpr column predicate = .ok expression) :
    (predicate.existence ≠ none ∨ predicate.eq ≠ none ∨ predicate.contains ≠ none) ∧
      ∃ expressions, expression = andAll expressions ∧
        List.Forall₂ (fun part result => part = Except.ok result) (buildJsonParts column predicate)
          expressions := by
  unfold buildJsonPredicateExpr at hbuild
  cases hparts : (buildJsonParts column predicate).mapM id with
  | error e =>
    rw [hparts] at hbuild
    cases hbuild
  | ok expressions =>
    rw [hparts] at hbuild
    have hresults := forall₂_of_mapM hparts
    cases hempty : expressions.isEmpty with
    | true =>
      change (if expressions.isEmpty = true then _ else _) = _ at hbuild
      rw [hempty] at hbuild
      cases hbuild
    | false =>
      change (if expressions.isEmpty = true then _ else _) = _ at hbuild
      rw [hempty] at hbuild
      cases hbuild
      refine ⟨?_, expressions, rfl, hresults⟩
      by_contra hnone
      push Not at hnone
      obtain ⟨hexistence, heq, hcontains⟩ := hnone
      unfold buildJsonParts at hresults
      rw [hexistence, heq, hcontains] at hresults
      cases hresults
      cases hempty

theorem answers_json {predicate : JsonPredicate} {contains : Jsonb.JsonbValue → Bool}
    (hparts : List.Forall₂ (fun answer part => ∀ expression, part = Except.ok expression →
        Answers (some answer) (tryAccessorExpr functions get ctx expression))
      (partAnswers value predicate contains) (buildJsonParts column predicate))
    (hbuild : buildJsonPredicateExpr column predicate = .ok expression) :
    Answers (some ((partAnswers value predicate contains).all id))
      (tryAccessorExpr functions get ctx expression) := by
  obtain ⟨-, expressions, rfl, hresults⟩ := build_json hbuild
  rw [← allM_some]
  exact answers_andAll (forall₂_trans (fun _ _ _ h hresult => h _ hresult) hparts hresults)

variable {machine : Jsonb.Machine} {limit : Nat}

theorem accepted_iff (value : Value Scalar) (predicate : JsonPredicate) :
    (partAnswers value predicate fun _ => false).all id = true ↔
      AcceptedWithoutDocument value predicate := by
  obtain ⟨path, eq, contains, existence⟩ := predicate
  unfold partAnswers AcceptedWithoutDocument
  rw [List.all_append, List.all_append, Bool.and_eq_true, Bool.and_eq_true, and_comm]
  dsimp only
  refine and_congr ?_ (and_congr ?_ ?_)
  · cases contains with
    | none => exact iff_of_true rfl rfl
    | some expected => exact iff_of_false nofun nofun
  · cases existence with
    | none => exact iff_of_true rfl nofun
    | some existence =>
      simp
      cases path <;> cases existence <;> simp
  · cases eq with
    | none => exact iff_of_true rfl nofun
    | some expected => simp

/-- Without a document in the cell the filter fails, and the parts of the expression are true
only if they ask for nothing to be found. -/
theorem compared_noDocument (hcolumn : tryAccessorExpr functions get ctx column = some value)
    {predicate : JsonPredicate} (hvalue : ∀ data, value ≠ some (.jsonb data))
    (hbuild : buildJsonPredicateExpr column predicate = .ok expression) :
    Compared (matchesOp machine limit functions.chars value (.json predicate))
      (tryAccessorExpr functions get ctx expression)
      (OpMeets machine limit functions.chars value (.json predicate)) := by
  have hcall : ∀ call : Core.JsonbValue → Option (Value Scalar),
      onDocument value call = some (Value.boolean false) := by
    intro call
    rcases value with _ | scalar
    · rfl
    · cases scalar <;> first | rfl | exact absurd rfl (hvalue _)
  have hparts := @answers_jsonParts functions get ctx column value predicate (fun _ => false)
    hcolumn (fun _ _ => hcall _) (fun _ _ _ => hcall _) fun _ _ _ _ => ⟨_, hcall _, rfl⟩
  obtain ⟨v, hv, hanswer⟩ := answers_json hparts hbuild
  have hmatched : matchesOp machine limit functions.chars value (.json predicate) = some false := by
    rcases value with _ | scalar
    · rfl
    · cases scalar <;> first | rfl | exact absurd rfl (hvalue _)
  have hmeets : OpMeets machine limit functions.chars value (.json predicate) ↔
      ¬ AcceptedWithoutDocument value predicate := by
    rcases value with _ | scalar
    · exact Iff.rfl
    · cases scalar <;> first | exact Iff.rfl | exact absurd rfl (hvalue _)
  refine ⟨false, v, hmatched, hv, ?_⟩
  rw [hmeets, ← accepted_iff, Option.some.inj hanswer, Bool.not_eq_true, eq_comm]

/-- A path that cannot be read leads nowhere in both readings. -/
theorem onJsonPath_unreadable {path : String} (h : ¬ PathParses functions.chars path)
    (data : Core.JsonbValue) (raw : SimpleJsonPath → Bool) (test : List Jsonb.JsonbValue → Bool) :
    onJsonPath functions data path raw test = some (Value.boolean false) := by
  unfold PathParses at h
  cases hparse : JsonPath.parse functions.chars path with
  | ok parsed =>
    rw [hparse] at h
    exact absurd rfl h
  | error e =>
    unfold onJsonPath SimpleJsonPath.parse
    rw [hparse]
    dsimp only [Except.toOption, Option.bind_none]
    cases functions.parseJsonBytes data <;> rfl

theorem compared_unreadable {data : Core.JsonbValue} {json : Jsonb.JsonbValue} {path : String}
    (hcolumn : tryAccessorExpr functions get ctx column = some (some (.jsonb data)))
    {predicate : JsonPredicate} (hpath : predicate.path = some path)
    (hparse : ¬ PathParses functions.chars path)
    (hdecode : decodeCell machine limit data.data = some json)
    (hbuild : buildJsonPredicateExpr column predicate = .ok expression) :
    Compared (matchesOp machine limit functions.chars (some (.jsonb data)) (.json predicate))
      (tryAccessorExpr functions get ctx expression)
      (OpMeets machine limit functions.chars (some (.jsonb data)) (.json predicate)) := by
  have hcall := onJsonPath_unreadable hparse data
  have hfind {other : String} (hother : other ∈ predicate.path) : other = path :=
    Option.some.inj (hother.symm.trans hpath)
  have hparts := @answers_jsonParts functions get ctx column _ predicate (fun _ => false) hcolumn
    (fun other hother => hfind hother ▸ hcall _ _) (fun other hother _ => hfind hother ▸ hcall _ _)
    fun _ _ _ _ => ⟨_, by rw [hpath]; exact hcall _ _, rfl⟩
  obtain ⟨hasked, -⟩ := build_json hbuild
  obtain ⟨v, hv, hanswer⟩ := answers_json hparts hbuild
  refine ⟨false, v, ?_, hv, ?_⟩
  · unfold matchesOp matchesJsonPredicate
    dsimp only
    rw [hdecode, hpath]
    unfold PathParses at hparse
    cases hresult : JsonPath.parse functions.chars path with
    | ok parsed =>
      rw [hresult] at hparse
      exact absurd rfl hparse
    | error e => simp [hresult]
  · have hmeets : OpMeets machine limit functions.chars (some (.jsonb data)) (.json predicate) ↔
        ¬ (predicate.existence = some false ∧ predicate.eq = none ∧ predicate.contains = none) := by
      change DocumentMeets machine limit functions.chars data predicate ↔ _
      unfold DocumentMeets
      rw [hpath]
      refine ⟨fun ⟨_, _, _, h⟩ => h, fun h => ⟨json, hdecode, hparse, h⟩⟩
    have hall : (partAnswers (some (.jsonb data)) predicate fun _ => false).all id = true ↔
        predicate.existence = some false ∧ predicate.eq = none ∧ predicate.contains = none := by
      refine (accepted_iff _ predicate).trans ?_
      unfold AcceptedWithoutDocument
      rw [hpath]
      cases hexistence : predicate.existence <;> cases heq : predicate.eq <;>
        cases hcontains : predicate.contains <;> simp_all
    rw [hmeets, ← hall, Option.some.inj hanswer, Bool.not_eq_true, eq_comm]

theorem isTrue_eq_document (data : Core.JsonbValue) (literal : Value Scalar) :
    (evalBinaryOp .eq (some (.jsonb data)) literal).isTrue = true ↔ literal = some (.jsonb data) := by
  rcases literal with _ | scalar
  · exact iff_of_false nofun nofun
  · cases scalar with
    | jsonb other =>
      change (data == other) = true ↔ _
      rw [beq_iff_eq]
      exact ⟨fun h => h ▸ rfl, fun h => by cases h; rfl⟩
    | _ => exact iff_of_false nofun nofun

theorem compared_wholeDocument {data : Core.JsonbValue} {json : Jsonb.JsonbValue}
    (hcolumn : tryAccessorExpr functions get ctx column = some (some (.jsonb data)))
    {predicate : JsonPredicate} (hpath : predicate.path = none)
    (hread : predicate.contains.isSome = true → predicate.existence = some false)
    (hdecode : decodeCell machine limit data.data = some json)
    (hbuild : buildJsonPredicateExpr column predicate = .ok expression) :
    Compared (matchesOp machine limit functions.chars (some (.jsonb data)) (.json predicate))
      (tryAccessorExpr functions get ctx expression)
      (OpMeets machine limit functions.chars (some (.jsonb data)) (.json predicate)) := by
  have hparts := @answers_jsonParts functions get ctx column _ predicate
    (fun expected => (jsonbValueToScalarValue expected).any (functions.rawContains data ⟨[]⟩ ·))
    hcolumn (fun _ h => nomatch hpath.symm.trans h) (fun _ h => nomatch hpath.symm.trans h)
    fun _ _ scalar hscalar => by rw [hpath, hscalar]; exact ⟨_, rfl, rfl⟩
  obtain ⟨v, hv, hanswer⟩ := answers_json hparts hbuild
  refine ⟨matchesTarget (some json) predicate, v, ?_, hv, ?_⟩
  · unfold matchesOp matchesJsonPredicate
    dsimp only
    rw [hdecode, hpath]
    rfl
  · rw [← Option.some.inj hanswer]
    change DocumentMeets machine limit functions.chars data predicate ↔ _
    have hmeets : DocumentMeets machine limit functions.chars data predicate ↔
        predicate.existence = some false ∨ (predicate.contains = none ∧ ∀ expected ∈ predicate.eq,
          (json.eq expected = true ↔ jsonbValueToLiteral expected = some (.jsonb data))) := by
      unfold DocumentMeets
      rw [hpath]
      exact ⟨fun ⟨other, hother, h⟩ => Option.some.inj (hdecode.symm.trans hother) ▸ h,
        fun h => ⟨json, hdecode, h⟩⟩
    rw [hmeets]
    have hliteral := isTrue_eq_document data
    obtain ⟨path, eq, contains, existence⟩ := predicate
    cases hpath
    unfold matchesTarget partAnswers
    rcases existence with _ | _ | _
    · cases contains with
      | some expected => cases hread rfl
      | none =>
        cases eq with
        | none => exact iff_of_true (.inr ⟨rfl, nofun⟩) rfl
        | some expected =>
          rw [Bool.eq_iff_iff]
          simp [hliteral]
    · exact iff_of_true (.inl rfl) (by simp)
    · cases contains with
      | some expected => cases hread rfl
      | none =>
        cases eq with
        | none => exact iff_of_true (.inr ⟨rfl, nofun⟩) rfl
        | some expected =>
          rw [Bool.eq_iff_iff]
          simp [hliteral]

/-- What every operation answers, unless the cell is read twice. -/
theorem compared (hcolumn : tryAccessorExpr functions get ctx column = some value)
    {op : PredicateOp} (hread : ¬ ReadTwice machine limit functions.chars value op)
    (hbuild : buildPredicateExpr column op = .ok expression) :
    Compared (matchesOp machine limit functions.chars value op)
      (tryAccessorExpr functions get ctx expression)
      (OpMeets machine limit functions.chars value op) := by
  by_cases hop : ∃ predicate, op = .json predicate
  · obtain ⟨predicate, rfl⟩ := hop
    by_cases hvalue : ∃ data, value = some (.jsonb data)
    · obtain ⟨data, rfl⟩ := hvalue
      cases hdecode : decodeCell machine limit data.data with
      | none => exact absurd ⟨data, rfl, .inl hdecode⟩ hread
      | some json =>
        cases hpath : predicate.path with
        | none =>
          refine compared_wholeDocument hcolumn hpath (fun hcontains => ?_) hdecode hbuild
          by_contra hexistence
          exact hread ⟨data, rfl, .inr (.inr ⟨hpath, hcontains, hexistence⟩)⟩
        | some path =>
          refine compared_unreadable hcolumn hpath (fun hparse => ?_) hdecode hbuild
          exact hread ⟨data, rfl, .inr (.inl ⟨path, hpath, hparse⟩)⟩
    · exact compared_noDocument hcolumn (fun data h => hvalue ⟨data, h⟩) hbuild
  · exact compared_op hcolumn (fun predicate h => hop ⟨predicate, h⟩) hbuild

theorem not_readTwice_of_meets {chars : CharClasses} {op : PredicateOp}
    (h : OpMeets machine limit chars value op) : ¬ ReadTwice machine limit chars value op := by
  cases op with
  | json predicate =>
    rintro ⟨data, rfl, hread⟩
    obtain ⟨json, hdecode, hmeets⟩ := h
    rcases hread with hnone | ⟨path, hpath, hparse⟩ | ⟨hpath, hcontains, hexistence⟩
    · exact nomatch hdecode.symm.trans hnone
    · rw [show predicate.path = some path from hpath] at hmeets
      exact hmeets.1 hparse
    · rw [hpath] at hmeets
      rcases hmeets with hfalse | ⟨hnone, -⟩
      · exact hexistence hfalse
      · rw [hnone] at hcontains
        cases hcontains
  | _ => exact id

end Json

end Cynos.Gql
