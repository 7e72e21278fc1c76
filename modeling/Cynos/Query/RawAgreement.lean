import Cynos.Jsonb.RawProbe
import Cynos.Query.Checked
import Cynos.Query.JsonAgreement
import Cynos.Storage.GinExtract

/-! A simple path followed on the text of a document and on its parsed value: what is found there
passes the same tests, where no object on the way has a key twice or one with a colon. -/
namespace Cynos.Query

open Core (Scalar Value parseF64)
open Json (Blank Key StringItem Doc Elements Members nullMember quoted stringText)
open Jsonb (JsonPath JsonbObject SimpleJsonPath SimpleJsonPathSegment lightRead memberText
  rawJsonEqValue rawJsonContainsValue trimJson follow step firstNamed)
open Storage (JsonbFormats stringifyForContains)

section Follow

def valueStep (json : Jsonb.JsonbValue) : SimpleJsonPathSegment → Option Jsonb.JsonbValue
  | .field name => json.asObject.bind (JsonbObject.get · name)
  | .index position => json.asArray.bind (·[position]?)

/-- A simple path selects at most one value. -/
theorem evalPath_simple (json : Jsonb.JsonbValue) (path : JsonPath)
    {segments : List SimpleJsonPathSegment}
    (h : SimpleJsonPath.collectSegments path = some segments) :
    Jsonb.evalPath json path = some (segments.foldlM valueStep json).toList := by
  induction path generalizing segments with
  | root =>
    obtain rfl := Option.some.inj h
    rfl
  | field parent name ih =>
    obtain ⟨before, hparent, hsegments⟩ := Option.bind_eq_some_iff.mp h
    obtain rfl := Option.some.inj hsegments
    rw [Jsonb.evalPath, ih hparent, List.foldlM_append]
    cases before.foldlM valueStep json with
    | none => rfl
    | some value => simp [valueStep]
  | index parent position ih =>
    obtain ⟨before, hparent, hsegments⟩ := Option.bind_eq_some_iff.mp h
    obtain rfl := Option.some.inj hsegments
    rw [Jsonb.evalPath, ih hparent, List.foldlM_append]
    cases before.foldlM valueStep json with
    | none => rfl
    | some value => simp [valueStep]
  | _ => cases h

/-- Where both ways find the same value: an object is entered under a key that it has once at
most, and has no key with a colon. -/
def ClearStep (d : Doc) : SimpleJsonPathSegment → Prop
  | .field name => ∀ ms, d = .object ms → (∀ entry ∈ ms.entries, NoColon entry.1.name) ∧
      (ms.entries.filter fun entry => lightRead entry.1.name == name).length ≤ 1
  | .index _ => True

/-- The same at every step of a path. -/
def Clear : List SimpleJsonPathSegment → Doc → Prop
  | [], _ => True
  | segment :: segments, d =>
    ClearStep d segment ∧ ∀ next, step d segment = some next → Clear segments next

/-- The value of a text that the runner parses. -/
def Parses (d : Doc) (json : Jsonb.JsonbValue) : Prop := parseJsonStr d.text = some json

theorem parses_scalar {d : Doc} {json : Jsonb.JsonbValue} (h : Parses d json)
    (hd : ∀ ms, d ≠ .object ms) (hd' : ∀ blank, d ≠ .emptyObject blank) : json.asObject = none := by
  unfold Parses at h
  cases d with
  | null =>
    rw [parseJsonStr.eq_def] at h
    exact Option.some.inj h ▸ rfl
  | bool b =>
    rw [parseJsonStr.eq_def] at h
    cases b <;> exact Option.some.inj h ▸ rfl
  | number n =>
    rw [parseJsonStr_number] at h
    exact Option.some.inj h ▸ rfl
  | string items =>
    rw [Doc.text, parseJsonStr_quoted] at h
    exact Option.some.inj h ▸ rfl
  | emptyArray blank =>
    rw [parseJsonStr_emptyArray] at h
    exact Option.some.inj h ▸ rfl
  | array es =>
    rw [parseJsonStr_elements] at h
    exact Option.some.inj h ▸ rfl
  | emptyObject blank => exact absurd rfl (hd' blank)
  | object ms => exact absurd rfl (hd ms)

theorem parses_noArray {d : Doc} {json : Jsonb.JsonbValue} (h : Parses d json)
    (hd : ∀ es, d ≠ .array es) (hd' : ∀ blank, d ≠ .emptyArray blank) : json.asArray = none := by
  unfold Parses at h
  cases d with
  | null =>
    rw [parseJsonStr.eq_def] at h
    exact Option.some.inj h ▸ rfl
  | bool b =>
    rw [parseJsonStr.eq_def] at h
    cases b <;> exact Option.some.inj h ▸ rfl
  | number n =>
    rw [parseJsonStr_number] at h
    exact Option.some.inj h ▸ rfl
  | string items =>
    rw [Doc.text, parseJsonStr_quoted] at h
    exact Option.some.inj h ▸ rfl
  | emptyArray blank => exact absurd rfl (hd' blank)
  | array es => exact absurd rfl (hd es)
  | emptyObject blank =>
    rw [parseJsonStr_emptyObject] at h
    exact Option.some.inj h ▸ rfl
  | object ms =>
    rw [parseJsonStr_members] at h
    exact Option.some.inj h ▸ rfl

/-- The member that is found first on the text is the one the parsed object keeps. -/
theorem member_parses {ms : Members} {json : Jsonb.JsonbValue} {name : String}
    (hcolon : ∀ entry ∈ ms.entries, NoColon entry.1.name)
    (honce : (ms.entries.filter fun entry => lightRead entry.1.name == name).length ≤ 1)
    (h : Parses (.object ms) json) :
    Option.Rel Parses ((firstNamed name ms.entries).map fun entry => entry.2)
      (json.asObject.bind (JsonbObject.get · name)) := by
  obtain ⟨parsed, hparsed⟩ := Classical.skolem.mp parseJsonStr_total
  have hmembers : (ms.entries.filterMap fun entry => memberOf (memberText entry.1 entry.2)) =
      ms.entries.map fun entry => (lightRead entry.1.name, parsed entry.2) := by
    rw [← List.filterMap_eq_map]
    refine List.filterMap_congr fun entry hentry => ?_
    rw [memberOf_text _ _ (hcolon entry hentry), hparsed]
    rfl
  unfold Parses at h
  rw [parseJsonStr_members, hmembers] at h
  obtain rfl := Option.some.inj h
  change Option.Rel Parses _ (JsonbObject.get (JsonbObject.ofMembers _) name)
  rw [JsonbObject.get_ofMembers, ← List.map_reverse, List.find?_map]
  have hfind : ms.entries.reverse.find? ((fun member : String × Jsonb.JsonbValue => member.1 == name) ∘
      fun entry => (lightRead entry.1.name, parsed entry.2)) = firstNamed name ms.entries :=
    JsonbObject.find?_of_once honce
  rw [hfind]
  cases firstNamed name ms.entries with
  | none => exact .none
  | some entry => exact .some (hparsed entry.2)

/-- One step leads to the same value on both sides. -/
theorem step_parses {d : Doc} {json : Jsonb.JsonbValue} {segment : SimpleJsonPathSegment}
    (hclear : ClearStep d segment) (h : Parses d json) :
    Option.Rel Parses (step d segment) (valueStep json segment) := by
  cases segment with
  | field name =>
    have hother (hd : ∀ ms, d ≠ .object ms) (hd' : ∀ blank, d ≠ .emptyObject blank)
        (hstep : step d (.field name) = none) :
        Option.Rel Parses (step d (.field name)) (valueStep json (.field name)) := by
      rw [hstep, valueStep, parses_scalar h hd hd']
      exact .none
    cases d with
    | object ms =>
      obtain ⟨hcolon, honce⟩ := hclear ms rfl
      exact member_parses hcolon honce h
    | emptyObject blank =>
      unfold Parses at h
      rw [parseJsonStr_emptyObject] at h
      obtain rfl := Option.some.inj h
      exact .none
    | _ => exact hother (fun ms hms => by cases hms) (fun blank hblank => by cases hblank) rfl
  | index position =>
    have hother (hd : ∀ es, d ≠ .array es) (hd' : ∀ blank, d ≠ .emptyArray blank)
        (hstep : step d (.index position) = none) :
        Option.Rel Parses (step d (.index position)) (valueStep json (.index position)) := by
      rw [hstep, valueStep, parses_noArray h hd hd']
      exact .none
    cases d with
    | array es =>
      obtain ⟨parsed, hparsed⟩ := Classical.skolem.mp parseJsonStr_total
      have hdocs : (es.docs.filterMap fun value => parseJsonStr value.text) = es.docs.map parsed := by
        simp only [hparsed, List.filterMap_eq_map']
      unfold Parses at h
      rw [parseJsonStr_elements, hdocs] at h
      obtain rfl := Option.some.inj h
      change Option.Rel Parses es.docs[position]? (es.docs.map parsed)[position]?
      rw [List.getElem?_map]
      cases es.docs[position]? with
      | none => exact .none
      | some value => exact .some (hparsed value)
    | emptyArray blank =>
      unfold Parses at h
      rw [parseJsonStr_emptyArray] at h
      obtain rfl := Option.some.inj h
      exact .none
    | _ => exact hother (fun es hes => by cases hes) (fun blank hblank => by cases hblank) rfl

/-- And so does a whole path. -/
theorem follow_parses {segments : List SimpleJsonPathSegment} {d : Doc} {json : Jsonb.JsonbValue}
    (hclear : Clear segments d) (h : Parses d json) :
    Option.Rel Parses (segments.foldlM step d) (segments.foldlM valueStep json) := by
  induction segments generalizing d json with
  | nil => exact .some h
  | cons segment segments ih =>
    obtain ⟨hstep, hrest⟩ := hclear
    have hrel := step_parses hstep h
    rw [List.foldlM_cons, List.foldlM_cons]
    cases hnext : step d segment with
    | none =>
      rw [hnext] at hrel
      cases hvalue : valueStep json segment with
      | none => exact .none
      | some value =>
        rw [hvalue] at hrel
        cases hrel
    | some next =>
      rw [hnext] at hrel
      cases hvalue : valueStep json segment with
      | none =>
        rw [hvalue] at hrel
        cases hrel
      | some value =>
        rw [hvalue] at hrel
        cases hrel with
        | some hparses => exact ih (hrest next hnext) hparses

end Follow

section Tests

theorem isQuoted_false {c : Char} {text : List Char} (hc : c ≠ '"') :
    Jsonb.isQuoted (c :: text) = false := by
  simp [Jsonb.isQuoted, hc]

/-- A text in brackets passes no test for a scalar. -/
theorem rawJsonEqValue_brackets {first last : Char} {body : List Char}
    (htight : Core.Tight (first :: body ++ [last])) (hfirst : first = '{' ∨ first = '[')
    (expected : Value Scalar) : rawJsonEqValue (first :: body ++ [last]) expected = false := by
  have hnumber : parseF64 (first :: body ++ [last]) = none := by
    rcases hfirst with rfl | rfl <;>
      exact Core.parseF64_none (by decide) (by decide) (by decide) (by decide)
  have hquoted : Jsonb.isQuoted (first :: body ++ [last]) = false := by
    refine isQuoted_false ?_
    rcases hfirst with rfl | rfl <;> decide
  have hword : first ≠ 'n' ∧ first ≠ 't' ∧ first ≠ 'f' := by
    rcases hfirst with rfl | rfl <;> decide
  unfold rawJsonEqValue
  rw [Jsonb.trimJson_tight htight]
  rcases expected with _ | value
  · simp [hword.1]
  · cases value with
    | boolean b => cases b <;> simp [hword]
    | string value =>
      simp only [Jsonb.decodeJsonStringLiteral, Jsonb.trimJson_tight htight, hquoted]
      rfl
    | int32 n => exact congrArg (Option.any _) hnumber
    | int64 n => exact congrArg (Option.any _) hnumber
    | float64 n => exact congrArg (Option.any _) hnumber
    | _ => rfl

/-- A word passes the test for the value it stands for and no other. -/
theorem rawJsonEqValue_word {first : Char} {word : List Char} {json : Jsonb.JsonbValue}
    (htight : Core.Tight (first :: word)) (hnumber : parseF64 (first :: word) = none)
    (hquote : first ≠ '"')
    (hnull : decide (first :: word = ['n', 'u', 'l', 'l']) = compareJsonbValue json none)
    (hbool : ∀ b : Bool, decide (first :: word = if b then ['t', 'r', 'u', 'e'] else
      ['f', 'a', 'l', 's', 'e']) = compareJsonbValue json (some (.boolean b)))
    (hother : ∀ value : Scalar, (∀ b, value ≠ .boolean b) →
      compareJsonbValue json (some value) = false)
    (expected : Value Scalar) :
    rawJsonEqValue (first :: word) expected = compareJsonbValue json expected := by
  unfold rawJsonEqValue
  rw [Jsonb.trimJson_tight htight]
  rcases expected with _ | value
  · exact hnull
  · cases value with
    | boolean b => exact hbool b
    | string value =>
      rw [hother _ fun b => by simp]
      simp only [Jsonb.decodeJsonStringLiteral, Jsonb.trimJson_tight htight, isQuoted_false hquote]
      rfl
    | int32 n =>
      rw [hother _ fun b => by simp]
      simp only [Jsonb.rawJsonNumberEq, hnumber]
      rfl
    | int64 n =>
      rw [hother _ fun b => by simp]
      simp only [Jsonb.rawJsonNumberEq, hnumber]
      rfl
    | float64 n =>
      rw [hother _ fun b => by simp]
      simp only [Jsonb.rawJsonNumberEq, hnumber]
      rfl
    | _ => rw [hother _ fun b => by simp]

theorem rawJsonEqValue_string (items : List StringItem) (expected : Value Scalar) :
    rawJsonEqValue (quoted items) expected =
      compareJsonbValue (.string (lightRead items)) expected := by
  have hnumber : parseF64 (quoted items) = none :=
    Core.parseF64_none (by decide) (by decide) (by decide) (by decide)
  unfold rawJsonEqValue
  rw [Jsonb.trimJson_tight (Json.quoted_tight items)]
  rcases expected with _ | value
  · simp [quoted, compareJsonbValue]
  · cases value with
    | boolean b => cases b <;> simp [quoted, compareJsonbValue]
    | string value =>
      simp only [Jsonb.decodeJsonStringLiteral_quoted]
      rfl
    | _ => simp [Jsonb.rawJsonNumberEq, hnumber, compareJsonbValue]

theorem rawJsonEqValue_number (n : Json.Numeral) (expected : Value Scalar) :
    rawJsonEqValue n.text expected =
      compareJsonbValue (.number (Core.numeralValue n)) expected := by
  obtain ⟨first, rest, htext, hfirst⟩ := Core.numeralText_head n
  have hparse := Core.parseF64_text n
  have htight : Core.Tight n.text := (Doc.number n).tight
  have hword : first ≠ 'n' ∧ first ≠ 't' ∧ first ≠ 'f' ∧ first ≠ '"' := by
    refine ⟨?_, ?_, ?_, ?_⟩ <;>
      · rintro rfl
        exact absurd hfirst (by decide)
  unfold rawJsonEqValue
  rw [Jsonb.trimJson_tight htight]
  rcases expected with _ | value
  · rw [htext]
    simp [hword.1, compareJsonbValue]
  · cases value with
    | boolean b =>
      rw [htext]
      cases b <;> simp [hword, compareJsonbValue]
    | string value =>
      simp only [Jsonb.decodeJsonStringLiteral, Jsonb.trimJson_tight htight]
      rw [htext, isQuoted_false hword.2.2.2]
      rfl
    | _ => simp [Jsonb.rawJsonNumberEq, hparse, compareJsonbValue]

/-- The test for a scalar comes out the same on the text and on its value. -/
theorem rawJsonEqValue_text {d : Doc} {json : Jsonb.JsonbValue} (h : Parses d json)
    (expected : Value Scalar) :
    rawJsonEqValue d.text expected = compareJsonbValue json expected := by
  have hcomposite : ∀ {json : Jsonb.JsonbValue}, (json.asArray.isSome ∨ json.asObject.isSome) →
      compareJsonbValue json expected = false := by
    intro json hjson
    cases json with
    | array items => rcases expected with _ | _ | _ <;> rfl
    | object obj => rcases expected with _ | _ | _ <;> rfl
    | _ => simp [Jsonb.JsonbValue.asArray, Jsonb.JsonbValue.asObject] at hjson
  have htight := d.tight
  unfold Parses at h
  cases d with
  | null =>
    rw [parseJsonStr.eq_def] at h
    obtain rfl := Option.some.inj h
    exact rawJsonEqValue_word htight (by decide +kernel) (by decide) rfl
      (fun b => by cases b <;> rfl)
      (fun value _ => by cases value <;> rfl) expected
  | bool b =>
    cases b with
    | false =>
      rw [parseJsonStr.eq_def] at h
      obtain rfl := Option.some.inj h
      exact rawJsonEqValue_word htight (by decide +kernel) (by decide) rfl
        (fun b => by cases b <;> rfl)
        (fun value hvalue => by cases value <;> first | rfl | exact absurd rfl (hvalue _)) expected
    | true =>
      rw [parseJsonStr.eq_def] at h
      obtain rfl := Option.some.inj h
      exact rawJsonEqValue_word htight (by decide +kernel) (by decide) rfl
        (fun b => by cases b <;> rfl)
        (fun value hvalue => by cases value <;> first | rfl | exact absurd rfl (hvalue _)) expected
  | number n =>
    rw [parseJsonStr_number] at h
    obtain rfl := Option.some.inj h
    exact rawJsonEqValue_number n expected
  | string items =>
    rw [Doc.text, parseJsonStr_quoted] at h
    obtain rfl := Option.some.inj h
    exact rawJsonEqValue_string items expected
  | emptyArray blank =>
    rw [parseJsonStr_emptyArray] at h
    obtain rfl := Option.some.inj h
    rw [hcomposite (.inl rfl)]
    exact rawJsonEqValue_brackets htight (.inr rfl) expected
  | array es =>
    rw [parseJsonStr_elements] at h
    obtain rfl := Option.some.inj h
    rw [hcomposite (.inl rfl)]
    exact rawJsonEqValue_brackets htight (.inr rfl) expected
  | emptyObject blank =>
    rw [parseJsonStr_emptyObject] at h
    obtain rfl := Option.some.inj h
    rw [hcomposite (.inr rfl)]
    exact rawJsonEqValue_brackets htight (.inl rfl) expected
  | object ms =>
    rw [parseJsonStr_members] at h
    obtain rfl := Option.some.inj h
    rw [hcomposite (.inr rfl)]
    exact rawJsonEqValue_brackets htight (.inl rfl) expected

/-- The values that are searched as the text shows them: words, strings, and numbers written as
they are displayed. -/
def Searchable (formats : JsonbFormats) (d : Doc) : Prop :=
  match d with
  | .null | .bool _ | .string _ => True
  | .number n => (formats.displayF64 (Core.numeralValue n)).toList = n.text
  | _ => False

/-- The search comes out the same on the text and on its value. -/
theorem rawJsonContainsValue_text {functions : CheckedFunctions} {formats : JsonbFormats}
    (hstringify : functions.stringifyForContains = stringifyForContains formats) {d : Doc}
    {json : Jsonb.JsonbValue} (h : Parses d json) {expected : Value Scalar}
    (hsearch : ∀ needle, expected = some (.string needle) → Searchable formats d) :
    rawJsonContainsValue d.text expected = containsJsonbValue functions json expected := by
  have hscalar (hcontains : ∀ needle, expected ≠ some (.string needle)) :
      rawJsonContainsValue d.text expected = containsJsonbValue functions json expected := by
    have heq := rawJsonEqValue_text h expected
    rcases expected with _ | value
    · exact heq
    · cases value with
      | string needle => exact absurd rfl (hcontains needle)
      | _ => exact heq
  by_cases hcontains : ∃ needle, expected = some (.string needle)
  · obtain ⟨needle, rfl⟩ := hcontains
    have hsearchable := hsearch needle rfl
    have hplain (hhead : d.text.head? ≠ some '"')
        (htext : (stringifyForContains formats json).toList = d.text) :
        rawJsonContainsValue d.text (some (.string needle)) =
          containsJsonbValue functions json (some (.string needle)) := by
      simp only [rawJsonContainsValue, containsJsonbValue, Jsonb.trimJson_tight d.tight, hstringify,
        htext, if_neg hhead]
    unfold Parses at h
    cases d with
    | null =>
      rw [parseJsonStr.eq_def] at h
      obtain rfl := Option.some.inj h
      exact hplain (by decide) (by simp [stringifyForContains, Doc.text])
    | bool b =>
      rw [parseJsonStr.eq_def] at h
      cases b <;>
        · obtain rfl := Option.some.inj h
          exact hplain (by decide) (by simp [stringifyForContains, Doc.text])
    | number n =>
      rw [parseJsonStr_number] at h
      obtain rfl := Option.some.inj h
      refine hplain ?_ hsearchable
      obtain ⟨first, rest, htext, hfirst⟩ := Core.numeralText_head n
      intro hhead
      rw [Doc.text, htext] at hhead
      obtain rfl := Option.some.inj hhead
      exact absurd hfirst (by decide)
    | string items =>
      rw [Doc.text, parseJsonStr_quoted] at h
      obtain rfl := Option.some.inj h
      have hquote : (quoted items).head? = some '"' := rfl
      simp only [rawJsonContainsValue, containsJsonbValue, Doc.text,
        Jsonb.trimJson_tight (Json.quoted_tight items), hstringify, hquote, if_true,
        Jsonb.decodeJsonStringLiteral_quoted, stringifyForContains]
      exact decide_eq_decide.mpr Iff.rfl
    | _ => exact absurd hsearchable id
  · exact hscalar fun needle hneedle => hcontains ⟨needle, hneedle⟩

/-- What the evaluator finds on the text along a simple path passes the tests that the value
found after parsing passes. -/
theorem rawTests_agree {functions : CheckedFunctions} {formats : JsonbFormats}
    (hstringify : functions.stringifyForContains = stringifyForContains formats) (d : Doc)
    (before after : Blank) {path : JsonPath} {simple : SimpleJsonPath}
    (hsimple : SimpleJsonPath.fromJsonPath path = some simple) (hclear : Clear simple.segments d) :
    let text := before.chars ++ d.text ++ after.chars
    ∃ json results, parseJsonStr text = some json ∧ json.query path = some results ∧
      (simple.extract text).isSome = !results.isEmpty ∧
      (∀ expected, (simple.extract text).any (rawJsonEqValue · expected) =
        results.head?.any (compareJsonbValue · expected)) ∧
      ∀ expected, (∀ found ∈ follow simple d, ∀ needle, expected = some (.string needle) →
          Searchable formats found) →
        (simple.extract text).any (rawJsonContainsValue · expected) =
          results.head?.any (containsJsonbValue functions · expected) := by
  obtain ⟨json, hjson⟩ := parseJsonStr_total d
  obtain ⟨segments, hsegments, rfl⟩ := Option.map_eq_some_iff.mp hsimple
  have hrel := follow_parses hclear hjson
  have hfollow : follow ⟨segments⟩ d = segments.foldlM step d := rfl
  refine ⟨json, _, (parseJsonStr_trim (Jsonb.trim_value before d after)
    d.tight).trans hjson, evalPath_simple json path hsegments, ?_⟩
  rw [Jsonb.extract_text, hfollow]
  cases hfound : segments.foldlM step d with
  | none =>
    rw [hfound] at hrel
    cases hvalue : segments.foldlM valueStep json with
    | none => exact ⟨rfl, fun _ => rfl, fun _ _ => rfl⟩
    | some value =>
      rw [hvalue] at hrel
      cases hrel
  | some found =>
    rw [hfound] at hrel
    cases hvalue : segments.foldlM valueStep json with
    | none =>
      rw [hvalue] at hrel
      cases hrel
    | some value =>
      rw [hvalue] at hrel
      cases hrel with
      | some hparses =>
        exact ⟨rfl, fun expected => rawJsonEqValue_text hparses expected, fun expected hsearch =>
          rawJsonContainsValue_text hstringify hparses (hsearch found rfl)⟩

theorem nullMember_tests :
    let functions : CheckedFunctions := ⟨id, id, fun _ _ => false, .ascii, fun _ => none,
      stringifyForContains ⟨toString, fun _ => ""⟩, fun _ _ _ => false, fun _ _ _ => false,
      fun _ _ => false⟩
    ∃ json results, parseJsonStr nullMember.text = some json ∧
      json.query (.field .root "a") = some results ∧ results ≠ [] ∧
      results.head?.any (containsJsonbValue functions · (some (.string "ul"))) = true := by
  intro functions
  have hclear : Clear [.field "a"] nullMember := by
    refine ⟨fun ms hms => ?_, fun _ _ => trivial⟩
    obtain rfl := Doc.object.inj hms
    refine ⟨fun entry hentry => ?_, by decide⟩
    obtain rfl := List.mem_singleton.mp hentry
    exact show ':' ∉ stringText [.plain 'a' _] by decide
  obtain ⟨json, results, hjson, hresults, hexists, -, hcontains⟩ :=
    @rawTests_agree functions ⟨toString, fun _ => ""⟩ rfl nullMember .none .none
      (.field .root "a") ⟨[.field "a"]⟩ rfl hclear
  have hfound : follow ⟨[.field "a"]⟩ nullMember = some .null := by rfl
  rw [Jsonb.extract_text, hfound] at hexists hcontains
  refine ⟨json, results, ?_, hresults, ?_, ?_⟩
  · rw [← hjson]
    simp [Blank.none]
  · rintro rfl
    cases hexists
  · rw [← hcontains _ fun found hd needle _ => by
      obtain rfl := Option.some.inj hd
      trivial]
    decide

end Tests

end Cynos.Query
