import Cynos.Gql.Bind
import Mathlib.Tactic.IntervalCases

/-! What the cells stand for that input values are coerced to. -/
namespace Cynos.Gql

open Core (DataType Scalar Value Spells isWhitespace trim spells_of_parseI64)
open Bytes (utf8Bytes ofUtf8?)
open Query (parseJsonStr)
open Jsonb (parseJsonText unescapeJson encodeValue)

variable {value : InputValue} {cell : Value Scalar} {dataType : DataType}

section Denotes

/-- The number that a value stands for. -/
def numberOf : InputValue → Option ℚ
  | .int n => some (n.toInt : ℚ)
  | .float x => Binary64.value x
  | _ => none

/-- The text of a cell is parsed as the value by the functions on paths and by the indexes. -/
def ReadsAs (data : List UInt8) (json : Jsonb.JsonbValue) : Prop :=
  ∃ text, ofUtf8? data = some text ∧ parseJsonStr text.toList = some json ∧
    parseJsonText unescapeJson text.toList = some json

/-- A list of whole numbers that are bytes. -/
def AreBytes (values : List InputValue) (bytes : List UInt8) : Prop :=
  List.Forall₂ (fun value byte => ∃ n, value = .int n ∧ n.toInt = byte.toNat) values bytes

/-- A cell that stands for the same as the value. -/
def Denotes (value : InputValue) : Value Scalar → Prop
  | none => value = .null
  | some (.boolean b) => value = .boolean b
  | some (.int32 n) => numberOf value = some (n.toInt : ℚ)
  | some (.int64 n) => numberOf value = some (n.toInt : ℚ)
  | some (.float64 x) => value = .float x ∨ ∃ n, value = .int n ∧ Binary64.value x = some (n.toInt : ℚ)
  | some (.string s) => value = .string s ∨ value = .enum s
  | some (.dateTime n) =>
    numberOf value = some (n.toInt : ℚ) ∨ ∃ s, value = .string s ∧ Spells s.toList n.toInt
  | some (.bytes bytes) =>
    (∃ s, value = .string s ∧ utf8Bytes s = bytes) ∨ ∃ values, value = .list values ∧ AreBytes values bytes
  | some (.jsonb cell) => ∃ json, inputToJsonbValue value = .ok json ∧ ReadsAs cell.data json

def IsWhole (lo hi : Int) (x : Float) : Prop :=
  ∃ n : Int, lo ≤ n ∧ n ≤ hi ∧ Binary64.value x = some (n : ℚ)

/-- Numbers have to fit a column as they are, and no JSON does. -/
def Kept (value : InputValue) : DataType → Prop
  | .int32 => match value with
    | .int n => Int32.minValue.toInt ≤ n.toInt ∧ n.toInt ≤ Int32.maxValue.toInt
    | .float x => IsWhole Int32.minValue.toInt Int32.maxValue.toInt x
    | _ => True
  | .int64 | .dateTime => match value with
    | .float x => IsWhole Int64.minValue.toInt Int64.maxValue.toInt x
    | _ => True
  | .float64 => match value with
    | .int n => 2 ^ (n.toInt.natAbs.log2 - 52) ∣ n.toInt.natAbs
    | _ => True
  | .jsonb => value = .null
  | _ => True

end Denotes

section Json

variable {json : Jsonb.JsonbValue} {text : String}

theorem encodeValue_head (json : Jsonb.JsonbValue) :
    ∃ tag rest, encodeValue json = tag :: rest ∧ tag.toNat ≤ 6 := by
  cases json with
  | bool b => cases b <;> exact ⟨_, _, rfl, by decide⟩
  | _ => exact ⟨_, _, rfl, by decide⟩

theorem trim_cons {c : Char} (h : isWhitespace c = false) (s : List Char) :
    ∃ rest, trim (c :: s) = c :: rest := by
  obtain ⟨before, after, hbefore, hafter, heq⟩ := Jsonb.exists_trim (c :: s)
  cases before with
  | cons d before =>
    rw [List.cons_append, List.cons_append] at heq
    exact absurd ((List.cons.inj heq).1 ▸ hbefore d List.mem_cons_self) (by rw [h]; decide)
  | nil =>
    cases htrim : trim (c :: s) with
    | nil =>
      rw [htrim, List.nil_append, List.nil_append] at heq
      exact absurd (hafter c (heq ▸ List.mem_cons_self)) (by rw [h]; decide)
    | cons d rest =>
      rw [htrim, List.nil_append, List.cons_append] at heq
      exact ⟨rest, by rw [(List.cons.inj heq).1]⟩

/-- No JSON text starts with a control character. -/
theorem parse_control {c : Char} (h : c.toNat ≤ 6) (s : List Char) :
    parseJsonStr (c :: s) = none ∧ parseJsonText unescapeJson (c :: s) = none := by
  have hc : isWhitespace c = false ∧ c.isDigit = false ∧ c ≠ '.' ∧ (c ≠ '-' ∧ c ≠ '+') ∧
      (c.toLower ≠ 'i' ∧ c.toLower ≠ 'n') ∧ (c ≠ 'n' ∧ c ≠ 't' ∧ c ≠ 'f') ∧
      c ≠ '"' ∧ c ≠ '{' ∧ c ≠ '[' := by
    rw [← Char.ofNat_toNat c]
    generalize c.toNat = n at h
    interval_cases n <;> decide
  obtain ⟨hspace, hdigit, hdot, hsign, hletter, hword, hquote, hbrace, hbracket⟩ := hc
  obtain ⟨rest, htrim⟩ := trim_cons hspace s
  constructor
  · rw [Query.parseJsonStr.eq_def, htrim]
    simp [Core.parseF64_none hdigit hdot hsign hletter, hword, Jsonb.isQuoted, hquote, hbrace, hbracket]
  · rw [Jsonb.parseJsonText_composite _ htrim hdigit hdot hsign hletter hword]
    simp [Jsonb.isQuoted, hquote, hbrace, hbracket]

/-- The binary form of a value is no text that is parsed as one. -/
theorem not_readsAs_encodeValue (json json' : Jsonb.JsonbValue) :
    ¬ ReadsAs (encodeValue json) json' := by
  rintro ⟨text, htext, hparse, -⟩
  obtain ⟨tag, rest, hencode, htag⟩ := encodeValue_head json
  have hbytes := Bytes.utf8Bytes_of_ofUtf8? htext
  rw [hencode] at hbytes
  cases hchars : text.toList with
  | nil =>
    rw [utf8Bytes, hchars] at hbytes
    cases hbytes
  | cons c s =>
    rw [utf8Bytes, hchars] at hbytes
    have hc := Bytes.toNat_of_head_utf8Bytes hbytes (by omega)
    rw [hchars, (parse_control (hc ▸ htag) s).1] at hparse
    cases hparse

end Json

section Faithful

theorem areBytes_of_coerceBytes {values : List InputValue} {bytes : List UInt8}
    (h : coerceBytes values = .ok bytes) : AreBytes values bytes := by
  induction values generalizing bytes with
  | nil =>
    cases h
    exact .nil
  | cons value values ih =>
    cases value with
    | int n =>
      rw [coerceBytes] at h
      split_ifs at h with hrange
      cases htail : coerceBytes values with
      | error e =>
        rw [htail] at h
        cases h
      | ok tail =>
        rw [htail] at h
        cases h
        refine .cons ⟨n, rfl, ?_⟩ (ih htail)
        rw [UInt8.toNat_ofNat']
        omega
    | _ => cases h

theorem toInt_toInt32 (n : Int64) : ((n.toInt : ℚ) = (n.toInt32.toInt : ℚ)) ↔
    Int32.minValue.toInt ≤ n.toInt ∧ n.toInt ≤ Int32.maxValue.toInt := by
  rw [Int.cast_inj, Int64.toInt_toInt32]
  have hmin : Int32.minValue.toInt = -2147483648 := rfl
  have hmax : Int32.maxValue.toInt = 2147483647 := rfl
  rw [hmin, hmax, Int.bmod_def]
  omega

theorem natAbs_toInt_lt (n : Int64) : n.toInt.natAbs < 2 ^ 64 := by
  have := n.le_toInt
  have := n.toInt_lt
  omega

theorem coerceValue_int32 (h : coerceValue value .int32 = .ok cell) :
    Denotes value cell ↔ Kept value .int32 := by
  cases value with
  | null =>
    cases h
    exact iff_of_true rfl trivial
  | int n =>
    cases h
    exact Option.some_inj.trans (toInt_toInt32 n)
  | float x =>
    cases h
    exact Binary64.value_toInt32 x
  | _ => cases h

theorem coerceValue_int64 (h : coerceValue value .int64 = .ok cell) :
    Denotes value cell ↔ Kept value .int64 := by
  cases value with
  | null =>
    cases h
    exact iff_of_true rfl trivial
  | int n =>
    cases h
    exact iff_of_true rfl trivial
  | float x =>
    cases h
    exact Binary64.value_toInt64 x
  | _ => cases h

theorem coerceValue_float64 (h : coerceValue value .float64 = .ok cell) :
    Denotes value cell ↔ Kept value .float64 := by
  cases value with
  | null =>
    cases h
    exact iff_of_true rfl trivial
  | int n =>
    cases h
    refine Iff.trans ?_ (Binary64.value_ofInt (natAbs_toInt_lt n))
    simp [Denotes]
  | float x =>
    cases h
    exact iff_of_true (.inl rfl) trivial
  | _ => cases h

theorem coerceValue_dateTime (h : coerceValue value .dateTime = .ok cell) :
    Denotes value cell ↔ Kept value .dateTime := by
  cases value with
  | null =>
    cases h
    exact iff_of_true rfl trivial
  | int n =>
    cases h
    exact iff_of_true (.inl rfl) trivial
  | float x =>
    cases h
    refine Iff.trans ?_ (Binary64.value_toInt64 x)
    simp [Denotes, numberOf]
  | string s =>
    unfold coerceValue at h
    dsimp only at h
    split at h
    next n hparse =>
      cases h
      exact iff_of_true (.inr ⟨s, rfl, spells_of_parseI64 hparse⟩) trivial
    next => cases h
  | _ => cases h

theorem coerceValue_bytes (h : coerceValue value .bytes = .ok cell) :
    Denotes value cell ↔ Kept value .bytes := by
  refine iff_of_true ?_ trivial
  cases value with
  | null =>
    cases h
    rfl
  | string s =>
    cases h
    exact .inl ⟨s, rfl, rfl⟩
  | list values =>
    change (coerceBytes values >>= fun bytes => Except.ok (some (Scalar.bytes bytes))) = _ at h
    cases hbytes : coerceBytes values with
    | error e =>
      rw [hbytes] at h
      cases h
    | ok bytes =>
      rw [hbytes] at h
      cases h
      exact .inr ⟨values, rfl, areBytes_of_coerceBytes hbytes⟩
  | _ => cases h

/-- What is not null is stored in its binary form. -/
theorem coerceValue_json (hnull : value ≠ .null) : coerceValue value .jsonb =
    inputToJsonbValue value >>= fun json => .ok (some (.jsonb ⟨encodeValue json⟩)) := by
  cases value with
  | null => exact absurd rfl hnull
  | _ => rfl

theorem coerceValue_jsonb (h : coerceValue value .jsonb = .ok cell) :
    Denotes value cell ↔ Kept value .jsonb := by
  by_cases hnull : value = .null
  · subst hnull
    cases h
    exact iff_of_true rfl rfl
  · rw [coerceValue_json hnull] at h
    cases hjson : inputToJsonbValue value with
    | error e =>
      rw [hjson] at h
      cases h
    | ok json =>
      rw [hjson] at h
      cases h
      refine iff_of_false ?_ hnull
      rintro ⟨json', -, hread⟩
      exact not_readsAs_encodeValue json json' hread

/-- A value is kept by its coercion exactly when its numbers fit and it is no JSON. -/
theorem coerceValue_faithful (h : coerceValue value dataType = .ok cell) :
    Denotes value cell ↔ Kept value dataType := by
  cases dataType with
  | boolean =>
    refine iff_of_true ?_ trivial
    cases value <;> cases h <;> rfl
  | int32 => exact coerceValue_int32 h
  | int64 => exact coerceValue_int64 h
  | float64 => exact coerceValue_float64 h
  | string =>
    refine iff_of_true ?_ trivial
    cases value with
    | null => cases h; rfl
    | string s => cases h; exact .inl rfl
    | enum s => cases h; exact .inr rfl
    | _ => cases h
  | dateTime => exact coerceValue_dateTime h
  | bytes => exact coerceValue_bytes h
  | jsonb => exact coerceValue_jsonb h

theorem coerceValue_faithful_int :
    Denotes (.int 5) (some (.int32 5)) ↔ Kept (.int 5) .int32 :=
  @coerceValue_faithful _ _ .int32 rfl

/-- A number that is too large is wrapped around, and an object is not read back. -/
theorem coerceValue_wraps :
    (coerceValue (.int 4294967296) .int32 = .ok (some (.int32 0)) ∧
      ¬ Denotes (.int 4294967296) (some (.int32 0))) ∧
    ∃ cell, coerceValue (.object [("a", .int 1)]) .jsonb = .ok cell ∧
      ¬ Denotes (.object [("a", .int 1)]) cell := by
  refine ⟨⟨rfl, fun h => ?_⟩, _, rfl, ?_⟩
  · have hnumber : ((4294967296 : Int64).toInt : ℚ) = ((0 : Int32).toInt : ℚ) := Option.some.inj h
    exact absurd (Int.cast_inj.mp hnumber) (by decide)
  · rintro ⟨json', -, hread⟩
    exact not_readsAs_encodeValue _ json' hread

end Faithful

end Cynos.Gql
