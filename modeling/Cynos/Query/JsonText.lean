import Cynos.Jsonb.TextParser

/-! The JSON parser of the runner. What it cannot parse inside of an object or an array it leaves
out, and a member is cut at its first colon. -/
namespace Cynos.Query

open Core (trim trim_length_le parseF64)
open Json (Blank Key CodeUnit StringItem Doc Elements Members Scan quoted stringText)
open Jsonb (JsonbValue JsonbObject atToken isQuoted inner inner_length)

section Unescape

def unescapeJsonString : List Char → List Char
  | [] => []
  | c :: s =>
    if c = '\\' then
      match s with
      | [] => ['\\']
      | next :: rest =>
        if next = '"' ∨ next = '\\' ∨ next = '/' then next :: unescapeJsonString rest
        else if next = 'n' then '\n' :: unescapeJsonString rest
        else if next = 'r' then '\r' :: unescapeJsonString rest
        else if next = 't' then '\t' :: unescapeJsonString rest
        else '\\' :: unescapeJsonString (next :: rest)
    else c :: unescapeJsonString s

/-- Both ways to take escapes apart come to the same. -/
theorem unescapeJsonString_eq (s : List Char) : unescapeJsonString s = Jsonb.unescapeJson s := by
  fun_induction unescapeJsonString s with
  | case1 => rfl
  | case2 => rfl
  | case3 next rest h ih =>
    rw [Jsonb.unescapeJson_escape, ih]
    rcases h with rfl | rfl | rfl <;> rfl
  | case4 rest h ih =>
    rw [Jsonb.unescapeJson_escape, ih]
    rfl
  | case5 rest h h' ih =>
    rw [Jsonb.unescapeJson_escape, ih]
    rfl
  | case6 rest h h' h'' ih =>
    rw [Jsonb.unescapeJson_escape, ih]
    rfl
  | case7 next rest h hn hr ht ih =>
    have hplain : next ≠ '\\' := fun heq => h (.inr (.inl heq))
    have hnext := @Jsonb.unescapeJson_plain [next] rest
      fun c hc => List.mem_singleton.mp hc ▸ hplain
    rw [Jsonb.unescapeJson_escape, ih]
    simp only [Jsonb.unescaped, h, hn, hr, ht, ↓reduceIte, List.cons_append, List.nil_append]
    exact congrArg _ hnext
  | case8 c s h ih =>
    rw [Jsonb.unescapeJson.eq_def]
    simp [h, ih]

end Unescape

section Parse

/-- The loop over the text of an object or an array, with the item read so far. -/
def itemsFrom : Scan → List Char → List Char → List (List Char)
  | _, item, [] => if item.isEmpty then [] else [item]
  | st, item, c :: s =>
    if atToken st ∧ c = ',' ∧ st.depth = 0 then item :: itemsFrom st [] s
    else itemsFrom (st.step c) (item ++ [c]) s

theorem length_of_mem_itemsFrom {st : Scan} {item s piece : List Char}
    (h : piece ∈ itemsFrom st item s) : piece.length ≤ item.length + s.length := by
  induction s generalizing st item with
  | nil =>
    rw [itemsFrom] at h
    split_ifs at h
    · cases h
    · exact (List.mem_singleton.mp h) ▸ Nat.le_refl _
  | cons c s ih =>
    rw [itemsFrom] at h
    split_ifs at h
    · rcases List.mem_cons.mp h with rfl | h
      · exact Nat.le_add_right _ _
      · have := ih h
        simp only [List.length_nil, List.length_cons] at this ⊢
        omega
    · have := ih h
      simp only [List.length_append, List.length_cons, List.length_nil] at this ⊢
      omega

theorem item_length {s piece : List Char} (hne : ¬ (trim (inner s)).isEmpty)
    (h : piece ∈ itemsFrom (.outside 0) [] (trim (inner s))) : piece.length < s.length := by
  have hpiece := length_of_mem_itemsFrom h
  have htrim := trim_length_le (inner s)
  rw [List.length_nil, Nat.zero_add] at hpiece
  cases s with
  | nil => exact absurd rfl hne
  | cons c s =>
    have hinner := inner_length (c := c) (s := c :: s) rfl
    omega

theorem valuePart_length {s : List Char} (h : ':' ∈ trim s) :
    (trim ((trim s).dropWhile (· != ':')).tail).length < s.length := by
  have htrim := trim_length_le s
  have htrim' := trim_length_le ((trim s).dropWhile (· != ':')).tail
  have hdrop := (List.dropWhile_suffix (l := trim s) (· != ':')).length_le
  have hpos : 0 < ((trim s).dropWhile (· != ':')).length := by
    rw [List.length_pos_iff]
    intro hnil
    have := List.dropWhile_eq_nil_iff.mp hnil ':' h
    exact absurd this (by decide)
  rw [List.length_tail] at htrim'
  omega

mutual

def parseJsonStr (s : List Char) : Option JsonbValue :=
  if trim s = ['n', 'u', 'l', 'l'] then some .null
  else if trim s = ['t', 'r', 'u', 'e'] then some (.bool true)
  else if trim s = ['f', 'a', 'l', 's', 'e'] then some (.bool false)
  else
    match parseF64 (trim s) with
    | some n => some (.number n)
    | none =>
      if isQuoted (trim s) then
        some (.string (String.ofList (unescapeJsonString (inner (trim s)))))
      else if (trim s).head? = some '{' ∧ (trim s).getLast? = some '}' then
        parseJsonObject (trim s)
      else if (trim s).head? = some '[' ∧ (trim s).getLast? = some ']' then
        parseJsonArray (trim s)
      else none
termination_by (s.length, 1)
decreasing_by
  all_goals
    have := trim_length_le s
    exact Prod.lex_iff.mpr (by dsimp only; omega)

def parseJsonObject (s : List Char) : Option JsonbValue :=
  let text := trim (inner s)
  if _h : text.isEmpty then some (.object [])
  else
    some (.object (JsonbObject.ofMembers
      ((itemsFrom (.outside 0) [] text).attach.filterMap fun item => parseJsonKv item.val)))
termination_by (s.length, 0)
decreasing_by
  exact Prod.lex_iff.mpr (.inl (item_length _h item.property))

def parseJsonKv (s : List Char) : Option (String × JsonbValue) :=
  if _h : ':' ∈ trim s then
    let keyPart := trim ((trim s).takeWhile (· != ':'))
    let valuePart := trim ((trim s).dropWhile (· != ':')).tail
    if isQuoted keyPart then
      (parseJsonStr valuePart).map fun value =>
        (String.ofList (unescapeJsonString (inner keyPart)), value)
    else none
  else none
termination_by (s.length, 0)
decreasing_by
  exact Prod.lex_iff.mpr (.inl (valuePart_length _h))

def parseJsonArray (s : List Char) : Option JsonbValue :=
  let text := trim (inner s)
  if _h : text.isEmpty then some (.array [])
  else
    some (.array
      ((itemsFrom (.outside 0) [] text).attach.filterMap fun item => parseJsonStr (trim item.val)))
termination_by (s.length, 0)
decreasing_by
  have := trim_length_le item.val
  exact Prod.lex_iff.mpr (.inl (Nat.lt_of_le_of_lt this (item_length _h item.property)))

end

end Parse

end Cynos.Query
