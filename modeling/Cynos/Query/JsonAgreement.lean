import Cynos.Query.JsonText
import Mathlib.Data.List.Nodup
import Mathlib.Data.List.Perm.Subperm

/-! The parsers of JSON texts and what they make of the same text. They agree on its value when
every escape is one that they take apart and no key holds a colon. -/
namespace Cynos.Json

open Jsonb (JsonbValue JsonbObject lightText lightRead)

section DistinctKeys

mutual

/-- No object of the text names a key twice. -/
def Doc.DistinctKeys : Doc → Prop
  | .array elements => elements.DistinctKeys
  | .object members => (members.entries.map fun entry => decode entry.1.name).Nodup ∧
      members.DistinctKeys
  | .null | .bool _ | .number _ | .string _ | .emptyArray _ | .emptyObject _ => True

def Elements.DistinctKeys : Elements → Prop
  | .last _ value _ => value.DistinctKeys
  | .cons _ value _ rest => value.DistinctKeys ∧ rest.DistinctKeys

def Members.DistinctKeys : Members → Prop
  | .last _ value _ => value.DistinctKeys
  | .cons _ value _ rest => value.DistinctKeys ∧ rest.DistinctKeys

end

theorem Elements.distinctKeys_iff (es : Elements) :
    es.DistinctKeys ↔ ∀ value ∈ es.docs, value.DistinctKeys := by
  refine @Elements.induct (fun es => es.DistinctKeys ↔ ∀ value ∈ es.docs, value.DistinctKeys)
    (fun before value after => ?_) (fun before value after rest ih => ?_) es
  · simp [Elements.DistinctKeys, Elements.docs]
  · simp [Elements.DistinctKeys, Elements.docs, ih]

theorem Members.distinctKeys_iff (ms : Members) :
    ms.DistinctKeys ↔ ∀ entry ∈ ms.entries, entry.2.DistinctKeys := by
  refine @Members.induct (fun ms => ms.DistinctKeys ↔ ∀ entry ∈ ms.entries, entry.2.DistinctKeys)
    (fun key value after => ?_) (fun key value after rest ih => ?_) ms
  · simp [Members.DistinctKeys, Members.entries]
  · simp [Members.DistinctKeys, Members.entries, ih]

end DistinctKeys

section Escapes

/-- No escape but those that the parsers take apart. -/
def StringItem.Unescaped : StringItem → Prop
  | .plain _ _ => True
  | .short escape => escape ≠ .backspace ∧ escape ≠ .formFeed
  | .unicode _ _ | .surrogates _ _ _ _ => False

def Readable (items : List StringItem) : Prop := ∀ item ∈ items, item.Unescaped

variable {item : StringItem} {items : List StringItem}

theorem lightText_unescaped (h : item.Unescaped) : lightText item = [item.char] := by
  cases item with
  | plain c printable => rfl
  | short escape =>
    cases escape with
    | backspace => exact absurd rfl h.1
    | formFeed => exact absurd rfl h.2
    | _ => rfl
  | unicode u scalar => cases h
  | surrogates high low highRange lowRange => cases h

theorem one_le_lightText (item : StringItem) :
    1 ≤ (lightText item).length ∧ ((lightText item).length = 1 → item.Unescaped) := by
  cases item with
  | plain c printable => exact ⟨Nat.le_refl 1, fun _ => trivial⟩
  | short escape =>
    cases escape <;> refine ⟨by decide, fun h => ?_⟩ <;>
      first | exact ⟨by decide, by decide⟩ | exact absurd h (by decide)
  | unicode u scalar => simp [lightText]
  | surrogates high low highRange lowRange => simp [lightText]

theorem lightRead_of_readable (h : Readable items) : lightRead items = decode items := by
  have hitems : items.flatMap lightText = items.map StringItem.char := by
    induction items with
    | nil => rfl
    | cons item items ih =>
      obtain ⟨hitem, h⟩ := List.forall_mem_cons.mp h
      rw [List.flatMap_cons, lightText_unescaped hitem, ih h]
      rfl
  exact congrArg String.ofList hitems

/-- A string is no shorter as it is read, and no longer only when it is read right. -/
theorem length_decode_le (items : List StringItem) :
    (decode items).toList.length ≤ (lightRead items).toList.length ∧
      ((lightRead items).toList.length = (decode items).toList.length → Readable items) := by
  unfold decode lightRead
  rw [String.toList_ofList, String.toList_ofList, List.length_map]
  induction items with
  | nil => exact ⟨Nat.le_refl 0, fun _ item h => by cases h⟩
  | cons item items ih =>
    obtain ⟨hle, hone⟩ := one_le_lightText item
    rw [List.flatMap_cons, List.length_append, List.length_cons]
    refine ⟨by omega, fun hlength => List.forall_mem_cons.mpr ⟨hone (by omega), ih.2 (by omega)⟩⟩

end Escapes

end Cynos.Json

namespace Cynos.Jsonb.JsonbObject

variable {l r : List (String × JsonbValue)}

theorem mem_ofMembers_keys (l : List (String × JsonbValue)) (key : String) :
    key ∈ (ofMembers l).map Prod.fst ↔ key ∈ l.map Prod.fst := by
  have hfold : ∀ obj : JsonbObject,
      key ∈ (l.foldl (fun obj member => insert member.1 member.2 obj) obj).map Prod.fst ↔
        key ∈ l.map Prod.fst ∨ key ∈ obj.map Prod.fst := by
    induction l with
    | nil => simp
    | cons member l ih =>
      intro obj
      rw [List.foldl_cons, ih, mem_insert_keys, List.map_cons, List.mem_cons]
      tauto
  exact (hfold []).trans (or_iff_left List.not_mem_nil)

theorem get_of_nodup {member : String × JsonbValue} (h : (l.map Prod.fst).Nodup)
    (hmem : member ∈ l) : get (ofMembers l) member.1 = some member.2 := by
  have hfind : l.reverse.find? (·.1 == member.1) = some member := by
    cases hfound : l.reverse.find? (·.1 == member.1) with
    | none => simpa using List.find?_eq_none.mp hfound member (List.mem_reverse.mpr hmem)
    | some found =>
      have hkey : found.1 = member.1 := by simpa using List.find?_some hfound
      have hfoundmem := List.mem_reverse.mp (List.mem_of_find?_eq_some hfound)
      rw [List.inj_on_of_nodup_map h hfoundmem hmem hkey]
  rw [get_ofMembers, hfind]
  rfl

/-- Objects with the same entries come from members with the same keys. -/
theorem mem_keys_iff (h : ofMembers l = ofMembers r) (key : String) :
    key ∈ l.map Prod.fst ↔ key ∈ r.map Prod.fst := by
  rw [← mem_ofMembers_keys, h, mem_ofMembers_keys]

theorem value_eq_of_nodup {key : String} {value value' : JsonbValue}
    (h : ofMembers l = ofMembers r) (hl : (l.map Prod.fst).Nodup) (hr : (r.map Prod.fst).Nodup)
    (hvalue : (key, value) ∈ l) (hvalue' : (key, value') ∈ r) : value = value' := by
  have hget := get_of_nodup hl hvalue
  rw [h, get_of_nodup hr hvalue'] at hget
  exact (Option.some.inj hget).symm

end Cynos.Jsonb.JsonbObject

namespace Cynos.Json

open Jsonb (JsonbValue JsonbObject lightText lightRead)

section Light

theorem sum_le_of_forall {A : Type} {f g : A → Nat} {l : List A} (h : ∀ a ∈ l, f a ≤ g a) :
    (l.map f).sum ≤ (l.map g).sum ∧
      ((l.map g).sum = (l.map f).sum → ∀ a ∈ l, g a = f a) := by
  induction l with
  | nil => exact ⟨Nat.le_refl 0, fun _ a ha => by cases ha⟩
  | cons a l ih =>
    obtain ⟨ha, hl⟩ := List.forall_mem_cons.mp h
    obtain ⟨hle, heq⟩ := ih hl
    rw [List.map_cons, List.map_cons, List.sum_cons, List.sum_cons]
    exact ⟨by omega, fun hsum => List.forall_mem_cons.mpr ⟨by omega, heq (by omega)⟩⟩

/-- Names that come out as the same set of keys, no two of them the same, are read right. -/
theorem readable_names {names : List (List StringItem)} (hnodup : (names.map decode).Nodup)
    (hkeys : ∀ key, key ∈ names.map lightRead ↔ key ∈ names.map decode) :
    ∀ name ∈ names, Readable name := by
  have hsub : (names.map decode).Subperm (names.map lightRead) :=
    hnodup.subperm fun key hkey => (hkeys key).mpr hkey
  have hperm := hsub.perm_of_length_le (by simp)
  have hsum := (hperm.map fun key : String => key.toList.length).sum_nat
  rw [List.map_map, List.map_map] at hsum
  have heq := (sum_le_of_forall fun name _ => (length_decode_le name).1).2 hsum.symm
  exact fun name hname => (length_decode_le name).2 (heq name hname)

theorem read_light_of_readable (d : Doc) (h : d.All Readable Readable) :
    d.read lightRead = d.value := by
  unfold Doc.value
  induction d using Doc.inductDocs with
  | string items => exact congrArg JsonbValue.string (lightRead_of_readable h)
  | array es ih =>
    have hvalues := (Elements.all_iff es).mp h
    rw [Doc.read, Doc.read, Elements.read_eq, Elements.read_eq]
    exact congrArg JsonbValue.array
      (List.map_congr_left fun value hvalue => ih value hvalue (hvalues value hvalue))
  | object ms ih =>
    have hentries := (Members.all_iff ms).mp h
    rw [Doc.read, Doc.read, Members.read_eq, Members.read_eq]
    refine congrArg (fun members => JsonbValue.object (JsonbObject.ofMembers members))
      (List.map_congr_left fun entry hentry => ?_)
    obtain ⟨hname, hvalue⟩ := hentries entry hentry
    rw [lightRead_of_readable hname, ih entry hentry hvalue]
  | _ => rfl

/-- A text whose objects name no key twice is read right only when all its strings are. -/
theorem readable_of_read_light (d : Doc) (hdistinct : d.DistinctKeys)
    (h : d.read lightRead = d.value) : d.All Readable Readable := by
  unfold Doc.value at h
  induction d using Doc.inductDocs with
  | string items =>
    have hread : lightRead items = decode items := JsonbValue.string.inj h
    exact (length_decode_le items).2 (by rw [hread])
  | array es ih =>
    rw [Doc.read, Doc.read, Elements.read_eq, Elements.read_eq] at h
    have hvalues := (Elements.distinctKeys_iff es).mp hdistinct
    have hread := List.map_inj_left.mp (JsonbValue.array.inj h)
    exact (Elements.all_iff es).mpr fun value hvalue =>
      ih value hvalue (hvalues value hvalue) (hread value hvalue)
  | object ms ih =>
    rw [Doc.read, Doc.read, Members.read_eq, Members.read_eq] at h
    have hmembers := JsonbValue.object.inj h
    have hnodup := hdistinct.1
    have hvalues := (Members.distinctKeys_iff ms).mp hdistinct.2
    have hkeys := JsonbObject.mem_keys_iff hmembers
    have hnames : ∀ entry ∈ ms.entries, Readable entry.1.name := by
      have hreadable := @readable_names (ms.entries.map fun entry => entry.1.name)
        (by rw [List.map_map]; exact hnodup)
        (by simpa only [List.map_map, Function.comp_def] using hkeys)
      exact fun entry hentry => hreadable _ (List.mem_map_of_mem hentry)
    refine (Members.all_iff ms).mpr fun entry hentry => ⟨hnames entry hentry, ?_⟩
    refine ih entry hentry (hvalues entry hentry) ?_
    have hlight : (ms.entries.map fun entry => lightRead entry.1.name) =
        ms.entries.map fun entry => decode entry.1.name :=
      List.map_congr_left fun entry hentry => lightRead_of_readable (hnames entry hentry)
    refine JsonbObject.value_eq_of_nodup hmembers ?_ ?_
      (List.mem_map.mpr ⟨entry, hentry, by rw [lightRead_of_readable (hnames entry hentry)]⟩)
      (List.mem_map_of_mem hentry)
    · rw [List.map_map]
      exact hlight ▸ hnodup
    · rw [List.map_map]
      exact hnodup
  | _ => trivial

end Light

end Cynos.Json

namespace Cynos.Query

open Core (trim Tight trim_tight parseF64)
open Json (Blank Key StringItem Doc Elements Members Scan quoted stringText decode Readable)
open Jsonb (JsonbValue JsonbObject splitFrom splitJsonTopLevel isQuoted inner memberText
  elementTexts memberTexts lightRead)

section Pieces

variable {B : Type} {f : List Char → Option B}

/-- The runner's loop ends without a last item where the other one ends with an empty part. -/
theorem filterMap_itemsFrom (hf : f [] = none) (st : Scan) (item s : List Char) :
    (itemsFrom st item s).filterMap f = (splitFrom ',' st item s).filterMap f := by
  induction s generalizing st item with
  | nil =>
    cases item with
    | nil => simp [itemsFrom, splitFrom, hf]
    | cons c item => rfl
  | cons c s ih =>
    rw [itemsFrom, splitFrom]
    split
    · rw [List.filterMap_cons, List.filterMap_cons, ih]
    · exact ih _ _

/-- What is kept of the items does not depend on the blanks around them. -/
theorem filterMap_items (hf : f [] = none) (text : List Char) :
    (itemsFrom (.outside 0) [] (trim text)).filterMap (fun item => f (trim item)) =
      ((splitJsonTopLevel text ',').map trim).filterMap f := by
  rw [filterMap_itemsFrom (f := fun item => f (trim item)) hf, ← Jsonb.split_trim (by decide),
    List.filterMap_map]
  rfl

theorem filterMap_attach {A : Type} (l : List A) (g : A → Option B) :
    (l.attach.filterMap fun x => g x.val) = l.filterMap g := by
  have h := List.filterMap_map (f := Subtype.val) (l := l.attach) (g := g)
  rw [List.attach_map_subtype_val] at h
  exact h.symm

end Pieces

section Runner

theorem parseJsonStr_trim {s text : List Char} (h : trim s = text) (htext : Tight text) :
    parseJsonStr s = parseJsonStr text := by
  rw [parseJsonStr.eq_def, parseJsonStr.eq_def, h, trim_tight htext]

theorem parseJsonStr_nil : parseJsonStr [] = none := by
  rw [parseJsonStr.eq_def]
  rfl

/-- A member without the blanks around it, as `parse_json_kv` takes it apart. -/
def memberOf (pair : List Char) : Option (String × JsonbValue) :=
  if ':' ∈ pair then
    let keyPart := trim (pair.takeWhile (· != ':'))
    let valuePart := trim (pair.dropWhile (· != ':')).tail
    if isQuoted keyPart then
      (parseJsonStr valuePart).map fun value =>
        (String.ofList (unescapeJsonString (inner keyPart)), value)
    else none
  else none

theorem parseJsonKv_eq (s : List Char) : parseJsonKv s = memberOf (trim s) := by
  rw [parseJsonKv.eq_def, memberOf]
  split <;> rfl

/-- A text that is empty but for blanks has no items either. -/
theorem filterMap_blank {B : Type} {f : List Char → Option B} (hf : f [] = none) {text : List Char}
    (h : (trim text).isEmpty = true) :
    ((splitJsonTopLevel text ',').map trim).filterMap f = [] := by
  rw [← filterMap_items hf, List.isEmpty_iff.mp h]
  rfl

theorem parseJsonArray_brackets (text : List Char) :
    parseJsonArray ('[' :: text ++ [']']) =
      some (.array (((splitJsonTopLevel text ',').map trim).filterMap parseJsonStr)) := by
  rw [parseJsonArray.eq_def, Jsonb.inner_brackets]
  dsimp only
  split
  · rename_i hempty
    rw [filterMap_blank parseJsonStr_nil hempty]
  · rw [filterMap_attach _ fun item => parseJsonStr (trim item), filterMap_items parseJsonStr_nil]

theorem parseJsonObject_brackets (text : List Char) :
    parseJsonObject ('{' :: text ++ ['}']) = some (.object (JsonbObject.ofMembers
      (((splitJsonTopLevel text ',').map trim).filterMap memberOf))) := by
  rw [parseJsonObject.eq_def, Jsonb.inner_brackets]
  dsimp only
  split
  · rename_i hempty
    rw [filterMap_blank rfl hempty]
    rfl
  · rw [filterMap_attach _ parseJsonKv, ← filterMap_items rfl]
    simp only [parseJsonKv_eq]

/-- What a text that is parsed starts with. -/
theorem parseJsonStr_composite {c last : Char} {text : List Char}
    (htight : Tight (c :: text ++ [last])) (hdigit : c.isDigit = false) (hdot : c ≠ '.')
    (hsign : c ≠ '-' ∧ c ≠ '+') (hletter : c.toLower ≠ 'i' ∧ c.toLower ≠ 'n')
    (hword : c ≠ 'n' ∧ c ≠ 't' ∧ c ≠ 'f') :
    parseJsonStr (c :: text ++ [last]) =
      if isQuoted (c :: text ++ [last]) then
        some (.string (String.ofList (unescapeJsonString (inner (c :: text ++ [last])))))
      else if c = '{' ∧ last = '}' then parseJsonObject (c :: text ++ [last])
      else if c = '[' ∧ last = ']' then parseJsonArray (c :: text ++ [last])
      else none := by
  have hlast : (c :: text ++ [last]).getLast? = some last := List.getLast?_concat
  have hhead : (c :: text ++ [last]).head? = some c := rfl
  have hnumber : parseF64 (c :: text ++ [last]) = none :=
    Core.parseF64_none hdigit hdot hsign hletter
  rw [parseJsonStr.eq_def, trim_tight htight, hnumber, hlast, hhead]
  simp [hword]

theorem parseJsonStr_quoted (items : List StringItem) :
    parseJsonStr (quoted items) = some (.string (lightRead items)) := by
  have hquoted := Jsonb.isQuoted_quoted items
  have hinner := Jsonb.inner_quoted items
  have hunescape : unescapeJsonString (stringText items) = items.flatMap Jsonb.lightText := by
    rw [unescapeJsonString_eq, Jsonb.unescapeJson_text]
  unfold quoted at hquoted hinner ⊢
  rw [parseJsonStr_composite (Json.quoted_tight items) (by decide) (by decide) (by decide)
    (by decide) (by decide), if_pos hquoted, hinner, hunescape]
  rfl

theorem parseJsonStr_array (text : List Char) :
    parseJsonStr ('[' :: text ++ [']']) =
      some (.array (((splitJsonTopLevel text ',').map trim).filterMap parseJsonStr)) := by
  rw [parseJsonStr_composite (Json.tight_brackets '[' ']' text (by decide) (by decide)) (by decide)
    (by decide) (by decide) (by decide) (by decide), parseJsonArray_brackets]
  rfl

theorem parseJsonStr_object (text : List Char) :
    parseJsonStr ('{' :: text ++ ['}']) = some (.object (JsonbObject.ofMembers
      (((splitJsonTopLevel text ',').map trim).filterMap memberOf))) := by
  rw [parseJsonStr_composite (Json.tight_brackets '{' '}' text (by decide) (by decide)) (by decide)
    (by decide) (by decide) (by decide) (by decide), parseJsonObject_brackets]
  rfl

theorem elementTexts_eq (es : Elements) : elementTexts es = es.docs.map Doc.text := by
  refine @Elements.induct (fun es => elementTexts es = es.docs.map Doc.text)
    (fun before value after => rfl) (fun before value after rest ih => ?_) es
  rw [elementTexts, ih]
  rfl

theorem memberTexts_eq (ms : Members) :
    memberTexts ms = ms.entries.map fun entry => memberText entry.1 entry.2 := by
  refine @Members.induct
    (fun ms => memberTexts ms = ms.entries.map fun entry => memberText entry.1 entry.2)
    (fun key value after => rfl) (fun key value after rest ih => ?_) ms
  rw [memberTexts, ih]
  rfl

theorem parseJsonStr_elements (es : Elements) :
    parseJsonStr (Doc.array es).text =
      some (.array (es.docs.filterMap fun value => parseJsonStr value.text)) := by
  rw [Doc.text, parseJsonStr_array, Jsonb.split_elements, elementTexts_eq, List.filterMap_map]
  rfl

theorem parseJsonStr_members (ms : Members) :
    parseJsonStr (Doc.object ms).text = some (.object (JsonbObject.ofMembers
      (ms.entries.filterMap fun entry => memberOf (memberText entry.1 entry.2)))) := by
  rw [Doc.text, parseJsonStr_object, Jsonb.split_members, memberTexts_eq, List.filterMap_map]
  rfl

theorem trim_blank (blank : Blank) : trim blank.chars = [] := by
  have h := Jsonb.trim_append_blank (Jsonb.allBlank blank) []
  rwa [List.nil_append] at h

theorem parseJsonStr_emptyArray (blank : Blank) :
    parseJsonStr (Doc.emptyArray blank).text = some (.array []) := by
  rw [Doc.text, parseJsonStr_array, filterMap_blank parseJsonStr_nil (by rw [trim_blank]; rfl)]

theorem parseJsonStr_emptyObject (blank : Blank) :
    parseJsonStr (Doc.emptyObject blank).text = some (.object []) := by
  rw [Doc.text, parseJsonStr_object, filterMap_blank rfl (by rw [trim_blank]; rfl)]
  rfl

theorem parseJsonStr_number (n : Json.Numeral) :
    parseJsonStr (Doc.number n).text = some (.number (Core.numeralValue n)) := by
  obtain ⟨c, chars, htext, hc⟩ := Core.numeralText_head n
  have hword : c ≠ 'n' ∧ c ≠ 't' ∧ c ≠ 'f' := by
    refine ⟨?_, ?_, ?_⟩ <;>
      · rintro rfl
        exact absurd hc (by decide)
  have hparse := Core.parseF64_text n
  rw [parseJsonStr.eq_def, trim_tight (Doc.number n).tight, Doc.text]
  rw [htext] at hparse ⊢
  simp [hword, hparse]

/-- Every text in the grammar is parsed to something. -/
theorem parseJsonStr_total (d : Doc) : ∃ value, parseJsonStr d.text = some value := by
  cases d with
  | null => exact ⟨.null, by rw [parseJsonStr.eq_def]; rfl⟩
  | bool b =>
    refine ⟨.bool b, ?_⟩
    rw [parseJsonStr.eq_def]
    cases b <;> rfl
  | number n => exact ⟨_, parseJsonStr_number n⟩
  | string items => exact ⟨_, parseJsonStr_quoted items⟩
  | emptyArray blank => exact ⟨_, parseJsonStr_emptyArray blank⟩
  | array es => exact ⟨_, parseJsonStr_elements es⟩
  | emptyObject blank => exact ⟨_, parseJsonStr_emptyObject blank⟩
  | object ms => exact ⟨_, parseJsonStr_members ms⟩

end Runner

section Colons

/-- The text of a name has no colon, at which a member would be cut. -/
def NoColon (name : List StringItem) : Prop := ':' ∉ stringText name

variable {name : List StringItem}

theorem takeWhile_dropWhile_colon {front rest : List Char} (h : ':' ∉ front) :
    (front ++ ':' :: rest).takeWhile (· != ':') = front ∧
      (front ++ ':' :: rest).dropWhile (· != ':') = ':' :: rest := by
  have hfront : ∀ c ∈ front, (c != ':') = true := by
    intro c hc
    simp only [bne_iff_ne]
    rintro rfl
    exact h hc
  rw [List.takeWhile_append_of_pos hfront, List.dropWhile_append_of_pos hfront]
  exact ⟨by simp, by simp⟩

theorem memberOf_text (key : Key) (value : Doc) (h : NoColon key.name) :
    memberOf (memberText key value) =
      (parseJsonStr value.text).map fun parsed => (lightRead key.name, parsed) := by
  have hfront : ':' ∉ quoted key.name ++ key.after.chars := by
    simp only [quoted, List.mem_append, List.mem_cons, List.not_mem_nil, or_false]
    rintro (((hc | hc) | hc) | hc)
    · exact absurd hc (by decide)
    · exact h hc
    · exact absurd hc (by decide)
    · exact (key.after.lexical ':' hc).2.2 rfl
  obtain ⟨htake, hdrop⟩ := @takeWhile_dropWhile_colon _ (key.gap.chars ++ value.text) hfront
  have hkey : trim (quoted key.name ++ key.after.chars) = quoted key.name :=
    @Core.trim_around [] _ _ (fun c hc => by cases hc) (Json.quoted_tight key.name)
      (Jsonb.allBlank key.after)
  have hvalue : trim (key.gap.chars ++ value.text) = value.text := by
    have := Jsonb.trim_value key.gap value Blank.none
    rwa [Blank.none, List.append_nil] at this
  have hunescape : unescapeJsonString (stringText key.name) = key.name.flatMap Jsonb.lightText := by
    rw [unescapeJsonString_eq, Jsonb.unescapeJson_text]
  have hmem : ':' ∈ memberText key value := by simp [memberText]
  unfold memberOf
  rw [if_pos hmem]
  unfold memberText
  rw [htake, hdrop, List.tail_cons, hkey, hvalue]
  simp only [Jsonb.isQuoted_quoted, ↓reduceIte, Jsonb.inner_quoted, hunescape]
  rfl

theorem colon_of_unescape {s : List Char} (h : ':' ∈ unescapeJsonString s) : ':' ∈ s := by
  fun_induction unescapeJsonString s with
  | case1 => exact h
  | case2 => exact absurd h (by decide)
  | case3 next rest hnext ih =>
    rcases List.mem_cons.mp h with rfl | h
    · exact absurd hnext (by decide)
    · simp [ih h]
  | case4 rest hnext ih => simpa using ih (by simpa using h)
  | case5 rest hnext hn ih => simpa using ih (by simpa using h)
  | case6 rest hnext hn hr ih => simpa using ih (by simpa using h)
  | case7 next rest hnext hn hr ht ih => simpa using ih (by simpa using h)
  | case8 c s hc ih =>
    rcases List.mem_cons.mp h with rfl | h
    · exact List.mem_cons_self
    · exact List.mem_cons_of_mem c (ih h)

theorem mem_of_trim {c : Char} {s : List Char} (h : c ∈ trim s) : c ∈ s := by
  obtain ⟨before, after, -, -, hs⟩ := Jsonb.exists_trim s
  rw [hs]
  simp [h]

/-- What is cut off before a colon has none. -/
theorem memberOf_key {pair : List Char} {member : String × JsonbValue}
    (h : memberOf pair = some member) : ':' ∉ member.1.toList := by
  unfold memberOf at h
  split at h
  · dsimp only at h
    split at h
    · obtain ⟨value, -, rfl⟩ := Option.map_eq_some_iff.mp h
      intro hcolon
      rw [String.toList_ofList] at hcolon
      have hinner := colon_of_unescape hcolon
      have htake := mem_of_trim (List.mem_of_mem_tail ((List.dropLast_sublist _).mem hinner))
      exact absurd (List.mem_takeWhile_imp htake) (by decide)
    · cases h
  · cases h

/-- A name that is read right keeps its colon. -/
theorem colon_mem_decode (hreadable : Readable name) (h : ':' ∈ stringText name) :
    ':' ∈ (decode name).toList := by
  unfold decode
  rw [String.toList_ofList]
  obtain ⟨item, hitem, hcolon⟩ := List.mem_flatMap.mp h
  refine List.mem_map.mpr ⟨item, hitem, ?_⟩
  have hplain := hreadable item hitem
  cases item with
  | plain c printable => exact (List.mem_singleton.mp hcolon).symm
  | short escape => cases escape <;> exact absurd hcolon (by decide)
  | unicode u scalar => cases hplain
  | surrogates high low highRange lowRange => cases hplain

end Colons

section Agreement

inductive JsonParser where
  | rowStore
  | dataflowCompiler
  | runner

/-- The row store and the dataflow compiler have the same parser twice. -/
def JsonParser.parse : JsonParser → List Char → Option JsonbValue
  | .rowStore | .dataflowCompiler => Jsonb.parseJsonText Jsonb.unescapeJson
  | .runner => parseJsonStr

/-- All parsers return the value that the text denotes. -/
def ParsersAgree (d : Doc) : Prop :=
  ∀ (parser : JsonParser) (before after : Blank),
    parser.parse (before.chars ++ d.text ++ after.chars) = some d.value

/-- Every escape is one that the parsers take apart, and no key holds a colon. -/
def Simple (d : Doc) : Prop := d.All Readable fun name => Readable name ∧ NoColon name

theorem Simple.readable {d : Doc} (h : Simple d) : d.All Readable Readable := by
  unfold Simple at h
  induction d using Doc.inductDocs with
  | array es ih =>
    have hvalues := (Elements.all_iff es).mp h
    exact (Elements.all_iff es).mpr fun value hvalue => ih value hvalue (hvalues value hvalue)
  | object ms ih =>
    have hentries := (Members.all_iff ms).mp h
    refine (Members.all_iff ms).mpr fun entry hentry => ?_
    exact ⟨(hentries entry hentry).1.1, ih entry hentry (hentries entry hentry).2⟩
  | _ => exact h

theorem rowStore_parse (d : Doc) (before after : Blank) :
    Jsonb.parseJsonText Jsonb.unescapeJson (before.chars ++ d.text ++ after.chars) =
      some (d.read lightRead) := by
  refine Jsonb.parseJsonText_text (fun items => ?_) d _ (Jsonb.trim_value before d after)
  rw [Jsonb.unescapeJson_text]
  rfl

theorem runner_parse (d : Doc) (before after : Blank) :
    parseJsonStr (before.chars ++ d.text ++ after.chars) = parseJsonStr d.text :=
  parseJsonStr_trim (Jsonb.trim_value before d after) d.tight

/-- The runner's value of a simple text. -/
theorem parseJsonStr_text (d : Doc) (h : Simple d) : parseJsonStr d.text = some d.value := by
  unfold Simple at h
  induction d using Doc.inductDocs with
  | null =>
    rw [parseJsonStr.eq_def]
    rfl
  | bool b =>
    rw [parseJsonStr.eq_def]
    cases b <;> rfl
  | number n => exact parseJsonStr_number n
  | string items =>
    rw [Doc.text, parseJsonStr_quoted, Json.lightRead_of_readable h]
    rfl
  | emptyArray blank => exact parseJsonStr_emptyArray blank
  | array es ih =>
    have hvalues := (Elements.all_iff es).mp h
    have hdocs : (es.docs.filterMap fun value => parseJsonStr value.text) =
        es.docs.map Doc.value := by
      rw [← List.filterMap_eq_map]
      exact List.filterMap_congr fun value hvalue => ih value hvalue (hvalues value hvalue)
    rw [parseJsonStr_elements, hdocs, Doc.value, Doc.read, Elements.read_eq]
    rfl
  | emptyObject blank => exact parseJsonStr_emptyObject blank
  | object ms ih =>
    have hentries := (Members.all_iff ms).mp h
    have hmembers : (ms.entries.filterMap fun entry => memberOf (memberText entry.1 entry.2)) =
        ms.entries.map fun entry => (decode entry.1.name, entry.2.value) := by
      rw [← List.filterMap_eq_map]
      refine List.filterMap_congr fun entry hentry => ?_
      obtain ⟨⟨hreadable, hcolon⟩, hvalue⟩ := hentries entry hentry
      rw [memberOf_text _ _ hcolon, ih entry hentry hvalue, Json.lightRead_of_readable hreadable]
      rfl
    rw [parseJsonStr_members, hmembers, Doc.value, Doc.read, Members.read_eq]
    rfl

/-- A text whose keys are distinct and whose strings are read right is parsed right by the
runner only when no key holds a colon. -/
theorem simple_of_parseJsonStr (d : Doc) (hdistinct : d.DistinctKeys)
    (hreadable : d.All Readable Readable) (h : parseJsonStr d.text = some d.value) : Simple d := by
  unfold Simple
  obtain ⟨parsed, hparsed⟩ := Classical.skolem.mp parseJsonStr_total
  induction d using Doc.inductDocs with
  | array es ih =>
    have hvalues := (Elements.distinctKeys_iff es).mp hdistinct
    have hstrings := (Elements.all_iff es).mp hreadable
    have hdocs : (es.docs.filterMap fun value => parseJsonStr value.text) = es.docs.map parsed := by
      simp only [hparsed, List.filterMap_eq_map']
    rw [parseJsonStr_elements, hdocs, Doc.value, Doc.read, Elements.read_eq] at h
    have heq := List.map_inj_left.mp (JsonbValue.array.inj (Option.some.inj h))
    refine (Elements.all_iff es).mpr fun value hvalue => ?_
    exact ih value hvalue (hvalues value hvalue) (hstrings value hvalue)
      ((hparsed value).trans (congrArg some (heq value hvalue)))
  | object ms ih =>
    have hvalues := (Members.distinctKeys_iff ms).mp hdistinct.2
    have hstrings := (Members.all_iff ms).mp hreadable
    rw [parseJsonStr_members, Doc.value, Doc.read, Members.read_eq] at h
    have hmembers := JsonbValue.object.inj (Option.some.inj h)
    have hcolons : ∀ entry ∈ ms.entries, NoColon entry.1.name := by
      intro entry hentry hcolon
      have hkey := (JsonbObject.mem_keys_iff hmembers (decode entry.1.name)).mpr
        (List.mem_map.mpr ⟨_, List.mem_map_of_mem hentry, rfl⟩)
      obtain ⟨member, hmember, hname⟩ := List.mem_map.mp hkey
      obtain ⟨other, -, hother⟩ := List.mem_filterMap.mp hmember
      refine memberOf_key hother ?_
      rw [hname]
      exact colon_mem_decode (hstrings entry hentry).1 hcolon
    have hparsedMembers :
        (ms.entries.filterMap fun entry => memberOf (memberText entry.1 entry.2)) =
          ms.entries.map fun entry => (decode entry.1.name, parsed entry.2) := by
      rw [← List.filterMap_eq_map]
      refine List.filterMap_congr fun entry hentry => ?_
      rw [memberOf_text _ _ (hcolons entry hentry), hparsed,
        Json.lightRead_of_readable (hstrings entry hentry).1]
      rfl
    rw [hparsedMembers] at hmembers
    refine (Members.all_iff ms).mpr fun entry hentry => ?_
    obtain ⟨hname, hstring⟩ := hstrings entry hentry
    refine ⟨⟨hname, hcolons entry hentry⟩, ih entry hentry (hvalues entry hentry) hstring ?_⟩
    have hvalue : parsed entry.2 = entry.2.value :=
      JsonbObject.value_eq_of_nodup hmembers (by rw [List.map_map]; exact hdistinct.1)
        (by rw [List.map_map]; exact hdistinct.1) (List.mem_map_of_mem hentry)
        (List.mem_map_of_mem hentry)
    rw [hparsed, hvalue]
  | _ => exact hreadable

/-- On simple texts all parsers return the value, and on others whose objects name no key twice
one of them does not. -/
theorem parsersAgree_simple (d : Doc) :
    (Simple d → ParsersAgree d) ∧ (d.DistinctKeys → ParsersAgree d → Simple d) := by
  constructor
  · intro h parser before after
    have hlight := rowStore_parse d before after
    rw [Json.read_light_of_readable d h.readable] at hlight
    cases parser with
    | rowStore => exact hlight
    | dataflowCompiler => exact hlight
    | runner => exact (runner_parse d before after).trans (parseJsonStr_text d h)
  · intro hdistinct hagree
    have hlight := hagree .rowStore .none .none
    have hrunner := hagree .runner .none .none
    rw [JsonParser.parse, rowStore_parse] at hlight
    rw [JsonParser.parse, runner_parse] at hrunner
    exact simple_of_parseJsonStr d hdistinct
      (Json.readable_of_read_light d hdistinct (Option.some.inj hlight)) hrunner

/-- The text `{"a:b":null}`. -/
def colonKey : Doc :=
  .object (.last ⟨.none, [.plain 'a' (by decide), .plain ':' (by decide), .plain 'b' (by decide)],
    .none, .none⟩ .null .none)

/-- The runner loses the member. -/
theorem colonKey_lost : ¬ ParsersAgree colonKey := by
  intro h
  have hrunner := h .runner .none .none
  rw [JsonParser.parse, runner_parse] at hrunner
  have hreadable : colonKey.All Readable Readable := by
    refine ⟨fun item hitem => ?_, trivial⟩
    simp only [List.mem_cons, List.not_mem_nil, or_false] at hitem
    rcases hitem with rfl | rfl | rfl <;> trivial
  have hdistinct : colonKey.DistinctKeys := ⟨List.nodup_singleton _, trivial⟩
  have hsimple := simple_of_parseJsonStr colonKey hdistinct hreadable hrunner
  exact hsimple.1.2 (by decide)

end Agreement

end Cynos.Query
