import Cynos.Core.Scalar
import Cynos.Jsonb.Path
import Cynos.Jsonb.RawPieces
import Cynos.Jsonb.SimplePath
import Mathlib.Data.List.Infix

/-! Simple paths followed on the text of a document, and the tests on the piece of text that they
lead to. An object is left at the first member with the key. -/
namespace Cynos.Jsonb

open Core (Scalar Value parseF64)
open Json (Blank Key StringItem Doc Elements Members quoted stringText)

section Source

/-- `trim_json_bytes`. -/
def trimJson (s : List Char) : List Char :=
  ((s.dropWhile isAsciiWhitespace).reverse.dropWhile isAsciiWhitespace).reverse

/-- `decode_json_string_inner` reads the escapes that `unescape_json` reads. -/
def decodeJsonStringInner (s : List Char) : String := String.ofList (unescapeJson s)

def decodeJsonStringLiteral (s : List Char) : Option String :=
  if isQuoted (trimJson s) then some (decodeJsonStringInner (inner (trimJson s))) else none

def jsonStringLiteralEq (s : List Char) (expected : String) : Bool :=
  isQuoted (trimJson s) &&
    if '\\' ∈ inner (trimJson s) then decodeJsonStringInner (inner (trimJson s)) == expected
    else String.ofList (inner (trimJson s)) == expected

/-- The loop of `extract_json_field` over the members from a position on. -/
def extractFieldFrom (text : List Char) (field : String) (pos : Nat) : Option (List Char) :=
  let keyStart := skipJsonWhitespace text pos
  if _hquote : text[keyStart]? ≠ some '"' then none
  else
    match _hkey : scanJsonStringEnd text keyStart with
    | none => none
    | some keyEnd =>
      let colon := skipJsonWhitespace text keyEnd
      if text[colon]? ≠ some ':' then none
      else
        let valueStart := skipJsonWhitespace text (colon + 1)
        match _hvalue : scanJsonValueEnd text valueStart with
        | none => none
        | some valueEnd =>
          if jsonStringLiteralEq (between text keyStart keyEnd) field then
            some (trimJson (between text valueStart valueEnd))
          else
            let next := skipJsonWhitespace text valueEnd
            if text[next]? = some ',' then extractFieldFrom text field (next + 1) else none
termination_by text.length - pos
decreasing_by
  obtain ⟨hlt, _⟩ := List.getElem?_eq_some_iff.mp (not_not.mp _hquote)
  have hpos : pos ≤ keyStart := le_skipJsonWhitespace ..
  have hkey := lt_of_scanJsonStringEnd _hkey
  have hcolon : keyEnd ≤ colon := le_skipJsonWhitespace ..
  have hstart : colon + 1 ≤ valueStart := le_skipJsonWhitespace ..
  have hvalue := le_of_scanJsonValueEnd _hvalue
  have hnext : valueEnd ≤ next := le_skipJsonWhitespace ..
  omega

def extractJsonField (object : List Char) (field : String) : Option (List Char) :=
  let text := trimJson object
  if text.head? ≠ some '{' ∨ text.getLast? ≠ some '}' then none else extractFieldFrom text field 1

/-- The loop of `extract_json_index`, with the number of elements still to pass over. -/
def extractIndexFrom (text : List Char) (index pos : Nat) : Option (List Char) :=
  let valueStart := skipJsonWhitespace text pos
  if _hmore : text[valueStart]? = none ∨ text[valueStart]? = some ']' then none
  else
    match _hvalue : scanJsonValueEnd text valueStart with
    | none => none
    | some valueEnd =>
      if index = 0 then some (trimJson (between text valueStart valueEnd))
      else
        let next := skipJsonWhitespace text valueEnd
        if text[next]? = some ',' then extractIndexFrom text (index - 1) (next + 1) else none
termination_by text.length - pos
decreasing_by
  have hlt : valueStart < text.length := by
    by_contra hle
    exact _hmore (.inl (List.getElem?_eq_none_iff.mpr (Nat.le_of_not_lt hle)))
  have hpos : pos ≤ valueStart := le_skipJsonWhitespace ..
  have hvalue := le_of_scanJsonValueEnd _hvalue
  have hnext : valueEnd ≤ next := le_skipJsonWhitespace ..
  omega

def extractJsonIndex (array : List Char) (index : Nat) : Option (List Char) :=
  let text := trimJson array
  if text.head? ≠ some '[' ∨ text.getLast? ≠ some ']' then none else extractIndexFrom text index 1

def extractSegment (text : List Char) : SimpleJsonPathSegment → Option (List Char)
  | .field name => extractJsonField text name
  | .index position => extractJsonIndex text position

/-- The piece of the text at the end of the path. -/
def SimpleJsonPath.extract (path : SimpleJsonPath) (json : List Char) : Option (List Char) :=
  (path.segments.foldlM extractSegment (trimJson json)).map trimJson

def rawJsonNumberEq (raw : List Char) (expected : Float) : Bool :=
  (parseF64 raw).any fun actual => (actual - expected).abs < epsilon

/-- Compares a raw JSON value slice with a scalar value. -/
def rawJsonEqValue (raw : List Char) (expected : Value Scalar) : Bool :=
  let raw := trimJson raw
  match expected with
  | none => raw = ['n', 'u', 'l', 'l']
  | some (.boolean value) => raw = if value then ['t', 'r', 'u', 'e'] else ['f', 'a', 'l', 's', 'e']
  | some (.int32 value) => rawJsonNumberEq raw value.toFloat
  | some (.int64 value) => rawJsonNumberEq raw value.toFloat
  | some (.float64 value) => rawJsonNumberEq raw value
  | some (.string value) => (decodeJsonStringLiteral raw).any (· == value)
  | _ => false

/-- Strings are decoded before the needle is looked for, other pieces are searched as they are. -/
def rawJsonContainsValue (raw : List Char) (expected : Value Scalar) : Bool :=
  match expected with
  | some (.string needle) =>
    if (trimJson raw).head? = some '"' then
      (decodeJsonStringLiteral (trimJson raw)).any fun actual =>
        decide (needle.toList <:+: actual.toList)
    else decide (needle.toList <:+: trimJson raw)
  | _ => rawJsonEqValue raw expected

end Source

section Trim

variable {s : List Char}

theorem asciiWhitespace_of_blank (blank : Blank) : ∀ c ∈ blank.chars, isAsciiWhitespace c = true := by
  intro c hc
  have hblank := blank.blank c hc
  simp only [Json.isBlank, Bool.or_eq_true, beq_iff_eq] at hblank
  rcases hblank with ((rfl | rfl) | rfl) | rfl <;> rfl

/-- Blanks of JSON around a text are all that is trimmed. -/
theorem trimJson_around (before after : Blank) (h : Core.Tight s) :
    trimJson (before.chars ++ s ++ after.chars) = s := by
  have hbefore := asciiWhitespace_of_blank before
  have hafter : ∀ c ∈ after.chars.reverse, isAsciiWhitespace c = true :=
    fun c hc => asciiWhitespace_of_blank after c (List.mem_reverse.mp hc)
  have hfront : s.dropWhile isAsciiWhitespace = s := by
    cases s with
    | nil => rfl
    | cons c s =>
      rw [List.dropWhile_cons_of_neg (by simp [noAsciiWhitespace (h.first c rfl)])]
  have hback : s.reverse.dropWhile isAsciiWhitespace = s.reverse := by
    cases hs : s.reverse with
    | nil => rfl
    | cons c rest =>
      have hlast : s.getLast? = some c := by rw [← List.head?_reverse, hs]; rfl
      rw [List.dropWhile_cons_of_neg (by simp [noAsciiWhitespace (h.last c hlast)])]
  have hne : s ++ after.chars ≠ [] := by simp [h.nonempty]
  unfold trimJson
  rw [List.append_assoc, List.dropWhile_append_of_pos hbefore, List.dropWhile_append, hfront,
    if_neg (by simp [h.nonempty]), List.reverse_append, List.dropWhile_append_of_pos hafter, hback,
    List.reverse_reverse]

theorem trimJson_tight (h : Core.Tight s) : trimJson s = s := by
  have htrim := trimJson_around .none .none h
  rwa [Blank.none, List.nil_append, List.append_nil] at htrim

theorem trimJson_tail (tail : Blank) (h : Core.Tight s) : trimJson (s ++ tail.chars) = s :=
  trimJson_around .none tail h

end Trim

section Extract

variable {text rest : List Char} {pos : Nat} {field : String}

/-- A literal is read as strings are. -/
theorem jsonStringLiteralEq_quoted (items : List StringItem) (expected : String) :
    jsonStringLiteralEq (quoted items) expected = (lightRead items == expected) := by
  have hread : decodeJsonStringInner (stringText items) = lightRead items :=
    congrArg String.ofList (unescapeJson_text items)
  unfold jsonStringLiteralEq
  rw [trimJson_tight (Json.quoted_tight items), isQuoted_quoted, inner_quoted, Bool.true_and]
  split
  · rw [hread]
  · rename_i hplain
    have hunescape := @unescapeJson_plain (stringText items) [] fun c hc hslash => hplain (hslash ▸ hc)
    rw [List.append_nil] at hunescape
    rw [← hread, decodeJsonStringInner, hunescape]
    simp [unescapeJson]

theorem decodeJsonStringLiteral_quoted (items : List StringItem) :
    decodeJsonStringLiteral (quoted items) = some (lightRead items) := by
  unfold decodeJsonStringLiteral
  rw [trimJson_tight (Json.quoted_tight items), isQuoted_quoted, if_pos rfl, inner_quoted]
  exact congrArg (fun s => some (String.ofList s)) (unescapeJson_text items)

theorem getElem?_drop_head (h : text.drop pos = rest) : text[pos]? = rest.head? := by
  rw [← h, List.head?_drop]

/-- The loop at a member: its value is taken, or it is passed over. -/
theorem extractFieldFrom_member {key : Key} {value : Doc} {behind : List Char}
    (h : MemberAt text pos key value behind) :
    ∃ next, text.drop next = behind ∧ extractFieldFrom text field pos =
      if lightRead key.name = field then some value.text
      else if behind.head? = some ',' then extractFieldFrom text field (next + 1) else none := by
  obtain ⟨literalTail, hliteral⟩ := h.literal
  obtain ⟨keyEnd, hlength, hkey, hcolon, helement⟩ := h.stop
  obtain ⟨valueEnd, hvalue, ⟨tail, hslice⟩, hnext⟩ := helement.value
  refine ⟨_, hnext, ?_⟩
  have hquote : text[skipJsonWhitespace text pos]? = some '"' := getElem?_drop_head hliteral
  have hbetween : between text (skipJsonWhitespace text pos) keyEnd = quoted key.name :=
    hlength ▸ between_append hliteral
  rw [extractFieldFrom.eq_def]
  dsimp only
  rw [dif_neg (not_not.mpr hquote)]
  split
  · rename_i hnone
    rw [hkey] at hnone
    cases hnone
  · rename_i stop hstop
    obtain rfl : keyEnd = stop := Option.some.inj (hkey.symm.trans hstop)
    rw [if_neg (not_not.mpr hcolon)]
    split
    · rename_i hnone
      rw [hvalue] at hnone
      cases hnone
    · rename_i stop hstop
      obtain rfl : valueEnd = stop := Option.some.inj (hvalue.symm.trans hstop)
      rw [hbetween, hslice, trimJson_tail tail value.tight, jsonStringLiteralEq_quoted,
        getElem?_drop_head hnext]
      simp only [beq_iff_eq]

/-- The loop at an element. -/
theorem extractIndexFrom_element {value : Doc} {behind : List Char} (index : Nat)
    (h : ElementAt text pos value behind) :
    ∃ next, text.drop next = behind ∧ extractIndexFrom text index pos =
      if index = 0 then some value.text
      else if behind.head? = some ',' then extractIndexFrom text (index - 1) (next + 1)
      else none := by
  obtain ⟨first, rest, hfirst, hbracket⟩ := h.first
  obtain ⟨valueEnd, hvalue, ⟨tail, hslice⟩, hnext⟩ := h.value
  refine ⟨_, hnext, ?_⟩
  have hmore : text[skipJsonWhitespace text pos]? = some first := getElem?_drop_head hfirst
  rw [extractIndexFrom.eq_def]
  dsimp only
  rw [dif_neg (by simp [hmore, hbracket])]
  split
  · rename_i hnone
    rw [hvalue] at hnone
    cases hnone
  · rename_i stop hstop
    obtain rfl : valueEnd = stop := Option.some.inj (hvalue.symm.trans hstop)
    rw [hslice, trimJson_tail tail value.tight, getElem?_drop_head hnext]

/-- The first member with the key. -/
def firstNamed (field : String) (entries : List (Key × Doc)) : Option (Key × Doc) :=
  entries.find? fun entry => lightRead entry.1.name == field

theorem firstNamed_cons (key : Key) (value : Doc) (entries : List (Key × Doc)) :
    firstNamed field ((key, value) :: entries) =
      if lightRead key.name = field then some (key, value) else firstNamed field entries := by
  unfold firstNamed
  by_cases hkey : lightRead key.name = field
  · simp [hkey]
  · simp [hkey]

theorem extractFieldFrom_members (ms : Members) (h : text.drop pos = ms.text ++ '}' :: rest) :
    extractFieldFrom text field pos =
      (firstNamed field ms.entries).map fun entry => entry.2.text := by
  induction ms using Members.induct generalizing pos with
  | last key value after =>
    obtain ⟨next, -, hstep⟩ := @extractFieldFrom_member text pos field key value _
      (member_at key value after h rfl)
    rw [hstep, Members.entries, firstNamed_cons]
    by_cases hkey : lightRead key.name = field
    · rw [if_pos hkey, if_pos hkey]
      rfl
    · rw [if_neg hkey, if_neg hkey, if_neg (by simp)]
      rfl
  | cons key value after more ih =>
    have hmember : text.drop pos =
        key.text ++ value.text ++ after.chars ++ ',' :: (more.text ++ '}' :: rest) := by
      rw [h, Members.text, List.append_assoc, List.cons_append]
    obtain ⟨next, hnext, hstep⟩ := @extractFieldFrom_member text pos field key value _
      (member_at key value after hmember rfl)
    rw [hstep, Members.entries, firstNamed_cons]
    by_cases hkey : lightRead key.name = field
    · rw [if_pos hkey, if_pos hkey]
      rfl
    · rw [if_neg hkey, if_neg hkey, if_pos List.head?_cons]
      exact ih (drop_succ hnext)

theorem extractIndexFrom_elements (es : Elements) (index : Nat)
    (h : text.drop pos = es.text ++ ']' :: rest) :
    extractIndexFrom text index pos = es.docs[index]?.map Doc.text := by
  induction es using Elements.induct generalizing pos index with
  | last before value after =>
    obtain ⟨next, -, hstep⟩ := extractIndexFrom_element index (element_at before value after h rfl)
    rw [hstep, Elements.docs]
    cases index with
    | zero => rfl
    | succ index => rfl
  | cons before value after more ih =>
    have helement : text.drop pos =
        before.chars ++ value.text ++ after.chars ++ ',' :: (more.text ++ ']' :: rest) := by
      rw [h, Elements.text, List.append_assoc, List.cons_append]
    obtain ⟨next, hnext, hstep⟩ := extractIndexFrom_element index
      (element_at before value after helement rfl)
    rw [hstep, Elements.docs]
    cases index with
    | zero => rfl
    | succ index =>
      rw [if_neg (Nat.succ_ne_zero index), if_pos List.head?_cons]
      exact ih index (drop_succ hnext)

/-- The value that a segment leads to: the first member with the key, or the element there. -/
def step (d : Doc) : SimpleJsonPathSegment → Option Doc
  | .field name =>
    match d with
    | .object ms => (firstNamed name ms.entries).map fun entry => entry.2
    | _ => none
  | .index position =>
    match d with
    | .array es => es.docs[position]?
    | _ => none

theorem ends_brackets (first last : Char) (body : List Char) :
    (first :: body ++ [last]).head? = some first ∧ (first :: body ++ [last]).getLast? = some last :=
  ⟨rfl, List.getLast?_concat⟩

theorem extractFieldFrom_empty (blank : Blank) :
    extractFieldFrom ('{' :: blank.chars ++ ['}']) field 1 = none := by
  have hdrop : ('{' :: blank.chars ++ ['}']).drop 1 = blank.chars ++ '}' :: [] := rfl
  have hskip := skip_blank blank hdrop rfl
  rw [extractFieldFrom.eq_def]
  dsimp only
  rw [dif_pos]
  rw [hskip, getElem?_drop_head (drop_append hdrop)]
  simp

theorem extractIndexFrom_empty (blank : Blank) (index : Nat) :
    extractIndexFrom ('[' :: blank.chars ++ [']']) index 1 = none := by
  have hdrop : ('[' :: blank.chars ++ [']']).drop 1 = blank.chars ++ ']' :: [] := rfl
  have hskip := skip_blank blank hdrop rfl
  rw [extractIndexFrom.eq_def]
  dsimp only
  rw [dif_pos]
  rw [hskip, getElem?_drop_head (drop_append hdrop)]
  exact .inr rfl

/-- Of a value that is no object nothing is read under a key. -/
theorem extractJsonField_other {s : List Char} (h : Core.Tight s) (hhead : s.head? ≠ some '{') :
    extractJsonField s field = none := by
  unfold extractJsonField
  rw [trimJson_tight h, if_pos (.inl hhead)]

theorem extractJsonIndex_other {s : List Char} (h : Core.Tight s) (hhead : s.head? ≠ some '[')
    (index : Nat) : extractJsonIndex s index = none := by
  unfold extractJsonIndex
  rw [trimJson_tight h, if_pos (.inl hhead)]

theorem number_head (n : Json.Numeral) : n.text.head? ≠ some '{' ∧ n.text.head? ≠ some '[' := by
  obtain ⟨c, chars, htext, -⟩ := Core.numeralText_head n
  have hc := n.lexical c (by rw [htext]; exact List.mem_cons_self)
  rw [htext]
  refine ⟨?_, ?_⟩ <;> intro h <;> obtain rfl := Option.some.inj h
  · exact hc.1.2.1 rfl
  · exact hc.1.2.2.1 rfl

/-- One segment on the text of a value. -/
theorem extractSegment_text (d : Doc) (segment : SimpleJsonPathSegment) :
    extractSegment d.text segment = (step d segment).map Doc.text := by
  cases segment with
  | field name =>
    change extractJsonField d.text name = _
    cases d with
    | object ms =>
      obtain ⟨hfirst, hlast⟩ := ends_brackets '{' '}' ms.text
      unfold extractJsonField
      rw [trimJson_tight (Doc.object ms).tight, Doc.text, if_neg (by rw [hfirst, hlast]; simp),
        @extractFieldFrom_members ('{' :: ms.text ++ ['}']) [] 1 name ms rfl, step,
        Option.map_map]
      rfl
    | emptyObject blank =>
      obtain ⟨hfirst, hlast⟩ := ends_brackets '{' '}' blank.chars
      unfold extractJsonField
      rw [trimJson_tight (Doc.emptyObject blank).tight, Doc.text,
        if_neg (by rw [hfirst, hlast]; simp), extractFieldFrom_empty]
      rfl
    | bool b => cases b <;> exact extractJsonField_other (Doc.bool _).tight (by decide)
    | number n => exact extractJsonField_other (Doc.number n).tight (number_head n).1
    | null => exact extractJsonField_other Doc.null.tight (by decide)
    | string items => exact extractJsonField_other (Doc.string items).tight (by simp [Doc.text, quoted])
    | emptyArray blank =>
      exact extractJsonField_other (Doc.emptyArray blank).tight (by simp [Doc.text])
    | array es => exact extractJsonField_other (Doc.array es).tight (by simp [Doc.text])
  | index position =>
    change extractJsonIndex d.text position = _
    cases d with
    | array es =>
      obtain ⟨hfirst, hlast⟩ := ends_brackets '[' ']' es.text
      unfold extractJsonIndex
      rw [trimJson_tight (Doc.array es).tight, Doc.text, if_neg (by rw [hfirst, hlast]; simp),
        @extractIndexFrom_elements ('[' :: es.text ++ [']']) [] 1 es position rfl]
      rfl
    | emptyArray blank =>
      obtain ⟨hfirst, hlast⟩ := ends_brackets '[' ']' blank.chars
      unfold extractJsonIndex
      rw [trimJson_tight (Doc.emptyArray blank).tight, Doc.text,
        if_neg (by rw [hfirst, hlast]; simp), extractIndexFrom_empty]
      rfl
    | bool b => cases b <;> exact extractJsonIndex_other (Doc.bool _).tight (by decide) position
    | number n => exact extractJsonIndex_other (Doc.number n).tight (number_head n).2 position
    | null => exact extractJsonIndex_other Doc.null.tight (by decide) position
    | string items =>
      exact extractJsonIndex_other (Doc.string items).tight (by simp [Doc.text, quoted]) position
    | emptyObject blank =>
      exact extractJsonIndex_other (Doc.emptyObject blank).tight (by simp [Doc.text]) position
    | object ms =>
      exact extractJsonIndex_other (Doc.object ms).tight (by simp [Doc.text]) position

/-- The value that a path leads to. -/
def follow (path : SimpleJsonPath) (d : Doc) : Option Doc := path.segments.foldlM step d

/-- On every text in the grammar a path is followed to the text of the value it leads to. -/
theorem extract_text (path : SimpleJsonPath) (d : Doc) (before after : Blank) :
    path.extract (before.chars ++ d.text ++ after.chars) = (follow path d).map Doc.text := by
  have hsegments : ∀ (segments : List SimpleJsonPathSegment) (d : Doc),
      segments.foldlM extractSegment d.text = (segments.foldlM step d).map Doc.text := by
    intro segments
    induction segments with
    | nil => exact fun d => rfl
    | cons segment segments ih =>
      intro d
      rw [List.foldlM_cons, List.foldlM_cons, extractSegment_text]
      cases step d segment with
      | none => rfl
      | some next => exact ih next
  unfold SimpleJsonPath.extract follow
  rw [trimJson_around before after d.tight, hsegments, Option.map_map]
  cases path.segments.foldlM step d with
  | none => rfl
  | some value => exact congrArg some (trimJson_tight value.tight)

end Extract

end Cynos.Jsonb
