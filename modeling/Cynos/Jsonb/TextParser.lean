import Cynos.Jsonb.Document
import Mathlib.Data.List.TakeWhile

/-! The parser of JSON texts that storage and the dataflow compiler share: a text is cut at its
separators outside of strings and brackets, and the parts are parsed in turn. -/
namespace Cynos.Jsonb

open Core (isWhitespace trim trimEnd trim_length_le parseF64)
open Json (Blank Key CodeUnit StringItem Doc Elements Members Scan quoted stringText)

section Split

/-- Outside of strings, whatever the depth. -/
def atToken (st : Scan) : Bool := !st.inString && !st.escape

/-- The loop of `split_json_top_level` over the rest, with the part read so far. -/
def splitFrom (separator : Char) : Scan → List Char → List Char → List (List Char)
  | _, part, [] => [part]
  | st, part, c :: s =>
    if atToken st ∧ c = separator ∧ st.depth = 0 then part :: splitFrom separator st [] s
    else splitFrom separator (st.step c) (part ++ [c]) s

def splitJsonTopLevel (s : List Char) (separator : Char) : List (List Char) :=
  splitFrom separator (.outside 0) [] s

/-- The loop of `find_json_colon` from a position on. -/
def findColonFrom : Scan → Nat → List Char → Option Nat
  | _, _, [] => none
  | st, i, c :: s => if atToken st ∧ c = ':' then some i else findColonFrom (st.step c) (i + 1) s

def findJsonColon (s : List Char) : Option Nat := findColonFrom (.outside 0) 0 s

variable {separator : Char}

theorem length_of_mem_splitFrom {st : Scan} {part s piece : List Char}
    (h : piece ∈ splitFrom separator st part s) : piece.length ≤ part.length + s.length := by
  induction s generalizing st part with
  | nil => exact (List.mem_singleton.mp h) ▸ Nat.le_refl _
  | cons c s ih =>
    rw [splitFrom] at h
    split_ifs at h
    · rcases List.mem_cons.mp h with rfl | h
      · exact Nat.le_add_right _ _
      · have := ih h
        simp only [List.length_nil, List.length_cons] at this ⊢
        omega
    · have := ih h
      simp only [List.length_append, List.length_cons, List.length_nil] at this ⊢
      omega

theorem length_of_mem_split {s piece : List Char} (h : piece ∈ splitJsonTopLevel s separator) :
    piece.length ≤ s.length := by
  have := length_of_mem_splitFrom h
  rwa [List.length_nil, Nat.zero_add] at this

end Split

section Unescape

/-- What stands for the character behind a backslash. -/
def unescaped (c : Char) : List Char :=
  if c = 'n' then ['\n']
  else if c = 't' then ['\t']
  else if c = 'r' then ['\r']
  else if c = '"' ∨ c = '\\' ∨ c = '/' then [c]
  else ['\\', c]

def unescapeJson : List Char → List Char
  | [] => []
  | c :: s =>
    if c = '\\' then
      match s with
      | [] => ['\\']
      | escaped :: s => unescaped escaped ++ unescapeJson s
    else c :: unescapeJson s

/-- What an item of a string is read as: some escapes are left as they are. -/
def lightText : StringItem → List Char
  | .plain c _ => [c]
  | .short e => unescaped e.letter
  | .unicode u _ => '\\' :: 'u' :: u.digits
  | .surrogates high low _ _ => '\\' :: 'u' :: high.digits ++ '\\' :: 'u' :: low.digits

def lightRead (items : List StringItem) : String := String.ofList (items.flatMap lightText)

variable {text rest : List Char}

theorem unescapeJson_plain (h : ∀ c ∈ text, c ≠ '\\') :
    unescapeJson (text ++ rest) = text ++ unescapeJson rest := by
  induction text with
  | nil => rfl
  | cons c text ih =>
    obtain ⟨hc, htext⟩ := List.forall_mem_cons.mp h
    rw [List.cons_append, unescapeJson.eq_def]
    dsimp only
    rw [if_neg hc, ih htext, List.cons_append]

theorem unescapeJson_escape (c : Char) (rest : List Char) :
    unescapeJson ('\\' :: c :: rest) = unescaped c ++ unescapeJson rest := rfl

theorem unescapeJson_unit (u : CodeUnit) (rest : List Char) :
    unescapeJson ('\\' :: 'u' :: u.digits ++ rest) =
      '\\' :: 'u' :: u.digits ++ unescapeJson rest := by
  change unescapeJson ('\\' :: 'u' :: (u.digits ++ rest)) = _
  rw [unescapeJson_escape, unescapeJson_plain fun c hc => (u.ne c hc).2]
  rfl

theorem unescapeJson_text (items : List StringItem) :
    unescapeJson (stringText items) = items.flatMap lightText := by
  have hitem : ∀ (item : StringItem) (rest : List Char),
      unescapeJson (item.text ++ rest) = lightText item ++ unescapeJson rest := by
    intro item rest
    cases item with
    | plain c printable =>
      exact unescapeJson_plain fun c' hc' => List.mem_singleton.mp hc' ▸ printable.2.1
    | short e => rfl
    | unicode u scalar => exact unescapeJson_unit u rest
    | surrogates high low highRange lowRange =>
      have hhigh := unescapeJson_unit high ('\\' :: 'u' :: low.digits ++ rest)
      rw [unescapeJson_unit low rest] at hhigh
      simpa [StringItem.text, lightText] using hhigh
  induction items with
  | nil => rfl
  | cons item items ih =>
    rw [stringText, List.flatMap_cons, List.flatMap_cons, hitem]
    exact congrArg (lightText item ++ ·) ih

end Unescape

section Parse

def isQuoted (s : List Char) : Bool :=
  s.head? == some '"' && s.getLast? == some '"' && decide (2 ≤ s.length)

/-- Between the quotes or brackets. -/
def inner (s : List Char) : List Char := s.tail.dropLast

theorem inner_length {s : List Char} {c : Char} (h : s.head? = some c) :
    (inner s).length < s.length := by
  cases s with
  | nil => cases h
  | cons c s =>
    simp only [inner, List.tail_cons, List.length_dropLast, List.length_cons]
    omega

theorem piece_length {s piece : List Char} {c separator : Char} (h : (trim s).head? = some c)
    (hpiece : piece ∈ splitJsonTopLevel (trim (inner (trim s))) separator) :
    piece.length < s.length := by
  have hsplit := length_of_mem_split hpiece
  have htrim := trim_length_le (inner (trim s))
  have hinner := inner_length h
  have htrim' := trim_length_le s
  omega

theorem valueStr_length {s piece : List Char} {c separator : Char} (h : (trim s).head? = some c)
    (hpiece : piece ∈ splitJsonTopLevel (trim (inner (trim s))) separator) (colon : Nat) :
    (trim ((trim piece).drop (colon + 1))).length < s.length := by
  have hlength := piece_length h hpiece
  have htrim := trim_length_le piece
  have hvalue := trim_length_le ((trim piece).drop (colon + 1))
  rw [List.length_drop] at hvalue
  omega

variable (unescape : List Char → List Char)

mutual

def parseJsonText (s : List Char) : Option JsonbValue :=
  if trim s = ['n', 'u', 'l', 'l'] then some .null
  else if trim s = ['t', 'r', 'u', 'e'] then some (.bool true)
  else if trim s = ['f', 'a', 'l', 's', 'e'] then some (.bool false)
  else
    match parseF64 (trim s) with
    | some n => some (.number n)
    | none =>
      if isQuoted (trim s) then some (.string (String.ofList (unescape (inner (trim s)))))
      else if (trim s).head? = some '{' then parseJsonObject (trim s)
      else if (trim s).head? = some '[' then parseJsonArray (trim s)
      else none
termination_by (s.length, 1)
decreasing_by
  all_goals
    have := trim_length_le s
    exact Prod.lex_iff.mpr (by dsimp only; omega)

def parseJsonObject (s : List Char) : Option JsonbValue :=
  if _h : (trim s).head? ≠ some '{' ∨ (trim s).getLast? ≠ some '}' then none
  else
    let text := trim (inner (trim s))
    if text.isEmpty then some (.object [])
    else
      ((splitJsonTopLevel text ',').attach.mapM fun piece =>
        let pair := trim piece.val
        (findJsonColon pair).bind fun colon =>
          let keyStr := trim (pair.take colon)
          let valueStr := trim (pair.drop (colon + 1))
          if isQuoted keyStr then
            (parseJsonText valueStr).map fun value =>
              (String.ofList (unescape (inner keyStr)), value)
          else none).map fun members => .object (JsonbObject.ofMembers members)
termination_by (s.length, 0)
decreasing_by
  have hhead := Decidable.not_not.mp (not_or.mp _h).1
  exact Prod.lex_iff.mpr (.inl (valueStr_length hhead piece.property colon))

def parseJsonArray (s : List Char) : Option JsonbValue :=
  if _h : (trim s).head? ≠ some '[' ∨ (trim s).getLast? ≠ some ']' then none
  else
    let text := trim (inner (trim s))
    if text.isEmpty then some (.array [])
    else
      ((splitJsonTopLevel text ',').attach.mapM fun value =>
        parseJsonText (trim value.val)).map .array
termination_by (s.length, 0)
decreasing_by
  have hhead := Decidable.not_not.mp (not_or.mp _h).1
  exact Prod.lex_iff.mpr (.inl (Nat.lt_of_le_of_lt (trim_length_le _)
    (piece_length hhead value.property)))

end

end Parse

section Trim

variable {blank s part : List Char} {separator : Char} {st : Scan}

def AllBlank (s : List Char) : Prop := ∀ c ∈ s, isWhitespace c = true

theorem trim_blank_append (h : AllBlank blank) (s : List Char) : trim (blank ++ s) = trim s :=
  congrArg trimEnd (List.dropWhile_append_of_pos h)

theorem trim_append_blank (h : AllBlank blank) (s : List Char) : trim (s ++ blank) = trim s := by
  have hreverse : ∀ c ∈ blank.reverse, isWhitespace c = true :=
    fun c hc => h c (List.mem_reverse.mp hc)
  unfold trim
  rw [List.dropWhile_append]
  split
  · rename_i hempty
    rw [List.isEmpty_iff.mp hempty, List.dropWhile_eq_nil_iff.mpr h]
  · unfold trimEnd
    rw [List.reverse_append, List.dropWhile_append_of_pos hreverse]

theorem exists_trim (s : List Char) :
    ∃ before after, AllBlank before ∧ AllBlank after ∧ s = before ++ trim s ++ after := by
  have hfront := List.takeWhile_append_dropWhile (p := isWhitespace) (l := s)
  have hback := List.takeWhile_append_dropWhile (p := isWhitespace)
    (l := (s.dropWhile isWhitespace).reverse)
  refine ⟨s.takeWhile isWhitespace,
    ((s.dropWhile isWhitespace).reverse.takeWhile isWhitespace).reverse,
    fun c hc => List.mem_takeWhile_imp hc,
    fun c hc => List.mem_takeWhile_imp (List.mem_reverse.mp hc), ?_⟩
  have hreverse := congrArg List.reverse hback
  rw [List.reverse_append, List.reverse_reverse] at hreverse
  unfold trim trimEnd
  rw [List.append_assoc, hreverse, hfront]

theorem blank_ne {c d : Char} (h : isWhitespace c = true) (hd : isWhitespace d = false) : c ≠ d :=
  fun heq => Bool.false_ne_true (hd.symm.trans (heq ▸ h))

theorem step_blank {c : Char} (h : isWhitespace c = true) (e : Int) :
    (Scan.outside e).step c = .outside e :=
  Scan.step_inert ⟨blank_ne h (by decide), blank_ne h (by decide), blank_ne h (by decide),
    blank_ne h (by decide), blank_ne h (by decide)⟩

theorem splitFrom_blank (h : AllBlank blank) (hseparator : isWhitespace separator = false)
    (st : Scan) (part : List Char) : splitFrom separator st part blank = [part ++ blank] := by
  induction blank generalizing st part with
  | nil => exact congrArg (fun part => [part]) (List.append_nil part).symm
  | cons c blank ih =>
    obtain ⟨hc, hblank⟩ := List.forall_mem_cons.mp h
    rw [splitFrom, if_neg fun hsplit => blank_ne hc hseparator hsplit.2.1, ih hblank]
    exact congrArg (fun part => [part]) (List.append_assoc part [c] blank)

/-- Blanks at the end stay with the last part. -/
theorem splitFrom_append_blank (h : AllBlank blank) (hseparator : isWhitespace separator = false)
    (st : Scan) (part s : List Char) :
    (splitFrom separator st part (s ++ blank)).map trim =
      (splitFrom separator st part s).map trim := by
  induction s generalizing st part with
  | nil =>
    rw [List.nil_append, splitFrom_blank h hseparator, splitFrom, List.map_singleton,
      List.map_singleton, trim_append_blank h]
  | cons c s ih =>
    rw [List.cons_append, splitFrom, splitFrom]
    split
    · rw [List.map_cons, List.map_cons, ih]
    · exact ih _ _

/-- Blanks at the front stay with the first part. -/
theorem splitFrom_blank_part (h : AllBlank blank) (st : Scan) (part s : List Char) :
    (splitFrom separator st (blank ++ part) s).map trim =
      (splitFrom separator st part s).map trim := by
  induction s generalizing st part with
  | nil =>
    rw [splitFrom, splitFrom, List.map_singleton, List.map_singleton, trim_blank_append h]
  | cons c s ih =>
    rw [splitFrom, splitFrom]
    split
    · rw [List.map_cons, List.map_cons, trim_blank_append h]
    · rw [List.append_assoc]
      exact ih _ _

theorem splitFrom_front_blank (h : AllBlank blank) (hseparator : isWhitespace separator = false)
    (part s : List Char) : splitFrom separator (.outside 0) part (blank ++ s) =
      splitFrom separator (.outside 0) (part ++ blank) s := by
  induction blank generalizing part with
  | nil => rw [List.nil_append, List.append_nil]
  | cons c blank ih =>
    obtain ⟨hc, hblank⟩ := List.forall_mem_cons.mp h
    rw [List.cons_append, splitFrom, if_neg fun hsplit => blank_ne hc hseparator hsplit.2.1,
      step_blank hc, ih hblank]
    exact congrArg (splitFrom separator _ · s) (List.append_assoc part [c] blank)

/-- The parts of a trimmed text are those of the text, up to blanks around them. -/
theorem split_trim (hseparator : isWhitespace separator = false) (s : List Char) :
    (splitJsonTopLevel (trim s) separator).map trim = (splitJsonTopLevel s separator).map trim := by
  obtain ⟨before, after, hbefore, hafter, hs⟩ := exists_trim s
  unfold splitJsonTopLevel
  conv_rhs => rw [hs]
  rw [splitFrom_append_blank hafter hseparator, splitFrom_front_blank hbefore hseparator,
    List.nil_append]
  have hpart := @splitFrom_blank_part before separator hbefore (.outside 0) [] (trim s)
  rw [List.append_nil] at hpart
  exact hpart.symm

end Trim

section Spec

variable {unescape : List Char → List Char} {read : List StringItem → String}
  {front rest part : List Char} {separator : Char} {st : Scan}

/-- Over a text without a separator at the top, the part grows. -/
theorem splitFrom_front
    (h : Scan.Along (fun st c => atToken st = true → st.depth = 0 → c ≠ separator) st front) :
    splitFrom separator st part (front ++ rest) =
      splitFrom separator (st.run front) (part ++ front) rest := by
  induction front generalizing st part with
  | nil => rw [List.nil_append, List.append_nil, Scan.run_nil]
  | cons c front ih =>
    rw [List.cons_append, splitFrom, if_neg fun hsplit => h.1 hsplit.1 hsplit.2.2 hsplit.2.1,
      ih h.2, Scan.run_cons]
    exact congrArg (splitFrom separator _ · rest) (List.append_assoc part [c] front)

theorem outside_of_atToken (h : atToken st = true) (hdepth : st.depth = 0) : st = .outside 0 := by
  obtain ⟨depth, inString, escape⟩ := st
  simp only [atToken, Bool.and_eq_true, Bool.not_eq_true'] at h
  simp only [Scan.outside, Scan.mk.injEq]
  exact ⟨hdepth, h⟩

theorem splitFrom_passes (h : Scan.Passes Scan.OnePart (.outside 0) front (.outside 0)) :
    splitFrom ',' (.outside 0) part (front ++ rest) =
      splitFrom ',' (.outside 0) (part ++ front) rest := by
  have halong := h.along.imp fun st c hc hst hdepth => hc (outside_of_atToken hst hdepth)
  rw [splitFrom_front halong, h.run]

theorem split_last (h : Scan.Passes Scan.OnePart (.outside 0) front (.outside 0)) :
    splitJsonTopLevel front ',' = [front] := by
  have hsplit := @splitFrom_passes front [] [] h
  rwa [List.append_nil, List.nil_append] at hsplit

theorem split_cons (h : Scan.Passes Scan.OnePart (.outside 0) front (.outside 0)) :
    splitJsonTopLevel (front ++ ',' :: rest) ',' = front :: splitJsonTopLevel rest ',' := by
  unfold splitJsonTopLevel
  rw [splitFrom_passes h, splitFrom, if_pos ⟨rfl, rfl, rfl⟩, List.nil_append]

theorem findColonFrom_front {i : Nat}
    (h : Scan.Passes (fun st c => atToken st = true → c ≠ ':') st front (.outside 0)) :
    findColonFrom st i (front ++ ':' :: rest) = some (i + front.length) := by
  induction front generalizing st i with
  | nil =>
    obtain rfl : st = .outside 0 := h.run
    rfl
  | cons c front ih =>
    rw [List.cons_append, findColonFrom, if_neg fun hc => h.along.1 hc.1 hc.2,
      ih ⟨h.along.2, h.run⟩, List.length_cons]
    exact congrArg some (by omega)

theorem allBlank (b : Blank) : AllBlank b.chars := Json.blank_whitespace b

/-- The colon of a member, with its key and value. -/
theorem findJsonColon_key (name : List StringItem) (after : Blank) (rest : List Char) :
    findJsonColon (quoted name ++ after.chars ++ ':' :: rest) =
      some (quoted name ++ after.chars).length := by
  have hname : Scan.Passes (fun st c => atToken st = true → c ≠ ':') (.outside 0) (quoted name)
      (.outside 0) :=
    Json.quoted_passes (fun escape c hst => by cases hst) (fun _ => by decide) name
  have hafter : Scan.Passes (fun st c => atToken st = true → c ≠ ':') (.outside 0) after.chars
      (.outside 0) :=
    .inert fun c hc => ⟨(after.lexical c hc).1, fun _ => (after.lexical c hc).2.2⟩
  have hfind := @findColonFrom_front _ rest _ 0 (hname.append hafter)
  rwa [Nat.zero_add] at hfind

theorem inner_brackets (first last : Char) (text : List Char) :
    inner (first :: text ++ [last]) = text := by
  rw [inner, List.cons_append, List.tail_cons, List.dropLast_concat]

theorem isQuoted_quoted (items : List StringItem) : isQuoted (quoted items) = true := by
  have hlast : (quoted items).getLast? = some '"' := List.getLast?_concat
  unfold isQuoted
  rw [hlast]
  simp [quoted]

theorem inner_quoted (items : List StringItem) : inner (quoted items) = stringText items :=
  inner_brackets '"' '"' (stringText items)

/-- What a text that is parsed starts with. -/
theorem parseJsonText_composite {c : Char} {text : List Char} (s : List Char)
    (hs : trim s = c :: text) (hdigit : c.isDigit = false) (hdot : c ≠ '.')
    (hsign : c ≠ '-' ∧ c ≠ '+') (hletter : c.toLower ≠ 'i' ∧ c.toLower ≠ 'n')
    (hword : c ≠ 'n' ∧ c ≠ 't' ∧ c ≠ 'f') :
    parseJsonText unescape s =
      if isQuoted (c :: text) then
        some (.string (String.ofList (unescape (inner (c :: text)))))
      else if c = '{' then parseJsonObject unescape (c :: text)
      else if c = '[' then parseJsonArray unescape (c :: text)
      else none := by
  rw [parseJsonText.eq_def, hs]
  simp [Core.parseF64_none hdigit hdot hsign hletter, hword]

theorem mapM_attach {A B : Type} (l : List A) (f : A → Option B) :
    (l.attach.mapM fun x => f x.val) = l.mapM f := by
  have h : (l.attach.map Subtype.val).mapM f = l.attach.mapM (f ∘ Subtype.val) := List.mapM_map ..
  rw [List.attach_map_subtype_val] at h
  exact h.symm

/-- A function of trimmed parts does not see the blanks around a text. -/
theorem mapM_split_trim {B : Type} (f : List Char → Option B) (s : List Char) :
    ((splitJsonTopLevel (trim s) ',').mapM fun part => f (trim part)) =
      ((splitJsonTopLevel s ',').map trim).mapM f := by
  rw [← split_trim (by decide)]
  exact (List.mapM_map ..).symm

theorem parseJsonArray_brackets (text : List Char) :
    parseJsonArray unescape ('[' :: text ++ [']']) =
      if (trim text).isEmpty then some (.array [])
      else (((splitJsonTopLevel text ',').map trim).mapM (parseJsonText unescape)).map .array := by
  have htight := Core.trim_tight (Json.tight_brackets '[' ']' text (by decide) (by decide))
  have hlast : ('[' :: text ++ [']']).getLast? = some ']' := List.getLast?_concat
  rw [parseJsonArray.eq_def, htight, dif_neg (by rw [hlast]; simp), inner_brackets]
  dsimp only
  rw [mapM_attach _ fun value => parseJsonText unescape (trim value),
    mapM_split_trim (parseJsonText unescape)]

/-- One member of an object, without the blanks around it. -/
def parseMember (unescape : List Char → List Char) (pair : List Char) :
    Option (String × JsonbValue) :=
  (findJsonColon pair).bind fun colon =>
    let keyStr := trim (pair.take colon)
    let valueStr := trim (pair.drop (colon + 1))
    if isQuoted keyStr then
      (parseJsonText unescape valueStr).map fun value =>
        (String.ofList (unescape (inner keyStr)), value)
    else none

theorem parseJsonObject_brackets (text : List Char) :
    parseJsonObject unescape ('{' :: text ++ ['}']) =
      if (trim text).isEmpty then some (.object [])
      else (((splitJsonTopLevel text ',').map trim).mapM (parseMember unescape)).map fun members =>
        .object (JsonbObject.ofMembers members) := by
  have htight := Core.trim_tight (Json.tight_brackets '{' '}' text (by decide) (by decide))
  have hlast : ('{' :: text ++ ['}']).getLast? = some '}' := List.getLast?_concat
  rw [parseJsonObject.eq_def, htight, dif_neg (by rw [hlast]; simp), inner_brackets]
  dsimp only
  have hattach := mapM_attach (splitJsonTopLevel (trim text) ',') fun pair =>
    parseMember unescape (trim pair)
  rw [← mapM_split_trim (parseMember unescape), ← hattach]
  rfl

/-- A member without the blanks around it. -/
def memberText (key : Key) (value : Doc) : List Char :=
  quoted key.name ++ key.after.chars ++ ':' :: (key.gap.chars ++ value.text)

theorem trim_member (key : Key) (value : Doc) (after : Blank) :
    trim (key.text ++ value.text ++ after.chars) = memberText key value := by
  have htext : key.text ++ value.text ++ after.chars =
      key.before.chars ++ memberText key value ++ after.chars := by
    simp [Key.text, memberText]
  rw [htext]
  refine Core.trim_around (allBlank key.before) ⟨List.cons_ne_nil _ _, fun c hc => ?_,
    fun c hc => ?_⟩ (allBlank after)
  · obtain rfl := Option.some.inj hc
    decide
  · refine value.tight.last c ?_
    have hlast : (memberText key value).getLast? = value.text.getLast? := by
      unfold memberText
      rw [List.getLast?_append_of_ne_nil _ (List.cons_ne_nil _ _), List.getLast?_cons,
        List.getLast?_append_of_ne_nil _ value.tight.nonempty]
      cases h : value.text.getLast? with
      | none => exact absurd (List.getLast?_eq_none_iff.mp h) value.tight.nonempty
      | some c => rfl
    exact hlast ▸ hc

theorem trim_value (before : Blank) (value : Doc) (after : Blank) :
    trim (before.chars ++ value.text ++ after.chars) = value.text :=
  Core.trim_around (allBlank before) value.tight (allBlank after)

/-- The texts of the elements of an array. -/
def elementTexts : Elements → List (List Char)
  | .last _ value _ => [value.text]
  | .cons _ value _ rest => value.text :: elementTexts rest

def memberTexts : Members → List (List Char)
  | .last key value _ => [memberText key value]
  | .cons key value _ rest => memberText key value :: memberTexts rest

/-- An array is cut into its elements. -/
theorem split_elements (es : Elements) :
    (splitJsonTopLevel es.text ',').map trim = elementTexts es := by
  refine @Elements.induct (fun es => (splitJsonTopLevel es.text ',').map trim = elementTexts es)
    (fun before value after => ?_) (fun before value after rest ih => ?_) es
  · rw [Elements.text, split_last (Json.element_onePart before value after), List.map_singleton,
      trim_value, elementTexts]
  · rw [Elements.text, split_cons (Json.element_onePart before value after), List.map_cons, ih,
      trim_value, elementTexts]

/-- An object is cut into its members. -/
theorem split_members (ms : Members) :
    (splitJsonTopLevel ms.text ',').map trim = memberTexts ms := by
  refine @Members.induct (fun ms => (splitJsonTopLevel ms.text ',').map trim = memberTexts ms)
    (fun key value after => ?_) (fun key value after rest ih => ?_) ms
  · rw [Members.text, split_last (Json.member_onePart key value after), List.map_singleton,
      trim_member, memberTexts]
  · rw [Members.text, split_cons (Json.member_onePart key value after), List.map_cons, ih,
      trim_member, memberTexts]

theorem parseMember_text (key : Key) (value : Doc) :
    parseMember unescape (memberText key value) =
      (parseJsonText unescape value.text).map fun parsed =>
        (String.ofList (unescape (stringText key.name)), parsed) := by
  have hkey : trim (quoted key.name ++ key.after.chars) = quoted key.name := by
    have := @Core.trim_around [] _ _ (fun c hc => by cases hc) (Json.quoted_tight key.name)
      (allBlank key.after)
    rwa [List.nil_append] at this
  have hvalue : trim (key.gap.chars ++ value.text) = value.text := by
    have := trim_value key.gap value Blank.none
    rwa [Blank.none, List.append_nil] at this
  have hdrop : (memberText key value).drop ((quoted key.name ++ key.after.chars).length + 1) =
      key.gap.chars ++ value.text := by
    unfold memberText
    rw [← List.drop_drop, List.drop_left]
    rfl
  unfold parseMember
  rw [show findJsonColon (memberText key value) = _ from
    findJsonColon_key key.name key.after (key.gap.chars ++ value.text), Option.bind_some, hdrop]
  unfold memberText
  rw [List.take_left]
  simp only [hkey, hvalue, isQuoted_quoted, ↓reduceIte, inner_quoted]

theorem parseJsonText_array {text : List Char} (s : List Char)
    (hs : trim s = '[' :: text ++ [']']) :
    parseJsonText unescape s = parseJsonArray unescape ('[' :: text ++ [']']) := by
  rw [parseJsonText_composite s hs (by decide) (by decide) (by decide) (by decide) (by decide)]
  rfl

theorem parseJsonText_object {text : List Char} (s : List Char)
    (hs : trim s = '{' :: text ++ ['}']) :
    parseJsonText unescape s = parseJsonObject unescape ('{' :: text ++ ['}']) := by
  rw [parseJsonText_composite s hs (by decide) (by decide) (by decide) (by decide) (by decide)]
  rfl

theorem trim_isEmpty {s : List Char} {c : Char} (hc : c ∈ s) (h : isWhitespace c = false) :
    ¬ (trim s).isEmpty = true := by
  intro hempty
  obtain ⟨before, after, hbefore, hafter, hs⟩ := exists_trim s
  rw [List.isEmpty_iff.mp hempty, List.append_nil] at hs
  rw [hs] at hc
  rcases List.mem_append.mp hc with hc | hc
  · exact Bool.false_ne_true (h.symm.trans (hbefore c hc))
  · exact Bool.false_ne_true (h.symm.trans (hafter c hc))

theorem exists_solid (d : Doc) : ∃ c ∈ d.text, isWhitespace c = false := by
  cases htext : d.text with
  | nil => exact absurd htext d.tight.nonempty
  | cons c text => exact ⟨c, by simp, d.tight.first c (by rw [htext]; rfl)⟩

theorem elements_trim (es : Elements) : ¬ (trim es.text).isEmpty = true := by
  cases es with
  | last before value after =>
    obtain ⟨c, hc, h⟩ := exists_solid value
    exact trim_isEmpty (by simp [Elements.text, hc]) h
  | cons before value after rest =>
    obtain ⟨c, hc, h⟩ := exists_solid value
    exact trim_isEmpty (by simp [Elements.text, hc]) h

theorem members_trim (ms : Members) : ¬ (trim ms.text).isEmpty = true := by
  cases ms with
  | last key value after =>
    obtain ⟨c, hc, h⟩ := exists_solid value
    exact trim_isEmpty (by simp [Members.text, hc]) h
  | cons key value after rest =>
    obtain ⟨c, hc, h⟩ := exists_solid value
    exact trim_isEmpty (by simp [Members.text, hc]) h

/-- Every text in the grammar of JSON is parsed, to the value that it has when strings and keys
are read as they are unescaped. -/
theorem parseJsonText_text
    (hread : ∀ items, String.ofList (unescape (stringText items)) = read items) (d : Doc) :
    ∀ s, trim s = d.text → parseJsonText unescape s = some (d.read read) := by
  have hvalue : ∀ value : Doc, (∀ s, trim s = value.text →
      parseJsonText unescape s = some (value.read read)) →
      parseJsonText unescape value.text = some (value.read read) :=
    fun value h => h _ (Core.trim_tight value.tight)
  refine @Doc.induct
    (fun d => ∀ s, trim s = d.text → parseJsonText unescape s = some (d.read read))
    (fun es => (elementTexts es).mapM (parseJsonText unescape) = some (es.read read))
    (fun ms => (memberTexts ms).mapM (parseMember unescape) = some (ms.read read))
    ?_ ?_ ?_ ?_ ?_ ?_ ?_ ?_ ?_ ?_ ?_ ?_ d
  · intro s hs
    rw [parseJsonText.eq_def, hs]
    rfl
  · intro b s hs
    rw [parseJsonText.eq_def, hs]
    cases b <;> rfl
  · intro n s hs
    rw [parseJsonText.eq_def, hs]
    obtain ⟨c, chars, htext, hc⟩ := Core.numeralText_head n
    have hword : c ≠ 'n' ∧ c ≠ 't' ∧ c ≠ 'f' := by
      refine ⟨?_, ?_, ?_⟩ <;>
        · rintro rfl
          exact absurd hc (by decide)
    have hparse := Core.parseF64_text n
    rw [Doc.text]
    rw [htext] at hparse ⊢
    simp [hword, hparse, Doc.read]
  · intro items s hs
    have hquoted := isQuoted_quoted items
    have hinner := inner_quoted items
    rw [quoted, List.cons_append] at hquoted hinner
    have htrim : trim s = '"' :: (stringText items ++ ['"']) := hs
    rw [parseJsonText_composite s htrim (by decide) (by decide) (by decide) (by decide) (by decide),
      if_pos hquoted, hinner, hread]
    rfl
  · intro blank s hs
    have htrim : trim blank.chars = [] := by
      have := trim_append_blank (allBlank blank) []
      rwa [List.nil_append] at this
    rw [parseJsonText_array s hs, parseJsonArray_brackets, htrim]
    rfl
  · intro es ih s hs
    rw [parseJsonText_array s hs, parseJsonArray_brackets, if_neg (elements_trim es), split_elements,
      ih]
    rfl
  · intro blank s hs
    have htrim : trim blank.chars = [] := by
      have := trim_append_blank (allBlank blank) []
      rwa [List.nil_append] at this
    rw [parseJsonText_object s hs, parseJsonObject_brackets, htrim]
    rfl
  · intro ms ih s hs
    rw [parseJsonText_object s hs, parseJsonObject_brackets, if_neg (members_trim ms), split_members,
      ih]
    rfl
  · intro before value after ih
    rw [elementTexts, List.mapM_cons, hvalue value ih]
    rfl
  · intro before value after rest ih ihrest
    rw [elementTexts, List.mapM_cons, hvalue value ih, ihrest]
    rfl
  · intro key value after ih
    rw [memberTexts, List.mapM_cons, parseMember_text, hvalue value ih, hread]
    rfl
  · intro key value after rest ih ihrest
    rw [memberTexts, List.mapM_cons, parseMember_text, hvalue value ih, hread, ihrest]
    rfl

end Spec

end Cynos.Jsonb
