import Cynos.Storage.GinCalls
import Cynos.Storage.GinStreaming

/-! Where what a GIN index reads off the text of a document is what the parsed document holds. -/
namespace Cynos.Storage

open Core (Scalar Value trim)
open Json (Blank StringItem Doc Elements Members nullMember quoted stringText)
open Jsonb (JsonbObject lightRead)

section Agreement

/-- Escaping is undone by reading. -/
theorem unescapeJson_escape (chars : List Char) :
    Jsonb.unescapeJson (chars.flatMap escapeJsonChar) = chars := by
  have hchar : ∀ (c : Char) (rest : List Char),
      Jsonb.unescapeJson (escapeJsonChar c ++ rest) = c :: Jsonb.unescapeJson rest := by
    intro c rest
    unfold escapeJsonChar
    split_ifs with hquote hslash hnewline hreturn htab
    · subst hquote
      rfl
    · subst hslash
      rfl
    · subst hnewline
      rfl
    · subst hreturn
      rfl
    · subst htab
      rfl
    · exact Jsonb.unescapeJson_plain fun c' hc' => List.mem_singleton.mp hc' ▸ hslash
  induction chars with
  | nil => rfl
  | cons c chars ih => rw [List.flatMap_cons, hchar, ih]

variable (formats : JsonbFormats)

/-- Where the text of a document shows a path what the document holds: under a name there is an
object with one member of this name at most, its key is written as the path writes it, and an
integer is written as it is displayed. -/
def PlainAlong : List CompiledGinPathSegment → Doc → Prop
  | [], .number n => isFastJsonIntegerLiteral n.text = true →
      (formats.displayF64 (Core.numeralValue n)).toList = n.text
  | [], _ => True
  | segment :: segments, .object ms => segment.arrayIndex = none ∧
      (ms.entries.filter fun entry => lightRead entry.1.name == segment.key).length ≤ 1 ∧
      ∀ entry ∈ ms.entries, lightRead entry.1.name = segment.key →
        String.ofList (stringText entry.1.name) = escapeJsonStringFragment segment.key ∧
          PlainAlong segments entry.2
  | segment :: segments, .array es =>
      ∀ value, (segment.arrayIndex.bind (es.docs[·]?)) = some value → PlainAlong segments value
  | _ :: _, _ => True

variable {formats}

/-- A key that is written as the path writes it is read as the path's name. -/
theorem name_of_escaped {name : List StringItem} {key : String}
    (h : String.ofList (stringText name) = escapeJsonStringFragment key) : lightRead name = key := by
  have htext : stringText name = key.toList.flatMap escapeJsonChar := String.ofList_injective h
  rw [lightRead, ← Jsonb.unescapeJson_text, htext, unescapeJson_escape, String.ofList_toList]

/-- Along a path the text leads to the value that the parsed document has there. -/
theorem enterAll_value {segments : List CompiledGinPathSegment}
    (hkeys : ∀ segment ∈ segments,
      segment.lookupKey = some (escapeJsonStringFragment segment.key)) (d : Doc)
    (h : PlainAlong formats segments d) :
    ∃ value : Option Doc, enterAll (segments.filterMap CompiledGinPathSegment.step) d = value.toList ∧
      valueAtCompiledGinPath segments (d.read lightRead) = value.map (Doc.read lightRead) ∧
      ∀ v ∈ value, PlainAlong formats [] v := by
  induction segments generalizing d with
  | nil => exact ⟨some d, rfl, rfl, fun v hv => Option.some.inj hv ▸ h⟩
  | cons segment segments ih =>
    obtain ⟨hkey, hkeys⟩ := List.forall_mem_cons.mp hkeys
    obtain ⟨step, hstep⟩ : ∃ step, segment.step = some step := by
      unfold CompiledGinPathSegment.step
      rw [hkey]
      cases segment.arrayIndex <;> exact ⟨_, rfl⟩
    have hother (henter : enter d step = [])
        (hvalue : valueAtCompiledGinPath (segment :: segments) (d.read lightRead) = none) :
        ∃ value : Option Doc,
          enterAll ((segment :: segments).filterMap CompiledGinPathSegment.step) d = value.toList ∧
          valueAtCompiledGinPath (segment :: segments) (d.read lightRead) =
            value.map (Doc.read lightRead) ∧ ∀ v ∈ value, PlainAlong formats [] v := by
      refine ⟨none, ?_, hvalue, fun v hv => by cases hv⟩
      rw [List.filterMap_cons, hstep]
      change (enter d step).flatMap _ = _
      rw [henter]
      rfl
    cases d with
    | object ms =>
      obtain ⟨hindex, honce, hwritten⟩ := h
      have hmember : step = .member (escapeJsonStringFragment segment.key) := by
        unfold CompiledGinPathSegment.step at hstep
        rw [hindex, hkey] at hstep
        exact (Option.some.inj hstep).symm
      have hfilter : (ms.entries.filter fun entry =>
          String.ofList (stringText entry.1.name) == escapeJsonStringFragment segment.key) =
          ms.entries.filter fun entry => lightRead entry.1.name == segment.key := by
        refine List.filter_congr fun entry hentry => ?_
        refine Bool.eq_iff_iff.mpr ⟨fun hsame => ?_, fun hsame => ?_⟩
        · exact beq_iff_eq.mpr (name_of_escaped (beq_iff_eq.mp hsame))
        · exact beq_iff_eq.mpr (hwritten entry hentry (beq_iff_eq.mp hsame)).1
      have hget : valueAtCompiledGinPath (segment :: segments) ((Doc.object ms).read lightRead) =
          ((ms.entries.filter fun entry => lightRead entry.1.name == segment.key).head?).bind
            fun entry => valueAtCompiledGinPath segments (entry.2.read lightRead) := by
        change (JsonbObject.get (JsonbObject.ofMembers (ms.read lightRead)) segment.key).bind _ = _
        rw [Members.read_eq, JsonbObject.get_ofMembers, ← List.map_reverse, List.find?_map,
          List.head?_filter, Option.map_map, Option.bind_map]
        exact congrArg (Option.bind · _) (JsonbObject.find?_of_once honce)
      have henter : enterAll ((segment :: segments).filterMap CompiledGinPathSegment.step)
          (.object ms) = (ms.entries.filter fun entry =>
            lightRead entry.1.name == segment.key).flatMap fun entry =>
              enterAll (segments.filterMap CompiledGinPathSegment.step) entry.2 := by
        rw [List.filterMap_cons, hstep, hmember, ← hfilter]
        exact List.flatMap_map ..
      rw [hget, henter]
      rcases hfound : ms.entries.filter (fun entry => lightRead entry.1.name == segment.key) with
        _ | ⟨entry, _ | ⟨other, rest⟩⟩
      · rw [hfound]
        exact ⟨none, rfl, rfl, fun v hv => by cases hv⟩
      · have hentry : entry ∈ ms.entries.filter fun entry =>
            lightRead entry.1.name == segment.key := hfound ▸ List.mem_cons_self
        obtain ⟨hmem, hname⟩ := List.mem_filter.mp hentry
        obtain ⟨value, hall, hvalue, hplain⟩ :=
          ih hkeys entry.2 (hwritten entry hmem (beq_iff_eq.mp hname)).2
        rw [hfound]
        exact ⟨value, (List.flatMap_singleton ..).trans hall, hvalue, hplain⟩
      · rw [hfound] at honce
        simp at honce
    | array es =>
      cases hindex : segment.arrayIndex with
      | none =>
        have hmember : step = .member (escapeJsonStringFragment segment.key) := by
          unfold CompiledGinPathSegment.step at hstep
          rw [hindex, hkey] at hstep
          exact (Option.some.inj hstep).symm
        refine hother (hmember ▸ rfl) ?_
        change segment.arrayIndex.bind _ = none
        rw [hindex]
        rfl
      | some index =>
        have helement : step = .element index := by
          unfold CompiledGinPathSegment.step at hstep
          rw [hindex] at hstep
          exact (Option.some.inj hstep).symm
        have hget : valueAtCompiledGinPath (segment :: segments) ((Doc.array es).read lightRead) =
            es.docs[index]?.bind fun value =>
              valueAtCompiledGinPath segments (value.read lightRead) := by
          change segment.arrayIndex.bind (fun index => (es.read lightRead)[index]?.bind _) = _
          rw [hindex, Option.bind_some, Elements.read_eq, List.getElem?_map, Option.bind_map]
          rfl
        have henter : enterAll ((segment :: segments).filterMap CompiledGinPathSegment.step)
            (.array es) = es.docs[index]?.toList.flatMap fun value =>
              enterAll (segments.filterMap CompiledGinPathSegment.step) value := by
          rw [List.filterMap_cons, hstep, helement]
          rfl
        rw [hget, henter]
        cases hvalue : es.docs[index]? with
        | none => exact ⟨none, rfl, rfl, fun v hv => by cases hv⟩
        | some value =>
          obtain ⟨found, hall, hfound, hplain⟩ := ih hkeys value (h value (by rw [hindex]; exact hvalue))
          exact ⟨found, (List.flatMap_singleton ..).trans hall, hfound, hplain⟩
    | emptyArray blank =>
      refine hother (by cases step <;> rfl) ?_
      change segment.arrayIndex.bind (fun _ => none) = none
      exact Option.bind_fun_none _
    | _ => exact hother (by cases step <;> rfl) rfl

def extractedCall (formats : JsonbFormats) (path : CompiledGinPath) :
    ExtractedJsonbTextValue → List GinCall
  | .scalarText text => .key path.encodedPath :: scalarTextCalls formats path text
  | .parsed value => selectedCalls formats path value

/-- A scalar found on the text is indexed under the text that its value has. -/
theorem scalarText_calls (path : CompiledGinPath) {d : Doc} {s : String}
    (htext : jsonTextScalarToIndexValue formats d.text = some s)
    (hscalar : jsonbScalarToIndexValue formats (d.read lightRead) = some s)
    (hcontains : stringifyForContains formats (d.read lightRead) = s) :
    extractedCall formats path (.scalarText d.text) =
      selectedCalls formats path (d.read lightRead) := by
  simp only [extractedCall, scalarTextCalls, selectedCalls, scalarCalls, htext, hscalar, hcontains,
    List.cons_append, List.nil_append]

theorem number_text {n : Json.Numeral} (h : PlainAlong formats [] (.number n)) :
    jsonTextScalarToIndexValue formats n.text =
      some (formats.displayF64 (Core.numeralValue n)) := by
  obtain ⟨first, rest, htext, hfirst⟩ := Core.numeralText_head n
  have hword : first ≠ 'n' ∧ first ≠ 't' ∧ first ≠ 'f' ∧ first ≠ '"' := by
    refine ⟨?_, ?_, ?_, ?_⟩ <;>
      · rintro rfl
        exact absurd hfirst (by decide)
  have hnone : ¬(n.text = "null".toList ∨ n.text = "true".toList ∨ n.text = "false".toList) := by
    rw [htext]
    rintro (h | h | h)
    · exact hword.1 (List.cons.inj h).1
    · exact hword.2.1 (List.cons.inj h).1
    · exact hword.2.2.1 (List.cons.inj h).1
  have hquoted : Jsonb.isQuoted n.text = false := by
    rw [htext]
    simp [Jsonb.isQuoted, hword.2.2.2]
  have htrim : trim n.text = n.text := Core.trim_tight (Doc.number n).tight
  unfold jsonTextScalarToIndexValue
  rw [htrim]
  dsimp only
  rw [if_neg hnone, hquoted, if_neg Bool.false_ne_true]
  split_ifs with hfast
  · rw [← h hfast, String.ofList_toList]
  · rw [Core.parseF64_text]
    rfl

/-- A value found on the text makes the calls that it makes when it is found by parsing. -/
theorem extractedCall_eq (path : CompiledGinPath) {d : Doc} (h : PlainAlong formats [] d) :
    extractedCall formats path (extractedAs d) = selectedCalls formats path (d.read lightRead) := by
  cases d with
  | null => exact scalarText_calls path rfl rfl rfl
  | bool b => cases b <;> exact scalarText_calls path rfl rfl rfl
  | number n => exact scalarText_calls path (number_text h) rfl rfl
  | string items =>
    refine scalarText_calls (s := lightRead items) path ?_ rfl rfl
    have hnone : ¬(quoted items = "null".toList ∨ quoted items = "true".toList ∨
        quoted items = "false".toList) := by
      rintro (h | h | h) <;> exact absurd (List.cons.inj h).1 (by decide)
    unfold jsonTextScalarToIndexValue
    rw [Doc.text, Core.trim_tight (Json.quoted_tight items)]
    dsimp only
    rw [if_neg hnone, if_pos (Jsonb.isQuoted_quoted items), Jsonb.inner_quoted, unescapeJson_light]
  | _ => rfl

theorem extractedCalls_eq (paths : List CompiledGinPath) (extracted : Entries) :
    extractedCalls formats paths extracted = extracted.flatMap fun entry =>
      (paths[entry.1]?.map fun path => extractedCall formats path entry.2).getD [] := by
  unfold extractedCalls
  refine List.flatMap_congr fun entry _ => ?_
  obtain ⟨i, selected⟩ := entry
  dsimp only
  cases paths[i]? with
  | none => rfl
  | some path => cases selected <;> rfl

theorem compiled_keys {config : GinIndexConfig} {paths : List CompiledGinPath}
    (h : config.compiledIndexedPaths = some paths) : ∀ path ∈ paths, ∀ segment ∈ path.segments,
      segment.lookupKey = some (escapeJsonStringFragment segment.key) := by
  intro path hpath segment hsegment
  obtain ⟨encoded, -, rfl⟩ := Option.map_eq_some_iff.mp h
  obtain ⟨encodedPath, -, rfl⟩ := List.mem_map.mp hpath
  obtain ⟨key, -, rfl⟩ := List.mem_map.mp hsegment
  rfl

/-- A cell is indexed by what is read off its text just as it would be after parsing it. -/
theorem jsonbCalls_eq_parsed {config : GinIndexConfig} {paths : List CompiledGinPath}
    (hpaths : config.compiledIndexedPaths = some paths) (d : Doc) (before after : Blank)
    (hplain : ∀ path ∈ paths, PlainAlong formats path.segments d) :
    let value := cellOf (before.chars ++ d.text ++ after.chars)
    jsonbCalls formats config value =
      ((parseJsonbValue value).map (selectedPathsCalls formats paths)).getD [] := by
  have hparse : parseJsonbValue (cellOf (before.chars ++ d.text ++ after.chars)) =
      some (d.read lightRead) := by
    rw [parseJsonbValue, jsonText_cellOf]
    exact parseJsonText_light d (Jsonb.trim_value before d after)
  have hentry : ∀ entry ∈ paths.zipIdx,
      (((enterAll entry.1.steps d).map fun value => (entry.2, extractedAs value)).flatMap
        fun entry => (paths[entry.1]?.map fun path => extractedCall formats path entry.2).getD []) =
      ((valueAtCompiledGinPath entry.1.segments (d.read lightRead)).map
        (selectedCalls formats entry.1)).getD [] := by
    intro entry hentry
    have hpath : paths[entry.2]? = some entry.1 := List.mem_zipIdx_iff_getElem?.mp hentry
    have hmem : entry.1 ∈ paths := List.mem_of_getElem? hpath
    obtain ⟨value, hall, hvalue, hcanonical⟩ :=
      enterAll_value (compiled_keys hpaths entry.1 hmem) d (hplain entry.1 hmem)
    rw [CompiledGinPath.steps, hall, hvalue]
    cases value with
    | none => rfl
    | some value =>
      have hcall := extractedCall_eq entry.1 (hcanonical value rfl)
      simpa [hpath] using hcall
  intro value
  unfold jsonbCalls
  rw [hpaths]
  dsimp only
  rw [extractSelected_doc paths d (trim_document d before after), hparse]
  dsimp only
  rw [extractedCalls_eq, selectedEntries, List.flatMap_assoc, List.flatMap_congr hentry]
  have hfst : paths = paths.zipIdx.map Prod.fst := (List.zipIdx_map_fst 0 paths).symm
  rw [Option.map_some, Option.getD_some, selectedPathsCalls]
  conv_rhs => rw [hfst, List.flatMap_map]
  refine List.flatMap_congr fun entry _ => ?_
  cases valueAtCompiledGinPath entry.1.segments (d.read lightRead) <;> rfl

theorem nullMember_calls :
    let value := cellOf (Blank.none.chars ++ nullMember.text ++ Blank.none.chars)
    jsonbCalls ⟨toString, fun _ => ""⟩ ⟨0, some ["a"]⟩ value =
      ((parseJsonbValue value).map
        (selectedPathsCalls ⟨toString, fun _ => ""⟩ [.new "a"])).getD [] := by
  refine jsonbCalls_eq_parsed rfl nullMember .none .none fun path hpath => ?_
  obtain rfl := List.mem_singleton.mp hpath
  refine ⟨rfl, by decide, fun entry hentry _ => ?_⟩
  obtain rfl := List.mem_singleton.mp hentry
  exact ⟨rfl, trivial⟩

end Agreement

end Cynos.Storage
