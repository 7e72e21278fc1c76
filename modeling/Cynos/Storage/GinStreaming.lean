import Cynos.Jsonb.RawPieces
import Cynos.Lib.Sort
import Cynos.Storage.GinTree

/-! What a GIN index reads off the text of a document along its configured paths: at once for all
of them, descending where one of them goes on. -/
namespace Cynos.Storage

open Core (Scalar Value trim)
open Json (Blank Key StringItem Doc Elements Members quoted stringText)
open Jsonb (JsonbValue JsonbObject lightRead lightText skipJsonWhitespace between ElementAt MemberAt
  element_at member_at)

section Pieces

variable {text rest : List Char} {pos : Nat}

theorem textSlice_eq (text : List Char) (start stop : Nat) :
    textSlice text start stop = between text start stop := rfl

theorem getElem?_drop (h : text.drop pos = rest) : text[pos]? = rest.head? := by
  rw [← h, List.head?_drop]

theorem trim_tail (value : Doc) (tail : Blank) : trim (value.text ++ tail.chars) = value.text := by
  have htrim := Jsonb.trim_value .none value tail
  rwa [Blank.none, List.nil_append] at htrim

/-- One member: its key between the quotes and the text of its value. -/
theorem objectMembers_member {key : Key} {value : Doc} {behind : List Char}
    (h : MemberAt text pos key value behind) : ∃ next, text.drop next = behind ∧
      objectMembers text pos =
        if behind.head? = some ',' then
          (objectMembers text (next + 1)).map ((stringText key.name, value.text) :: ·)
        else if behind.head? = some '}' then some [(stringText key.name, value.text)]
        else none := by
  have hname := h.name
  obtain ⟨literalTail, hliteral⟩ := h.literal
  obtain ⟨keyEnd, hlength, hkey, hcolon, helement⟩ := h.stop
  obtain ⟨valueEnd, hvalue, ⟨tail, hslice⟩, hnext⟩ := helement.value
  refine ⟨_, hnext, ?_⟩
  have hquote : text[skipJsonWhitespace text pos]? = some '"' := getElem?_drop hliteral
  rw [← hlength] at hname
  rw [objectMembers.eq_def]
  dsimp only
  rw [if_neg (by rw [hquote]; decide), dif_neg (not_not.mpr hquote)]
  split
  · rename_i hnone
    rw [hkey] at hnone
    cases hnone
  · rename_i stop hstop
    obtain rfl : keyEnd = stop := Option.some.inj (hkey.symm.trans hstop)
    rw [if_neg (not_not.mpr hcolon)]
    split
    · rename_i hnone
      rw [hvalue] at hnone
      cases hnone
    · rename_i stop hstop
      obtain rfl : valueEnd = stop := Option.some.inj (hvalue.symm.trans hstop)
      rw [textSlice_eq, textSlice_eq, hname, hslice, trim_tail, getElem?_drop hnext]

theorem objectMembers_text (ms : Members) (h : text.drop pos = ms.text ++ '}' :: rest) :
    objectMembers text pos =
      some (ms.entries.map fun entry => (stringText entry.1.name, entry.2.text)) := by
  induction ms using Members.induct generalizing pos with
  | last key value after =>
    obtain ⟨next, -, hstep⟩ := objectMembers_member (member_at key value after h rfl)
    rw [hstep, if_neg (by simp), if_pos List.head?_cons]
    rfl
  | cons key value after more ih =>
    have hmember : text.drop pos =
        key.text ++ value.text ++ after.chars ++ ',' :: (more.text ++ '}' :: rest) := by
      rw [h, Members.text, List.append_assoc, List.cons_append]
    obtain ⟨next, hnext, hstep⟩ := objectMembers_member (member_at key value after hmember rfl)
    rw [hstep, if_pos List.head?_cons, ih (Jsonb.drop_succ hnext)]
    rfl

/-- One item. -/
theorem arrayItems_element {value : Doc} {behind : List Char}
    (h : ElementAt text pos value behind) : ∃ next, text.drop next = behind ∧
      arrayItems text pos =
        if behind.head? = some ',' then (arrayItems text (next + 1)).map (value.text :: ·)
        else if behind.head? = some ']' then some [value.text]
        else none := by
  obtain ⟨first, rest, hfirst, hbracket⟩ := h.first
  obtain ⟨valueEnd, hvalue, ⟨tail, hslice⟩, hnext⟩ := h.value
  refine ⟨_, hnext, ?_⟩
  have hmore : text[skipJsonWhitespace text pos]? = some first := getElem?_drop hfirst
  rw [arrayItems.eq_def]
  dsimp only
  rw [if_neg (by simp [hmore, hbracket]), dif_neg (by simp [hmore])]
  split
  · rename_i hnone
    rw [hvalue] at hnone
    cases hnone
  · rename_i stop hstop
    obtain rfl : valueEnd = stop := Option.some.inj (hvalue.symm.trans hstop)
    rw [textSlice_eq, hslice, trim_tail, getElem?_drop hnext]

theorem arrayItems_text (es : Elements) (h : text.drop pos = es.text ++ ']' :: rest) :
    arrayItems text pos = some (es.docs.map Doc.text) := by
  induction es using Elements.induct generalizing pos with
  | last before value after =>
    obtain ⟨next, -, hstep⟩ := arrayItems_element (element_at before value after h rfl)
    rw [hstep, if_neg (by simp), if_pos List.head?_cons]
    rfl
  | cons before value after more ih =>
    have helement : text.drop pos =
        before.chars ++ value.text ++ after.chars ++ ',' :: (more.text ++ ']' :: rest) := by
      rw [h, Elements.text, List.append_assoc, List.cons_append]
    obtain ⟨next, hnext, hstep⟩ := arrayItems_element (element_at before value after helement rfl)
    rw [hstep, if_pos List.head?_cons, ih (Jsonb.drop_succ hnext)]
    rfl

theorem objectMembers_empty (blank : Blank) :
    objectMembers ('{' :: blank.chars ++ ['}']) 1 = some [] := by
  have hdrop : ('{' :: blank.chars ++ ['}']).drop 1 = blank.chars ++ '}' :: [] := rfl
  have hskip := Jsonb.skip_blank blank hdrop rfl
  rw [objectMembers.eq_def]
  dsimp only
  rw [if_pos]
  rw [hskip, getElem?_drop (Jsonb.drop_append hdrop)]
  rfl

theorem arrayItems_empty (blank : Blank) :
    arrayItems ('[' :: blank.chars ++ [']']) 1 = some [] := by
  have hdrop : ('[' :: blank.chars ++ [']']).drop 1 = blank.chars ++ ']' :: [] := rfl
  have hskip := Jsonb.skip_blank blank hdrop rfl
  rw [arrayItems.eq_def]
  dsimp only
  rw [if_pos]
  rw [hskip, getElem?_drop (Jsonb.drop_append hdrop)]
  rfl

/-- Strings are read as the light parser reads them. -/
theorem unescapeJson_light (items : List StringItem) :
    String.ofList (unescapeJson (stringText items)) = lightRead items := by
  unfold unescapeJson lightRead
  rw [← Jsonb.unescapeJson_text]
  split
  · rfl
  · rename_i hplain
    have hunescape := @Jsonb.unescapeJson_plain (stringText items) [] fun c hc hslash =>
      hplain (hslash ▸ hc)
    rw [List.append_nil] at hunescape
    rw [hunescape, Jsonb.unescapeJson, List.append_nil]

theorem parseJsonText_light (d : Doc) {s : List Char} (h : trim s = d.text) :
    Jsonb.parseJsonText unescapeJson s = some (d.read lightRead) :=
  Jsonb.parseJsonText_text unescapeJson_light d s h

end Pieces

section Paths

/-- The values under one step: of the members whose keys are written so, or of the element. -/
def enter (d : Doc) : GinStep → List Doc
  | .element index =>
    match d with
    | .array es => es.docs[index]?.toList
    | _ => []
  | .member lookupKey =>
    match d with
    | .object ms =>
      (ms.entries.filter fun entry => String.ofList (stringText entry.1.name) == lookupKey).map
        Prod.snd
    | _ => []

def enterAll : List GinStep → Doc → List Doc
  | [], d => [d]
  | step :: steps, d => (enter d step).flatMap (enterAll steps)

/-- A scalar is kept as its text, and anything else is parsed. -/
def extractedAs (d : Doc) : ExtractedJsonbTextValue :=
  match d with
  | .emptyArray _ | .array _ | .emptyObject _ | .object _ => .parsed (d.read lightRead)
  | _ => .scalarText d.text

/-- What is left of a list of steps behind the first one. -/
def behind (step : GinStep) : List GinStep → Option (List GinStep)
  | [] => none
  | first :: rest => if first = step then some rest else none

theorem behind_eq_some {step : GinStep} {steps rest : List GinStep} :
    behind step steps = some rest ↔ steps = step :: rest := by
  cases steps with
  | nil => simp [behind]
  | cons first more =>
    unfold behind
    by_cases h : first = step
    · simp [h]
    · simp [h]

/-- Below a node the paths end that have these steps before them, each at the end of its steps. -/
def CompiledGinPathTree.Serves (tree : CompiledGinPathTree) (nodeIndex : Nat)
    (ahead : Nat → Option (List GinStep)) : Prop :=
  ∀ steps i, (((steps.foldlM tree.childOf nodeIndex).map fun n =>
    (tree.node n).terminalPathIndices).getD []).filter (· == i) =
      if ahead i = some steps then [i] else []

namespace CompiledGinPathTree

variable {tree : CompiledGinPathTree} {nodeIndex : Nat} {ahead : Nat → Option (List GinStep)}

theorem Serves.here (h : tree.Serves nodeIndex ahead) (i : Nat) :
    (tree.node nodeIndex).terminalPathIndices.filter (· == i) =
      if ahead i = some [] then [i] else [] := h [] i

theorem Serves.child {step : GinStep} {next : Nat} (h : tree.Serves nodeIndex ahead)
    (hchild : tree.childOf nodeIndex step = some next) :
    tree.Serves next fun i => (ahead i).bind (behind step) := by
  intro steps i
  have hsteps := h (step :: steps) i
  rw [List.foldlM_cons, hchild] at hsteps
  refine hsteps.trans ?_
  have hiff : ahead i = some (step :: steps) ↔ (ahead i).bind (behind step) = some steps := by
    rw [Option.bind_eq_some_iff]
    simp [behind_eq_some]
  simp only [hiff]

theorem Serves.noChild {step : GinStep} (h : tree.Serves nodeIndex ahead)
    (hchild : tree.childOf nodeIndex step = none) (i : Nat) : (ahead i).bind (behind step) = none := by
  cases hahead : (ahead i).bind (behind step) with
  | none => rfl
  | some rest =>
    obtain ⟨steps, hsteps, hbehind⟩ := Option.bind_eq_some_iff.mp hahead
    have hends := h steps i
    rw [behind_eq_some.mp hbehind, List.foldlM_cons, hchild,
      if_pos (hsteps.trans (congrArg some (behind_eq_some.mp hbehind)))] at hends
    cases hends

theorem filter_zipIdx (paths : List CompiledGinPath) (steps : List GinStep) (i start : Nat) :
    ((paths.zipIdx start).flatMap fun entry =>
      if entry.1.steps = steps then [entry.2] else []).filter (· == i) =
        if start ≤ i ∧ paths[i - start]?.map CompiledGinPath.steps = some steps then [i] else [] := by
  induction paths generalizing start with
  | nil => simp
  | cons path paths ih =>
    rw [List.zipIdx_cons, List.flatMap_cons, List.filter_append, ih]
    by_cases hi : i = start
    · subst hi
      by_cases hsteps : path.steps = steps <;> simp [hsteps]
    · have hhead : (if path.steps = steps then [start] else []).filter (· == i) = [] := by
        split
        · simp [Ne.symm hi]
        · rfl
      rw [hhead, List.nil_append]
      by_cases hlt : start ≤ i
      · obtain ⟨k, hk⟩ : ∃ k, i - start = k + 1 := ⟨i - start - 1, by omega⟩
        rw [hk, List.getElem?_cons_succ, show i - (start + 1) = k by omega]
        simp only [hlt, true_and, show start + 1 ≤ i by omega]
      · rw [if_neg fun h => hlt (by omega), if_neg fun h => hlt h.1]

/-- The root of the tree of some paths. -/
theorem serves_new (paths : List CompiledGinPath) :
    (new paths).Serves 0 fun i => paths[i]?.map CompiledGinPath.steps := by
  intro steps i
  have hends := (new_ends paths).2 steps
  unfold endsAt Trie.walk at hends
  rw [hends, filter_zipIdx, Nat.sub_zero]
  simp only [Nat.zero_le, true_and]

end CompiledGinPathTree

end Paths

section Extracted

variable {tree : CompiledGinPathTree} {text : List Char} {nodeIndex : Nat}

abbrev Entries := List (Nat × ExtractedJsonbTextValue)

/-- The entries of one path. -/
def Entries.of (entries : Entries) (i : Nat) : Entries := entries.filter (·.1 == i)

/-- What is found at the end of the steps that a path has left. -/
def found (d : Doc) (i : Nat) : Option (List GinStep) → Entries
  | none => []
  | some steps => (enterAll steps d).map fun value => (i, extractedAs value)

theorem mapM_push (d : Doc) (indices : List Nat) :
    indices.mapM (pushExtractedJsonbEntry d.text) =
      some (indices.map fun i => (i, extractedAs d)) := by
  have hpush : ∀ i, pushExtractedJsonbEntry d.text i = some (i, extractedAs d) := by
    intro i
    have hparse := parseJsonText_light d (Core.trim_tight d.tight)
    unfold pushExtractedJsonbEntry
    cases d with
    | null => rfl
    | bool b => cases b <;> rfl
    | number n =>
      obtain ⟨first, rest, htext, hfirst⟩ := Core.numeralText_head n
      have hne : ¬(first = '{' ∨ first = '[') := by
        rintro (rfl | rfl) <;> exact absurd hfirst (by decide)
      rw [Doc.text, htext]
      dsimp only [List.head?_cons]
      rw [if_neg hne, ← htext]
      rfl
    | string items =>
      simp only [Doc.text, quoted, List.cons_append, List.head?_cons]
      rfl
    | emptyArray blank =>
      rw [hparse]
      rfl
    | array es =>
      rw [hparse]
      rfl
    | emptyObject blank =>
      rw [hparse]
      rfl
    | object ms =>
      rw [hparse]
      rfl
  induction indices with
  | nil => rfl
  | cons i indices ih =>
    rw [List.mapM_cons, hpush, ih]
    rfl

/-- The entries at a node itself. -/
theorem of_here {ahead : Nat → Option (List GinStep)} (h : tree.Serves nodeIndex ahead) (d : Doc)
    (i : Nat) : Entries.of ((tree.node nodeIndex).terminalPathIndices.map fun i =>
      (i, extractedAs d)) i = if ahead i = some [] then [(i, extractedAs d)] else [] := by
  unfold Entries.of
  rw [List.filter_map]
  change ((tree.node nodeIndex).terminalPathIndices.filter (· == i)).map _ = _
  rw [h.here i]
  split <;> rfl

/-- The entries of the pieces of a value, one after the other. -/
theorem mapM_pieces {A : Type} {pieces : List A} {f : A → Option Entries}
    {g : A → Nat → Entries} (h : ∀ piece ∈ pieces, ∃ entries, f piece = some entries ∧
      ∀ i, entries.of i = g piece i) :
    ∃ below, pieces.mapM f = some below ∧
      ∀ i, Entries.of below.flatten i = pieces.flatMap (g · i) := by
  induction pieces with
  | nil => exact ⟨[], rfl, fun _ => rfl⟩
  | cons piece pieces ih =>
    obtain ⟨⟨entries, hf, hof⟩, hpieces⟩ := List.forall_mem_cons.mp h
    obtain ⟨below, hbelow, hflat⟩ := ih hpieces
    refine ⟨entries :: below, ?_, fun i => ?_⟩
    · rw [List.mapM_cons, hf, hbelow]
      rfl
    · have hof := hof i
      have hflat := hflat i
      unfold Entries.of at *
      rw [List.flatten_cons, List.filter_append, hof, hflat, List.flatMap_cons]

def memberEntries (tree : CompiledGinPathTree) (node : CompiledGinPathNode)
    (member : List Char × List Char) : Option Entries :=
  match node.objectChildren[String.ofList member.1]? with
  | some child => extractFromSlice tree member.2 child
  | none => some []

def itemEntries (tree : CompiledGinPathTree) (node : CompiledGinPathNode)
    (item : List Char × Nat) : Option Entries :=
  match node.arrayChildren[item.2]? with
  | some child => extractFromSlice tree item.1 child
  | none => some []

theorem extractFromSlice_members {node : CompiledGinPathNode} {entries : Entries}
    {members : List (List Char × List Char)} (hnode : tree.nodes[nodeIndex]? = some node)
    (hentries : node.terminalPathIndices.mapM (pushExtractedJsonbEntry (trim text)) = some entries)
    (hchildren : (node.objectChildren.isEmpty && node.arrayChildren.isEmpty) = false)
    (hhead : (trim text).head? = some '{') (hmembers : objectMembers (trim text) 1 = some members) :
    extractFromSlice tree text nodeIndex =
      (members.mapM (memberEntries tree node)).map fun below => entries ++ List.flatten below := by
  rw [extractFromSlice.eq_def, hnode]
  dsimp only
  rw [hentries]
  dsimp only
  rw [hchildren, if_neg Bool.false_ne_true, if_pos hhead]
  split
  · rename_i hnone
    rw [hmembers] at hnone
    cases hnone
  · rename_i found hfound
    obtain rfl : members = found := Option.some.inj (hmembers.symm.trans hfound)
    exact congrArg _ (Jsonb.mapM_attach members (memberEntries tree node))

theorem mapM_attach_zipIdx {A B : Type} (l : List A) (f : A × Nat → Option B) :
    (l.attach.zipIdx.mapM fun item : { a // a ∈ l } × Nat => f (item.1.val, item.2)) =
      l.zipIdx.mapM f := by
  have h : (l.attach.zipIdx.map (Prod.map Subtype.val id)).mapM f =
      l.attach.zipIdx.mapM (f ∘ Prod.map Subtype.val id) := List.mapM_map ..
  rw [← List.zipIdx_map, List.attach_map_subtype_val] at h
  exact h.symm

theorem extractFromSlice_items {node : CompiledGinPathNode} {entries : Entries}
    {items : List (List Char)} (hnode : tree.nodes[nodeIndex]? = some node)
    (hentries : node.terminalPathIndices.mapM (pushExtractedJsonbEntry (trim text)) = some entries)
    (hchildren : (node.objectChildren.isEmpty && node.arrayChildren.isEmpty) = false)
    (hhead : (trim text).head? = some '[') (hitems : arrayItems (trim text) 1 = some items) :
    extractFromSlice tree text nodeIndex =
      (items.zipIdx.mapM (itemEntries tree node)).map fun below => entries ++ List.flatten below := by
  rw [extractFromSlice.eq_def, hnode]
  dsimp only
  rw [hentries]
  dsimp only
  rw [hchildren, if_neg Bool.false_ne_true, if_neg (by rw [hhead]; decide), if_pos hhead]
  split
  · rename_i hnone
    rw [hitems] at hnone
    cases hnone
  · rename_i found hfound
    obtain rfl : items = found := Option.some.inj (hitems.symm.trans hfound)
    exact congrArg _ (mapM_attach_zipIdx items (itemEntries tree node))

theorem extractFromSlice_leaf {node : CompiledGinPathNode} {entries : Entries}
    (hnode : tree.nodes[nodeIndex]? = some node)
    (hentries : node.terminalPathIndices.mapM (pushExtractedJsonbEntry (trim text)) = some entries)
    (hleaf : (node.objectChildren.isEmpty && node.arrayChildren.isEmpty) = true ∨
      trim text ≠ [] ∧ (trim text).head? ≠ some '{' ∧ (trim text).head? ≠ some '[') :
    extractFromSlice tree text nodeIndex = some entries := by
  rw [extractFromSlice.eq_def, hnode]
  dsimp only
  rw [hentries]
  dsimp only
  by_cases hchildren : (node.objectChildren.isEmpty && node.arrayChildren.isEmpty) = true
  · rw [if_pos hchildren]
  · obtain ⟨htext, hobject, harray⟩ := hleaf.resolve_left hchildren
    rw [if_neg hchildren, if_neg hobject, if_neg harray, if_neg (by simpa using htext)]

/-- A path that goes on where there is nothing to enter finds nothing. -/
theorem found_leaf {d : Doc} {ahead : Option (List GinStep)} {i : Nat}
    (h : ∀ step rest, ahead = some (step :: rest) → enter d step = []) :
    found d i ahead = if ahead = some [] then [(i, extractedAs d)] else [] := by
  rcases ahead with _ | _ | ⟨step, rest⟩
  · rfl
  · rfl
  · rw [found, enterAll, h step rest rfl]
    rfl

/-- The paths that go on under a key find what they find in the members with it. -/
theorem found_object (ms : Members) (ahead : Option (List GinStep)) (i : Nat) :
    found (.object ms) i ahead =
      (if ahead = some [] then [(i, extractedAs (.object ms))] else []) ++
        ms.entries.flatMap fun entry =>
          found entry.2 i (ahead.bind (behind (.member (String.ofList (stringText entry.1.name))))) := by
  rcases ahead with _ | _ | ⟨_ | lookupKey, rest⟩
  · exact (List.flatMap_eq_nil_iff.mpr fun _ _ => rfl).symm
  · exact congrArg (_ :: ·) (List.flatMap_eq_nil_iff.mpr fun _ _ => rfl).symm
  · refine (List.flatMap_eq_nil_iff.mpr fun entry _ => ?_).symm
    rw [Option.bind_some, behind, if_neg (by simp)]
    rfl
  · rw [if_neg (by simp), List.nil_append, found, enterAll, enter]
    induction ms.entries with
    | nil => rfl
    | cons entry entries ih =>
      rw [List.flatMap_cons, Option.bind_some, behind, ← ih, List.filter_cons]
      by_cases hkey : String.ofList (stringText entry.1.name) = lookupKey
      · rw [if_pos (by simp [hkey]), if_pos (by rw [hkey]), List.map_cons, List.flatMap_cons,
          List.map_append]
        rfl
      · rw [if_neg (by simp [hkey]), if_neg (by simp [Ne.symm hkey])]
        rfl

/-- And those that go on at a place find it in the element there. -/
theorem found_array (es : Elements) (ahead : Option (List GinStep)) (i : Nat) :
    found (.array es) i ahead =
      (if ahead = some [] then [(i, extractedAs (.array es))] else []) ++
        es.docs.zipIdx.flatMap fun item =>
          found item.1 i (ahead.bind (behind (.element item.2))) := by
  rcases ahead with _ | _ | ⟨index | _, rest⟩
  · exact (List.flatMap_eq_nil_iff.mpr fun _ _ => rfl).symm
  · exact congrArg (_ :: ·) (List.flatMap_eq_nil_iff.mpr fun _ _ => rfl).symm
  · rw [if_neg (by simp), List.nil_append, found, enterAll, enter]
    have hitems : ∀ (docs : List Doc) (start : Nat),
        (docs.zipIdx start).flatMap (fun item => found item.1 i
          ((some (GinStep.element index :: rest)).bind (behind (.element item.2)))) =
        if start ≤ index then (docs[index - start]?.toList.flatMap (enterAll rest)).map
          fun value => (i, extractedAs value) else [] := by
      intro docs
      induction docs with
      | nil => simp
      | cons value docs ih =>
        intro start
        rw [List.zipIdx_cons, List.flatMap_cons, ih, Option.bind_some, behind]
        by_cases hindex : index = start
        · subst hindex
          rw [if_pos rfl, if_neg (by omega), if_pos (Nat.le_refl _), Nat.sub_self]
          simp [found]
        · rw [if_neg (by simp [hindex])]
          by_cases hle : start ≤ index
          · obtain ⟨k, hk⟩ : ∃ k, index - start = k + 1 := ⟨index - start - 1, by omega⟩
            rw [if_pos hle, if_pos (by omega), hk, show index - (start + 1) = k by omega,
              List.getElem?_cons_succ]
            rfl
          · rw [if_neg hle, if_neg (by omega)]
            rfl
    rw [hitems es.docs 0, if_pos (Nat.zero_le _), Nat.sub_zero]
  · refine (List.flatMap_eq_nil_iff.mpr fun entry _ => ?_).symm
    rw [Option.bind_some, behind, if_neg (by simp)]
    rfl

theorem childOf_isEmpty {node : CompiledGinPathNode} (hnode : tree.node nodeIndex = node)
    (h : (node.objectChildren.isEmpty && node.arrayChildren.isEmpty) = true) (step : GinStep) :
    tree.childOf nodeIndex step = none := by
  obtain ⟨hobject, harray⟩ := (Bool.and_eq_true ..).mp h
  cases step with
  | element index =>
    rw [CompiledGinPathTree.childOf, hnode]
    rw [Std.ExtTreeMap.isEmpty_iff.mp harray]
    exact Std.ExtTreeMap.getElem?_empty
  | member lookupKey =>
    rw [CompiledGinPathTree.childOf, hnode]
    rw [Std.ExtTreeMap.isEmpty_iff.mp hobject]
    exact Std.ExtTreeMap.getElem?_empty

theorem getElem?_node (h : nodeIndex < tree.nodes.length) :
    tree.nodes[nodeIndex]? = some (tree.node nodeIndex) := by
  rw [CompiledGinPathTree.node, List.getD_eq_getElem?_getD, List.getElem?_eq_getElem h]
  rfl

variable {ahead : Nat → Option (List GinStep)}

/-- What is found at a node where nothing can be entered is there. -/
theorem extract_leaf (hlt : nodeIndex < tree.nodes.length) (hserves : tree.Serves nodeIndex ahead)
    {d : Doc} (htext : trim text = d.text)
    (hleaf : ((tree.node nodeIndex).objectChildren.isEmpty &&
        (tree.node nodeIndex).arrayChildren.isEmpty) = true ∨
      (∀ step, enter d step = []) ∧ d.text.head? ≠ some '{' ∧ d.text.head? ≠ some '[') :
    ∃ entries, extractFromSlice tree text nodeIndex = some entries ∧
      ∀ i, Entries.of entries i = found d i (ahead i) := by
  have hentries := htext ▸ mapM_push d (tree.node nodeIndex).terminalPathIndices
  refine ⟨_, extractFromSlice_leaf (getElem?_node hlt) hentries
    (hleaf.imp_right fun h => htext ▸ ⟨d.tight.nonempty, h.2⟩), fun i => ?_⟩
  rw [of_here hserves, found_leaf]
  intro step rest hahead
  rcases hleaf with hchildren | hleaf
  · have hnone := hserves.noChild (childOf_isEmpty rfl hchildren step) i
    rw [hahead, Option.bind_some, behind, if_pos rfl] at hnone
    cases hnone
  · exact hleaf.1 step

/-- At an empty array or object too. -/
theorem extract_empty (hlt : nodeIndex < tree.nodes.length)
    (hserves : tree.Serves nodeIndex ahead) {d : Doc} (htext : trim text = d.text)
    (henter : ∀ step, enter d step = [])
    (hempty : d.text.head? = some '{' ∧ objectMembers d.text 1 = some [] ∨
      d.text.head? = some '[' ∧ arrayItems d.text 1 = some []) :
    ∃ entries, extractFromSlice tree text nodeIndex = some entries ∧
      ∀ i, Entries.of entries i = found d i (ahead i) := by
  by_cases hchildren : ((tree.node nodeIndex).objectChildren.isEmpty &&
      (tree.node nodeIndex).arrayChildren.isEmpty) = true
  · exact extract_leaf hlt hserves htext (.inl hchildren)
  · have hentries := htext ▸ mapM_push d (tree.node nodeIndex).terminalPathIndices
    have hfound : ∀ i, Entries.of ((tree.node nodeIndex).terminalPathIndices.map fun i =>
        (i, extractedAs d)) i = found d i (ahead i) := fun i => by
      rw [of_here hserves, found_leaf]
      exact fun step rest _ => henter step
    refine ⟨_, ?_, hfound⟩
    rcases hempty with ⟨hhead, hmembers⟩ | ⟨hhead, hitems⟩
    · rw [extractFromSlice_members (getElem?_node hlt) hentries (Bool.eq_false_iff.mpr hchildren)
        (htext ▸ hhead) (htext ▸ hmembers)]
      exact congrArg some (List.append_nil _)
    · rw [extractFromSlice_items (getElem?_node hlt) hentries (Bool.eq_false_iff.mpr hchildren)
        (htext ▸ hhead) (htext ▸ hitems)]
      exact congrArg some (List.append_nil _)

/-- From each node the entries of a path are the values that the rest of its steps leads to. -/
theorem extractFromSlice_doc (hsound : Trie.Sound tree.childOf tree.nodes.length) (d : Doc) :
    ∀ {nodeIndex : Nat} {ahead : Nat → Option (List GinStep)} {text : List Char},
      nodeIndex < tree.nodes.length → tree.Serves nodeIndex ahead → trim text = d.text →
      ∃ entries, extractFromSlice tree text nodeIndex = some entries ∧
        ∀ i, Entries.of entries i = found d i (ahead i) := by
  induction d using Doc.inductDocs with
  | null =>
    exact fun hlt hserves htext => extract_leaf hlt hserves htext
      (.inr ⟨fun step => by cases step <;> rfl, by decide, by decide⟩)
  | bool b =>
    exact fun hlt hserves htext => extract_leaf hlt hserves htext
      (.inr ⟨fun step => by cases step <;> rfl, by cases b <;> decide, by cases b <;> decide⟩)
  | number n =>
    obtain ⟨first, rest, hfirst, hdigit⟩ := Core.numeralText_head n
    have hne : first ≠ '{' ∧ first ≠ '[' := by
      constructor <;>
        · rintro rfl
          exact absurd hdigit (by decide)
    intro nodeIndex ahead text hlt hserves htext
    refine extract_leaf hlt hserves htext (.inr ⟨fun step => by cases step <;> rfl, ?_, ?_⟩)
    · rw [Doc.text, hfirst]
      exact fun h => hne.1 (Option.some.inj h)
    · rw [Doc.text, hfirst]
      exact fun h => hne.2 (Option.some.inj h)
  | string items =>
    exact fun hlt hserves htext => extract_leaf hlt hserves htext
      (.inr ⟨fun step => by cases step <;> rfl, by simp [Doc.text, quoted],
        by simp [Doc.text, quoted]⟩)
  | emptyArray blank =>
    exact fun hlt hserves htext => extract_empty hlt hserves htext
      (fun step => by cases step <;> rfl) (.inr ⟨rfl, arrayItems_empty blank⟩)
  | emptyObject blank =>
    exact fun hlt hserves htext => extract_empty hlt hserves htext
      (fun step => by cases step <;> rfl) (.inl ⟨rfl, objectMembers_empty blank⟩)
  | array es ih =>
    intro nodeIndex ahead text hlt hserves htext
    by_cases hchildren : ((tree.node nodeIndex).objectChildren.isEmpty &&
        (tree.node nodeIndex).arrayChildren.isEmpty) = true
    · exact extract_leaf hlt hserves htext (.inl hchildren)
    have hentries := htext ▸ mapM_push (.array es) (tree.node nodeIndex).terminalPathIndices
    have hitems : arrayItems (trim text) 1 = some (es.docs.map Doc.text) := by
      rw [htext]
      exact @arrayItems_text ('[' :: es.text ++ [']']) [] 1 es rfl
    obtain ⟨below, hbelow, hof⟩ := @mapM_pieces _ es.docs.zipIdx
      (itemEntries tree (tree.node nodeIndex) ∘ Prod.map Doc.text id)
      (fun item i => found item.1 i ((ahead i).bind (behind (.element item.2)))) (by
        intro item hitem
        change ∃ entries, itemEntries tree (tree.node nodeIndex) (item.1.text, item.2) =
          some entries ∧ _
        unfold itemEntries
        cases hchild : (tree.node nodeIndex).arrayChildren[item.2]? with
        | none =>
          have hlink : tree.childOf nodeIndex (.element item.2) = none := hchild
          refine ⟨[], rfl, fun i => ?_⟩
          rw [hserves.noChild hlink i]
          rfl
        | some child =>
          have hlink : tree.childOf nodeIndex (.element item.2) = some child := hchild
          exact ih item.1 (List.fst_mem_of_mem_zipIdx hitem) (hsound.bounded hlink)
            (hserves.child hlink) (Core.trim_tight item.1.tight))
    refine ⟨(tree.node nodeIndex).terminalPathIndices.map (fun i => (i, extractedAs (.array es))) ++
      below.flatten, ?_, fun i => ?_⟩
    · rw [extractFromSlice_items (getElem?_node hlt) hentries (Bool.eq_false_iff.mpr hchildren)
        (htext ▸ rfl) hitems, List.zipIdx_map, List.mapM_map, hbelow, Option.map_some]
    · rw [Entries.of, List.filter_append]
      exact (congrArg₂ _ (of_here hserves _ i) (hof i)).trans (found_array es (ahead i) i).symm
  | object ms ih =>
    intro nodeIndex ahead text hlt hserves htext
    by_cases hchildren : ((tree.node nodeIndex).objectChildren.isEmpty &&
        (tree.node nodeIndex).arrayChildren.isEmpty) = true
    · exact extract_leaf hlt hserves htext (.inl hchildren)
    have hentries := htext ▸ mapM_push (.object ms) (tree.node nodeIndex).terminalPathIndices
    have hmembers : objectMembers (trim text) 1 =
        some (ms.entries.map fun entry => (stringText entry.1.name, entry.2.text)) := by
      rw [htext]
      exact @objectMembers_text ('{' :: ms.text ++ ['}']) [] 1 ms rfl
    obtain ⟨below, hbelow, hof⟩ := @mapM_pieces _ ms.entries
      (memberEntries tree (tree.node nodeIndex) ∘
        fun entry => (stringText entry.1.name, entry.2.text))
      (fun entry i => found entry.2 i
        ((ahead i).bind (behind (.member (String.ofList (stringText entry.1.name)))))) (by
        intro entry hentry
        change ∃ entries, memberEntries tree (tree.node nodeIndex)
          (stringText entry.1.name, entry.2.text) = some entries ∧ _
        unfold memberEntries
        cases hchild : (tree.node nodeIndex).objectChildren[
            String.ofList (stringText entry.1.name)]? with
        | none =>
          have hlink : tree.childOf nodeIndex
              (.member (String.ofList (stringText entry.1.name))) = none := hchild
          refine ⟨[], rfl, fun i => ?_⟩
          rw [hserves.noChild hlink i]
          rfl
        | some child =>
          have hlink : tree.childOf nodeIndex
              (.member (String.ofList (stringText entry.1.name))) = some child := hchild
          exact ih entry hentry (hsound.bounded hlink) (hserves.child hlink)
            (Core.trim_tight entry.2.tight))
    refine ⟨(tree.node nodeIndex).terminalPathIndices.map (fun i => (i, extractedAs (.object ms))) ++
      below.flatten, ?_, fun i => ?_⟩
    · rw [extractFromSlice_members (getElem?_node hlt) hentries (Bool.eq_false_iff.mpr hchildren)
        (htext ▸ rfl) hmembers, List.mapM_map, hbelow, Option.map_some]
    · rw [Entries.of, List.filter_append]
      exact (congrArg₂ _ (of_here hserves _ i) (hof i)).trans (found_object ms (ahead i) i).symm

end Extracted

section Selected

/-- The cell of a text. -/
def cellOf (text : List Char) : Value Scalar :=
  some (.jsonb ⟨Bytes.utf8Bytes (String.ofList text)⟩)

theorem jsonText_cellOf (text : List Char) : jsonText (cellOf text) = some text := by
  simp [jsonText, cellOf, Bytes.ofUtf8?_utf8Bytes]

/-- What the index reads off the text of a document along its paths. -/
def selectedEntries (paths : List CompiledGinPath) (d : Doc) : Entries :=
  paths.zipIdx.flatMap fun entry =>
    (enterAll entry.1.steps d).map fun value => (entry.2, extractedAs value)

theorem selectedEntries_sorted (paths : List CompiledGinPath) (d : Doc) :
    (selectedEntries paths d).Pairwise fun a b => a.1 ≤ b.1 := by
  unfold selectedEntries
  refine List.pairwise_flatMap.mpr ⟨fun entry _ => ?_, ?_⟩
  · exact List.pairwise_map.mpr (List.pairwise_of_forall fun _ _ => Nat.le_refl _)
  · have hindexes : (paths.zipIdx.map Prod.snd).Pairwise (· < ·) := by
      rw [List.zipIdx_map_snd]
      exact List.pairwise_lt_range'
    refine (List.pairwise_map.mp hindexes).imp fun {a b} hlt x hx y hy => ?_
    obtain ⟨value, -, rfl⟩ := List.mem_map.mp hx
    obtain ⟨value', -, rfl⟩ := List.mem_map.mp hy
    exact Nat.le_of_lt hlt

theorem selectedEntries_of (paths : List CompiledGinPath) (d : Doc) (i : Nat) :
    Entries.of (selectedEntries paths d) i = found d i (paths[i]?.map CompiledGinPath.steps) := by
  have hzip : ∀ (paths : List CompiledGinPath) (start : Nat),
      Entries.of ((paths.zipIdx start).flatMap fun entry =>
        (enterAll entry.1.steps d).map fun value => (entry.2, extractedAs value)) i =
      if start ≤ i then found d i (paths[i - start]?.map CompiledGinPath.steps) else [] := by
    intro paths
    induction paths with
    | nil => simp [Entries.of, found]
    | cons path paths ih =>
      intro start
      have hrest := ih (start + 1)
      unfold Entries.of at *
      rw [List.zipIdx_cons, List.flatMap_cons, List.filter_append, hrest, List.filter_map]
      by_cases hi : i = start
      · subst hi
        rw [if_neg (by omega), if_pos (Nat.le_refl _), Nat.sub_self, List.append_nil]
        simp [found, Function.comp_def]
      · have hnone : (start == i) = false := beq_false_of_ne (Ne.symm hi)
        simp only [Function.comp_def, hnone, List.filter_false, List.map_nil, List.nil_append]
        by_cases hle : start ≤ i
        · obtain ⟨k, hk⟩ : ∃ k, i - start = k + 1 := ⟨i - start - 1, by omega⟩
          rw [if_pos hle, if_pos (by omega), hk, show i - (start + 1) = k by omega,
            List.getElem?_cons_succ]
        · rw [if_neg hle, if_neg (by omega)]
  have h := hzip paths 0
  rwa [if_pos (Nat.zero_le i), Nat.sub_zero] at h

/-- A text that is a document once it is trimmed. -/
theorem extractSelected_doc (paths : List CompiledGinPath) (d : Doc) {text : List Char}
    (htrim : trim (trim text) = d.text) :
    extractSelectedJsonbEntriesFromText (cellOf text) paths = some (selectedEntries paths d) := by
  obtain ⟨hsound, -⟩ := CompiledGinPathTree.new_ends paths
  obtain ⟨entries, hentries, hof⟩ := extractFromSlice_doc hsound d hsound.nonempty
    (CompiledGinPathTree.serves_new paths) htrim
  have hle : ∀ a b : Nat × ExtractedJsonbTextValue,
      (decide (a.1 ≤ b.1) || decide (b.1 ≤ a.1)) = true := fun a b => by
    simpa using Nat.le_total a.1 b.1
  have htrans : ∀ a b c : Nat × ExtractedJsonbTextValue, decide (a.1 ≤ b.1) = true →
      decide (b.1 ≤ c.1) = true → decide (a.1 ≤ c.1) = true := fun a b c hab hbc => by
    simp only [decide_eq_true_eq] at *
    exact Nat.le_trans hab hbc
  have hsorted : entries.mergeSort (fun a b => a.1 ≤ b.1) = selectedEntries paths d := by
    refine @Sort.eq_of_ranks _ Prod.fst _ _ ?_ (selectedEntries_sorted paths d) fun i => ?_
    · simpa using List.pairwise_mergeSort htrans hle entries
    · rw [Sort.filter_mergeSort htrans hle]
      refine (List.mergeSort_of_pairwise ?_).trans
        ((hof i).trans (selectedEntries_of paths d i).symm)
      refine List.pairwise_of_forall_mem_list fun a ha b hb => ?_
      rw [beq_iff_eq.mp (List.mem_filter.mp ha).2, beq_iff_eq.mp (List.mem_filter.mp hb).2]
      exact decide_eq_true (Nat.le_refl i)
  unfold extractSelectedJsonbEntriesFromText
  rw [jsonText_cellOf]
  change (extractFromSlice _ _ 0).bind _ = _
  rw [hentries]
  exact congrArg some hsorted

theorem trim_document (d : Doc) (before after : Blank) :
    trim (trim (before.chars ++ d.text ++ after.chars)) = d.text := by
  rw [Jsonb.trim_value before d after, Core.trim_tight d.tight]

end Selected

end Cynos.Storage
