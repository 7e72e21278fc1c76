import Cynos.Jsonb.Value

/-! Keys of the paths into a document, as a GIN index stores them: the segments of a path
escaped and joined by dots. -/
namespace Cynos.Storage

open Jsonb

section Encode

def pushGinPathChar (path : String) (ch : Char) : String :=
  if ch = '\\' then (path.push '\\').push '\\'
  else if ch = '.' then (path.push '\\').push '.'
  else path.push ch

def appendGinPathSegment (path segment : String) : String :=
  let path := if path.isEmpty then path else path.push '.'
  if segment.isEmpty then (path.push '\\').push '0'
  else segment.toList.foldl pushGinPathChar path

def decodeGinPathChars (segments : List String) (current : String) : List Char → List String
  | [] => segments ++ [current]
  | ['\\'] => segments ++ [current.push '\\']
  | '\\' :: escaped :: chars =>
    if escaped = '0' ∧ current.isEmpty then decodeGinPathChars segments current chars
    else decodeGinPathChars segments (current.push escaped) chars
  | '.' :: chars => decodeGinPathChars (segments ++ [current]) "" chars
  | other :: chars => decodeGinPathChars segments (current.push other) chars

def decodeGinPathSegments (path : String) : List String := decodeGinPathChars [] "" path.toList

/-- The characters of a segment in a key. -/
def escapedSegment (segment : String) : List Char :=
  if segment.isEmpty then ['\\', '0']
  else segment.toList.flatMap fun ch => if ch = '\\' ∨ ch = '.' then ['\\', ch] else [ch]

def joinedSegments : List String → List Char
  | [] => []
  | segment :: segments => escapedSegment segment ++ segments.flatMap ('.' :: escapedSegment ·)

theorem toList_pushGinPathChar (path : String) (ch : Char) :
    (pushGinPathChar path ch).toList =
      path.toList ++ if ch = '\\' ∨ ch = '.' then ['\\', ch] else [ch] := by
  unfold pushGinPathChar
  by_cases hslash : ch = '\\'
  · simp [hslash]
  · by_cases hdot : ch = '.' <;> simp [hslash, hdot]

theorem toList_foldl_push (chars : List Char) (path : String) :
    (chars.foldl pushGinPathChar path).toList =
      path.toList ++ chars.flatMap fun ch => if ch = '\\' ∨ ch = '.' then ['\\', ch] else [ch] := by
  induction chars generalizing path with
  | nil => simp
  | cons ch chars ih =>
    rw [List.foldl_cons, ih, toList_pushGinPathChar, List.flatMap_cons, List.append_assoc]

theorem toList_appendGinPathSegment (path segment : String) :
    (appendGinPathSegment path segment).toList =
      (if path.isEmpty then [] else path.toList ++ ['.']) ++ escapedSegment segment := by
  have hpath : (if path.isEmpty then path else path.push '.').toList =
      if path.isEmpty then [] else path.toList ++ ['.'] := by
    by_cases h : path.isEmpty
    · simp [String.isEmpty_iff.mp h]
    · simp [h]
  unfold appendGinPathSegment escapedSegment
  by_cases h : segment.isEmpty
  · rw [if_pos h, if_pos h, String.toList_push, String.toList_push, hpath, List.append_assoc]
    rfl
  · rw [if_neg h, if_neg h, toList_foldl_push, hpath]

theorem escapedSegment_ne_nil (segment : String) : escapedSegment segment ≠ [] := by
  unfold escapedSegment
  split
  · exact List.cons_ne_nil _ _
  · rename_i h
    obtain ⟨ch, chars, heq⟩ := List.exists_cons_of_ne_nil
      (fun hnil => h (String.isEmpty_iff.mpr (String.toList_eq_nil_iff.mp hnil)))
    rw [heq, List.flatMap_cons]
    split <;> simp

theorem isEmpty_appendGinPathSegment (path segment : String) :
    (appendGinPathSegment path segment).isEmpty = false := by
  rw [Bool.eq_false_iff, Ne, String.isEmpty_iff, ← String.toList_eq_nil_iff,
    toList_appendGinPathSegment, List.append_eq_nil_iff]
  exact fun h => escapedSegment_ne_nil segment h.2

theorem toList_foldl_append (segments : List String) (path : String) (h : path.isEmpty = false) :
    (segments.foldl appendGinPathSegment path).toList =
      path.toList ++ segments.flatMap ('.' :: escapedSegment ·) := by
  induction segments generalizing path with
  | nil => simp
  | cons segment segments ih =>
    rw [List.foldl_cons, ih _ (isEmpty_appendGinPathSegment _ _), toList_appendGinPathSegment, h]
    simp

/-- The key that the segments of a path are built into one by one. -/
theorem toList_ginPathKey (segments : List String) :
    (segments.foldl appendGinPathSegment "").toList = joinedSegments segments := by
  cases segments with
  | nil => rfl
  | cons segment segments =>
    rw [List.foldl_cons, toList_foldl_append _ _ (isEmpty_appendGinPathSegment _ _),
      toList_appendGinPathSegment]
    rfl

end Encode

section Decode

variable {segments : List String} {current : String} {chars : List Char}

theorem decodeGinPathChars_dot :
    decodeGinPathChars segments current ('.' :: chars) =
      decodeGinPathChars (segments ++ [current]) "" chars := by
  rw [decodeGinPathChars]

theorem decodeGinPathChars_char (ch : Char) :
    decodeGinPathChars segments current
        ((if ch = '\\' ∨ ch = '.' then ['\\', ch] else [ch]) ++ chars) =
      decodeGinPathChars segments (current.push ch) chars := by
  by_cases h : ch = '\\' ∨ ch = '.'
  · have hne : ch ≠ '0' := by
      rintro rfl
      exact absurd h (by decide)
    rw [if_pos h]
    simp [decodeGinPathChars, hne]
  · rw [not_or] at h
    rw [if_neg (not_or.mpr h), List.singleton_append, decodeGinPathChars]
    · exact fun hslash _ => h.1 hslash
    · exact fun _ _ hslash _ => h.1 hslash
    · exact h.2

theorem toList_foldl_stringPush (text : List Char) (current : String) :
    (text.foldl String.push current).toList = current.toList ++ text := by
  induction text generalizing current with
  | nil => simp
  | cons ch text ih => simp [ih]

theorem foldl_push_toList (text : String) : text.toList.foldl String.push "" = text := by
  rw [← String.toList_inj, toList_foldl_stringPush]
  rfl

/-- A segment of a key is read back as it was. -/
theorem decodeGinPathChars_segment (segment : String) :
    decodeGinPathChars segments "" (escapedSegment segment ++ chars) =
      decodeGinPathChars segments segment chars := by
  have hchars : ∀ (text : List Char) (current : String),
      decodeGinPathChars segments current
          ((text.flatMap fun ch => if ch = '\\' ∨ ch = '.' then ['\\', ch] else [ch]) ++ chars) =
        decodeGinPathChars segments (text.foldl String.push current) chars := by
    intro text
    induction text with
    | nil => intro current; rfl
    | cons ch text ih =>
      intro current
      rw [List.flatMap_cons, List.append_assoc, decodeGinPathChars_char, ih, List.foldl_cons]
  unfold escapedSegment
  by_cases h : segment.isEmpty
  · rw [if_pos h, String.isEmpty_iff.mp h]
    simp [decodeGinPathChars]
  · rw [if_neg h, hchars]
    exact congrArg (decodeGinPathChars segments · chars) (foldl_push_toList segment)

theorem decodeGinPathChars_joined (segments : List String) (before : List String)
    (current : String) :
    decodeGinPathChars before current (segments.flatMap ('.' :: escapedSegment ·)) =
      before ++ current :: segments := by
  induction segments generalizing before current with
  | nil => rfl
  | cons segment segments ih =>
    rw [List.flatMap_cons, List.cons_append, decodeGinPathChars_dot, decodeGinPathChars_segment, ih,
      List.append_assoc, List.singleton_append]

/-- Decoding undoes the encoding of a path of one segment or more. -/
theorem decodeGinPathSegments_ginPathKey (h : segments ≠ []) :
    decodeGinPathSegments (segments.foldl appendGinPathSegment "") = segments := by
  unfold decodeGinPathSegments
  rw [toList_ginPathKey]
  cases segments with
  | nil => exact absurd rfl h
  | cons segment segments =>
    rw [joinedSegments, decodeGinPathChars_segment, decodeGinPathChars_joined, List.nil_append]

/-- Paths of one key are one path. -/
theorem ginPathKey_inj {others : List String} (h : segments ≠ []) (hothers : others ≠ [])
    (heq : others.foldl appendGinPathSegment "" = segments.foldl appendGinPathSegment "") :
    others = segments := by
  rw [← decodeGinPathSegments_ginPathKey hothers, heq, decodeGinPathSegments_ginPathKey h]

end Decode

section Index

/-- The value stands at the path in the document. -/
inductive NodeAt : JsonbValue → List String → JsonbValue → Prop
  | here {value : JsonbValue} : NodeAt value [] value
  | entry {obj : JsonbObject} {key : String} {child value : JsonbValue} {segments : List String}
      (mem : (key, child) ∈ obj) (at_child : NodeAt child segments value) :
      NodeAt (.object obj) (key :: segments) value
  | item {items : List JsonbValue} {index : Nat} {child value : JsonbValue}
      {segments : List String} (get : items[index]? = some child)
      (at_child : NodeAt child segments value) :
      NodeAt (.array items) (toString index :: segments) value

mutual

/-- The keys that are added for a document, each with the value that is indexed under it. -/
def indexJsonbNode (currentPath : String) : JsonbValue → List (String × JsonbValue)
  | .object obj => indexJsonbEntries currentPath obj
  | .array items => indexJsonbItems currentPath 0 items
  | _ => []

def indexJsonbEntries (currentPath : String) :
    List (String × JsonbValue) → List (String × JsonbValue)
  | [] => []
  | (key, child) :: obj =>
    let path := appendGinPathSegment currentPath key
    (path, child) :: indexJsonbNode path child ++ indexJsonbEntries currentPath obj

def indexJsonbItems (currentPath : String) (index : Nat) :
    List JsonbValue → List (String × JsonbValue)
  | [] => []
  | child :: items =>
    let path := appendGinPathSegment currentPath (toString index)
    (path, child) :: indexJsonbNode path child ++ indexJsonbItems currentPath (index + 1) items

end

/-- What is indexed for a child that stands under a segment. -/
def IndexedUnder (currentPath segment : String) (child : JsonbValue)
    (pair : String × JsonbValue) : Prop :=
  pair = (appendGinPathSegment currentPath segment, child) ∨
    pair ∈ indexJsonbNode (appendGinPathSegment currentPath segment) child

theorem mem_indexJsonbEntries {currentPath : String} {obj : JsonbObject}
    {pair : String × JsonbValue} :
    pair ∈ indexJsonbEntries currentPath obj ↔
      ∃ key child, (key, child) ∈ obj ∧ IndexedUnder currentPath key child pair := by
  induction obj with
  | nil => simp [indexJsonbEntries]
  | cons entry obj ih =>
    rw [indexJsonbEntries, List.cons_append, List.mem_cons, List.mem_append, ih]
    simp only [IndexedUnder, List.mem_cons]
    grind

theorem mem_indexJsonbItems {currentPath : String} {items : List JsonbValue} {start : Nat}
    {pair : String × JsonbValue} :
    pair ∈ indexJsonbItems currentPath start items ↔
      ∃ index child, items[index]? = some child ∧
        IndexedUnder currentPath (toString (start + index)) child pair := by
  induction items generalizing start with
  | nil => simp [indexJsonbItems]
  | cons item items ih =>
    rw [indexJsonbItems, List.cons_append, List.mem_cons, List.mem_append, ih]
    constructor
    · rintro (rfl | hnode | ⟨index, child, hget, hindexed⟩)
      · exact ⟨0, item, rfl, .inl rfl⟩
      · exact ⟨0, item, rfl, .inr hnode⟩
      · rw [Nat.add_assoc, Nat.add_comm 1] at hindexed
        exact ⟨index + 1, child, hget, hindexed⟩
    · rintro ⟨index, child, hget, hindexed⟩
      cases index with
      | zero =>
        obtain rfl := Option.some.inj hget
        exact hindexed.imp_right .inl
      | succ index =>
        rw [← Nat.add_assoc, Nat.add_right_comm] at hindexed
        exact .inr (.inr ⟨index, child, hget, hindexed⟩)

/-- A value that stands at a path is indexed under its key. -/
theorem indexed_of_nodeAt {document value : JsonbValue} {segments : List String}
    (h : NodeAt document segments value) (hne : segments ≠ []) (currentPath : String) :
    (segments.foldl appendGinPathSegment currentPath, value) ∈
      indexJsonbNode currentPath document := by
  induction h generalizing currentPath with
  | here => exact absurd rfl hne
  | @entry obj key child value segments hmem hchild ih =>
    rw [indexJsonbNode, mem_indexJsonbEntries]
    refine ⟨key, child, hmem, ?_⟩
    cases segments with
    | nil =>
      cases hchild
      exact .inl rfl
    | cons => exact .inr (ih (List.cons_ne_nil _ _) _)
  | @item items index child value segments hget hchild ih =>
    rw [indexJsonbNode, mem_indexJsonbItems]
    refine ⟨index, child, hget, ?_⟩
    rw [Nat.zero_add]
    cases segments with
    | nil =>
      cases hchild
      exact .inl rfl
    | cons => exact .inr (ih (List.cons_ne_nil _ _) _)

/-- The key of a path that leads to the value. -/
def KeyOfNode (currentPath : String) (document : JsonbValue) (pair : String × JsonbValue) : Prop :=
  ∃ segments, segments ≠ [] ∧ NodeAt document segments pair.2 ∧
    pair.1 = segments.foldl appendGinPathSegment currentPath

theorem KeyOfNode.of_child {currentPath segment : String} {document child : JsonbValue}
    {pair : String × JsonbValue}
    (hstep : ∀ segments, NodeAt child segments pair.2 → NodeAt document (segment :: segments) pair.2)
    (hchild : KeyOfNode (appendGinPathSegment currentPath segment) child pair ∨
      pair = (appendGinPathSegment currentPath segment, child)) :
    KeyOfNode currentPath document pair := by
  rcases hchild with ⟨segments, -, hnode, hkey⟩ | rfl
  · exact ⟨segment :: segments, List.cons_ne_nil _ _, hstep _ hnode, hkey⟩
  · exact ⟨[segment], List.cons_ne_nil _ _, hstep _ .here, rfl⟩

mutual

theorem keyOfNode_of_mem : (document : JsonbValue) → (currentPath : String) →
    (pair : String × JsonbValue) → pair ∈ indexJsonbNode currentPath document →
    KeyOfNode currentPath document pair
  | .object obj, currentPath, pair, h => by
    rw [indexJsonbNode] at h
    obtain ⟨key, child, hmem, hchild⟩ := keyOfNode_of_mem_entries obj currentPath pair h
    exact .of_child (fun _ => .entry hmem) hchild
  | .array items, currentPath, pair, h => by
    rw [indexJsonbNode] at h
    obtain ⟨index, child, hget, hchild⟩ := keyOfNode_of_mem_items items currentPath 0 pair h
    rw [Nat.zero_add] at hchild
    exact .of_child (fun _ => .item hget) hchild
  | .null, _, _, h => absurd h List.not_mem_nil
  | .bool _, _, _, h => absurd h List.not_mem_nil
  | .number _, _, _, h => absurd h List.not_mem_nil
  | .string _, _, _, h => absurd h List.not_mem_nil

theorem keyOfNode_of_mem_entries : (obj : List (String × JsonbValue)) → (currentPath : String) →
    (pair : String × JsonbValue) → pair ∈ indexJsonbEntries currentPath obj →
    ∃ key child, (key, child) ∈ obj ∧
      (KeyOfNode (appendGinPathSegment currentPath key) child pair ∨
        pair = (appendGinPathSegment currentPath key, child))
  | [], _, _, h => absurd h List.not_mem_nil
  | (key, child) :: obj, currentPath, pair, h => by
    rw [indexJsonbEntries, List.cons_append, List.mem_cons, List.mem_append] at h
    rcases h with heq | hnode | hrest
    · exact ⟨key, child, List.mem_cons_self, .inr heq⟩
    · exact ⟨key, child, List.mem_cons_self, .inl (keyOfNode_of_mem child _ pair hnode)⟩
    · obtain ⟨other, child, hmem, hchild⟩ := keyOfNode_of_mem_entries obj currentPath pair hrest
      exact ⟨other, child, List.mem_cons_of_mem _ hmem, hchild⟩

theorem keyOfNode_of_mem_items : (items : List JsonbValue) → (currentPath : String) →
    (start : Nat) → (pair : String × JsonbValue) → pair ∈ indexJsonbItems currentPath start items →
    ∃ index child, items[index]? = some child ∧
      (KeyOfNode (appendGinPathSegment currentPath (toString (start + index))) child pair ∨
        pair = (appendGinPathSegment currentPath (toString (start + index)), child))
  | [], _, _, _, h => absurd h List.not_mem_nil
  | child :: items, currentPath, start, pair, h => by
    rw [indexJsonbItems, List.cons_append, List.mem_cons, List.mem_append] at h
    rcases h with heq | hnode | hrest
    · exact ⟨0, child, rfl, .inr heq⟩
    · exact ⟨0, child, rfl, .inl (keyOfNode_of_mem child _ pair hnode)⟩
    · obtain ⟨index, child, hget, hchild⟩ :=
        keyOfNode_of_mem_items items currentPath (start + 1) pair hrest
      rw [Nat.add_assoc, Nat.add_comm 1] at hchild
      exact ⟨index + 1, child, hget, hchild⟩

end

/-- Under the key of a path stand just the values at that path. -/
theorem mem_indexJsonbNode {document value : JsonbValue} {segments : List String}
    (hne : segments ≠ []) :
    (segments.foldl appendGinPathSegment "", value) ∈ indexJsonbNode "" document ↔
      NodeAt document segments value := by
  refine ⟨fun h => ?_, fun h => indexed_of_nodeAt h hne ""⟩
  obtain ⟨others, hothers, hnode, hkey⟩ := keyOfNode_of_mem document "" _ h
  exact ginPathKey_inj hothers hne hkey ▸ hnode

end Index

end Cynos.Storage
