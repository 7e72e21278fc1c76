import Cynos.Query.Logical
import Cynos.Storage.GinPath

/-! The keys that the optimizer looks paths up under in a GIN index, and what becomes of them
on the way to the index. -/
namespace Cynos.Query

open Jsonb Storage

section Encode

/-- One segment of a key, after the segments before it. -/
def encodeGinPathSegment (key segment : String) : String :=
  let key := if key.isEmpty then key else key.push '.'
  if segment.isEmpty then (key.push '\\').push '0'
  else segment.toList.foldl (fun key ch =>
    if ch = '\\' then (key.push '\\').push '\\'
    else if ch = '.' then (key.push '\\').push '.'
    else key.push ch) key

def encodeGinPathSegments (segments : List String) : String :=
  segments.foldl encodeGinPathSegment ""

/-- Both crates build one key for a path. -/
theorem encodeGinPathSegments_eq (segments : List String) :
    encodeGinPathSegments segments = segments.foldl appendGinPathSegment "" := rfl

end Encode

section Lookup

/-- The first of several segments is `$`. -/
def DollarFirst (segments : List String) : Prop :=
  segments.head? = some "$" ∧ 2 ≤ segments.length

instance (segments : List String) : Decidable (DollarFirst segments) :=
  inferInstanceAs (Decidable (_ ∧ _))

/-- What is left of a key after the trimming is shorter by the pairs that were cut. -/
theorem length_trimPathStart_le (path : List Char) :
    (trimPathStart path).length ≤ path.length := by
  induction path using trimPathStart.induct with
  | case1 path ih =>
    rw [trimPathStart]
    exact ih.trans (by simp only [List.length_cons]; omega)
  | case2 path h => rw [trimPathStart]; exact h

theorem trimPathStart_eq_self_iff {path : List Char} :
    trimPathStart path = path ↔ ∀ rest, path ≠ '$' :: '.' :: rest := by
  constructor
  · rintro h rest rfl
    rw [trimPathStart] at h
    have hlength := length_trimPathStart_le rest
    rw [h] at hlength
    simp only [List.length_cons] at hlength
    omega
  · intro h
    rw [trimPathStart]
    exact h

/-- Only `$` itself is a segment that starts with `$` and is followed by a dot. -/
theorem escapedSegment_dollar {segment : String} {after rest : List Char}
    (h : escapedSegment segment ++ after = '$' :: '.' :: rest) :
    segment = "$" ∧ after = '.' :: rest := by
  unfold escapedSegment at h
  by_cases hempty : segment.isEmpty
  · rw [if_pos hempty] at h
    exact absurd (List.cons.inj h).1 (by decide)
  · rw [if_neg hempty] at h
    cases htext : segment.toList with
    | nil => exact absurd (String.isEmpty_iff.mpr (String.toList_eq_nil_iff.mp htext)) hempty
    | cons ch chars =>
      have hch : ch = '$' := by
        rw [htext, List.flatMap_cons] at h
        split at h
        · exact absurd (List.cons.inj h).1 (by decide)
        · exact (List.cons.inj h).1
      subst hch
      rw [htext, List.flatMap_cons, if_neg (by decide), List.append_assoc, List.singleton_append] at h
      replace h := (List.cons.inj h).2
      cases chars with
      | nil => exact ⟨String.toList_inj.mp htext, h⟩
      | cons next chars =>
        -- A dot inside a segment stands behind a backslash.
        rw [List.flatMap_cons] at h
        split at h
        · exact absurd (List.cons.inj h).1 (by decide)
        · rename_i hnext
          exact absurd (.inr (List.cons.inj h).1) hnext

/-- A key starts with `$.` just when its first segment is `$` and another one follows. -/
theorem joinedSegments_dollar {segments : List String} :
    (∃ rest, joinedSegments segments = '$' :: '.' :: rest) ↔ DollarFirst segments := by
  cases segments with
  | nil => simp [joinedSegments, DollarFirst]
  | cons segment segments =>
    rw [joinedSegments]
    constructor
    · rintro ⟨rest, h⟩
      obtain ⟨rfl, hafter⟩ := escapedSegment_dollar h
      refine ⟨rfl, ?_⟩
      cases segments with
      | nil => cases hafter
      | cons next segments => simp
    · rintro ⟨hhead, hlength⟩
      obtain rfl := Option.some.inj hhead
      cases segments with
      | nil => simp at hlength
      | cons next segments => exact ⟨_, rfl⟩

theorem ginPathToKey_eq_self_iff (segments : List String) :
    ginPathToKey (encodeGinPathSegments segments) = encodeGinPathSegments segments ↔
      ¬ DollarFirst segments := by
  unfold ginPathToKey
  rw [encodeGinPathSegments_eq, toList_ginPathKey, ← String.toList_inj, String.toList_ofList,
    toList_ginPathKey, trimPathStart_eq_self_iff, ← joinedSegments_dollar, not_exists]

/-- The keys of a path agree from the optimizer to the index, just when the trimming of the
lookup key leaves it alone. -/
theorem ginPathKeys_agree_iff (segments : List String) (h : segments ≠ []) :
    ((∀ others, others ≠ [] →
          encodeGinPathSegments others = encodeGinPathSegments segments → others = segments) ∧
        decodeGinPathSegments (encodeGinPathSegments segments) = segments ∧
        segments.foldl appendGinPathSegment "" = encodeGinPathSegments segments ∧
        ginPathToKey (encodeGinPathSegments segments) = segments.foldl appendGinPathSegment "" ∧
        ∀ document value, NodeAt document segments value ↔
          (ginPathToKey (encodeGinPathSegments segments), value) ∈ indexJsonbNode "" document) ↔
      ¬ DollarFirst segments := by
  rw [← ginPathToKey_eq_self_iff]
  constructor
  · exact fun hkeys => hkeys.2.2.2.1
  · intro hkey
    refine ⟨fun others hothers => ginPathKey_inj h hothers, decodeGinPathSegments_ginPathKey h, rfl,
      hkey, fun document value => ?_⟩
    rw [hkey, encodeGinPathSegments_eq]
    exact (mem_indexJsonbNode h).symm

theorem ginPathKeys_agree_iff_name :
    ["name"] ≠ [] ∧ ¬ DollarFirst ["name"] ∧
      ginPathToKey (encodeGinPathSegments ["name"]) = ["name"].foldl appendGinPathSegment "" :=
  ⟨by decide, by decide, ((ginPathKeys_agree_iff ["name"] (by decide)).mpr (by decide)).2.2.2.1⟩

/-- `$['$'].name` is looked up under `name`. -/
theorem dollarField_lookedUpAsName :
    ¬ ∀ segments : List String, segments ≠ [] →
      ginPathToKey (encodeGinPathSegments segments) = segments.foldl appendGinPathSegment "" := by
  intro h
  have hkey := (ginPathToKey_eq_self_iff _).mp (h ["$", "name"] (by decide))
  exact hkey (by decide)

end Lookup

end Cynos.Query
