import Mathlib.Data.List.Basic

/-! Trigrams of a text, as codes of three characters each, for the prefilter of
`JSONB_CONTAINS`. -/
namespace Cynos.Index

/-- Synthetic key namespace used for the trigram prefilter. -/
def containsTrigramKeyPrefix : String := "__cynos_contains3__:"

/-- Builds the synthetic key used for path-scoped trigrams. -/
def containsTrigramKey (path : String) : String := containsTrigramKeyPrefix ++ path

def inlineTrigramDedupCapacity : Nat := 12

def trigramCode (first second third : Char) : Nat :=
  (first.toNat <<< 42) ||| (second.toNat <<< 21) ||| third.toNat

/-- `char::from_u32`. -/
def charFromU32 (n : Nat) : Option Char := if n.isValidChar then some (Char.ofNat n) else none

def trigramChars (code : Nat) : Option (Char × Char × Char) := do
  let first ← charFromU32 ((code >>> 42) &&& 0x1fffff)
  let second ← charFromU32 ((code >>> 21) &&& 0x1fffff)
  let third ← charFromU32 (code &&& 0x1fffff)
  some (first, second, third)

def trigramStringFromCode (code : Nat) : String :=
  match trigramChars code with
  | none => ""
  | some (first, second, third) => String.ofList [first, second, third]

/-- The codes met so far: a few in an array, then all of them in a set. -/
structure SeenTrigrams where
  inlineSeen : List Nat
  spilledSeen : Option (List Nat)

/-- Whether the code is met for the first time. -/
def tryMarkTrigramSeen (code : Nat) (seen : SeenTrigrams) : Bool × SeenTrigrams :=
  match seen.spilledSeen with
  | some spilled =>
    (!spilled.contains code, { seen with spilledSeen := some (spilled.insert code) })
  | none =>
    if seen.inlineSeen.contains code then (false, seen)
    else if seen.inlineSeen.length < inlineTrigramDedupCapacity then
      (true, { seen with inlineSeen := seen.inlineSeen ++ [code] })
    else
      (!seen.inlineSeen.contains code,
        { seen with spilledSeen := some (seen.inlineSeen.insert code) })

/-- The loop of `for_each_unique_trigram_code`: the codes it visits. -/
def visitTrigrams (first second third : Char) (chars : List Char) (seen : SeenTrigrams) :
    List Nat :=
  let code := trigramCode first second third
  let (isNew, seen) := tryMarkTrigramSeen code seen
  let visited := if isNew then [code] else []
  match chars with
  | [] => visited
  | next :: chars => visited ++ visitTrigrams second third next chars seen

/-- The trigrams of a text, each once, in the order of their first places. -/
def uniqueTrigramCodes (value : String) : List Nat :=
  match value.toList with
  | first :: second :: third :: chars => visitTrigrams first second third chars ⟨[], none⟩
  | _ => []

/-- The trigrams of a text in their order. -/
def containsTrigrams (value : String) : List String :=
  ((uniqueTrigramCodes value).filterMap fun code =>
    (trigramChars code).map fun (first, second, third) =>
      String.ofList [first, second, third]).mergeSort fun a b => a ≤ b

/-- The pairs of a key and a value that stand for the trigrams of a text under a path. -/
def containsTrigramPairs (path needle : String) : List (String × String) :=
  (containsTrigrams needle).map fun gram => (containsTrigramKey path, gram)

section Codes

theorem toNat_lt (c : Char) : c.toNat < 0x200000 := by
  have hvalid := c.valid
  rcases hvalid with hlt | ⟨_, hlt⟩
  · exact Nat.lt_trans hlt (by decide)
  · exact Nat.lt_trans hlt (by decide)

theorem testBit_of_lt {m i : Nat} (hm : m < 0x200000) (hi : 21 ≤ i) : m.testBit i = false :=
  Nat.testBit_lt_two_pow
    (Nat.lt_of_lt_of_le hm (Nat.pow_le_pow_right (show 2 > 0 by decide) hi))

theorem charFromU32_toNat (c : Char) : charFromU32 c.toNat = some c := by
  rw [charFromU32, if_pos (show c.toNat.isValidChar from c.valid), Char.ofNat_toNat]

/-- A field of 21 bits is read back from a code. -/
theorem field_eq {n m : Nat} (shift : Nat) (hm : m < 0x200000)
    (h : ∀ i < 21, n.testBit (shift + i) = m.testBit i) : (n >>> shift) &&& 0x1fffff = m := by
  refine Nat.eq_of_testBit_eq fun i => ?_
  rw [Nat.testBit_and, Nat.testBit_shiftRight, show 0x1fffff = 2 ^ 21 - 1 from rfl,
    Nat.testBit_two_pow_sub_one]
  by_cases hi : i < 21
  · rw [h i hi, decide_eq_true hi, Bool.and_true]
  · rw [decide_eq_false hi, Bool.and_false, testBit_of_lt hm (Nat.not_lt.mp hi)]

theorem trigramChars_trigramCode (first second third : Char) :
    trigramChars (trigramCode first second third) = some (first, second, third) := by
  have hbit (c : Char) (i : Nat) (hi : 21 ≤ i) : c.toNat.testBit i = false :=
    testBit_of_lt (toNat_lt c) hi
  have hfirst : (trigramCode first second third >>> 42) &&& 0x1fffff = first.toNat := by
    refine field_eq 42 (toNat_lt first) fun i hi => ?_
    simp [trigramCode, Nat.testBit_or, Nat.testBit_shiftLeft, hbit, show 21 ≤ 42 + i by omega,
      show 21 ≤ 42 + i - 21 by omega]
  have hsecond : (trigramCode first second third >>> 21) &&& 0x1fffff = second.toNat := by
    refine field_eq 21 (toNat_lt second) fun i hi => ?_
    simp [trigramCode, Nat.testBit_or, Nat.testBit_shiftLeft, hbit, show ¬ 42 ≤ 21 + i by omega]
  have hthird : trigramCode first second third &&& 0x1fffff = third.toNat := by
    refine field_eq (n := trigramCode first second third) 0 (toNat_lt third) fun i hi => ?_
    simp [trigramCode, Nat.testBit_or, Nat.testBit_shiftLeft, show ¬ 42 ≤ i by omega,
      show ¬ 21 ≤ i by omega]
  rw [trigramChars, hfirst, hsecond, hthird, charFromU32_toNat, charFromU32_toNat,
    charFromU32_toNat]
  rfl

theorem exists_trigramCode {first second third : Char} {chars : List Char} {seen : SeenTrigrams}
    {code : Nat} (h : code ∈ visitTrigrams first second third chars seen) :
    ∃ a b c, code = trigramCode a b c := by
  induction chars generalizing first second third seen with
  | nil =>
    unfold visitTrigrams at h
    dsimp only at h
    split_ifs at h
    · exact ⟨first, second, third, List.mem_singleton.mp h⟩
    · cases h
  | cons next chars ih =>
    unfold visitTrigrams at h
    dsimp only at h
    rcases List.mem_append.mp h with h | h
    · split_ifs at h
      · exact ⟨first, second, third, List.mem_singleton.mp h⟩
      · cases h
    · exact ih h

/-- The codes of a text are those of its trigrams, each once. -/
theorem mem_containsTrigrams {value gram : String} :
    gram ∈ containsTrigrams value ↔
      ∃ code ∈ uniqueTrigramCodes value, gram = trigramStringFromCode code := by
  rw [containsTrigrams, List.mem_mergeSort, List.mem_filterMap]
  refine exists_congr fun code => and_congr_right fun hcode => ?_
  obtain ⟨a, b, c, rfl⟩ : ∃ a b c, code = trigramCode a b c := by
    unfold uniqueTrigramCodes at hcode
    split at hcode
    · exact exists_trigramCode hcode
    · cases hcode
  rw [trigramStringFromCode, trigramChars_trigramCode, Option.map_some, Option.some.injEq]
  exact eq_comm

end Codes

end Cynos.Index
