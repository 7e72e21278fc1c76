import Mathlib.Data.List.TakeWhile

/-! Where the pieces of a JSON text end, found without parsing them. The positions are those of
characters: all that is looked for is ASCII. -/
namespace Cynos.Jsonb

section Scan

/-- `u8::is_ascii_whitespace`. -/
def isAsciiWhitespace (c : Char) : Bool :=
  c == ' ' || c == '\t' || c == '\n' || c.toNat == 12 || c == '\r'

def skipJsonWhitespace (text : List Char) (pos : Nat) : Nat :=
  pos + ((text.drop pos).takeWhile isAsciiWhitespace).length

/-- The loop of `scan_json_string_end` over the rest of the text. -/
def scanStringFrom (escaped : Bool) (pos : Nat) : List Char → Option Nat
  | [] => none
  | c :: rest =>
    if escaped then scanStringFrom false (pos + 1) rest
    else if c = '\\' then scanStringFrom true (pos + 1) rest
    else if c = '"' then some (pos + 1)
    else scanStringFrom false (pos + 1) rest

/-- Finds the exclusive end offset of a JSON string literal. -/
def scanJsonStringEnd (text : List Char) (start : Nat) : Option Nat :=
  if text[start]? ≠ some '"' then none
  else scanStringFrom false (start + 1) (text.drop (start + 1))

/-- The loop of `scan_json_composite_end` over the rest of the text. -/
def scanCompositeFrom (depth : Nat) (inString escaped : Bool) (pos : Nat) :
    List Char → Option Nat
  | [] => none
  | c :: rest =>
    if inString then
      if escaped then scanCompositeFrom depth true false (pos + 1) rest
      else if c = '\\' then scanCompositeFrom depth true true (pos + 1) rest
      else scanCompositeFrom depth (c ≠ '"') false (pos + 1) rest
    else if c = '"' then scanCompositeFrom depth true escaped (pos + 1) rest
    else if c = '{' ∨ c = '[' then scanCompositeFrom (depth + 1) false escaped (pos + 1) rest
    else if c = '}' ∨ c = ']' then
      if depth = 0 then none
      else if depth - 1 = 0 then some (pos + 1)
      else scanCompositeFrom (depth - 1) false escaped (pos + 1) rest
    else scanCompositeFrom depth false escaped (pos + 1) rest

def scanJsonCompositeEnd (text : List Char) (start : Nat) : Option Nat :=
  scanCompositeFrom 0 false false start (text.drop start)

def endsScalar (c : Char) : Bool := c == ',' || c == ']' || c == '}'

/-- Finds the exclusive end offset of the JSON value starting at `start`. -/
def scanJsonValueEnd (text : List Char) (start : Nat) : Option Nat :=
  let start := skipJsonWhitespace text start
  match text[start]? with
  | none => none
  | some c =>
    if c = '"' then scanJsonStringEnd text start
    else if c = '{' ∨ c = '[' then scanJsonCompositeEnd text start
    else some (start + ((text.drop start).takeWhile (!endsScalar ·)).length)

end Scan

section Bounds

variable {text : List Char} {start stop : Nat}

theorem le_skipJsonWhitespace (text : List Char) (pos : Nat) : pos ≤ skipJsonWhitespace text pos :=
  Nat.le_add_right ..

theorem lt_of_scanStringFrom {escaped : Bool} {pos : Nat}
    (h : scanStringFrom escaped pos text = some stop) : pos < stop := by
  induction text generalizing escaped pos with
  | nil => cases h
  | cons c rest ih =>
    rw [scanStringFrom] at h
    split_ifs at h
    · exact (Nat.lt_succ_self pos).trans (ih h)
    · exact (Nat.lt_succ_self pos).trans (ih h)
    · cases h
      exact Nat.lt_succ_self pos
    · exact (Nat.lt_succ_self pos).trans (ih h)

theorem lt_of_scanJsonStringEnd (h : scanJsonStringEnd text start = some stop) : start < stop := by
  rw [scanJsonStringEnd] at h
  split_ifs at h
  exact (Nat.lt_succ_self start).trans (lt_of_scanStringFrom h)

theorem lt_of_scanCompositeFrom {depth pos : Nat} {inString escaped : Bool}
    (h : scanCompositeFrom depth inString escaped pos text = some stop) : pos < stop := by
  induction text generalizing depth inString escaped pos with
  | nil => cases h
  | cons c rest ih =>
    rw [scanCompositeFrom] at h
    split_ifs at h
    all_goals first
      | exact (Nat.lt_succ_self pos).trans (ih h)
      | exact Option.some.inj h ▸ Nat.lt_succ_self pos

theorem le_of_scanJsonValueEnd (h : scanJsonValueEnd text start = some stop) : start ≤ stop := by
  have hskip := le_skipJsonWhitespace text start
  rw [scanJsonValueEnd] at h
  split at h
  · cases h
  · split_ifs at h
    · exact hskip.trans (lt_of_scanJsonStringEnd h).le
    · exact hskip.trans (lt_of_scanCompositeFrom h).le
    · exact Option.some.inj h ▸ hskip.trans (Nat.le_add_right ..)

end Bounds

end Cynos.Jsonb
