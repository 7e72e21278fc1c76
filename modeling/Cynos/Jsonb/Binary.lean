import Cynos.Jsonb.Object
import Cynos.Lib.Binary64
import Cynos.Lib.Bytes
import Cynos.Lib.Varint

/-! The binary form of JSON values: a tag, then the number, the length and the bytes of the
text, or the count and the parts. -/
namespace Cynos.Jsonb

open Bytes (utf8Bytes leBytes ofLeBytes At)

section Machine

/-- The width of `usize`. -/
structure Machine where
  usizeBits : Nat
  usizeBits_ge : 16 ≤ usizeBits

/-- What stops a decoder that is built with checks. -/
inductive Fault where
  | shift
  | add
  | slice
  | capacity
  | depth
deriving DecidableEq

abbrev Outcome := Except Fault

variable (machine : Machine)

def shl (value shift : Nat) : Outcome Nat :=
  if shift < machine.usizeBits then .ok ((value <<< shift) % 2 ^ machine.usizeBits)
  else .error .shift

def add (a b : Nat) : Outcome Nat :=
  if a + b < 2 ^ machine.usizeBits then .ok (a + b) else .error .add

def slice (data : List UInt8) (start stop : Nat) : Outcome (List UInt8) :=
  if start ≤ stop ∧ stop ≤ data.length then .ok ((data.drop start).take (stop - start))
  else .error .slice

/-- An allocator that grants no more than `limit` elements. -/
def withCapacity (limit capacity : Nat) : Outcome Unit :=
  if capacity ≤ limit then .ok () else .error .capacity

end Machine

section Utf8

/-- How many bytes a character takes that begins with this one, or zero if none does. -/
def utf8CharWidth (first : Nat) : Nat :=
  if first < 0x80 then 1
  else if first < 0xC2 then 0
  else if first < 0xE0 then 2
  else if first < 0xF0 then 3
  else if first < 0xF5 then 4
  else 0

def isContinuation (byte : Nat) : Bool := 0x80 ≤ byte && byte ≤ 0xBF

/-- The second byte of a character keeps out overlong forms and surrogates. -/
def isSecond (first second : Nat) : Bool :=
  if first = 0xE0 then 0xA0 ≤ second && second ≤ 0xBF
  else if first = 0xED then 0x80 ≤ second && second ≤ 0x9F
  else if first = 0xF0 then 0x90 ≤ second && second ≤ 0xBF
  else if first = 0xF4 then 0x80 ≤ second && second ≤ 0x8F
  else isContinuation second

/-- How many bytes of a broken character are replaced together. -/
def brokenLength (bytes : List UInt8) : Nat :=
  let first := (bytes.getD 0 0).toNat
  let second := (bytes.getD 1 0).toNat
  let third := (bytes.getD 2 0).toNat
  if utf8CharWidth first < 3 || !isSecond first second then 1
  else if utf8CharWidth first = 3 || !isContinuation third then 2
  else 3

theorem brokenLength_pos (bytes : List UInt8) : 0 < brokenLength bytes := by
  unfold brokenLength
  dsimp only
  split_ifs <;> decide

/-- Every broken part becomes the replacement character. -/
def lossyChars (bytes : List UInt8) : List Char :=
  if bytes = [] then []
  else match (bytes.take 4).toByteArray.utf8DecodeChar? 0 with
    | some c => c :: lossyChars (bytes.drop c.utf8Size)
    | none => '\uFFFD' :: lossyChars (bytes.drop (brokenLength bytes))
termination_by bytes.length
decreasing_by
  · have := c.utf8Size_pos
    have := List.length_pos_iff.mpr ‹¬bytes = []›
    rw [List.length_drop]
    omega
  · have := brokenLength_pos bytes
    have := List.length_pos_iff.mpr ‹¬bytes = []›
    rw [List.length_drop]
    omega

def fromUtf8Lossy (bytes : List UInt8) : String :=
  match Bytes.ofUtf8? bytes with
  | some text => text
  | none => String.ofList (lossyChars bytes)

@[simp] theorem fromUtf8Lossy_utf8Bytes (s : String) : fromUtf8Lossy (utf8Bytes s) = s := by
  rw [fromUtf8Lossy, Bytes.ofUtf8?_utf8Bytes]

end Utf8

section Encode

def tagNull : UInt8 := 0x00
def tagFalse : UInt8 := 0x01
def tagTrue : UInt8 := 0x02
def tagNumber : UInt8 := 0x03
def tagString : UInt8 := 0x04
def tagArray : UInt8 := 0x05
def tagObject : UInt8 := 0x06

def encodeVarint (value : Nat) : List UInt8 :=
  let byte := UInt8.ofNat (value &&& 0x7F)
  if value >>> 7 ≠ 0 then (byte ||| 0x80) :: encodeVarint (value >>> 7) else [byte]
termination_by value
decreasing_by
  rename_i h
  rw [Nat.shiftRight_eq_div_pow] at h ⊢
  omega

mutual

def encodeValue : JsonbValue → List UInt8
  | .null => [tagNull]
  | .bool false => [tagFalse]
  | .bool true => [tagTrue]
  | .number n => tagNumber :: leBytes 8 n.toBits.toNat
  | .string s => tagString :: encodeVarint (utf8Bytes s).length ++ utf8Bytes s
  | .array arr => tagArray :: encodeVarint arr.length ++ encodeItems arr
  | .object obj => tagObject :: encodeVarint obj.length ++ encodeEntries obj

def encodeItems : List JsonbValue → List UInt8
  | [] => []
  | item :: arr => encodeValue item ++ encodeItems arr

def encodeEntries : List (String × JsonbValue) → List UInt8
  | [] => []
  | (key, val) :: obj =>
    encodeVarint (utf8Bytes key).length ++ utf8Bytes key ++ encodeValue val ++ encodeEntries obj

end

end Encode

section Decode

variable (machine : Machine) (limit : Nat) (data : List UInt8)

def decodeVarintFrom (result shift pos : Nat) : Outcome (Nat × Nat) :=
  if h : pos < data.length then do
    let byte := data[pos]
    let part ← shl machine (byte &&& 0x7F).toNat shift
    if byte &&& 0x80 = 0 then return (result ||| part, pos + 1)
    else decodeVarintFrom (result ||| part) (shift + 7) (pos + 1)
  else return (result, pos)
termination_by data.length - pos

def decodeVarint (pos : Nat) : Outcome (Nat × Nat) := decodeVarintFrom machine data 0 0 pos

section Loops

variable (decode : Nat → Outcome (JsonbValue × Nat))

def decodeItems : Nat → Nat → Outcome (List JsonbValue × Nat)
  | 0, pos => return ([], pos)
  | count + 1, pos => do
    let (item, pos) ← decode pos
    let (arr, pos) ← decodeItems count pos
    return (item :: arr, pos)

/-- A key that runs past the end stops the loop. -/
def decodeEntries : Nat → JsonbObject → Nat → Outcome (JsonbObject × Nat)
  | 0, obj, pos => return (obj, pos)
  | count + 1, obj, pos => do
    let (keyLen, pos) ← decodeVarint machine data pos
    let stop ← add machine pos keyLen
    if stop > data.length then return (obj, pos)
    else
      let key := fromUtf8Lossy (← slice data pos stop)
      let (val, pos) ← decode stop
      decodeEntries count (Entries.insert obj key val) pos

/-- What follows a tag. -/
def decodeTagged (tag : UInt8) (pos : Nat) : Outcome (JsonbValue × Nat) :=
  if tag = tagNull then return (.null, pos)
  else if tag = tagFalse then return (.bool false, pos)
  else if tag = tagTrue then return (.bool true, pos)
  else if tag = tagNumber then do
    let stop ← add machine pos 8
    if stop > data.length then return (.null, pos)
    else
      let bytes ← slice data pos stop
      return (.number (Float.ofBits (UInt64.ofNat (ofLeBytes bytes))), stop)
  else if tag = tagString then do
    let (len, pos) ← decodeVarint machine data pos
    let stop ← add machine pos len
    if stop > data.length then return (.null, pos)
    else
      let bytes ← slice data pos stop
      return (.string (fromUtf8Lossy bytes), stop)
  else if tag = tagArray then do
    let (count, pos) ← decodeVarint machine data pos
    withCapacity limit count
    let (arr, pos) ← decodeItems decode count pos
    return (.array arr, pos)
  else if tag = tagObject then do
    let (count, pos) ← decodeVarint machine data pos
    withCapacity limit count
    let (obj, pos) ← decodeEntries machine data decode count [] pos
    return (.object obj, pos)
  else return (.null, pos)

end Loops

/-- Every value inside another one takes a byte more of the data: their depth is bounded by the
first argument. -/
def decodeValue : Nat → Nat → Outcome (JsonbValue × Nat)
  | 0, _ => .error .depth
  | depth + 1, pos =>
    if h : pos < data.length then decodeTagged machine limit data (decodeValue depth) data[pos] (pos + 1)
    else return (.null, pos)

end Decode

/-- Encoded data as it is stored: no vector is longer than `isize::MAX` bytes. -/
structure JsonbBinary (machine : Machine) where
  data : List UInt8
  length_lt : data.length < 2 ^ (machine.usizeBits - 1)

def JsonbBinary.decode {machine : Machine} (binary : JsonbBinary machine) (limit : Nat) :
    Outcome JsonbValue := do
  let (value, _) ← decodeValue machine limit binary.data (binary.data.length + 1) 0
  return value

section Varints

variable {machine : Machine} {data : List UInt8}

theorem and_0x7F (byte : UInt8) : (byte &&& 0x7F).toNat = byte.toNat % 128 := by
  rw [UInt8.toNat_and]
  exact Nat.and_two_pow_sub_one_eq_mod byte.toNat 7

theorem and_0x80 (byte : UInt8) : byte &&& 0x80 = 0 ↔ byte.toNat < 128 := by
  have hlt := byte.toNat_lt
  rw [← UInt8.toNat_inj, UInt8.toNat_and]
  change byte.toNat &&& 2 ^ 7 = 0 ↔ _
  rw [Nat.and_two_pow, Nat.testBit_eq_decide_div_mod_eq]
  by_cases h : byte.toNat / 2 ^ 7 % 2 = 1
  · simp only [h, decide_true, Bool.toNat_true]
    omega
  · simp only [h, decide_false, Bool.toNat_false]
    omega

theorem or_0x80 (n : Nat) : UInt8.ofNat (n % 128) ||| 0x80 = UInt8.ofNat (n % 128 + 128) := by
  have hor : 128 + n % 128 = 128 ||| n % 128 :=
    Nat.two_pow_add_eq_or_of_lt (Nat.mod_lt n (show 0 < 2 ^ 7 by decide)) 1
  rw [← UInt8.toNat_inj, UInt8.toNat_or, UInt8.toNat_ofNat', UInt8.toNat_ofNat']
  change (n % 128) % 256 ||| 128 = (n % 128 + 128) % 256
  rw [Nat.mod_eq_of_lt (by omega), Nat.or_comm, ← hor]
  omega

theorem encodeVarint_eq (value : Nat) : encodeVarint value = Varint.encode value := by
  induction value using Varint.encode.induct with
  | case1 n h =>
    have hmask : n &&& 0x7F = n % 128 := Nat.and_two_pow_sub_one_eq_mod n 7
    have hshift : n >>> 7 = n / 128 := Nat.shiftRight_eq_div_pow n 7
    rw [encodeVarint, Varint.encode, if_pos h, hmask, hshift, if_neg (not_not.mpr h),
      Nat.mod_eq_of_lt (by omega)]
  | case2 n h ih =>
    have hmask : n &&& 0x7F = n % 128 := Nat.and_two_pow_sub_one_eq_mod n 7
    have hshift : n >>> 7 = n / 128 := Nat.shiftRight_eq_div_pow n 7
    rw [encodeVarint, Varint.encode, if_neg h, hmask, hshift, if_pos h, or_0x80, ih]

/-- Shifting in the next seven bits of a number, bits past the width being lost. -/
theorem or_shl {number shift part : Nat} (hnumber : number < 2 ^ shift)
    (hshift : shift < machine.usizeBits) : ∃ shifted, shl machine part shift = .ok shifted ∧
      number % 2 ^ machine.usizeBits ||| shifted =
        (number + 2 ^ shift * part) % 2 ^ machine.usizeBits := by
  refine ⟨_, if_pos hshift, ?_⟩
  rw [← Nat.or_mod_two_pow, Nat.shiftLeft_eq, Nat.or_comm, Nat.mul_comm part,
    ← Nat.two_pow_add_eq_or_of_lt hnumber, Nat.add_comm]

/-- What is decoded when the bytes spell a number: the last of them must not be shifted past the
width. -/
def spelled (machine : Machine) (number shift pos : Nat) (spelling : Nat × Nat) :
    Outcome (Nat × Nat) :=
  if spelling.2 = 0 ∨ shift + 7 * (spelling.2 - 1) < machine.usizeBits then
    .ok ((number + 2 ^ shift * spelling.1) % 2 ^ machine.usizeBits, pos + spelling.2)
  else .error .shift

theorem spelled_succ {number shift pos part value bytes : Nat} (h : shift < machine.usizeBits) :
    spelled machine (number + 2 ^ shift * part) (shift + 7) (pos + 1) (value, bytes) =
      spelled machine number shift pos (part + 128 * value, bytes + 1) := by
  unfold spelled
  dsimp only
  have hvalue : number + 2 ^ shift * part + 2 ^ (shift + 7) * value =
      number + 2 ^ shift * (part + 128 * value) := by ring
  rw [hvalue, Nat.add_right_comm pos 1 bytes, Nat.add_assoc pos bytes 1]
  refine if_congr ?_ rfl rfl
  omega

theorem decodeVarintFrom_eq {number shift : Nat} (pos : Nat) (hnumber : number < 2 ^ shift) :
    decodeVarintFrom machine data (number % 2 ^ machine.usizeBits) shift pos =
      spelled machine number shift pos (Varint.read (data.drop pos)) := by
  induction hk : data.length - pos using Nat.strong_induction_on generalizing number shift pos with
  | _ k ih =>
    rw [decodeVarintFrom]
    by_cases h : pos < data.length
    · rw [dif_pos h, List.drop_eq_getElem_cons h]
      dsimp only
      generalize hbyte : data[pos] = byte
      simp only [and_0x7F, and_0x80]
      by_cases hshift : shift < machine.usizeBits
      · obtain ⟨shifted, hok, hor⟩ := @or_shl machine _ _ (byte.toNat % 128) hnumber hshift
        rw [hok]
        change (if _ then Except.ok (_ ||| shifted, _) else decodeVarintFrom machine data (_ ||| shifted) _ _) = _
        rw [hor]
        by_cases hlast : byte.toNat < 128
        · rw [if_pos hlast, Varint.read_cons_last hlast, spelled, if_pos (.inr hshift),
            Nat.mod_eq_of_lt hlast]
        · have hnext : number + 2 ^ shift * (byte.toNat % 128) < 2 ^ (shift + 7) := by
            have hpart : 2 ^ shift * (byte.toNat % 128) ≤ 2 ^ shift * 127 :=
              Nat.mul_le_mul_left _ (by omega)
            rw [pow_add]
            omega
          rw [if_neg hlast, Varint.read_cons_more (Nat.not_lt.mp hlast),
            ih _ (by omega) (pos + 1) hnext rfl]
          exact spelled_succ hshift
      · rw [spelled, if_neg, shl, if_neg hshift]
        · rfl
        · have := Varint.read_cons_pos byte (data.drop (pos + 1))
          omega
    · rw [dif_neg h, List.drop_eq_nil_of_le (Nat.not_lt.mp h), spelled, if_pos (.inl rfl)]
      rfl

theorem decodeVarint_eq (pos : Nat) : decodeVarint machine data pos =
    spelled machine 0 0 pos (Varint.read (data.drop pos)) := by
  have h := @decodeVarintFrom_eq machine data 0 0 pos Nat.one_pos
  rwa [Nat.zero_mod] at h

end Varints

section RoundTrip

variable {machine : Machine} {limit : Nat} {data part : List UInt8} {pos : Nat}

theorem pow_pred_lt (machine : Machine) : 2 ^ (machine.usizeBits - 1) + 8 ≤ 2 ^ machine.usizeBits := by
  have hbits := machine.usizeBits_ge
  have hpow : 2 ^ machine.usizeBits = 2 * 2 ^ (machine.usizeBits - 1) := by
    rw [← pow_succ', Nat.sub_add_cancel (by omega)]
  have hlarge : 2 ^ 3 ≤ 2 ^ (machine.usizeBits - 1) := Nat.pow_le_pow_right (by decide) (by omega)
  omega

theorem decodeVarint_at {n : Nat} (hn : n < 2 ^ machine.usizeBits)
    (h : At data pos (encodeVarint n)) :
    decodeVarint machine data pos = .ok (n, pos + (encodeVarint n).length) := by
  obtain ⟨rest, hrest⟩ := h
  have hbits := machine.usizeBits_ge
  have hlength := Varint.encode_length_lt hn (by omega)
  rw [decodeVarint_eq, ← hrest, encodeVarint_eq, Varint.read_encode, spelled,
    if_pos (.inr (by omega)), Nat.zero_add, pow_zero, Nat.one_mul, Nat.mod_eq_of_lt hn]

theorem slice_at (h : At data pos part) (hle : pos + part.length ≤ data.length) :
    slice data pos (pos + part.length) = .ok part := by
  rw [slice, if_pos ⟨Nat.le_add_right _ _, hle⟩, Nat.add_sub_cancel_left, h.take]

theorem add_at (hdata : data.length < 2 ^ (machine.usizeBits - 1)) {len : Nat}
    (hle : pos + len ≤ data.length) : add machine pos len = .ok (pos + len) := by
  have := pow_pred_lt machine
  rw [add, if_pos (by omega)]

/-- The value is decoded wherever its encoding stands. -/
def Decodes (machine : Machine) (limit : Nat) (data : List UInt8) (value : JsonbValue) : Prop :=
  ∀ depth pos, At data pos (encodeValue value) → data.length - pos < depth →
    decodeValue machine limit data depth pos = .ok (value, pos + (encodeValue value).length)

theorem decodeValue_at {tag : UInt8} {depth : Nat} (h : At data pos (tag :: part)) :
    decodeValue machine limit data (depth + 1) pos =
      decodeTagged machine limit data (decodeValue machine limit data depth) tag (pos + 1) := by
  obtain ⟨⟨hlt, htag⟩, -⟩ := Bytes.at_cons h
  rw [decodeValue, dif_pos hlt, htag]

theorem decodes_of_tagged {value : JsonbValue} {tag : UInt8} (henc : encodeValue value = tag :: part)
    (h : ∀ depth pos, At data pos part → data.length - pos < depth →
      decodeTagged machine limit data (decodeValue machine limit data depth) tag pos =
        .ok (value, pos + part.length)) : Decodes machine limit data value := by
  intro depth pos hat hdepth
  rw [henc] at hat ⊢
  obtain ⟨⟨hlt, -⟩, hpart⟩ := Bytes.at_cons hat
  obtain ⟨depth, rfl⟩ : ∃ d, depth = d + 1 := ⟨depth - 1, by omega⟩
  rw [decodeValue_at hat, h depth (pos + 1) hpart (by omega), List.length_cons]
  congr 2
  omega

variable (hdata : data.length < 2 ^ (machine.usizeBits - 1))
include hdata

theorem decodes_number (n : Float) : Decodes machine limit data (.number n) := by
  refine decodes_of_tagged rfl fun depth pos hat hdepth => ?_
  have hle := hat.length_le (by rw [ne_eq, ← List.length_eq_zero_iff, Bytes.length_leBytes]; decide)
  have hslice := slice_at hat hle
  rw [Bytes.length_leBytes] at hle hslice ⊢
  have hnumber : Float.ofBits (UInt64.ofNat (ofLeBytes (leBytes 8 n.toBits.toNat))) = n := by
    rw [Bytes.ofLeBytes_of_lt n.toBits.toNat_lt, UInt64.ofNat_toNat, Float.ofBits_toBits]
  change (add machine pos 8).bind _ = _
  rw [add_at hdata hle]
  change (if pos + 8 > data.length then _ else _) = _
  rw [if_neg (Nat.not_lt.mpr hle), hslice]
  change Except.ok (JsonbValue.number _, pos + 8) = _
  rw [hnumber]

/-- A length or a count in front of what is that long at least. -/
theorem decodeVarint_front {n : Nat} (h : At data pos (encodeVarint n ++ part))
    (hn : n ≤ part.length) :
    decodeVarint machine data pos = .ok (n, pos + (encodeVarint n).length) ∧
      At data (pos + (encodeVarint n).length) part ∧
      pos + (encodeVarint n).length + part.length ≤ data.length := by
  have hle := h.length_le (List.append_ne_nil_of_left_ne_nil
    (encodeVarint_eq n ▸ Varint.encode_ne_nil n) part)
  rw [List.length_append] at hle
  have hpow := pow_pred_lt machine
  exact ⟨decodeVarint_at (by omega) h.left, h.right, by omega⟩

omit hdata in
theorem encodeValue_string (s : String) : encodeValue (.string s) =
    tagString :: (encodeVarint (utf8Bytes s).length ++ utf8Bytes s) := rfl

omit hdata in
theorem encodeValue_array (items : List JsonbValue) : encodeValue (.array items) =
    tagArray :: (encodeVarint items.length ++ encodeItems items) := rfl

omit hdata in
theorem encodeValue_object (obj : JsonbObject) : encodeValue (.object obj) =
    tagObject :: (encodeVarint obj.length ++ encodeEntries obj) := rfl

theorem decodes_string (s : String) : Decodes machine limit data (.string s) := by
  refine decodes_of_tagged (encodeValue_string s) fun depth pos hat hdepth => ?_
  obtain ⟨hlen, hpart, hle⟩ := @decodeVarint_front machine _ _ _ hdata _ hat le_rfl
  change (decodeVarint machine data pos).bind _ = _
  rw [hlen]
  change (add machine _ _).bind _ = _
  rw [add_at hdata hle]
  change (if _ + _ > data.length then _ else _) = _
  rw [if_neg (Nat.not_lt.mpr hle), slice_at hpart hle]
  change Except.ok (JsonbValue.string (fromUtf8Lossy (utf8Bytes s)), _) = _
  rw [fromUtf8Lossy_utf8Bytes, List.length_append, Nat.add_assoc]

omit hdata in
theorem decodeItems_at {decode : Nat → Outcome (JsonbValue × Nat)} {items : List JsonbValue}
    (hdecode : ∀ item ∈ items, ∀ next, pos ≤ next → At data next (encodeValue item) →
      decode next = .ok (item, next + (encodeValue item).length))
    (h : At data pos (encodeItems items)) :
    decodeItems decode items.length pos = .ok (items, pos + (encodeItems items).length) := by
  induction items generalizing pos with
  | nil => rfl
  | cons item items ih =>
    rw [encodeItems] at h ⊢
    rw [List.length_cons, decodeItems, hdecode item List.mem_cons_self pos le_rfl h.left]
    change (decodeItems decode items.length (pos + (encodeValue item).length)).bind _ = _
    rw [ih (fun other hother next hnext => hdecode other (List.mem_cons_of_mem _ hother) next
      ((Nat.le_add_right _ _).trans hnext)) h.right]
    change Except.ok (item :: items, _) = _
    rw [List.length_append, Nat.add_assoc]

theorem decodeEntries_at {decode : Nat → Outcome (JsonbValue × Nat)} {obj rest : JsonbObject}
    (hdecode : ∀ entry ∈ rest, ∀ next, pos ≤ next → At data next (encodeValue entry.2) →
      decode next = .ok (entry.2, next + (encodeValue entry.2).length))
    (h : At data pos (encodeEntries rest)) (hsorted : JsonbObject.Sorted (obj ++ rest)) :
    decodeEntries machine data decode rest.length obj pos =
      .ok (obj ++ rest, pos + (encodeEntries rest).length) := by
  induction rest generalizing pos obj with
  | nil =>
    rw [List.append_nil]
    rfl
  | cons entry rest ih =>
    obtain ⟨key, val⟩ := entry
    rw [encodeEntries, List.append_assoc, List.append_assoc] at h
    obtain ⟨hlen, hpart, -⟩ := @decodeVarint_front machine _ _ _ hdata _ h
      (by rw [List.length_append]; omega)
    have hkeyAt := hpart.left
    have hle : pos + (encodeVarint (utf8Bytes key).length).length + (utf8Bytes key).length ≤
        data.length := by
      have := h.length_le (List.append_ne_nil_of_left_ne_nil
        (encodeVarint_eq _ ▸ Varint.encode_ne_nil _) _)
      rw [List.length_append, List.length_append] at this
      omega
    have hvalAt := hpart.right.left
    have hrestAt := hpart.right.right
    have hval := hdecode (key, val) List.mem_cons_self _ (by omega) hvalAt
    have hinsert : Entries.insert obj key val = obj ++ [(key, val)] := by
      have hparts := List.pairwise_append.mp hsorted
      rw [Entries.insert_eq hparts.1]
      have hbefore := @Entries.insert_append key val obj [] fun other hother =>
        hparts.2.2 other hother _ List.mem_cons_self
      rwa [List.append_nil] at hbefore
    rw [List.length_cons, decodeEntries, hlen]
    change (add machine _ _).bind _ = _
    rw [add_at hdata hle]
    change (if _ + _ > data.length then _ else _) = _
    rw [if_neg (Nat.not_lt.mpr hle), slice_at hkeyAt hle]
    change (decode _).bind _ = _
    rw [hval]
    change decodeEntries machine data decode rest.length (Entries.insert obj (fromUtf8Lossy _) val) _ = _
    rw [fromUtf8Lossy_utf8Bytes, hinsert,
      ih (fun other hother next hnext => hdecode other (List.mem_cons_of_mem _ hother) next (by omega))
        hrestAt (by rwa [List.append_assoc]), List.append_assoc]
    refine congrArg Except.ok (Prod.ext rfl ?_)
    simp only [encodeEntries, List.length_append]
    omega

omit hdata in
theorem encodeValue_pos (value : JsonbValue) : 0 < (encodeValue value).length := by
  cases value with
  | bool b => cases b <;> exact Nat.succ_pos _
  | _ => exact Nat.succ_pos _

omit hdata in
theorem length_le_encodeItems (items : List JsonbValue) : items.length ≤ (encodeItems items).length := by
  induction items with
  | nil => exact le_rfl
  | cons item items ih =>
    have := encodeValue_pos item
    rw [encodeItems, List.length_append, List.length_cons]
    omega

omit hdata in
theorem length_le_encodeEntries (obj : JsonbObject) : obj.length ≤ (encodeEntries obj).length := by
  induction obj with
  | nil => exact le_rfl
  | cons entry obj ih =>
    have := encodeValue_pos entry.2
    rw [encodeEntries, List.length_append, List.length_append, List.length_cons]
    omega

theorem decodes_array {items : List JsonbValue} (hlimit : data.length ≤ limit)
    (h : ∀ item ∈ items, Decodes machine limit data item) :
    Decodes machine limit data (.array items) := by
  refine decodes_of_tagged (encodeValue_array items) fun depth pos hat hdepth => ?_
  have hcount := length_le_encodeItems items
  obtain ⟨hlen, hpart, hle⟩ := @decodeVarint_front machine _ _ _ hdata _ hat hcount
  change (decodeVarint machine data pos).bind _ = _
  rw [hlen]
  change (withCapacity limit items.length).bind _ = _
  rw [withCapacity, if_pos (by omega)]
  change (decodeItems _ items.length _).bind _ = _
  rw [decodeItems_at (fun item hitem next hnext hat => h item hitem depth next hat (by omega)) hpart]
  change Except.ok (JsonbValue.array items, _) = _
  rw [List.length_append, Nat.add_assoc]

theorem decodes_object {obj : JsonbObject} (hlimit : data.length ≤ limit) (hsorted : obj.Sorted)
    (h : ∀ entry ∈ obj, Decodes machine limit data entry.2) :
    Decodes machine limit data (.object obj) := by
  refine decodes_of_tagged (encodeValue_object obj) fun depth pos hat hdepth => ?_
  have hcount := length_le_encodeEntries obj
  obtain ⟨hlen, hpart, hle⟩ := @decodeVarint_front machine _ _ _ hdata _ hat hcount
  change (decodeVarint machine data pos).bind _ = _
  rw [hlen]
  change (withCapacity limit obj.length).bind _ = _
  rw [withCapacity, if_pos (by omega)]
  change (decodeEntries machine data _ obj.length [] _).bind _ = _
  rw [@decodeEntries_at machine _ _ hdata _ [] obj
    (fun entry hentry next hnext hat => h entry hentry depth next hat (by omega)) hpart hsorted]
  change Except.ok (JsonbValue.object obj, _) = _
  rw [List.length_append, Nat.add_assoc]

/-- Every value is decoded wherever its encoding stands. -/
theorem decodes (hlimit : data.length ≤ limit) {value : JsonbValue} (hsorted : value.Sorted) :
    Decodes machine limit data value := by
  induction value using JsonbValue.induction with
  | null => exact decodes_of_tagged rfl fun depth pos hat hdepth => rfl
  | bool b => cases b <;> exact decodes_of_tagged rfl fun depth pos hat hdepth => rfl
  | number n => exact decodes_number hdata n
  | string s => exact decodes_string hdata s
  | array items ih =>
    exact decodes_array hdata hlimit fun item hitem => ih item hitem (hsorted.item hitem)
  | object obj ih =>
    exact decodes_object hdata hlimit hsorted.object
      fun entry hentry => ih entry hentry (hsorted.entry hentry)

end RoundTrip

section Codec

variable {machine : Machine}

theorem decode_encodeValue {value : JsonbValue} (hsorted : value.Sorted) (binary : JsonbBinary machine)
    (hdata : binary.data = encodeValue value) {limit : Nat} (hlimit : binary.data.length ≤ limit) :
    decodeValue machine limit binary.data (binary.data.length + 1) 0 =
      .ok (value, binary.data.length) := by
  have h := decodes binary.length_lt hlimit hsorted (binary.data.length + 1) 0
    (hdata ▸ List.prefix_rfl) (by omega)
  rw [h, Nat.zero_add, hdata]

/-- What is encoded is decoded to its last byte, and nothing else has that encoding. -/
theorem jsonbBinary_roundTrip {value : JsonbValue} (hsorted : value.Sorted) (binary : JsonbBinary machine)
    (hdata : binary.data = encodeValue value) {limit : Nat} (hlimit : binary.data.length ≤ limit) :
    decodeValue machine limit binary.data (binary.data.length + 1) 0 =
        .ok (value, binary.data.length) ∧
      binary.decode limit = .ok value ∧
      ∀ other : JsonbValue, other.Sorted → encodeValue other = encodeValue value → other = value := by
  have hvalue := decode_encodeValue hsorted binary hdata hlimit
  refine ⟨hvalue, ?_, fun other hother hencode => ?_⟩
  · rw [JsonbBinary.decode, hvalue]
    rfl
  · have hother := decode_encodeValue hother binary (hdata.trans hencode.symm) hlimit
    rw [hvalue] at hother
    exact (Prod.mk.inj (Except.ok.inj hother)).1.symm

/-- `{"a":[null]}`. -/
theorem jsonbBinary_roundTrip_entries :
    @JsonbBinary.decode ⟨32, by decide⟩ ⟨[6, 1, 1, 97, 5, 1, 0], by decide⟩ 7 =
      .ok (.object [("a", .array [.null])]) := by
  have hsorted : (JsonbValue.object [("a", .array [.null])]).Sorted := JsonbValue.sorted_object.mpr
    ⟨List.pairwise_singleton _ _, List.forall_mem_singleton.mpr
      (JsonbValue.sorted_array.mpr (List.forall_mem_singleton.mpr JsonbValue.sorted_null))⟩
  have hencode : [6, 1, 1, 97, 5, 1, 0] = encodeValue (.object [("a", .array [.null])]) := by
    have hone : encodeVarint 1 = [1] := by
      rw [encodeVarint_eq, Varint.encode_of_lt (by decide)]
      rfl
    have hkey : utf8Bytes "a" = [97] := by decide
    rw [encodeValue_object, encodeEntries, encodeValue_array, hkey, List.length_singleton,
      List.length_singleton, List.length_singleton, hone]
    rfl
  exact (jsonbBinary_roundTrip hsorted ⟨_, _⟩ hencode le_rfl).2.1

end Codec

end Cynos.Jsonb
