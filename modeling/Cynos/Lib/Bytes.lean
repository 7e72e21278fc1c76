import Mathlib.Algebra.Ring.Nat
import Mathlib.Data.BitVec
import Mathlib.Data.List.Infix
import Mathlib.Data.Nat.Log

/-! Byte buffers: texts as UTF-8, numbers with the lowest byte first, and what stands at
an offset of a buffer. -/
namespace Cynos.Bytes

section Texts

def utf8Bytes (s : String) : List UInt8 := s.toList.flatMap String.utf8EncodeChar

def ofUtf8? (bytes : List UInt8) : Option String := String.fromUTF8? bytes.toByteArray

theorem toByteArray_utf8Bytes (s : String) : (utf8Bytes s).toByteArray = s.toByteArray :=
  String.utf8Encode_toList

@[simp] theorem ofUtf8?_utf8Bytes (s : String) : ofUtf8? (utf8Bytes s) = some s := by
  unfold ofUtf8? String.fromUTF8?
  rw [dif_pos (toByteArray_utf8Bytes s ▸ s.isValidUTF8)]
  exact congrArg some (String.toByteArray_inj.mp (toByteArray_utf8Bytes s))

theorem utf8Bytes_of_ofUtf8? {bytes : List UInt8} {s : String} (h : ofUtf8? bytes = some s) :
    utf8Bytes s = bytes := by
  unfold ofUtf8? String.fromUTF8? at h
  split_ifs at h with hvalid
  rw [← List.toByteArray_inj, toByteArray_utf8Bytes, ← Option.some.inj h]
  rfl

/-- A byte of ASCII in front is the first character. -/
theorem toNat_of_head_utf8Bytes {c : Char} {rest : List Char} {byte : UInt8} {bytes : List UInt8}
    (h : (c :: rest).flatMap String.utf8EncodeChar = byte :: bytes) (hbyte : byte.toNat < 128) :
    c.toNat = byte.toNat := by
  rw [List.flatMap_cons, String.utf8EncodeChar.eq_def] at h
  dsimp only at h
  split_ifs at h <;>
  · rw [← (List.cons.inj h).1] at hbyte ⊢
    rw [UInt8.toNat_ofNat'] at hbyte ⊢
    change c.val.toNat = _
    omega

@[simp] theorem utf8Bytes_eq_nil {s : String} : utf8Bytes s = [] ↔ s = "" := by
  refine ⟨fun h => ?_, fun h => h ▸ rfl⟩
  rw [← String.toByteArray_inj, ← toByteArray_utf8Bytes, h]
  rfl

end Texts

section Numbers

/-- The bytes of a number, lowest first. -/
def leBytes (width n : Nat) : List UInt8 :=
  (List.range width).map fun i => UInt8.ofNat (n / 256 ^ i)

def ofLeBytes : List UInt8 → Nat
  | [] => 0
  | byte :: bytes => byte.toNat + 256 * ofLeBytes bytes

@[simp] theorem length_leBytes (width n : Nat) : (leBytes width n).length = width := by
  simp [leBytes]

theorem leBytes_succ (width n : Nat) :
    leBytes (width + 1) n = UInt8.ofNat n :: leBytes width (n / 256) := by
  unfold leBytes
  rw [List.range_succ_eq_map, List.map_cons, List.map_map, pow_zero, Nat.div_one]
  congr 1
  apply List.map_congr_left
  intro i _
  change UInt8.ofNat (n / 256 ^ (i + 1)) = _
  rw [pow_succ', Nat.div_div_eq_div_mul]

theorem ofLeBytes_leBytes (width n : Nat) : ofLeBytes (leBytes width n) = n % 256 ^ width := by
  induction width generalizing n with
  | zero => rw [pow_zero, Nat.mod_one]; rfl
  | succ width ih =>
    rw [leBytes_succ, ofLeBytes, ih, pow_succ', Nat.mod_mul, UInt8.toNat_ofNat']

theorem ofLeBytes_of_lt {width n : Nat} (h : n < 256 ^ width) :
    ofLeBytes (leBytes width n) = n := by
  rw [ofLeBytes_leBytes, Nat.mod_eq_of_lt h]

end Numbers

section Offsets

/-- The bytes from an offset on begin with `part`. -/
def At (bytes : List UInt8) (offset : Nat) (part : List UInt8) : Prop :=
  part <+: bytes.drop offset

/-- The bytes from `start` on are still where they were. -/
def Keeps (start : Nat) (bytes other : List UInt8) : Prop :=
  ∀ i, start ≤ i → ∀ byte, bytes[i]? = some byte → other[i]? = some byte

variable {bytes other part : List UInt8} {start offset : Nat}

theorem At.take (h : At bytes offset part) : (bytes.drop offset).take part.length = part :=
  (List.prefix_iff_eq_take.mp h).symm

theorem At.length_le (h : At bytes offset part) (hpart : part ≠ []) :
    offset + part.length ≤ bytes.length := by
  have hle := List.IsPrefix.length_le h
  have hpos := List.length_pos_iff.mpr hpart
  rw [List.length_drop] at hle
  omega

theorem at_append (init part : List UInt8) : At (init ++ part) init.length part := by
  unfold At
  rw [List.drop_left]

theorem At.left {first second : List UInt8} (h : At bytes offset (first ++ second)) :
    At bytes offset first := (List.prefix_append _ _).trans h

theorem At.right {first second : List UInt8} (h : At bytes offset (first ++ second)) :
    At bytes (offset + first.length) second := by
  obtain ⟨rest, hrest⟩ := h
  unfold At
  rw [← List.drop_drop, ← hrest, List.append_assoc, List.drop_left]
  exact List.prefix_append _ _

theorem at_cons {byte : UInt8} (h : At bytes offset (byte :: part)) :
    (∃ hlt : offset < bytes.length, bytes[offset] = byte) ∧ At bytes (offset + 1) part := by
  have hlt : offset < bytes.length := by
    have := h.length_le (List.cons_ne_nil _ _)
    rw [List.length_cons] at this
    omega
  refine ⟨⟨hlt, ?_⟩, @At.right bytes offset [byte] part h⟩
  obtain ⟨rest, hrest⟩ := h
  rw [List.drop_eq_getElem_cons hlt] at hrest
  exact (List.cons.inj hrest).1.symm

/-- Moving a buffer moves what stands in it. -/
theorem At.prepend (h : At bytes offset part) (init : List UInt8) :
    At (init ++ bytes) (init.length + offset) part := by
  unfold At
  rwa [← List.drop_drop, List.drop_left]

theorem Keeps.refl (start : Nat) (bytes : List UInt8) : Keeps start bytes bytes :=
  fun _ _ _ h => h

theorem Keeps.trans {third : List UInt8} (h : Keeps start bytes other)
    (h' : Keeps start other third) : Keeps start bytes third :=
  fun i hi byte hbyte => h' i hi byte (h i hi byte hbyte)

theorem Keeps.mono {later : Nat} (h : Keeps start bytes other) (hle : start ≤ later) :
    Keeps later bytes other := fun i hi => h i (hle.trans hi)

theorem keeps_append (start : Nat) (bytes rest : List UInt8) :
    Keeps start bytes (bytes ++ rest) := by
  intro i _ byte h
  rw [List.getElem?_append_left (List.getElem?_eq_some_iff.mp h).1, h]

theorem keeps_modify (bytes : List UInt8) (i : Nat) (f : UInt8 → UInt8) :
    Keeps (i + 1) bytes (bytes.modify i f) := by
  intro j hj byte h
  rw [List.getElem?_modify, h, Option.map_eq_map, Option.map_some, if_neg (Nat.ne_of_lt hj)]

theorem keeps_of_drop_eq (h : other.drop start = bytes.drop start) : Keeps start bytes other := by
  intro i hi byte hbyte
  obtain ⟨k, rfl⟩ := Nat.exists_eq_add_of_le hi
  rw [← List.getElem?_drop, h, List.getElem?_drop, hbyte]

theorem At.keeps (h : At bytes offset part) (hkeeps : Keeps start bytes other)
    (hle : start ≤ offset) : At other offset part := by
  unfold At at h ⊢
  rw [List.prefix_iff_getElem?] at h ⊢
  intro i hi
  have hbyte := h i hi
  rw [List.getElem?_drop] at hbyte ⊢
  exact hkeeps _ (hle.trans (Nat.le_add_right _ _)) _ hbyte

end Offsets

end Cynos.Bytes
