import Mathlib.Algebra.Order.Ring.Nat
import Mathlib.Data.Nat.Bitwise
import Mathlib.Tactic.Ring

/-! Numbers in bytes of seven bits, the lowest first: the high bit of a byte says that another
one follows. -/
namespace Cynos.Varint

def encode (n : Nat) : List UInt8 :=
  if n / 128 = 0 then [UInt8.ofNat n]
  else UInt8.ofNat (n % 128 + 128) :: encode (n / 128)
termination_by n

/-- The number that the bytes spell up to the first one after which none follows, and how many
they are. Bytes that break off spell what is there. -/
def read : List UInt8 → Nat × Nat
  | [] => (0, 0)
  | byte :: rest =>
    if byte.toNat < 128 then (byte.toNat, 1)
    else (byte.toNat % 128 + 128 * (read rest).1, (read rest).2 + 1)

theorem encode_of_lt {n : Nat} (h : n < 128) : encode n = [UInt8.ofNat n] := by
  rw [encode, if_pos (Nat.div_eq_of_lt h)]

theorem encode_of_le {n : Nat} (h : 128 ≤ n) :
    encode n = UInt8.ofNat (n % 128 + 128) :: encode (n / 128) := by
  rw [encode, if_neg]
  omega

theorem encode_ne_nil (n : Nat) : encode n ≠ [] := by
  rw [encode]
  split <;> exact List.cons_ne_nil _ _

theorem read_cons_last {byte : UInt8} {rest : List UInt8} (h : byte.toNat < 128) :
    read (byte :: rest) = (byte.toNat, 1) := by
  rw [read, if_pos h]

theorem read_cons_more {byte : UInt8} {rest : List UInt8} (h : 128 ≤ byte.toNat) :
    read (byte :: rest) = (byte.toNat % 128 + 128 * (read rest).1, (read rest).2 + 1) := by
  rw [read, if_neg (Nat.not_lt.mpr h)]

theorem read_cons_pos (byte : UInt8) (rest : List UInt8) : 0 < (read (byte :: rest)).2 := by
  rw [read]
  split
  · exact Nat.one_pos
  · exact Nat.succ_pos _

/-- Whatever stands behind it, a number is read back. -/
theorem read_encode (n : Nat) (rest : List UInt8) :
    read (encode n ++ rest) = (n, (encode n).length) := by
  induction n using encode.induct with
  | case1 n h =>
    have hbyte : (UInt8.ofNat n).toNat = n := by
      rw [UInt8.toNat_ofNat']
      omega
    rw [encode, if_pos h, List.singleton_append, read_cons_last (by omega), hbyte]
    rfl
  | case2 n h ih =>
    have hbyte : (UInt8.ofNat (n % 128 + 128)).toNat = n % 128 + 128 := by
      rw [UInt8.toNat_ofNat']
      omega
    rw [encode, if_neg h, List.cons_append, read_cons_more (by omega), ih, hbyte, List.length_cons]
    refine Prod.ext ?_ rfl
    change (n % 128 + 128) % 128 + 128 * (n / 128) = n
    omega

theorem read_length_le (bytes : List UInt8) : (read bytes).2 ≤ bytes.length := by
  induction bytes with
  | nil => exact le_rfl
  | cons byte rest ih =>
    by_cases h : byte.toNat < 128
    · rw [read_cons_last h]
      exact Nat.le_add_left 1 _
    · rw [read_cons_more (Nat.not_lt.mp h)]
      exact Nat.succ_le_succ ih

/-- A number of few bits has few bytes: the last one is not shifted past them. -/
theorem encode_length_lt {n bits : Nat} (h : n < 2 ^ bits) (hbits : 0 < bits) :
    7 * ((encode n).length - 1) < bits := by
  induction n using encode.induct generalizing bits with
  | case1 n hn =>
    rw [encode, if_pos hn]
    exact hbits
  | case2 n hn ih =>
    have hlarge : 2 ^ 7 ≤ n := by omega
    have hseven : 7 < bits := (Nat.pow_lt_pow_iff_right (by decide)).mp (hlarge.trans_lt h)
    have hdiv : n / 128 < 2 ^ (bits - 7) := by
      refine Nat.div_lt_of_lt_mul ?_
      rwa [show 128 = 2 ^ 7 by rfl, ← pow_add, Nat.add_sub_cancel' (Nat.le_of_lt hseven)]
    have hrest := ih hdiv (Nat.sub_pos_of_lt hseven)
    have hlength := List.length_pos_iff.mpr (encode_ne_nil (n / 128))
    rw [encode, if_neg hn, List.length_cons]
    omega

end Cynos.Varint
