import Mathlib

/-! Double precision numbers: their bits, the numbers they stand for, and conversions from and to
integers. -/
namespace Cynos.Binary64

open Float.Model (Format UnpackedFloat totalExponent)
open Float.Model.UnpackedFloat (Sign packComponents unpackSign unpackExponent unpackMantissa
  unpackMantissa_packComponents unpackExponent_packComponents ExtendedMantissa Accuracy
  shiftToExponent shiftToTargetExponent decreaseExponent roundWithAccuracy roundToInt)

section Bits

theorem toNat_one_append (m : BitVec 52) : (1#1 ++ m).toNat = 2 ^ 52 + m.toNat := by
  rw [BitVec.toNat_append, ← Nat.shiftLeft_add_eq_or_of_lt m.isLt]
  rfl

theorem log2_one_append (m : BitVec 52) : (1#1 ++ m).toNat.log2 = 52 := by
  have h := m.isLt
  rw [toNat_one_append]
  exact (Nat.log2_eq_iff (by omega)).mpr ⟨by omega, by omega⟩

variable {s : Sign}

/-- The biased exponent of a normal number. -/
theorem biasedExponent (n : Nat) : (((n : Int) - 1075) + Format.binary64.exponentBias +
    Format.binary64.mantissaBitsWithoutImplicit).toNat = n := by
  change (((n : Int) - 1075) + (1023 : Nat) + (52 : Nat)).toNat = n
  omega

theorem pack_normal (e : BitVec 11) (m : BitVec 52) (he : e ≠ -1#_)
    (hm : 0 < (1#1 ++ m).toNat) :
    UnpackedFloat.pack Format.binary64 (.finite s (1#1 ++ m).toNat ((e.toNat : Int) - 1075) hm) =
      packComponents Format.binary64 s e m := by
  have hlt : e.toNat + 1 < 2 ^ 11 := by
    have := e.isLt
    have : e.toNat ≠ 2047 := fun h => he (BitVec.eq_of_toNat_eq (h.trans rfl))
    omega
  rw [UnpackedFloat.pack]
  dsimp only
  rw [biasedExponent, if_neg (Nat.not_le.mpr hlt), if_pos (by rw [log2_one_append]; rfl),
    BitVec.ofNat_toNat, BitVec.setWidth_eq]
  congr 1
  apply BitVec.eq_of_toNat_eq
  rw [BitVec.toNat_ofNat, toNat_one_append, Nat.add_mod_left, Nat.mod_eq_of_lt m.isLt]

theorem pack_eq {m n : Nat} {e : BitVec 11} {b : BitVec 52} (hb : (1#1 ++ b).toNat = m)
    (he : e.toNat = n) (hones : e ≠ -1#_) (hm : 0 < m) :
    UnpackedFloat.pack Format.binary64 (.finite s m ((n : Int) - 1075) hm) =
      packComponents Format.binary64 s e b := by
  subst hb he
  exact pack_normal e b hones hm

theorem unpack_normal {p : BitVec Format.binary64.numBits} {m n : Nat}
    (hb : (1#1 ++ unpackMantissa p).toNat = m) (he : (unpackExponent p).toNat = n)
    (hones : unpackExponent p ≠ -1#_) (hzero : unpackExponent p ≠ 0#_) (hm : 0 < m) :
    UnpackedFloat.unpack Format.binary64 p =
      .finite (Sign.ofBitVec (unpackSign p)) m ((n : Int) - 1075) hm := by
  subst hb he
  unfold UnpackedFloat.unpack
  dsimp only
  rw [if_neg hones, if_neg hzero]
  rfl

theorem unpack_pack_normal {m : Nat} {e : Int} (hlow : 2 ^ 52 ≤ m) (hhigh : m < 2 ^ 53)
    (hmin : -1074 ≤ e) (hmax : e ≤ 971) (hm : 0 < m) :
    UnpackedFloat.unpack Format.binary64 (UnpackedFloat.pack Format.binary64 (.finite s m e hm)) =
      .finite s m e hm := by
  obtain ⟨n, hn⟩ : ∃ n : Nat, e = (n : Int) - 1075 := ⟨(e + 1075).toNat, by omega⟩
  subst hn
  have hexp : (BitVec.ofNat 11 n).toNat = n := by
    rw [BitVec.toNat_ofNat]
    omega
  have hmantissa : (1#1 ++ BitVec.ofNat 52 m).toNat = m := by
    rw [toNat_one_append, BitVec.toNat_ofNat]
    omega
  have hones : BitVec.ofNat 11 n ≠ -1#_ := fun h => by
    have := congrArg BitVec.toNat h
    rw [hexp] at this
    change n = 2047 at this
    omega
  have hzero : BitVec.ofNat 11 n ≠ 0#_ := fun h => by
    have := congrArg BitVec.toNat h
    rw [hexp] at this
    change n = 0 at this
    omega
  have hsign : Sign.ofBitVec (unpackSign (packComponents Format.binary64 s (BitVec.ofNat 11 n)
      (BitVec.ofNat 52 m))) = s := by
    rw [UnpackedFloat.unpackSign_packComponents, UnpackedFloat.Sign.ofBitVec_toBitVec]
  rw [pack_eq hmantissa hexp hones hm]
  generalize hp :
    packComponents Format.binary64 s (BitVec.ofNat 11 n) (BitVec.ofNat 52 m) = p at hsign
  have he : unpackExponent p = BitVec.ofNat 11 n := hp ▸ unpackExponent_packComponents
  have hb : unpackMantissa p = BitVec.ofNat 52 m := hp ▸ unpackMantissa_packComponents
  rw [← he] at hexp hones hzero
  rw [← hb] at hmantissa
  rw [unpack_normal hmantissa hexp hones hzero hm, hsign]

end Bits

section Round

/-- The number that a float stands for. -/
def exact : UnpackedFloat → Option ℚ
  | .finite s m e _ => some ((s.apply m : ℚ) * 2 ^ e)
  | .zero _ => some 0
  | _ => none

variable {s : Sign} {m k : Nat}

theorem targetExponent_eq {e : Int} (h : -1000 ≤ e) :
    Format.binary64.targetExponent (totalExponent m e) = m.log2 + e - 52 := by
  unfold Format.targetExponent totalExponent
  have hmin : Format.binary64.minExponent = -1074 := rfl
  have hbits : (Format.binary64.mantissaBits : Int) = 53 := rfl
  rw [hmin, hbits, max_eq_left (by omega)]
  omega

theorem shiftRight_succ (em : ExtendedMantissa) (k : Nat) :
    em >>> (k + 1) = (em >>> k).shiftRightOne := rfl

theorem shiftRight_mantissa (m k : Nat) :
    ((⟨m, false, false⟩ : ExtendedMantissa) >>> k).mantissa = m / 2 ^ k := by
  induction k with
  | zero => exact (Nat.div_one m).symm
  | succ k ih =>
    rw [shiftRight_succ, ExtendedMantissa.shiftRightOne, ih, pow_succ, Nat.div_div_eq_div_mul]

/-- No bit is lost when the shift is even. -/
theorem shiftRight_exact (h : 2 ^ k ∣ m) :
    (⟨m, false, false⟩ : ExtendedMantissa) >>> k = ⟨m / 2 ^ k, false, false⟩ := by
  induction k with
  | zero => rw [pow_zero, Nat.div_one]; rfl
  | succ k ih =>
    rw [shiftRight_succ, ih ((pow_dvd_pow 2 (Nat.le_succ k)).trans h),
      ExtendedMantissa.shiftRightOne, pow_succ, Nat.div_div_eq_div_mul]
    have heven : m / 2 ^ k % 2 = 0 := by
      obtain ⟨c, rfl⟩ := h
      rw [pow_succ, Nat.mul_assoc, Nat.mul_div_cancel_left _ (Nat.two_pow_pos k), Nat.mul_mod_right]
    rw [heven]
    rfl

theorem roundedMantissa_cases (em : ExtendedMantissa) :
    em.roundedMantissa = em.mantissa ∨ em.roundedMantissa = em.mantissa + 1 := by
  obtain ⟨m, round, sticky⟩ := em
  cases round <;> cases sticky
  · exact .inl rfl
  · exact .inl rfl
  · change m + m % 2 = m ∨ m + m % 2 = m + 1
    omega
  · exact .inr rfl

theorem shiftToTargetExponent_eq {e : Int} (h : -1000 ≤ e) :
    shiftToTargetExponent Format.binary64 m e .exact =
      ((⟨m, false, false⟩ : ExtendedMantissa) >>> (m.log2 - 52), e + (m.log2 - 52 : Nat)) := by
  have hshift : (Format.binary64.targetExponent (totalExponent m e) - e).toNat = m.log2 - 52 := by
    rw [targetExponent_eq h]
    omega
  unfold shiftToTargetExponent shiftToExponent
  dsimp only
  rw [hshift]
  rfl

theorem finite_congr {m m' : Nat} {e e' : Int} (hm : m = m') (he : e = e') (hpos : 0 < m)
    (hpos' : 0 < m') : UnpackedFloat.finite s m e hpos = .finite s m' e' hpos' := by
  subst hm he
  rfl

/-- The mantissa is cut to 53 bits and rounded, and cut once more if it grew. -/
theorem roundWithAccuracy_eq {e : Int} {r : Nat} (he : -1000 ≤ e)
    (hr : ((⟨m, false, false⟩ : ExtendedMantissa) >>> (m.log2 - 52)).roundedMantissa = r)
    (hpos : 0 < r / 2 ^ (r.log2 - 52)) :
    roundWithAccuracy Format.binary64 s m e .exact =
      .finite s (r / 2 ^ (r.log2 - 52)) (e + (m.log2 - 52 : Nat) + (r.log2 - 52 : Nat)) hpos := by
  have hmantissa := shiftRight_mantissa r (r.log2 - 52)
  unfold roundWithAccuracy
  rw [shiftToTargetExponent_eq he]
  dsimp only
  rw [hr, shiftToTargetExponent_eq (by omega)]
  dsimp only
  rw [dif_neg (by omega)]
  exact finite_congr hmantissa rfl _ _

theorem log2_of_bits (hlow : 2 ^ 52 ≤ m) (hhigh : m < 2 ^ 53) : m.log2 = 52 :=
  (Nat.log2_eq_iff (by omega)).mpr ⟨hlow, hhigh⟩

theorem shifted_bits (hm : 0 < m) (hlog : m.log2 ≤ 52) :
    2 ^ 52 ≤ m * 2 ^ (52 - m.log2) ∧ m * 2 ^ (52 - m.log2) < 2 ^ 53 := by
  constructor
  · calc 2 ^ 52 = 2 ^ m.log2 * 2 ^ (52 - m.log2) := by rw [← pow_add, Nat.add_sub_cancel' hlog]
      _ ≤ m * 2 ^ (52 - m.log2) := Nat.mul_le_mul_right _ (Nat.log2_self_le (by omega))
  · calc m * 2 ^ (52 - m.log2) < 2 ^ (m.log2 + 1) * 2 ^ (52 - m.log2) :=
        Nat.mul_lt_mul_of_pos_right Nat.lt_log2_self (Nat.two_pow_pos _)
      _ = 2 ^ 53 := by rw [← pow_add, Nat.add_right_comm, Nat.add_sub_cancel' hlog]

/-- An integer that has 53 bits at most is only shifted. -/
theorem round_small (hm : 0 < m) (hlog : m.log2 ≤ 52) (hpos : 0 < m * 2 ^ (52 - m.log2)) :
    UnpackedFloat.round Format.binary64 s m 0 =
      .finite s (m * 2 ^ (52 - m.log2)) (-(52 - m.log2 : Nat)) hpos := by
  have hbits := log2_of_bits (shifted_bits hm hlog).1 (shifted_bits hm hlog).2
  have hround : ((⟨m * 2 ^ (52 - m.log2), false, false⟩ : ExtendedMantissa) >>>
      ((m * 2 ^ (52 - m.log2)).log2 - 52)).roundedMantissa = m * 2 ^ (52 - m.log2) := by
    rw [hbits]
    rfl
  have hdiv : m * 2 ^ (52 - m.log2) / 2 ^ ((m * 2 ^ (52 - m.log2)).log2 - 52) =
      m * 2 ^ (52 - m.log2) := by
    rw [hbits, Nat.sub_self, pow_zero, Nat.div_one]
  unfold UnpackedFloat.round decreaseExponent
  dsimp only
  rw [targetExponent_eq (by omega)]
  have hshift : ((0 : Int) - (m.log2 + 0 - 52)).toNat = 52 - m.log2 := by omega
  rw [hshift, Nat.shiftLeft_eq, roundWithAccuracy_eq (by omega) hround (by rwa [hdiv])]
  exact finite_congr hdiv (by rw [hbits]; omega) _ _

/-- The bits in front of what is cut off, rounded by it. -/
def cut (m : Nat) : Nat :=
  ((⟨m, false, false⟩ : ExtendedMantissa) >>> (m.log2 - 52)).roundedMantissa

theorem cut_cases (m : Nat) :
    cut m = m / 2 ^ (m.log2 - 52) ∨ cut m = m / 2 ^ (m.log2 - 52) + 1 := by
  rw [← shiftRight_mantissa m (m.log2 - 52)]
  exact roundedMantissa_cases _

theorem cut_exact (h : 2 ^ (m.log2 - 52) ∣ m) : cut m = m / 2 ^ (m.log2 - 52) := by
  rw [cut, shiftRight_exact h]
  rfl

/-- A larger one loses its last bits. -/
theorem round_large (hlog : 52 < m.log2) (hpos : 0 < cut m / 2 ^ ((cut m).log2 - 52)) :
    UnpackedFloat.round Format.binary64 s m 0 =
      .finite s (cut m / 2 ^ ((cut m).log2 - 52))
        ((m.log2 - 52 : Nat) + ((cut m).log2 - 52 : Nat)) hpos := by
  unfold UnpackedFloat.round decreaseExponent
  dsimp only
  rw [targetExponent_eq (by omega)]
  have hshift : ((0 : Int) - (m.log2 + 0 - 52)).toNat = 0 := by omega
  rw [hshift, Nat.shiftLeft_zero, roundWithAccuracy_eq (r := cut m) (by omega) rfl hpos]
  exact finite_congr rfl (by omega) _ _

/-- The 53 bits in front of what is cut off. -/
theorem quotient_bits (hlog : 52 < m.log2) :
    2 ^ 52 ≤ m / 2 ^ (m.log2 - 52) ∧ m / 2 ^ (m.log2 - 52) < 2 ^ 53 := by
  have hpow : 2 ^ m.log2 = 2 ^ 52 * 2 ^ (m.log2 - 52) := by
    rw [← pow_add, Nat.add_sub_cancel' (Nat.le_of_lt hlog)]
  have hlow : 2 ^ m.log2 ≤ m := Nat.log2_self_le (by rintro rfl; exact absurd hlog (by decide))
  have hhigh : m < 2 ^ (m.log2 + 1) := Nat.lt_log2_self
  refine ⟨(Nat.le_div_iff_mul_le (Nat.two_pow_pos _)).mpr (hpow ▸ hlow), ?_⟩
  rw [Nat.div_lt_iff_lt_mul (Nat.two_pow_pos _)]
  calc m < 2 ^ (m.log2 + 1) := hhigh
    _ = 2 ^ 53 * 2 ^ (m.log2 - 52) := by rw [pow_succ, hpow]; omega

/-- What an integer of less than 64 bits is rounded to. -/
theorem round_spec (hm : 0 < m) (hbound : m < 2 ^ 64) :
    ∃ M E, ∃ hpos : 0 < M, UnpackedFloat.round Format.binary64 s m 0 = .finite s M E hpos ∧
      2 ^ 52 ≤ M ∧ M < 2 ^ 53 ∧ -52 ≤ E ∧ E ≤ 12 ∧
      ((M : ℚ) * 2 ^ E = m ↔ 2 ^ (m.log2 - 52) ∣ m) := by
  rcases Nat.lt_or_ge 52 m.log2 with hlog | hlog
  · obtain ⟨r, hrcut⟩ : ∃ r, cut m = r := ⟨_, rfl⟩
    have hr := cut_cases m
    have hexact := @cut_exact m
    have hround := @round_large s m hlog
    rw [hrcut] at hr hexact hround
    obtain ⟨hlow, hhigh⟩ := quotient_bits hlog
    have hl : m.log2 < 64 := (Nat.log2_lt (by omega)).mpr hbound
    have hiff : r * 2 ^ (m.log2 - 52) = m ↔ 2 ^ (m.log2 - 52) ∣ m := by
      refine ⟨fun h => ⟨r, by rw [Nat.mul_comm, h]⟩, fun h => ?_⟩
      rw [hexact h, Nat.div_mul_cancel h]
    rcases Nat.lt_or_ge r (2 ^ 53) with hlt | hge
    · have hrlog : r.log2 = 52 := log2_of_bits (by omega) hlt
      rw [hrlog] at hround
      refine ⟨_, _, _, hround (by omega), by omega, by omega, by omega, by omega, ?_⟩
      rw [← hiff, Nat.sub_self, pow_zero, Nat.div_one, Nat.cast_zero, add_zero, zpow_natCast]
      exact_mod_cast Iff.rfl
    · have hreq : r = 2 ^ 53 := by omega
      have hrlog : r.log2 = 53 := by rw [hreq]; rfl
      have hdiv : r / 2 ^ (53 - 52) = 2 ^ 52 := by omega
      rw [hrlog] at hround
      refine ⟨_, _, _, hround (by rw [hdiv]; decide), by omega, by omega, by omega, by omega, ?_⟩
      have hnat : 2 ^ 52 * 2 ^ (m.log2 - 52 + (53 - 52)) = r * 2 ^ (m.log2 - 52) := by
        rw [hreq, pow_add]
        omega
      rw [← hiff, hdiv, ← Nat.cast_add, zpow_natCast, ← hnat]
      exact_mod_cast Iff.rfl
  · have hpos : 0 < m * 2 ^ (52 - m.log2) := Nat.mul_pos hm (Nat.two_pow_pos _)
    have hbits := @round_small s m hm hlog hpos
    obtain ⟨hlow, hhigh⟩ := shifted_bits hm hlog
    refine ⟨_, _, hpos, hbits, hlow, hhigh, by omega, by omega, ?_⟩
    rw [Nat.sub_eq_zero_of_le hlog, zpow_neg, zpow_natCast, Nat.cast_mul, Nat.cast_pow,
      Nat.cast_ofNat,
      mul_inv_cancel_right₀ (pow_ne_zero _ two_ne_zero)]
    exact iff_of_true rfl (one_dvd m)

end Round

section Integers

/-- The number that a float stands for, unless it is infinite or not a number. -/
def value (x : Float) : Option ℚ := exact x.toModel.unpack

/-- An integer as the nearest double, ties to even. -/
def ofInt (n : Int) : Float := .ofModel (.ofInt n)

variable {s : Sign} {m : Nat} {n : Int}

theorem exact_round (hm : 0 < m) (hbound : m < 2 ^ 64) :
    exact (UnpackedFloat.unpack Format.binary64
      (UnpackedFloat.pack Format.binary64 (UnpackedFloat.round Format.binary64 s m 0))) =
        some ((s.apply m : Int) : ℚ) ↔ 2 ^ (m.log2 - 52) ∣ m := by
  obtain ⟨M, E, hpos, hround, hlow, hhigh, hmin, hmax, hiff⟩ := @round_spec s m hm hbound
  rw [hround, unpack_pack_normal hlow hhigh (by omega) (by omega) hpos, ← hiff, exact,
    Option.some.injEq]
  cases s with
  | positive => exact Iff.rfl
  | negative =>
    change ((-(M : Int) : Int) : ℚ) * 2 ^ E = ((-(m : Int) : Int) : ℚ) ↔ _
    rw [Int.cast_neg, Int.cast_neg, neg_mul, neg_inj]
    exact Iff.rfl

/-- An integer is kept exactly when all behind its first 53 bits is zero. -/
theorem value_ofInt (h : n.natAbs < 2 ^ 64) :
    value (ofInt n) = some (n : ℚ) ↔ 2 ^ (n.natAbs.log2 - 52) ∣ n.natAbs := by
  change exact (UnpackedFloat.unpack Format.binary64 (UnpackedFloat.pack Format.binary64
    (UnpackedFloat.normalize Format.binary64 n 0 .positive))) = _ ↔ _
  unfold UnpackedFloat.normalize
  rcases lt_trichotomy n 0 with hn | rfl | hn
  · have hcmp : compare n 0 = .lt := Int.compare_eq_lt.mpr hn
    have hneg := @exact_round .negative n.natAbs (by omega) h
    have hnat : (-n).toNat = n.natAbs := by omega
    have happly : Sign.negative.apply n.natAbs = n := by
      change -(n.natAbs : Int) = n
      omega
    rw [happly] at hneg
    rw [hcmp]
    dsimp only
    rwa [hnat]
  · exact iff_of_true rfl (dvd_zero _)
  · have hcmp : compare n 0 = .gt := Int.compare_eq_gt.mpr hn
    have hpos := @exact_round .positive n.natAbs (by omega) h
    have hnat : n.toNat = n.natAbs := by omega
    have happly : Sign.positive.apply n.natAbs = n := by
      change (n.natAbs : Int) = n
      omega
    rw [happly] at hpos
    rw [hcmp]
    dsimp only
    rwa [hnat]

theorem roundToInt_eq (e : Int) :
    roundToInt s m e = s.apply (m * 2 ^ e.toNat / 2 ^ (-e).toNat : Nat) := by
  unfold roundToInt decreaseExponent shiftToExponent
  dsimp only
  have hup : (e - 0).toNat = e.toNat := by rw [sub_zero]
  have hdown : (0 - (e - (e.toNat : Int))).toNat = (-e).toNat := by omega
  rw [hup, hdown, Nat.shiftLeft_eq]
  exact congrArg (fun n : Nat => s.apply n) (shiftRight_mantissa _ _)

theorem apply_mul (a b : Int) : s.apply (a * b) = s.apply a * b := by
  cases s
  · exact (neg_mul a b).symm
  · rfl

theorem apply_div {k : Nat} (h : s.apply m = n * 2 ^ k) :
    s.apply (m / 2 ^ k : Nat) = n := by
  have hpos : (2 ^ k : Int) ≠ 0 := pow_ne_zero k two_ne_zero
  rw [Int.natCast_ediv, Nat.cast_pow, Nat.cast_ofNat]
  cases s with
  | negative =>
    have hm : (m : Int) = -n * 2 ^ k := by
      rw [neg_mul, ← h]
      exact (neg_neg _).symm
    rw [hm, Int.mul_ediv_cancel _ hpos]
    exact neg_neg n
  | positive =>
    have hm : (m : Int) = n * 2 ^ k := h
    rw [hm, Int.mul_ediv_cancel _ hpos]
    rfl

/-- A float that stands for an integer is converted to it. -/
theorem toInt_of_exact {u : UnpackedFloat} (h : exact u = some (n : ℚ)) (lo hi : Int) :
    u.toInt lo hi = n := by
  cases u with
  | infinity s => cases h
  | notANumber => cases h
  | zero s =>
    have hzero : (0 : ℚ) = n := Option.some.inj h
    exact (Int.cast_eq_zero.mp hzero.symm).symm
  | finite s m e hm =>
    have hvalue : ((s.apply m : Int) : ℚ) * 2 ^ e = n := Option.some.inj h
    change roundToInt s m e = n
    rw [roundToInt_eq]
    rcases le_or_gt 0 e with he | he
    · obtain ⟨k, rfl⟩ := Int.eq_ofNat_of_zero_le he
      have hdown : (-(k : Int)).toNat = 0 := by omega
      rw [zpow_natCast] at hvalue
      rw [hdown, pow_zero, Nat.div_one, Int.toNat_natCast, Nat.cast_mul, apply_mul]
      exact_mod_cast hvalue
    · obtain ⟨k, rfl⟩ : ∃ k : Nat, e = -(k : Int) := ⟨(-e).toNat, by omega⟩
      rw [zpow_neg, zpow_natCast, ← div_eq_mul_inv,
        div_eq_iff (pow_ne_zero _ two_ne_zero)] at hvalue
      have hmul : s.apply m = n * 2 ^ k := by exact_mod_cast hvalue
      have hup : (-(k : Int)).toNat = 0 := by omega
      rw [hup, pow_zero, Nat.mul_one, neg_neg, Int.toNat_natCast, apply_div hmul]

theorem toInt_ofIntClamp64 (hmin : Int64.minValue.toInt ≤ n) (hmax : n ≤ Int64.maxValue.toInt) :
    (Int64.ofIntClamp n).toInt = n := by
  rw [Int64.ofIntClamp, dif_pos hmin, dif_pos hmax, Int64.toInt_ofIntLE]

theorem toInt_ofIntClamp32 (hmin : Int32.minValue.toInt ≤ n) (hmax : n ≤ Int32.maxValue.toInt) :
    (Int32.ofIntClamp n).toInt = n := by
  rw [Int32.ofIntClamp, dif_pos hmin, dif_pos hmax, Int32.toInt_ofIntLE]

/-- A float is kept exactly when it is a whole number in range. -/
theorem value_toInt64 (x : Float) : value x = some ((x.toModel.toInt64.toInt : Int) : ℚ) ↔
    ∃ n : Int, Int64.minValue.toInt ≤ n ∧ n ≤ Int64.maxValue.toInt ∧ value x = some (n : ℚ) := by
  refine ⟨fun h => ⟨_, Int64.minValue_le_toInt _, Int64.toInt_le _, h⟩, ?_⟩
  rintro ⟨n, hmin, hmax, h⟩
  have hn : x.toModel.toInt64.toInt = n := by
    change (Int64.ofIntClamp (UnpackedFloat.toInt _ _ _)).toInt = n
    rw [toInt_of_exact h, toInt_ofIntClamp64 hmin hmax]
  rw [hn, h]

theorem value_toInt32 (x : Float) : value x = some ((x.toModel.toInt32.toInt : Int) : ℚ) ↔
    ∃ n : Int, Int32.minValue.toInt ≤ n ∧ n ≤ Int32.maxValue.toInt ∧ value x = some (n : ℚ) := by
  refine ⟨fun h => ⟨_, Int32.minValue_le_toInt _, Int32.toInt_le _, h⟩, ?_⟩
  rintro ⟨n, hmin, hmax, h⟩
  have hn : x.toModel.toInt32.toInt = n := by
    change (Int32.ofIntClamp (UnpackedFloat.toInt _ _ _)).toInt = n
    rw [toInt_of_exact h, toInt_ofIntClamp32 hmin hmax]
  rw [hn, h]

end Integers

section Monotone

variable {s : Sign} {m n : Nat}

/-- The two residual bits count as halves and quarters. -/
def weight (em : ExtendedMantissa) : Nat :=
  4 * em.mantissa + 2 * em.roundBit.toNat + em.stickyBit.toNat

theorem weight_shiftRightOne (em : ExtendedMantissa) :
    weight em.shiftRightOne = 2 * em.mantissa + (em.roundBit || em.stickyBit).toNat := by
  unfold weight ExtendedMantissa.shiftRightOne
  dsimp only
  rcases Nat.mod_two_eq_zero_or_one em.mantissa with h | h <;> rw [h]
  · change 4 * (em.mantissa / 2) + 2 * 0 + _ = _
    omega
  · change 4 * (em.mantissa / 2) + 2 * 1 + _ = _
    omega

theorem weight_shiftRightOne_mono {x y : ExtendedMantissa} (h : weight x ≤ weight y) :
    weight x.shiftRightOne ≤ weight y.shiftRightOne := by
  rw [weight_shiftRightOne, weight_shiftRightOne]
  obtain ⟨m, round, sticky⟩ := x
  obtain ⟨m', round', sticky'⟩ := y
  unfold weight at h
  cases round <;> cases sticky <;> cases round' <;> cases sticky' <;>
    simp only [Bool.toNat_true, Bool.toNat_false, Bool.or_true, Bool.or_false] at h ⊢ <;> omega

theorem weight_shiftRight_mono {x y : ExtendedMantissa} (h : weight x ≤ weight y) (k : Nat) :
    weight (x >>> k) ≤ weight (y >>> k) := by
  induction k with
  | zero => exact h
  | succ k ih =>
    rw [shiftRight_succ, shiftRight_succ]
    exact weight_shiftRightOne_mono ih

theorem roundedMantissa_mono {x y : ExtendedMantissa} (h : weight x ≤ weight y) :
    x.roundedMantissa ≤ y.roundedMantissa := by
  obtain ⟨m, round, sticky⟩ := x
  obtain ⟨m', round', sticky'⟩ := y
  unfold weight at h
  have hrounded (m : Nat) (round sticky : Bool) :
      (⟨m, round, sticky⟩ : ExtendedMantissa).roundedMantissa =
        m + (round && (sticky || m % 2 == 1)).toNat := by
    rcases Nat.mod_two_eq_zero_or_one m with hm | hm <;> cases round <;> cases sticky <;>
      simp [ExtendedMantissa.roundedMantissa, ExtendedMantissa.accuracy,
        Accuracy.roundToNearestEven, hm]
  rw [hrounded, hrounded]
  rcases Nat.lt_or_ge m m' with hlt | hge
  · have := (round && (sticky || m % 2 == 1)).toNat_le
    omega
  · obtain rfl : m = m' := by
      have := round.toNat_le
      have := sticky.toNat_le
      have := round'.toNat_le
      have := sticky'.toNat_le
      dsimp only at h
      omega
    cases round <;> cases sticky <;> cases round' <;> cases sticky' <;>
      simp_all [Bool.toNat_le]

theorem cut_mono (h : m ≤ n) (hlog : m.log2 = n.log2) : cut m ≤ cut n := by
  unfold cut
  rw [hlog]
  refine roundedMantissa_mono (weight_shiftRight_mono ?_ _)
  unfold weight
  dsimp only
  omega

/-- The 53 bits of the nearest double, or one more when they are all ones and rounded up. -/
def significand (m : Nat) : Nat := if m.log2 ≤ 52 then m * 2 ^ (52 - m.log2) else cut m

theorem significand_bounds (hm : 0 < m) : 2 ^ 52 ≤ significand m ∧ significand m ≤ 2 ^ 53 := by
  unfold significand
  split
  next hlog =>
    obtain ⟨hlow, hhigh⟩ := shifted_bits hm hlog
    exact ⟨hlow, hhigh.le⟩
  next hlog =>
    obtain ⟨hlow, hhigh⟩ := quotient_bits (Nat.not_le.mp hlog)
    have := cut_cases m
    omega

theorem significand_mono (h : m ≤ n) (hlog : m.log2 = n.log2) : significand m ≤ significand n := by
  unfold significand
  rw [hlog]
  split
  · exact Nat.mul_le_mul_right _ h
  · exact cut_mono h hlog

/-- The exponent and the mantissa of the nearest double. -/
def rounded (m : Nat) : Int × Nat :=
  if significand m < 2 ^ 53 then ((m.log2 : Int) - 52, significand m)
  else ((m.log2 : Int) - 51, 2 ^ 52)

theorem rounded_bounds (hm : 0 < m) : 2 ^ 52 ≤ (rounded m).2 ∧ (rounded m).2 < 2 ^ 53 := by
  have hbounds := significand_bounds hm
  unfold rounded
  split
  · exact ⟨hbounds.1, by assumption⟩
  · exact ⟨le_rfl, by norm_num⟩

theorem rounded_mono (hm : 0 < m) (h : m ≤ n) : toLex (rounded m) ≤ toLex (rounded n) := by
  have hm' := significand_bounds hm
  have hn' := significand_bounds (hm.trans_le h)
  rw [Prod.Lex.le_iff]
  unfold rounded
  have hlog : m.log2 ≤ n.log2 := by
    rw [Nat.log2_eq_log_two, Nat.log2_eq_log_two]
    exact Nat.log_mono_right h
  rcases Nat.lt_or_eq_of_le hlog with hlog | hlog
  · have : (m.log2 : Int) + 1 ≤ n.log2 := by exact_mod_cast hlog
    split <;> split <;> simp only [ofLex_toLex] <;> omega
  · have := significand_mono h hlog
    have : (m.log2 : Int) = n.log2 := by exact_mod_cast hlog
    split <;> split <;> simp only [ofLex_toLex] <;> omega

theorem round_eq (hm : 0 < m) (hpos : 0 < (rounded m).2) :
    UnpackedFloat.round Format.binary64 s m 0 = .finite s (rounded m).2 (rounded m).1 hpos := by
  obtain ⟨hlow, hhigh⟩ := significand_bounds hm
  rcases Nat.lt_or_ge 52 m.log2 with hlog | hlog
  · have hcut : significand m = cut m := if_neg (Nat.not_le.mpr hlog)
    have hround := @round_large s m hlog
    rcases Nat.lt_or_ge (significand m) (2 ^ 53) with hlt | hge
    · have hbits : (cut m).log2 = 52 := log2_of_bits (by omega) (by omega)
      have hrounded : rounded m = ((m.log2 : Int) - 52, significand m) := if_pos hlt
      rw [hbits, Nat.sub_self, pow_zero, Nat.div_one] at hround
      rw [hround (by omega)]
      exact finite_congr (by rw [hrounded, hcut]) (by rw [hrounded]; omega) _ _
    · have hcutEq : cut m = 2 ^ 53 := by omega
      have hbits : (cut m).log2 = 53 := by rw [hcutEq, Nat.log2_two_pow]
      have hrounded : rounded m = ((m.log2 : Int) - 51, 2 ^ 52) := if_neg (by omega)
      rw [hbits] at hround
      have hdiv : cut m / 2 ^ (53 - 52) = 2 ^ 52 := by omega
      rw [hround (by rw [hdiv]; positivity)]
      exact finite_congr (by rw [hrounded, hdiv]) (by rw [hrounded]; omega) _ _
  · have hsmall : significand m = m * 2 ^ (52 - m.log2) := if_pos hlog
    have hbits := shifted_bits hm hlog
    have hrounded : rounded m = ((m.log2 : Int) - 52, significand m) := if_pos (by omega)
    rw [round_small hm hlog (by omega)]
    exact finite_congr (by rw [hrounded, hsmall]) (by rw [hrounded]; omega) _ _

theorem unpack_round (hm : 0 < m) (hbound : m < 2 ^ 64) (hpos : 0 < (rounded m).2) :
    UnpackedFloat.unpack Format.binary64
      (UnpackedFloat.pack Format.binary64 (UnpackedFloat.round Format.binary64 s m 0)) =
        .finite s (rounded m).2 (rounded m).1 hpos := by
  obtain ⟨hlow, hhigh⟩ := rounded_bounds hm
  have hlog : m.log2 < 64 := (Nat.log2_lt (by omega)).mpr hbound
  have hexp : -52 ≤ (rounded m).1 ∧ (rounded m).1 ≤ 13 := by
    unfold rounded
    split <;> dsimp only <;> omega
  rw [round_eq hm hpos, unpack_pack_normal hlow hhigh (by omega) (by omega)]

/-- The place of a float in the order of all floats, with NaN above. -/
def rank : UnpackedFloat → ℤ ×ₗ ℤ ×ₗ ℤ
  | .infinity .negative => toLex (-2, toLex (0, 0))
  | .finite .negative m e _ => toLex (-1, toLex (-e, -(m : ℤ)))
  | .zero _ => toLex (0, toLex (0, 0))
  | .finite .positive m e _ => toLex (1, toLex (e, (m : ℤ)))
  | .infinity .positive => toLex (2, toLex (0, 0))
  | .notANumber => toLex (3, toLex (0, 0))

theorem unpack_ofInt_pos (hm : 0 < m) (hbound : m < 2 ^ 64) (hpos : 0 < (rounded m).2) :
    (ofInt m).toModel.unpack = .finite .positive (rounded m).2 (rounded m).1 hpos := by
  change UnpackedFloat.unpack Format.binary64 (UnpackedFloat.pack Format.binary64
    (UnpackedFloat.normalize Format.binary64 m 0 .positive)) = _
  have hcmp : compare (m : Int) 0 = .gt := Int.compare_eq_gt.mpr (by omega)
  unfold UnpackedFloat.normalize
  rw [hcmp]
  exact unpack_round hm hbound hpos

theorem unpack_ofInt_neg (hm : 0 < m) (hbound : m < 2 ^ 64) (hpos : 0 < (rounded m).2) :
    (ofInt (-m)).toModel.unpack = .finite .negative (rounded m).2 (rounded m).1 hpos := by
  change UnpackedFloat.unpack Format.binary64 (UnpackedFloat.pack Format.binary64
    (UnpackedFloat.normalize Format.binary64 (-m) 0 .positive)) = _
  have hcmp : compare (-m : Int) 0 = .lt := Int.compare_eq_lt.mpr (by omega)
  have hnat : (-(-m : Int)).toNat = m := by omega
  unfold UnpackedFloat.normalize
  rw [hcmp]
  dsimp only
  rw [hnat]
  exact unpack_round hm hbound hpos

theorem unpack_ofInt_zero : (ofInt 0).toModel.unpack = .zero .positive := rfl

theorem rounded_pos (hm : 0 < m) : 0 < (rounded m).2 :=
  lt_of_lt_of_le (by positivity) (rounded_bounds hm).1

theorem not_isNaN_ofInt {n : Int} (h : n.natAbs < 2 ^ 64) : (ofInt n).isNaN = false := by
  change (ofInt n).toModel.unpack.isNaN = false
  obtain ⟨m, rfl | rfl⟩ := n.eq_nat_or_neg
  all_goals
    rcases Nat.eq_zero_or_pos m with rfl | hm
    · rfl
  · rw [unpack_ofInt_pos hm (by omega) (rounded_pos hm)]
    rfl
  · rw [unpack_ofInt_neg hm (by omega) (rounded_pos hm)]
    rfl

theorem rank_ofInt_pos (hm : 0 < m) (hbound : m < 2 ^ 64) : rank (ofInt m).toModel.unpack =
    toLex (1, toLex ((rounded m).1, ((rounded m).2 : ℤ))) := by
  rw [unpack_ofInt_pos hm hbound (rounded_pos hm)]
  rfl

theorem rank_ofInt_neg (hm : 0 < m) (hbound : m < 2 ^ 64) : rank (ofInt (-m)).toModel.unpack =
    toLex (-1, toLex (-(rounded m).1, -((rounded m).2 : ℤ))) := by
  rw [unpack_ofInt_neg hm hbound (rounded_pos hm)]
  rfl

theorem rank_ofInt_zero : rank (ofInt 0).toModel.unpack = toLex (0, toLex (0, 0)) := rfl

/-- Rounding keeps the order of the integers. -/
theorem rank_ofInt_mono {m n : Int} (hm : m.natAbs < 2 ^ 64) (hn : n.natAbs < 2 ^ 64)
    (h : m ≤ n) : rank (ofInt m).toModel.unpack ≤ rank (ofInt n).toModel.unpack := by
  have hmono (k l : Nat) (hk : 0 < k) (hkl : k ≤ l) : (rounded k).1 < (rounded l).1 ∨
      (rounded k).1 = (rounded l).1 ∧ (rounded k).2 ≤ (rounded l).2 :=
    Prod.Lex.le_iff.mp (rounded_mono hk hkl)
  rcases lt_trichotomy m 0 with hm0 | rfl | hm0
  · obtain ⟨k, hk, rfl⟩ : ∃ k : Nat, 0 < k ∧ m = -k := ⟨m.natAbs, by omega, by omega⟩
    rw [rank_ofInt_neg hk (by omega)]
    rcases lt_trichotomy n 0 with hn0 | rfl | hn0
    · obtain ⟨l, hl, rfl⟩ : ∃ l : Nat, 0 < l ∧ n = -l := ⟨n.natAbs, by omega, by omega⟩
      rw [rank_ofInt_neg hl (by omega), Prod.Lex.toLex_le_toLex, Prod.Lex.toLex_le_toLex]
      have := hmono l k hl (by omega)
      dsimp only
      omega
    · rw [rank_ofInt_zero, Prod.Lex.toLex_le_toLex]
      exact .inl (by norm_num)
    · obtain ⟨l, hl, rfl⟩ : ∃ l : Nat, 0 < l ∧ n = l := ⟨n.toNat, by omega, by omega⟩
      rw [rank_ofInt_pos hl (by omega), Prod.Lex.toLex_le_toLex]
      exact .inl (by norm_num)
  · rcases Int.lt_or_eq_of_le h with hn0 | rfl
    · obtain ⟨l, hl, rfl⟩ : ∃ l : Nat, 0 < l ∧ n = l := ⟨n.toNat, by omega, by omega⟩
      rw [rank_ofInt_pos hl (by omega), rank_ofInt_zero, Prod.Lex.toLex_le_toLex]
      exact .inl (by norm_num)
    · exact le_rfl
  · obtain ⟨k, hk, rfl⟩ : ∃ k : Nat, 0 < k ∧ m = k := ⟨m.toNat, by omega, by omega⟩
    obtain ⟨l, hl, rfl⟩ : ∃ l : Nat, 0 < l ∧ n = l := ⟨n.toNat, by omega, by omega⟩
    rw [rank_ofInt_pos hk (by omega), rank_ofInt_pos hl (by omega), Prod.Lex.toLex_le_toLex,
      Prod.Lex.toLex_le_toLex]
    have := hmono k l hk (by omega)
    dsimp only
    omega

theorem compare_toLex {A B : Type*} [LinearOrder A] [LinearOrder B] (a a' : A) (b b' : B) :
    compare (toLex (a, b)) (toLex (a', b')) = (compare a a').then (compare b b') := by
  rw [Prod.Lex.compare_def]
  rfl

/-- IEEE comparison is the order of the ranks. -/
theorem compare_rank {x y : UnpackedFloat} {o : Ordering} (h : x.compare y = some o) :
    compare (rank x) (rank y) = o := by
  have hneg (a b : ℤ) : compare (-a) (-b) = compare b a := by
    rcases lt_trichotomy a b with hab | rfl | hab
    · rw [compare_gt_iff_gt.mpr hab, compare_gt_iff_gt.mpr (by omega)]
    · rw [compare_eq_iff_eq.mpr rfl, compare_eq_iff_eq.mpr rfl]
    · rw [compare_lt_iff_lt.mpr hab, compare_lt_iff_lt.mpr (by omega)]
  have hnat (a b : ℕ) : compare (a : ℤ) (b : ℤ) = compare a b := by
    rcases lt_trichotomy a b with hab | rfl | hab
    · rw [compare_lt_iff_lt.mpr hab, compare_lt_iff_lt.mpr (by omega)]
    · rw [compare_eq_iff_eq.mpr rfl, compare_eq_iff_eq.mpr rfl]
    · rw [compare_gt_iff_gt.mpr hab, compare_gt_iff_gt.mpr (by omega)]
  cases x with
  | notANumber => cases h
  | infinity s =>
    cases y with
    | notANumber => cases s <;> cases h
    | infinity s' => cases s <;> cases s' <;> cases h <;> rfl
    | zero s' => cases s <;> cases h <;> rfl
    | finite s' m' e' h' => cases s <;> cases s' <;> cases h <;> simp [rank, compare_toLex] <;> rfl
  | zero s =>
    cases y with
    | notANumber => cases h
    | infinity s' => cases s' <;> cases h <;> rfl
    | zero s' => cases h; rfl
    | finite s' m' e' h' => cases s' <;> cases h <;> simp [rank, compare_toLex] <;> rfl
  | finite s m e hm =>
    cases y with
    | notANumber => cases s <;> cases h
    | infinity s' => cases s <;> cases s' <;> cases h <;> simp [rank, compare_toLex] <;> rfl
    | zero s' => cases s <;> cases h <;> simp [rank, compare_toLex] <;> rfl
    | finite s' m' e' hm' =>
      cases s <;> cases s'
      case negative.negative =>
        obtain rfl := Option.some.inj h
        rw [rank, rank, compare_toLex, compare_toLex, hneg e e', hneg m m', hnat,
          Ordering.swap_then, ← Std.OrientedCmp.eq_swap, ← Std.OrientedCmp.eq_swap]
        rfl
      case positive.positive =>
        obtain rfl := Option.some.inj h
        rw [rank, rank, compare_toLex, compare_toLex, hnat]
        rfl
      all_goals
        cases h
        simp only [rank, compare_toLex]
        rfl

theorem rank_lt_notANumber {x : UnpackedFloat} (h : x.isNaN = false) :
    rank x < rank .notANumber := by
  cases x with
  | notANumber => cases h
  | zero s => exact Prod.Lex.toLex_lt_toLex.mpr (.inl (by norm_num))
  | infinity s => cases s <;> exact Prod.Lex.toLex_lt_toLex.mpr (.inl (by norm_num))
  | finite s m e hm => cases s <;> exact Prod.Lex.toLex_lt_toLex.mpr (.inl (by norm_num))

end Monotone

end Cynos.Binary64
