import Mathlib.Data.BitVec
import Mathlib.Data.Nat.Bitwise

/-! Bit fields of machine words as quotients and remainders, so that shifting and masking
code is compared by linear arithmetic. -/
namespace DBTranslator.Lib.BitField
variable {w : Nat}

/-- The shift-and-mask idiom reads the field of `len` bits at `lo`. -/
theorem toNat_field (x : BitVec w) (lo len : Nat) (mask : BitVec w)
    (hmask : mask = BitVec.ofNat w (2 ^ len - 1)) :
    ((x >>> lo) &&& mask).toNat = x.toNat / 2 ^ lo % 2 ^ len := by
  rw [hmask, BitVec.toNat_and, BitVec.toNat_ushiftRight, BitVec.toNat_ofNat, Nat.shiftRight_eq_div_pow]
  have hx : x.toNat / 2 ^ lo < 2 ^ w := Nat.lt_of_le_of_lt (Nat.div_le_self _ _) x.isLt
  by_cases hlen : len ≤ w
  · have hpow : 2 ^ len ≤ 2 ^ w := Nat.pow_le_pow_right (by decide) hlen
    have hpos := Nat.two_pow_pos len
    rw [Nat.mod_eq_of_lt (a := 2 ^ len - 1) (by omega), Nat.and_two_pow_sub_one_eq_mod]
  · have hmod : (2 ^ len - 1) % 2 ^ w = 2 ^ w - 1 := by
      obtain ⟨k, rfl⟩ := Nat.exists_eq_add_of_le (Nat.le_of_not_le hlen)
      apply Nat.eq_of_testBit_eq
      intro i
      rw [Nat.testBit_mod_two_pow, Nat.testBit_two_pow_sub_one, Nat.testBit_two_pow_sub_one]
      by_cases hi : i < w <;> simp [hi]
      omega
    have hle : 2 ^ w ≤ 2 ^ len := Nat.pow_le_pow_right (by decide) (by omega)
    rw [hmod, Nat.and_two_pow_sub_one_eq_mod, Nat.mod_eq_of_lt hx, Nat.mod_eq_of_lt (by omega)]

theorem toNat_mask (x : BitVec w) (len : Nat) (mask : BitVec w)
    (hmask : mask = BitVec.ofNat w (2 ^ len - 1)) :
    (x &&& mask).toNat = x.toNat % 2 ^ len := by
  have h := toNat_field x 0 len mask hmask
  rwa [BitVec.ushiftRight_zero, Nat.pow_zero, Nat.div_one] at h

theorem toNat_extract (x : BitVec w) (lo len : Nat) :
    (x.extractLsb' lo len).toNat = x.toNat / 2 ^ lo % 2 ^ len := by
  rw [BitVec.extractLsb'_toNat, Nat.shiftRight_eq_div_pow]

theorem toNat_append {v : Nat} (x : BitVec v) (y : BitVec w) :
    (x ++ y).toNat = x.toNat * 2 ^ w + y.toNat := by
  rw [BitVec.toNat_append, ← Nat.shiftLeft_add_eq_or_of_lt y.isLt, Nat.shiftLeft_eq]

/-- Disjoint bits: a number below 2^k or-ed to a multiple of 2^k is added to it. -/
theorem or_eq_add {a b : Nat} (k : Nat) (ha : 2 ^ k ∣ a) (hb : b < 2 ^ k) : a ||| b = a + b := by
  obtain ⟨c, rfl⟩ := ha
  rw [Nat.mul_comm, ← Nat.shiftLeft_eq, Nat.shiftLeft_add_eq_or_of_lt hb]

/-- Assembling a word from fields: disjoint parts are added. -/
theorem toNat_or_low {x y : BitVec w} (k : Nat) (hx : 2 ^ k ∣ x.toNat) (hy : y.toNat < 2 ^ k) :
    (x ||| y).toNat = x.toNat + y.toNat := by
  rw [BitVec.toNat_or, or_eq_add k hx hy]

theorem toNat_shift {x : BitVec w} (n : Nat) (h : x.toNat * 2 ^ n < 2 ^ w) :
    (x <<< n).toNat = x.toNat * 2 ^ n := by
  rw [BitVec.toNat_shiftLeft, Nat.shiftLeft_eq, Nat.mod_eq_of_lt h]

/-- Testing a word against a one-bit mask tests that bit. -/
theorem and_bit_ne_zero (x : BitVec w) (k : Nat) (mask : BitVec w)
    (hmask : mask = BitVec.ofNat w (2 ^ k)) (hk : k < w) :
    x &&& mask ≠ 0 ↔ x.toNat / 2 ^ k % 2 = 1 := by
  have hpow : (BitVec.ofNat w (2 ^ k)).toNat = 2 ^ k := by
    rw [BitVec.toNat_ofNat, Nat.mod_eq_of_lt (Nat.pow_lt_pow_right (by decide) hk)]
  rw [hmask, Ne, ← BitVec.toNat_inj, BitVec.toNat_and, hpow, Nat.and_two_pow]
  have hbit : x.toNat.testBit k = decide (x.toNat / 2 ^ k % 2 = 1) := Nat.testBit_eq_decide_div_mod_eq
  by_cases h : x.toNat / 2 ^ k % 2 = 1
  · simp [hbit, h]
  · simp [hbit, h]

private theorem testBit_high {k : Nat} (hk : k ≤ w) (i : Nat) :
    (2 ^ w - 2 ^ k).testBit i = (decide (k ≤ i) && decide (i < w)) := by
  rw [show 2 ^ w - 2 ^ k = (2 ^ (w - k) - 1) <<< k by
    rw [Nat.shiftLeft_eq, Nat.sub_mul, ← Nat.pow_add, Nat.sub_add_cancel hk, Nat.one_mul],
    Nat.testBit_shiftLeft, Nat.testBit_two_pow_sub_one]
  by_cases hki : k ≤ i
  · simp only [ge_iff_le, hki, decide_true, Bool.true_and, decide_eq_decide]
    omega
  · simp [hki]

private theorem testBit_of_le (x : BitVec w) {i : Nat} (hi : w ≤ i) : x.toNat.testBit i = false :=
  Nat.testBit_lt_two_pow (Nat.lt_of_lt_of_le x.isLt (Nat.pow_le_pow_right (by decide) hi))

private theorem toNat_high {k : Nat} (mask : BitVec w) (hmask : mask = BitVec.ofNat w (2 ^ w - 2 ^ k)) :
    mask.toNat = 2 ^ w - 2 ^ k := by
  have hpos := Nat.two_pow_pos k
  have hpos' := Nat.two_pow_pos w
  rw [hmask, BitVec.toNat_ofNat, Nat.mod_eq_of_lt (by omega)]

/-- Or-ing all bits from `k` up replaces the word above its low `k` bits. -/
theorem toNat_or_high (x : BitVec w) (k : Nat) (mask : BitVec w)
    (hmask : mask = BitVec.ofNat w (2 ^ w - 2 ^ k)) (hk : k ≤ w) :
    (x ||| mask).toNat = 2 ^ w - 2 ^ k + x.toNat % 2 ^ k := by
  have hpos := Nat.two_pow_pos k
  have hlt : x.toNat % 2 ^ k < 2 ^ k := Nat.mod_lt _ hpos
  obtain ⟨c, hc⟩ := Nat.pow_dvd_pow 2 hk
  have hdvd : 2 ^ k ∣ 2 ^ w - 2 ^ k := ⟨c - 1, by rw [hc, Nat.mul_sub, Nat.mul_one]⟩
  rw [BitVec.toNat_or, toNat_high mask hmask, ← or_eq_add k hdvd hlt]
  apply Nat.eq_of_testBit_eq
  intro i
  rw [Nat.testBit_or, Nat.testBit_or, testBit_high hk, Nat.testBit_mod_two_pow]
  by_cases hi : i < w
  · by_cases hki : k ≤ i
    · simp [hki, hi]
    · simp [hki, Nat.lt_of_not_le hki]
  · simp [testBit_of_le x (Nat.le_of_not_lt hi)]

/-- And-ing with all bits from `k` up clears the bits below. -/
theorem toNat_and_high (x : BitVec w) (k : Nat) (mask : BitVec w)
    (hmask : mask = BitVec.ofNat w (2 ^ w - 2 ^ k)) (hk : k ≤ w) :
    (x &&& mask).toNat = x.toNat / 2 ^ k * 2 ^ k := by
  rw [BitVec.toNat_and, toNat_high mask hmask, ← Nat.shiftRight_eq_div_pow, ← Nat.shiftLeft_eq]
  apply Nat.eq_of_testBit_eq
  intro i
  rw [Nat.testBit_and, testBit_high hk, Nat.testBit_shiftLeft, Nat.testBit_shiftRight]
  by_cases hki : k ≤ i
  · rw [Nat.add_sub_cancel' hki]
    by_cases hi : i < w
    · simp [hki, hi]
    · simp [testBit_of_le x (Nat.le_of_not_lt hi)]
  · simp [hki]

/-- A left shift loses a word exactly when only its top bits are set. -/
theorem shiftLeft_eq_zero_iff (x : BitVec w) (n : Nat) (hn : n ≤ w) :
    x <<< n = 0#w ↔ 2 ^ (w - n) ∣ x.toNat := by
  rw [← BitVec.toNat_inj, BitVec.toNat_shiftLeft, Nat.shiftLeft_eq, BitVec.toNat_ofNat, Nat.zero_mod,
    ← Nat.dvd_iff_mod_eq_zero]
  have hpow : 2 ^ w = 2 ^ (w - n) * 2 ^ n := by rw [← Nat.pow_add, Nat.sub_add_cancel hn]
  rw [hpow]
  exact Nat.mul_dvd_mul_iff_right (Nat.two_pow_pos n)

theorem ushiftRight_eq_zero_iff (x : BitVec w) (n : Nat) : x >>> n = 0#w ↔ x.toNat < 2 ^ n := by
  rw [← BitVec.toNat_inj, BitVec.toNat_ushiftRight, Nat.shiftRight_eq_div_pow, BitVec.toNat_ofNat,
    Nat.zero_mod]
  exact Nat.div_eq_zero_iff_lt (Nat.two_pow_pos n)

/-- An arithmetic shift keeps the sign, so it loses only small non-negative words. -/
theorem sshiftRight_eq_zero_iff (x : BitVec w) (n : Nat) (hn : n < w) :
    x.sshiftRight n = 0#w ↔ x.toNat < 2 ^ n := by
  cases hmsb : x.msb with
  | false => rw [BitVec.sshiftRight_eq_of_msb_false hmsb, ushiftRight_eq_zero_iff]
  | true =>
    have hlarge : 2 ^ (w - 1) ≤ x.toNat := by
      have htwice := BitVec.msb_eq_true_iff_two_mul_ge.mp hmsb
      have hpow : 2 ^ w = 2 * 2 ^ (w - 1) := by
        rw [← Nat.pow_succ', Nat.succ_eq_add_one, Nat.sub_add_cancel (by omega)]
      omega
    have hle : 2 ^ n ≤ 2 ^ (w - 1) := Nat.pow_le_pow_right (by decide) (by omega)
    constructor
    · intro h
      have hm := congrArg BitVec.msb h
      rw [BitVec.msb_sshiftRight, hmsb, BitVec.msb_zero] at hm
      cases hm
    · intro h
      exact absurd (Nat.le_trans hle hlarge) (Nat.not_le.mpr h)

theorem setWidth_eq_zero_iff {v : Nat} (x : BitVec w) (h : w ≤ v) : x.setWidth v = 0#v ↔ x = 0#w := by
  rw [← BitVec.toNat_inj, ← BitVec.toNat_inj, BitVec.toNat_setWidth]
  have hpow : 2 ^ w ≤ 2 ^ v := Nat.pow_le_pow_right (by decide) h
  rw [Nat.mod_eq_of_lt (Nat.lt_of_lt_of_le x.isLt hpow), BitVec.toNat_ofNat, BitVec.toNat_ofNat,
    Nat.zero_mod, Nat.zero_mod]

theorem signExtend_eq_zero_iff {v : Nat} (x : BitVec w) (h : w ≤ v) :
    x.signExtend v = 0#v ↔ x = 0#w := by
  rw [← BitVec.toInt_inj, ← BitVec.toInt_inj, BitVec.toInt_signExtend_of_le h,
    BitVec.toInt_zero, BitVec.toInt_zero]

theorem toNat_ofNat_of_lt {a : Nat} (h : a < 2 ^ w) : (BitVec.ofNat w a).toNat = a := by
  rw [BitVec.toNat_ofNat, Nat.mod_eq_of_lt h]

/-- Zero extension gives a number that is not negative. -/
theorem toInt_setWidth_of_lt {v : Nat} (x : BitVec w) (h : w < v) : (x.setWidth v).toInt = x.toNat := by
  have hx := x.isLt
  have hpow : 2 * 2 ^ w ≤ 2 ^ v := by
    rw [← Nat.pow_succ']
    exact Nat.pow_le_pow_right (by decide) h
  have hval := BitVec.toNat_setWidth_of_le (b := x) (Nat.le_of_lt h)
  rw [BitVec.toInt_eq_toNat_of_lt (by omega), hval]

theorem toInt_ofNat_of_lt {a : Nat} (h : 2 * a < 2 ^ w) : (BitVec.ofNat w a).toInt = a := by
  have hval := toNat_ofNat_of_lt (w := w) (a := a) (by omega)
  rw [BitVec.toInt_eq_toNat_of_lt (by omega), hval]

/-- Sign extension by hand: test bit `k` of a number that fits below bit `k + 1` and, if it is set,
or all bits above it. -/
theorem signFill_eq (x : BitVec w) (k : Nat) (bit high : BitVec w) (hbit : bit = BitVec.ofNat w (2 ^ k))
    (hhigh : high = BitVec.ofNat w (2 ^ w - 2 ^ (k + 1))) (hk : k < w) (hx : x.toNat < 2 ^ (k + 1)) :
    (if x &&& bit ≠ 0 then x ||| high else x) = (x.setWidth (k + 1)).signExtend w := by
  have hlow : (x.setWidth (k + 1)).toNat = x.toNat := by
    rw [BitVec.toNat_setWidth, Nat.mod_eq_of_lt hx]
  have hwide : ((x.setWidth (k + 1)).setWidth w).toNat = x.toNat := by
    rw [BitVec.toNat_setWidth, hlow, Nat.mod_eq_of_lt x.isLt]
  have hmsb : (x.setWidth (k + 1)).msb = true ↔ x &&& bit ≠ 0 := by
    rw [and_bit_ne_zero x k bit hbit hk, BitVec.msb_eq_decide, decide_eq_true_iff, hlow,
      Nat.add_sub_cancel]
    have hpow : 2 ^ (k + 1) = 2 * 2 ^ k := Nat.pow_succ'
    have hdiv : x.toNat / 2 ^ k < 2 := (Nat.div_lt_iff_lt_mul (Nat.two_pow_pos k)).mpr (by omega)
    have hone : 2 ^ k ≤ x.toNat ↔ 1 ≤ x.toNat / 2 ^ k := by
      rw [Nat.le_div_iff_mul_le (Nat.two_pow_pos k), Nat.one_mul]
    rw [hone]
    generalize x.toNat / 2 ^ k = q at hdiv
    omega
  apply BitVec.eq_of_toNat_eq
  rw [BitVec.toNat_signExtend, hwide]
  by_cases hset : x &&& bit ≠ 0
  · rw [if_pos hset, if_pos (hmsb.mpr hset), toNat_or_high x (k + 1) high hhigh hk,
      Nat.mod_eq_of_lt hx, Nat.add_comm]
  · rw [if_neg hset, if_neg fun h => hset (hmsb.mp h), Nat.add_zero]

/-- A signed number that fits in `w` bits is the same number in more bits. -/
theorem signExtend_ofInt (v : Nat) {i : Int} (hlo : -2 ^ w ≤ i) (hhi : i < 2 ^ w) :
    (BitVec.ofInt (w + 1) i).signExtend v = BitVec.ofInt v i := by
  have hpow : ((2 ^ (w + 1) : Nat) : Int) = 2 * 2 ^ w := by
    rw [Nat.pow_succ', Int.natCast_mul, Int.natCast_pow]
    rfl
  have hval : (BitVec.ofInt (w + 1) i).toInt = i := by
    rw [BitVec.toInt_ofInt]
    apply Int.bmod_eq_of_le
    · rw [hpow]
      omega
    · rw [hpow]
      omega
  rw [BitVec.signExtend, hval]

end DBTranslator.Lib.BitField
