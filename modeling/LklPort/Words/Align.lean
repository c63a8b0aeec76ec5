import Mathlib.Data.Nat.Bitwise

/-!
# Rounding in 64-bit words

`align x a` is `(x + (a - 1)) & ~(a - 1)` in the arithmetic of an `unsigned long`. For a power of
two `a`, and as long as the sum does not overflow, it is the least multiple of `a` that is not
below `x`. Between two numbers, the one with the most trailing zeros is found from the highest bit
in which they differ.
-/

namespace Words

open BitVec

/-- `ALIGN(x, a)`. -/
def align (x a : ℕ) : ℕ :=
  ((BitVec.ofNat 64 x + (BitVec.ofNat 64 a - 1)) &&& ~~~(BitVec.ofNat 64 a - 1)).toNat

/-- `(a & (a - 1)) == 0`. -/
def singleBit (a : ℕ) : Bool := BitVec.ofNat 64 a &&& (BitVec.ofNat 64 a - 1) == 0

variable {x y a k : ℕ}

lemma toNat_ofNat_sub_one (h0 : a ≠ 0) (ha : a < 2 ^ 64) :
    (BitVec.ofNat 64 a - 1).toNat = a - 1 := by
  have htoNat : (BitVec.ofNat 64 a).toNat = a := by
    rw [toNat_ofNat, Nat.mod_eq_of_lt ha]
  have hone : (1 : BitVec 64) ≤ BitVec.ofNat 64 a := by
    rw [le_def, htoNat]
    exact Nat.one_le_iff_ne_zero.2 h0
  rw [toNat_sub_of_le hone, htoNat]
  rfl

/-- A power of two that is a word. -/
def IsPow (a : ℕ) : Prop := ∃ k < 64, a = 2 ^ k

lemma IsPow.pos (h : IsPow a) : 0 < a := by
  obtain ⟨k, -, rfl⟩ := h
  exact Nat.two_pow_pos k

lemma isPow_of_singleBit (h : singleBit a = true) (h0 : a ≠ 0) (ha : a < 2 ^ 64) : IsPow a := by
  have hand : a &&& (a - 1) = 0 := by
    have h := congrArg BitVec.toNat (eq_of_beq h)
    rwa [toNat_and, toNat_ofNat_sub_one h0 ha, toNat_ofNat, Nat.mod_eq_of_lt ha] at h
  obtain ⟨k, rfl⟩ := (Nat.and_sub_one_eq_zero_iff_isPowerOfTwo h0).1 hand
  exact ⟨k, (Nat.pow_lt_pow_iff_right (by decide)).1 ha, rfl⟩

lemma IsPow.singleBit (h : IsPow a) : singleBit a = true := by
  obtain ⟨k, hk, rfl⟩ := h
  have hlt : 2 ^ k < 2 ^ 64 := Nat.pow_lt_pow_right (by decide) hk
  have hne : 2 ^ k ≠ 0 := ne_of_gt (Nat.two_pow_pos k)
  rw [Words.singleBit, beq_iff_eq]
  apply eq_of_toNat_eq
  rw [toNat_and, toNat_ofNat_sub_one hne hlt, toNat_ofNat, Nat.mod_eq_of_lt hlt]
  exact (Nat.and_sub_one_eq_zero_iff_isPowerOfTwo hne).2 ⟨k, rfl⟩

lemma IsPow.add_le_of_dvd (h : IsPow a) (hx : a ∣ x) (hlt : x < 2 ^ 64) : x + a ≤ 2 ^ 64 := by
  obtain ⟨k, hk, rfl⟩ := h
  obtain ⟨c, rfl⟩ := hx
  obtain ⟨d, hd⟩ : 2 ^ k ∣ 2 ^ 64 := Nat.pow_dvd_pow 2 (le_of_lt hk)
  rw [hd] at hlt ⊢
  have hcd : c < d := Nat.lt_of_mul_lt_mul_left hlt
  calc 2 ^ k * c + 2 ^ k = 2 ^ k * (c + 1) := by rw [Nat.mul_succ]
    _ ≤ 2 ^ k * d := Nat.mul_le_mul_left _ hcd

lemma toNat_and_not_mask (w : BitVec 64) (hk : k < 64) :
    (w &&& ~~~BitVec.ofNat 64 (2 ^ k - 1)).toNat = w.toNat / 2 ^ k * 2 ^ k := by
  -- bit by bit: the bits below `k` are cleared on both sides
  apply Nat.eq_of_testBit_eq
  intro i
  rw [← Nat.shiftRight_eq_div_pow, ← Nat.shiftLeft_eq, Nat.testBit_shiftLeft,
    Nat.testBit_shiftRight, testBit_toNat, testBit_toNat, getLsbD_and, getLsbD_not,
    getLsbD_ofNat, Nat.testBit_two_pow_sub_one]
  by_cases hi : i < 64
  · by_cases hki : k ≤ i
    · simp [hi, hki, not_lt.2 hki]
    · simp [hi, hki, Nat.lt_of_not_le hki]
  · have hki : k ≤ i := by omega
    simp [hi, hki, getLsbD_of_ge w i (not_lt.1 hi)]

lemma align_two_pow (hk : k < 64) (hx : x + 2 ^ k ≤ 2 ^ 64) :
    align x (2 ^ k) = (x + (2 ^ k - 1)) / 2 ^ k * 2 ^ k := by
  have hpos : 0 < 2 ^ k := Nat.two_pow_pos k
  have hlt : 2 ^ k < 2 ^ 64 := Nat.pow_lt_pow_right (by decide) hk
  have hmask : BitVec.ofNat 64 (2 ^ k) - 1 = BitVec.ofNat 64 (2 ^ k - 1) := by
    apply eq_of_toNat_eq
    rw [toNat_ofNat_sub_one (by omega) hlt, toNat_ofNat, Nat.mod_eq_of_lt (by omega)]
  rw [align, hmask, ← ofNat_add, toNat_and_not_mask _ hk, toNat_ofNat, Nat.mod_eq_of_lt (by omega)]

/-! ### The least multiple -/

lemma align_eq (ha : IsPow a) (hx : x + a ≤ 2 ^ 64) : align x a = (x + (a - 1)) / a * a := by
  obtain ⟨k, hk, rfl⟩ := ha
  exact align_two_pow hk hx

section

variable (ha : IsPow a) (hx : x + a ≤ 2 ^ 64)

include ha hx

lemma dvd_align : a ∣ align x a := by
  rw [align_eq ha hx]
  exact Nat.dvd_mul_left _ _

lemma le_align : x ≤ align x a := by
  have hmod := Nat.mod_lt (x + (a - 1)) ha.pos
  have hdiv := Nat.div_add_mod' (x + (a - 1)) a
  rw [align_eq ha hx]
  omega

lemma align_lt_add : align x a < x + a := by
  have hle := Nat.div_mul_le_self (x + (a - 1)) a
  have hpos := ha.pos
  rw [align_eq ha hx]
  omega

lemma align_le_of_dvd (hy : a ∣ y) (hxy : x ≤ y) : align x a ≤ y := by
  obtain ⟨c, rfl⟩ := hy
  have hpos := ha.pos
  have hdiv : (x + (a - 1)) / a ≤ c := by
    rw [← Nat.lt_succ_iff, Nat.div_lt_iff_lt_mul hpos, Nat.succ_mul, mul_comm]
    omega
  rw [align_eq ha hx, mul_comm]
  exact Nat.mul_le_mul_left _ hdiv

end

/-! ### The highest bit in which two numbers differ -/

lemma div_eq_of_xor_lt (h : x ^^^ y < 2 ^ k) : x / 2 ^ k = y / 2 ^ k := by
  rw [← Nat.xor_eq_zero_iff, ← Nat.xor_div_two_pow, Nat.div_eq_of_lt h]

lemma div_log2_xor (hlt : x < y) :
    ∃ q, x / 2 ^ (x ^^^ y).log2 = 2 * q ∧ y / 2 ^ (x ^^^ y).log2 = 2 * q + 1 := by
  have hne : x ^^^ y ≠ 0 := fun h => hlt.ne (Nat.xor_eq_zero_iff.1 h)
  generalize hb : (x ^^^ y).log2 = b
  obtain ⟨hle, hgt⟩ := (Nat.log2_eq_iff hne).1 hb
  have hxor : x / 2 ^ b ^^^ y / 2 ^ b = 1 := by
    rw [← Nat.xor_div_two_pow]
    exact Nat.div_eq_of_lt_le (by omega) (by omega)
  have hy : y / 2 ^ b = x / 2 ^ b ^^^ 1 := by rw [← hxor, Nat.xor_xor_cancel_left]
  have hdiv : x / 2 ^ b ≤ y / 2 ^ b := Nat.div_le_div_right hlt.le
  obtain heven | hodd := Nat.even_or_odd (x / 2 ^ b)
  · rw [Nat.xor_one_of_even heven] at hy
    obtain ⟨q, hq⟩ := heven
    exact ⟨q, by omega, by omega⟩
  · rw [Nat.xor_one_of_odd hodd] at hy
    obtain ⟨q, hq⟩ := hodd
    omega

lemma eq_of_dvd_of_between {p q v : ℕ} (hp : 0 < p) (hx : x / p = 2 * q) (hy : y / p = 2 * q + 1)
    (hxv : x ≤ v) (hvy : v ≤ y) (hv : p * 2 ∣ v) : v = x := by
  obtain ⟨c, rfl⟩ := hv
  have hc : p * 2 * c / p = 2 * c := by rw [mul_assoc, Nat.mul_div_cancel_left _ hp]
  have hqc : c = q := by
    have hle := Nat.div_le_div_right (c := p) hxv
    have hge := Nat.div_le_div_right (c := p) hvy
    omega
  have hle := Nat.mul_div_le x p
  rw [hx, ← mul_assoc, ← hqc] at hle
  exact le_antisymm hle hxv

end Words
