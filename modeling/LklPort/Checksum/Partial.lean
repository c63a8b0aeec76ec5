import LklPort.OnesComplement.Basic
import Mathlib.Data.List.Basic
import Mathlib.Tactic.NormNum

/-!
# `csum_partial`

`arch/lkl/lib/checksum.c` adds the 16-bit words of a buffer to a seed in a variable of type `int`
and then folds that variable, converted to `unsigned long`, twice. On LP64 the conversion extends
the sign, and a carry out of the `int` is not added back, so the result is the Internet checksum
only as long as the sum stays below `2 ^ 31`.
-/

namespace LklPort.Checksum

open List BitVec
open OnesComplement (fold fold_fold)

/-! ### The functions of `checksum.c` and `asm/checksum.h` -/

/-- The byte order of the host. -/
inductive ByteOrder where
  | little
  | big
  deriving DecidableEq

/-- The `u16` stored in two bytes. -/
def word : ByteOrder → BitVec 8 → BitVec 8 → BitVec 16
  | .little, a, b => b ++ a
  | .big, a, b => a ++ b

/-- `x = (x & 0xffff) + (x >> 16)`, for an `x` of any width. -/
def addHalves {n : ℕ} (x : BitVec n) : BitVec n := (x &&& 0xffff#n) + (x >>> 16)

def from32to16 (x : BitVec 64) : BitVec 16 := (addHalves (addHalves x)).setWidth 16

/-- The loop of `csum_partial` and the odd byte after it, over the `len` bytes at `buff`. -/
def csumLoop (order : ByteOrder) : List (BitVec 8) → BitVec 32 → BitVec 32
  | a :: b :: rest, sum => csumLoop order rest (sum + (word order a b).setWidth 32)
  | [a], sum => sum + a.setWidth 32
  | [], sum => sum

def csumPartial (order : ByteOrder) (buff : List (BitVec 8)) (sum : BitVec 32) : BitVec 32 :=
  -- the argument of `from32to16` is an `int` that becomes an `unsigned long`
  (from32to16 ((csumLoop order buff sum).signExtend 64)).setWidth 32

def csumFold (csum : BitVec 32) : BitVec 16 := (~~~ addHalves (addHalves csum)).setWidth 16

def ipFastCsum (order : ByteOrder) (iph : List (BitVec 8)) (ihl : ℕ) : BitVec 16 :=
  csumFold (csumPartial order (iph.take (ihl * 4)) 0)

/-! ### The Internet checksum -/

/-- The host-order words of a buffer; an odd byte at the end counts as a word of its own. -/
def words (order : ByteOrder) : List (BitVec 8) → List ℕ
  | a :: b :: rest => (word order a b).toNat :: words order rest
  | [a] => [a.toNat]
  | [] => []

/-- The seed plus all words. -/
def total (order : ByteOrder) (buff : List (BitVec 8)) (seed : BitVec 32) : ℕ :=
  seed.toNat + (words order buff).sum

/-- The one's-complement checksum of a total. -/
def internetChecksum (t : ℕ) : BitVec 16 := ~~~ BitVec.ofNat 16 (OnesComplement.norm 16 t)

/-- How many times the `int` loses a carry, where a negative sum at the end counts as one more. -/
def lostCarries (order : ByteOrder) (buff : List (BitVec 8)) (seed : BitVec 32) : ℕ :=
  (total order buff seed + 2 ^ 31) / 2 ^ 32

variable {s r : BitVec 32}

section

variable (order : ByteOrder) (buff : List (BitVec 8)) (seed : BitVec 32)

lemma csumLoop_toNat : (csumLoop order buff seed).toNat = total order buff seed % 2 ^ 32 := by
  induction buff, seed using csumLoop.induct order with
  | case1 _ _ _ _ ih =>
    simp only [csumLoop, ih, total, words, sum_cons, toNat_add, toNat_setWidth]
    omega
  | case2 => simp [csumLoop, total, words]
  | case3 sum => simp [csumLoop, total, words, Nat.mod_eq_of_lt sum.isLt]

lemma words_sum_le : (words order buff).sum ≤ 0xffff * ((buff.length + 1) / 2) := by
  induction buff using words.induct with
  | case1 a b =>
    simp only [words, sum_cons, length_cons]
    omega
  | case2 a =>
    simp [words]
    omega
  | case3 => simp [words]

lemma words_append {l : List (BitVec 8)} (h : 2 ∣ l.length)
    (l' : List (BitVec 8)) : words order (l ++ l') = words order l ++ words order l' := by
  induction l using words.induct with
  | case1 _ _ rest ih =>
    have hrest : 2 ∣ rest.length := by
      simp only [length_cons] at h
      omega
    simp only [List.cons_append, words, ih hrest]
  | case2 =>
    simp only [length_singleton] at h
    omega
  | case3 => rfl

variable {buff} in
lemma lostCarries_lt (hlen : buff.length < 2 ^ 31) : lostCarries order buff seed < 0xffff := by
  have hwords := words_sum_le order buff
  unfold lostCarries total
  omega

variable {order buff seed} in
lemma lostCarries_eq_zero : lostCarries order buff seed = 0 ↔ total order buff seed < 2 ^ 31 := by
  unfold lostCarries
  omega

/-! ### Folding -/

lemma addHalves_toNat {n : ℕ} (hn : 32 ≤ n) (x : BitVec n) :
    (addHalves x).toNat = fold 16 x.toNat := by
  have hpow : 2 ^ 32 * 2 ^ (n - 32) = 2 ^ n := by rw [← pow_add, Nat.add_sub_cancel' hn]
  have hx := x.isLt
  have hmask : (0xffff#n).toNat = 2 ^ 16 - 1 := by
    rw [toNat_ofNat, Nat.mod_eq_of_lt (by omega)]
    rfl
  unfold addHalves fold
  rw [toNat_add, toNat_and, hmask, Nat.and_two_pow_sub_one_eq_mod,
    toNat_ushiftRight, Nat.shiftRight_eq_div_pow, Nat.mod_eq_of_lt]
  omega

lemma from32to16_toNat (x : BitVec 64) : (from32to16 x).toNat =
      fold 16 (fold 16 x.toNat) % 2 ^ 16 := by
  simp only [from32to16, toNat_setWidth, addHalves_toNat (by decide : 32 ≤ 64)]

lemma from32to16_of_nonneg (hs : s.toNat < 2 ^ 31) :
    (from32to16 (s.signExtend 64)).toNat = OnesComplement.norm 16 s.toNat := by
  have hext : (s.signExtend 64).toNat = s.toNat := by
    rw [toNat_signExtend, toNat_setWidth, msb_eq_decide, if_neg (by simpa using hs)]
    omega
  have hfold := fold_fold (w := 16) (x := s.toNat) (by omega)
  rw [from32to16_toNat, hext, hfold, Nat.mod_eq_of_lt]
  exact OnesComplement.norm_lt (by decide) _

lemma from32to16_of_neg (hs : 2 ^ 31 ≤ s.toNat) :
    (from32to16 (s.signExtend 64)).toNat + 1 = OnesComplement.norm 16 s.toNat := by
  have hext : (s.signExtend 64).toNat = 2 ^ 64 - 2 ^ 32 + s.toNat := by
    rw [toNat_signExtend, toNat_setWidth, msb_eq_decide, if_pos (by simpa using hs)]
    omega
  have hfold1 : fold 16 (2 ^ 64 - 2 ^ 32 + s.toNat) = 2 ^ 48 - 2 ^ 16 + fold 16 s.toNat := by
    unfold fold
    omega
  have hfold2 : ∀ y, fold 16 (2 ^ 48 - 2 ^ 16 + y) = 2 ^ 32 - 1 + fold 16 y := by
    intro y
    unfold fold
    omega
  have hfold := fold_fold (w := 16) (x := s.toNat) (by omega)
  have hpos : 0 < OnesComplement.norm 16 s.toNat := OnesComplement.norm_pos (by omega)
  have hnorm := OnesComplement.norm_lt (w := 16) (by decide) s.toNat
  rw [from32to16_toNat, hext, hfold1, hfold2, hfold]
  omega

lemma csumPartial_toNat :
    (csumPartial order buff seed).toNat =
      (from32to16 ((csumLoop order buff seed).signExtend 64)).toNat := by
  rw [csumPartial, toNat_setWidth, Nat.mod_eq_of_lt (by omega)]

lemma csumPartial_lt : (csumPartial order buff seed).toNat < 2 ^ 16 := by
  rw [csumPartial_toNat]
  exact BitVec.isLt _

variable {order buff seed} in
lemma csumPartial_eq_norm (h : total order buff seed < 2 ^ 31) :
    (csumPartial order buff seed).toNat = OnesComplement.norm 16 (total order buff seed) := by
  have hloop : (csumLoop order buff seed).toNat = total order buff seed := by
    rw [csumLoop_toNat, Nat.mod_eq_of_lt (by omega)]
  rw [csumPartial_toNat, from32to16_of_nonneg (by rwa [hloop]), hloop]

lemma csumPartial_add_lostCarries :
    (csumPartial order buff seed).toNat + lostCarries order buff seed ≡ total order buff seed
      [MOD 0xffff] := by
  have hloop := csumLoop_toNat order buff seed
  have hnorm := OnesComplement.norm_modEq 16 (csumLoop order buff seed).toNat
  rw [csumPartial_toNat]
  rcases lt_or_ge (csumLoop order buff seed).toNat (2 ^ 31) with hs | hs
  · rw [← from32to16_of_nonneg hs, hloop] at hnorm
    unfold lostCarries
    simp only [Nat.ModEq] at hnorm ⊢
    omega
  · rw [← from32to16_of_neg hs, hloop] at hnorm
    unfold lostCarries
    simp only [Nat.ModEq] at hnorm ⊢
    omega

lemma csumFold_of_lt (hr : r.toNat < 2 ^ 16) : csumFold r = ~~~ r.setWidth 16 := by
  have hhalves : addHalves r = r := by
    apply eq_of_toNat_eq
    rw [addHalves_toNat (by decide)]
    unfold fold
    omega
  rw [csumFold, hhalves, hhalves, setWidth_not (by decide)]

lemma csumFold_eq_internetChecksum_iff (hr : r.toNat < 2 ^ 16) (t : ℕ) :
    csumFold r = internetChecksum t ↔ r.toNat = OnesComplement.norm 16 t := by
  have hnorm := OnesComplement.norm_lt (w := 16) (by decide) t
  rw [csumFold_of_lt hr, internetChecksum, BitVec.not_inj, ← BitVec.toNat_inj,
    toNat_setWidth, toNat_ofNat, Nat.mod_eq_of_lt hr, Nat.mod_eq_of_lt hnorm]

/-! ### When the result is the Internet checksum -/

variable {order buff seed} in
lemma csumPartial_modEq_iff (hlen : buff.length < 2 ^ 31) :
    (csumPartial order buff seed).toNat ≡ total order buff seed [MOD 0xffff] ↔
      total order buff seed < 2 ^ 31 := by
  have hsum := csumPartial_add_lostCarries order buff seed
  have hlt := lostCarries_lt order seed hlen
  rw [← lostCarries_eq_zero]
  simp only [Nat.ModEq] at hsum ⊢
  omega

end

/-- The result is the total up to `0xffff`, and `csum_fold` turns it into the checksum. -/
def ChecksumLaw (order : ByteOrder) (buff : List (BitVec 8)) (seed : BitVec 32) : Prop :=
  (csumPartial order buff seed).toNat ≡ total order buff seed [MOD 0xffff] ∧
    csumFold (csumPartial order buff seed) = internetChecksum (total order buff seed)

/-- The law holds exactly as long as the sum stays below `2 ^ 31`, and two seeds that are equal
modulo `0xffff` give results that are equal modulo `0xffff` exactly if they lose equally many
carries. -/
theorem checksumLaw_iff_total_lt (order : ByteOrder) (buff : List (BitVec 8)) (seed : BitVec 32)
    (hlen : buff.length < 2 ^ 31) : (ChecksumLaw order buff seed ↔ total order buff seed < 2 ^ 31) ∧
      ∀ seed' : BitVec 32, seed'.toNat ≡ seed.toNat [MOD 0xffff] →
        ((csumPartial order buff seed').toNat ≡ (csumPartial order buff seed).toNat [MOD 0xffff] ↔
          lostCarries order buff seed' = lostCarries order buff seed) := by
  refine ⟨⟨fun h => (csumPartial_modEq_iff hlen).1 h.1, fun h => ?_⟩, fun seed' hseed => ?_⟩
  · refine ⟨(csumPartial_modEq_iff hlen).2 h, ?_⟩
    rw [csumFold_eq_internetChecksum_iff (csumPartial_lt ..)]
    exact csumPartial_eq_norm h
  · have htotal : total order buff seed' ≡ total order buff seed [MOD 0xffff] :=
      hseed.add_right _
    have hsum := csumPartial_add_lostCarries order buff seed
    have hsum' := csumPartial_add_lostCarries order buff seed'
    have hlt := lostCarries_lt order seed hlen
    have hlt' := lostCarries_lt order seed' hlen
    simp only [Nat.ModEq] at htotal hsum hsum' ⊢
    omega

theorem checksumLaw_iff_total_lt_header : ChecksumLaw .little [0x45, 0x00, 0x00, 0x54] 0 := by
  refine (checksumLaw_iff_total_lt .little [0x45, 0x00, 0x00, 0x54] 0 (by decide)).1.2 ?_
  decide

/-- With a seed of `2 ^ 31` an empty buffer gives `0x7fff`, although the seed is `0x8000` modulo
`0xffff` and the seed `0x8000` gives `0x8000`. -/
theorem not_checksumLaw_two_pow_31 : ¬ ChecksumLaw .little [] 0x80000000 ∧
      csumPartial .little [] 0x80000000 = 0x7fff ∧ csumPartial .little [] 0x8000 = 0x8000 := by
  refine ⟨fun h => ?_, by decide, by decide⟩
  exact absurd h.1 (by decide)

/-- An IP header is too short for its sum to reach `2 ^ 31`. -/
theorem ipFastCsum_eq_internetChecksum (order : ByteOrder) (iph : List (BitVec 8)) (ihl : ℕ)
    (hihl : ihl ≤ 2 ^ 14) :
    ipFastCsum order iph ihl = internetChecksum (words order (iph.take (ihl * 4))).sum := by
  have hlen : (iph.take (ihl * 4)).length ≤ 2 ^ 16 := by
    rw [length_take]
    omega
  have htotal : total order (iph.take (ihl * 4)) 0 = (words order (iph.take (ihl * 4))).sum := by
    simp [total]
  have hwords := words_sum_le order (iph.take (ihl * 4))
  rw [ipFastCsum, ← htotal, csumFold_eq_internetChecksum_iff (csumPartial_lt ..)]
  exact csumPartial_eq_norm (by omega)

theorem ipFastCsum_eq_internetChecksum_header : ipFastCsum .little [0x45, 0, 0, 0x54] 1 =
    internetChecksum (words .little [0x45, 0, 0, 0x54]).sum :=
  ipFastCsum_eq_internetChecksum .little _ 1 (by decide)

end LklPort.Checksum
