import LklPort.Checksum.Partial
import Mathlib.Data.Nat.Bitwise

/-!
# `do_csum`

`lib/checksum.c` sums a buffer in units of four bytes where it can. It delays the carry out of an
addition to the next one, and finds out about it by a comparison. A buffer at an odd address is
summed with its bytes swapped. The host is little-endian.
-/

namespace LklPort.Checksum.Generic

open OnesComplement List BitVec

/-! ### The functions of `lib/checksum.c` -/

def from32to16 (x : BitVec 32) : BitVec 16 := (addHalves (addHalves x)).setWidth 16

/-- `*(unsigned short *) buff` -/
def ushort (buff : List (BitVec 8)) : BitVec 16 := buff.getD 1 0 ++ buff.getD 0 0

/-- `*(unsigned int *) buff` -/
def uint (buff : List (BitVec 8)) : BitVec 32 := ushort (buff.drop 2) ++ ushort buff

/-- The loop over 32-bit words: `result` and `carry` at its end. -/
def loop : ℕ → List (BitVec 8) → BitVec 32 → BitVec 32 → BitVec 32 × BitVec 32
  | 0, _, result, carry => (result, carry)
  | count + 1, buff, result, carry =>
    let w := uint buff
    let result := result + carry + w
    loop count (buff.drop 4) result (if w > result then 1 else 0)

/-- The sum of `count` 32-bit words, and what is left of the buffer. -/
def sumWords (count : ℕ) (buff : List (BitVec 8)) (result : BitVec 32) :
    BitVec 32 × List (BitVec 8) :=
  if count = 0 then (result, buff)
  else
    let (result, carry) := loop count buff result 0
    (addHalves (result + carry), buff.drop (4 * count))

/-- A halfword is added if the condition holds. -/
def sumShort (c : Bool) (buff : List (BitVec 8)) (result : BitVec 32) :
    BitVec 32 × List (BitVec 8) :=
  if c then (result + (ushort buff).setWidth 32, buff.drop 2) else (result, buff)

/-- The words from a 4-byte boundary on. -/
def sumAligned (buff : List (BitVec 8)) (result : BitVec 32) : BitVec 32 × List (BitVec 8) :=
  let x := sumWords ((buff.length >>> 1) >>> 1) buff result
  sumShort (buff.length &&& 2 ≠ 0) x.2 x.1

/-- The part of `do_csum` for the 16-bit words from an even address on. -/
def sumShorts (addr : BitVec 64) (buff : List (BitVec 8)) (result : BitVec 32) :
    BitVec 32 × List (BitVec 8) :=
  if buff.length >>> 1 = 0 then (result, buff)
  else
    let x := sumShort (addr &&& 2 ≠ 0) buff result
    sumAligned x.2 x.1

/-- `do_csum`, from where `buff` is at an even address to where `result` has been folded. -/
def sumEven (addr : BitVec 64) (buff : List (BitVec 8)) (result : BitVec 32) : BitVec 32 :=
  let x := sumShorts addr buff result
  let result := if buff.length &&& 1 ≠ 0 then x.1 + (x.2.getD 0 0).setWidth 32 else x.1
  (from32to16 result).setWidth 32

/-- `((result >> 8) & 0xff) | ((result & 0xff) << 8)` -/
def swapBytes (result : BitVec 32) : BitVec 32 :=
  ((result >>> 8) &&& 0xff#32) ||| ((result &&& 0xff#32) <<< 8)

/-- `do_csum` of the bytes at the address `addr`. -/
def doCsum (addr : BitVec 64) (buff : List (BitVec 8)) : BitVec 32 :=
  if buff.length = 0 then 0
  else if addr &&& 1 = 1 then
    swapBytes (sumEven (addr + 1) (buff.drop 1) ((buff.getD 0 0).setWidth 32 <<< 8))
  else sumEven addr buff 0

/-! ### Sums of words -/

/-- The sum of the little-endian words of a buffer. -/
def wordSum (buff : List (BitVec 8)) : ℕ := (words .little buff).sum

@[simp] lemma wordSum_nil : wordSum [] = 0 := rfl

@[simp] lemma wordSum_singleton (a : BitVec 8) : wordSum [a] = a.toNat := by
  simp [wordSum, words]

lemma word_toNat (a b : BitVec 8) : (b ++ a).toNat = a.toNat + 256 * b.toNat := by
  rw [toNat_append, ← Nat.shiftLeft_add_eq_or_of_lt a.isLt, Nat.shiftLeft_eq]
  omega

@[simp] lemma wordSum_cons_cons (a b : BitVec 8) (buff : List (BitVec 8)) :
    wordSum (a :: b :: buff) = a.toNat + 256 * b.toNat + wordSum buff := by
  simp [wordSum, words, word, word_toNat]

lemma wordSum_append {l : List (BitVec 8)} (h : 2 ∣ l.length) (l' : List (BitVec 8)) :
    wordSum (l ++ l') = wordSum l + wordSum l' := by
  rw [wordSum, words_append .little h, sum_append]
  rfl

variable {buff : List (BitVec 8)} {n B : ℕ} {x : BitVec 32}

lemma wordSum_take_add_drop (hn : 2 ∣ n) (h : n ≤ buff.length) :
    wordSum (buff.take n) + wordSum (buff.drop n) = wordSum buff := by
  rw [← wordSum_append (by rwa [length_take_of_le h]), take_append_drop]

lemma wordSum_cons (a : BitVec 8) (buff : List (BitVec 8)) :
    Represents 16 (a.toNat + 256 * wordSum buff) (wordSum (a :: buff)) := by
  induction buff using words.induct generalizing a with
  | case1 _ c _ ih =>
    obtain ⟨hmod, hzero⟩ := ih c
    simp only [wordSum_cons_cons]
    refine ⟨?_, fun h => by omega⟩
    simp only [Nat.ModEq] at hmod ⊢
    omega
  | case2 | case3 => simpa using Represents.refl 16 _

lemma wordSum_eq_zero (h : wordSum buff = 0) : ∀ b ∈ buff, b = 0 := by
  induction buff using words.induct with
  | case1 a b _ ih =>
    rw [wordSum_cons_cons] at h
    have ha : a = 0 := eq_of_toNat_eq (Nat.eq_zero_of_le_zero (by omega))
    have hb : b = 0 := eq_of_toNat_eq (Nat.eq_zero_of_le_zero (by omega))
    simp only [mem_cons, forall_eq_or_imp]
    exact ⟨ha, hb, ih (by omega)⟩
  | case2 =>
    rw [wordSum_singleton] at h
    simpa using eq_of_toNat_eq h
  | case3 => simp

lemma ushort_toNat (h : 2 ≤ buff.length) : (ushort buff).toNat = wordSum (buff.take 2) := by
  match buff, h with
  | a :: b :: rest, _ => simp [ushort, word_toNat]

lemma uint_represents (buff : List (BitVec 8)) (h : 4 ≤ buff.length) :
    Represents 16 (uint buff).toNat (wordSum (buff.take 4)) := by
  match buff, h with
  | a :: b :: c :: d :: rest, _ =>
    have huint : (uint (a :: b :: c :: d :: rest)).toNat =
        2 ^ 16 * (c.toNat + 256 * d.toNat) + (a.toNat + 256 * b.toNat) := by
      rw [uint, toNat_append, ← Nat.shiftLeft_add_eq_or_of_lt (BitVec.isLt _),
        Nat.shiftLeft_eq, ushort, ushort, word_toNat, word_toNat]
      simp
      omega
    simp only [take_succ_cons, take_zero, wordSum_cons_cons, wordSum_nil]
    refine ⟨?_, fun hzero => by omega⟩
    simp only [Nat.ModEq]
    omega

/-! ### The loop -/

lemma add_carry (r c w : BitVec 32) (hc : c.toNat ≤ 1) (hr : c.toNat = 1 → r.toNat < 2 ^ 32 - 1) :
    ∃ c' : BitVec 32, (if w > r + c + w then 1 else 0 : BitVec 32) = c' ∧ c'.toNat ≤ 1 ∧
      (c'.toNat = 1 → (r + c + w).toNat < 2 ^ 32 - 1) ∧
      (r + c + w).toNat + 2 ^ 32 * c'.toNat = r.toNat + c.toNat + w.toNat := by
  have hsum : (r + c + w).toNat = (r.toNat + c.toNat + w.toNat) % 2 ^ 32 := by
    simp only [toNat_add, Nat.mod_add_mod]
  by_cases hcarry : w > r + c + w
  · have hlt : (r + c + w).toNat < w.toNat := hcarry
    refine ⟨1, if_pos hcarry, le_rfl, fun _ => by omega, ?_⟩
    change (r + c + w).toNat + 2 ^ 32 * 1 = _
    omega
  · have hle : w.toNat ≤ (r + c + w).toNat := Nat.le_of_not_lt hcarry
    refine ⟨0, if_neg hcarry, Nat.zero_le 1, nofun, ?_⟩
    change (r + c + w).toNat + 2 ^ 32 * 0 = _
    omega

lemma loop_represents (count : ℕ) (buff : List (BitVec 8)) (r c : BitVec 32)
    (hlen : 4 * count ≤ buff.length) (hc : c.toNat ≤ 1) (hr : c.toNat = 1 → r.toNat < 2 ^ 32 - 1) :
    Represents 16 ((loop count buff r c).1 + (loop count buff r c).2).toNat
      (r.toNat + c.toNat + wordSum (buff.take (4 * count))) := by
  induction count generalizing buff r c with
  | zero =>
    have hfit : r.toNat + c.toNat < 2 ^ 32 := by
      omega
    simp only [loop, toNat_add, Nat.mod_eq_of_lt hfit]
    exact .refl 16 _
  | succ n ih =>
    obtain ⟨c', hc', hle, hlt, hsum⟩ := add_carry r c (uint buff) hc hr
    have hrest := ih (buff.drop 4) (r + c + uint buff) c' (by rw [length_drop]; omega) hle hlt
    have hcut : wordSum (buff.take (4 * (n + 1))) =
        wordSum (buff.take 4) + wordSum ((buff.drop 4).take (4 * n)) := by
      rw [Nat.mul_succ, add_comm, take_add, wordSum_append (by rw [length_take]; omega)]
    have hstep : Represents 16 ((r + c + uint buff).toNat + c'.toNat)
        (r.toNat + c.toNat + (uint buff).toNat) := by
      refine ⟨?_, fun hzero => by omega⟩
      simp only [Nat.ModEq]
      omega
    have hword := uint_represents buff (by omega)
    simp only [loop, hc']
    apply hrest.trans
    rw [hcut, ← add_assoc]
    exact (hstep.trans ((Represents.refl 16 _).add hword)).add (.refl 16 _)

/-! ### The parts of a buffer -/

/-- From `r` and `buff` to `x`, an even number of bytes has been added. -/
structure Adds (r : BitVec 32) (buff : List (BitVec 8)) (x : BitVec 32 × List (BitVec 8))
    (n : ℕ) : Prop where
  even : 2 ∣ n
  le : n ≤ buff.length
  left : x.2 = buff.drop n
  result : Represents 16 x.1.toNat (r.toNat + wordSum (buff.take n))

variable {r : BitVec 32} (buff : List (BitVec 8))

lemma Adds.nothing : Adds r buff (r, buff) 0 :=
  ⟨⟨0, rfl⟩, Nat.zero_le _, rfl, .refl 16 _⟩

variable {buff} in
lemma Adds.trans {x y : BitVec 32 × List (BitVec 8)} {m : ℕ} (h : Adds r buff x n)
    (h' : Adds x.1 x.2 y m) : Adds r buff y (n + m) := by
  have hle := h'.le
  rw [h.left, length_drop] at hle
  have hn := h.le
  refine ⟨Nat.dvd_add h.even h'.even, by omega, ?_, ?_⟩
  · rw [h'.left, h.left, drop_drop]
  · have hcut : wordSum (buff.take (n + m)) =
        wordSum (buff.take n) + wordSum ((buff.drop n).take m) := by
      rw [take_add, wordSum_append]
      rw [length_take_of_le h.le]
      exact h.even
    rw [hcut, ← add_assoc, ← h.left]
    exact h'.result.trans (h.result.add (.refl 16 _))

lemma sumShort_adds (c : Bool) (hr : r.toNat < B) (hB : B + 2 ^ 16 ≤ 2 ^ 32)
    (hlen : c = true → 2 ≤ buff.length) : Adds r buff (sumShort c buff r) (if c then 2 else 0) ∧
      (sumShort c buff r).1.toNat < B + 2 ^ 16 := by
  cases c with
  | false => exact ⟨.nothing buff, by simpa [sumShort] using Nat.lt_add_right _ hr⟩
  | true =>
    have hsum : (r + (ushort buff).setWidth 32).toNat = r.toNat + (ushort buff).toNat := by
      rw [toNat_add, toNat_setWidth, Nat.mod_eq_of_lt (by omega), Nat.mod_eq_of_lt (by omega)]
    refine ⟨⟨⟨1, rfl⟩, hlen rfl, rfl, ?_⟩, ?_⟩
    · simp only [sumShort, if_true, hsum, ushort_toNat (hlen rfl)]
      exact .refl 16 _
    · simp only [sumShort, if_true, hsum]
      omega

lemma sumWords_adds (count : ℕ) (hr : r.toNat < B) (hB : 2 ^ 17 ≤ B)
    (hlen : 4 * count ≤ buff.length) :
    Adds r buff (sumWords count buff r) (4 * count) ∧ (sumWords count buff r).1.toNat < B := by
  by_cases hzero : count = 0
  · subst hzero
    exact ⟨.nothing buff, hr⟩
  · have hloop := loop_represents count buff r 0 hlen (Nat.zero_le 1) nofun
    have hsum : sumWords count buff r = (addHalves ((loop count buff r 0).1 +
        (loop count buff r 0).2), buff.drop (4 * count)) := if_neg hzero
    have hfold := addHalves_toNat le_rfl ((loop count buff r 0).1 + (loop count buff r 0).2)
    rw [hsum]
    refine ⟨⟨by omega, hlen, rfl, ?_⟩, ?_⟩
    · rw [hfold]
      exact (Represents.fold 16 _).trans hloop
    · have hlt := fold_lt (w := 16) ((loop count buff r 0).1 + (loop count buff r 0).2).isLt
      dsimp only
      omega

lemma and_two_ne_zero (n : ℕ) : n &&& 2 ≠ 0 ↔ n / 2 % 2 = 1 := by
  have hand : n &&& 2 = (n.testBit 1).toNat * 2 := Nat.and_two_pow n 1
  rw [hand, Nat.testBit_eq_decide_div_mod_eq, pow_one]
  by_cases h : n / 2 % 2 = 1 <;> simp [h]

lemma sumAligned_adds (hr : r.toNat < 2 ^ 17) :
    Adds r buff (sumAligned buff r) (buff.length - buff.length % 2) ∧
      (sumAligned buff r).1.toNat < 2 ^ 18 := by
  obtain ⟨h1, hlt1⟩ := sumWords_adds buff ((buff.length >>> 1) >>> 1) hr le_rfl (by omega)
  have hleft : (sumWords ((buff.length >>> 1) >>> 1) buff r).2.length = buff.length % 4 := by
    rw [h1.left, length_drop, Nat.shiftRight_eq_div_pow, Nat.shiftRight_eq_div_pow]
    omega
  have hlen : decide (buff.length &&& 2 ≠ 0) = true →
      2 ≤ (sumWords ((buff.length >>> 1) >>> 1) buff r).2.length := by
    rw [decide_eq_true_iff, and_two_ne_zero, hleft]
    omega
  obtain ⟨h2, hlt2⟩ := sumShort_adds _ (buff.length &&& 2 ≠ 0) hlt1 (by decide) hlen
  have hcount : 4 * ((buff.length >>> 1) >>> 1) + (if decide (buff.length &&& 2 ≠ 0) then 2 else 0)
      = buff.length - buff.length % 2 := by
    simp only [decide_eq_true_iff, and_two_ne_zero, Nat.shiftRight_eq_div_pow]
    split_ifs <;> omega
  refine ⟨hcount ▸ h1.trans h2, ?_⟩
  rw [sumAligned]
  omega

lemma sumShorts_adds (addr : BitVec 64) (hr : r.toNat < 2 ^ 16) :
    Adds r buff (sumShorts addr buff r) (buff.length - buff.length % 2) ∧
      (sumShorts addr buff r).1.toNat < 2 ^ 18 := by
  rw [sumShorts, Nat.shiftRight_eq_div_pow]
  split_ifs with hshort
  · have hnone : buff.length - buff.length % 2 = 0 := by omega
    rw [hnone]
    exact ⟨.nothing buff, by dsimp only; omega⟩
  · obtain ⟨h1, hlt1⟩ := sumShort_adds buff (addr &&& 2 ≠ 0) hr (by decide)
      (fun _ => by omega)
    obtain ⟨h2, hlt2⟩ := sumAligned_adds (sumShort (addr &&& 2 ≠ 0) buff r).2 hlt1
    refine ⟨?_, hlt2⟩
    have hcount : (if decide (addr &&& 2 ≠ 0) then 2 else 0) +
        ((sumShort (addr &&& 2 ≠ 0) buff r).2.length -
          (sumShort (addr &&& 2 ≠ 0) buff r).2.length % 2) = buff.length - buff.length % 2 := by
      rw [h1.left, length_drop]
      split_ifs <;> omega
    exact hcount ▸ h1.trans h2

lemma from32to16_toNat (x : BitVec 32) : (from32to16 x).toNat = norm 16 x.toNat := by
  have hfold := fold_fold (w := 16) x.isLt
  have hlt := norm_lt (w := 16) (by decide) x.toNat
  rw [from32to16, toNat_setWidth, addHalves_toNat le_rfl, addHalves_toNat le_rfl, hfold,
    Nat.mod_eq_of_lt hlt]

lemma sumEven_represents (addr : BitVec 64) (hr : r.toNat < 2 ^ 16) :
    Represents 16 (sumEven addr buff r).toNat (r.toNat + wordSum buff) ∧
      (sumEven addr buff r).toNat < 2 ^ 16 := by
  obtain ⟨h, hlt⟩ := sumShorts_adds buff addr hr
  rw [sumEven]
  generalize sumShorts addr buff r = x at h hlt
  have hwords := wordSum_take_add_drop h.even h.le
  have hsum : Represents 16
      (if buff.length &&& 1 ≠ 0 then x.1 + (x.2.getD 0 0).setWidth 32 else x.1).toNat
      (r.toNat + wordSum buff) := by
    rw [← hwords, ← add_assoc, ← h.left, Nat.and_one_is_mod]
    have hlen : x.2.length = buff.length % 2 := by
      rw [h.left, length_drop]
      omega
    split_ifs with hodd
    · obtain ⟨b, hb⟩ := List.length_eq_one_iff.mp (hlen.trans (by omega))
      have hadd : (x.1 + (x.2.getD 0 0).setWidth 32).toNat = x.1.toNat + wordSum x.2 := by
        rw [hb, wordSum_singleton, toNat_add, toNat_setWidth, getD_cons_zero,
          Nat.mod_eq_of_lt (by omega), Nat.mod_eq_of_lt (by omega)]
      rw [hadd]
      exact h.result.add (.refl 16 _)
    · have hnil : x.2 = [] := List.length_eq_zero_iff.mp (by omega)
      rw [hnil, wordSum_nil, add_zero]
      exact h.result
  have hlt := norm_lt (w := 16) (by decide)
    (if buff.length &&& 1 ≠ 0 then x.1 + (x.2.getD 0 0).setWidth 32 else x.1).toNat
  rw [toNat_setWidth, from32to16_toNat, Nat.mod_eq_of_lt (by omega)]
  exact ⟨(Represents.norm 16 _).trans hsum, hlt⟩

/-! ### The result -/

lemma swapBytes_toNat (hx : x.toNat < 2 ^ 16) :
    (swapBytes x).toNat = 256 * (x.toNat % 256) + x.toNat / 256 := by
  have hhigh : (x >>> 8 &&& 0xff#32).toNat = x.toNat / 256 := by
    rw [toNat_and, toNat_ushiftRight, Nat.shiftRight_eq_div_pow]
    change x.toNat / 2 ^ 8 &&& 2 ^ 8 - 1 = _
    rw [Nat.and_two_pow_sub_one_eq_mod]
    omega
  have hlow : (x &&& 0xff#32).toNat = x.toNat % 256 := by
    exact Nat.and_two_pow_sub_one_eq_mod x.toNat 8
  have hshift : ((x &&& 0xff#32) <<< 8).toNat = (x.toNat % 256) <<< 8 := by
    rw [toNat_shiftLeft, hlow, Nat.shiftLeft_eq]
    omega
  rw [swapBytes, toNat_or, hhigh, hshift, Nat.or_comm,
    ← Nat.shiftLeft_add_eq_or_of_lt (by omega), Nat.shiftLeft_eq]
  omega

lemma swapBytes_represents (hx : x.toNat < 2 ^ 16) :
    Represents 16 (swapBytes x).toNat (256 * x.toNat) := by
  rw [swapBytes_toNat hx]
  refine ⟨?_, fun h => by omega⟩
  simp only [Nat.ModEq]
  omega

lemma doCsum_represents (addr : BitVec 64) :
    Represents 16 (doCsum addr buff).toNat (wordSum buff) := by
  match buff with
  | [] => exact .refl 16 0
  | b :: rest =>
    by_cases hodd : addr &&& 1 = 1
    · have hfirst : (b.setWidth 32 <<< 8).toNat = 256 * b.toNat := by
        rw [toNat_shiftLeft, toNat_setWidth, Nat.shiftLeft_eq]
        omega
      have hrun : doCsum addr (b :: rest) =
          swapBytes (sumEven (addr + 1) rest (b.setWidth 32 <<< 8)) := if_pos hodd
      obtain ⟨hsum, hlt⟩ := sumEven_represents (r := b.setWidth 32 <<< 8) rest (addr + 1) (by omega)
      rw [hrun]
      refine ((swapBytes_represents hlt).trans ?_).trans (wordSum_cons b rest)
      have hmod := hsum.1
      refine ⟨?_, fun h => by have := hsum.2 (by omega); omega⟩
      simp only [Nat.ModEq] at hmod ⊢
      omega
    · have hrun : doCsum addr (b :: rest) = sumEven addr (b :: rest) 0 := if_neg hodd
      rw [hrun]
      simpa using (sumEven_represents (r := 0) (b :: rest) addr (by decide)).1

/-- `do_csum` computes the one's-complement sum of the words, at any address. -/
theorem doCsum_law (addr : BitVec 64) (buff : List (BitVec 8)) :
    (doCsum addr buff).toNat ≡ (words .little buff).sum [MOD 0xffff] ∧
      (doCsum addr buff = 0 → ∀ b ∈ buff, b = 0) := by
  have h := doCsum_represents buff addr
  refine ⟨h.1, fun hzero => wordSum_eq_zero (h.2 ?_)⟩
  rw [hzero]
  rfl

end LklPort.Checksum.Generic
