import Mathlib.Data.Multiset.Filter
import Mathlib.Data.Nat.Bitwise

/-!
# Tilings by blocks of power-of-two size

A block of order `o` has `2 ^ o` places. Its number is what is left of the number of each of its
places without the last `o` binary digits, so two blocks overlap only if one is within the other.
Two blocks of an order are buddies if they differ in the last digit of their numbers. Together they
are a block of the next order, their parent.

Some blocks tile a region if each place of the region is in exactly one of them and no other place
is in any.
-/

namespace Tiling

open Multiset

/-- The block of the given order with the place `head` in it. -/
structure Block where
  order : ℕ
  head : ℕ
deriving DecidableEq

namespace Block

variable {b : Block} {o n p : ℕ}

/-- The place is in the block. -/
def Covers (b : Block) (p : ℕ) : Prop := p / 2 ^ b.order = b.head / 2 ^ b.order
  deriving Decidable

/-- The head is the first place of the block. -/
def Aligned (b : Block) : Prop := 2 ^ b.order ∣ b.head
  deriving Decidable

def buddy (b : Block) : Block := ⟨b.order, b.head ^^^ 2 ^ b.order⟩

def parent (b : Block) : Block := ⟨b.order + 1, b.head.ldiff (2 ^ b.order)⟩

lemma covers_head (b : Block) : b.Covers b.head := rfl

lemma Aligned.covers_iff (hb : b.Aligned) : b.Covers p ↔ b.head ≤ p ∧ p < b.head + 2 ^ b.order := by
  obtain ⟨i, hi⟩ := hb
  have hpos : 0 < 2 ^ b.order := Nat.two_pow_pos _
  rw [Covers, hi, Nat.mul_div_cancel_left _ hpos, Nat.div_eq_iff hpos, mul_comm i]
  omega

/-! ### Buddies -/

lemma buddy_buddy (b : Block) : b.buddy.buddy = b := by simp [buddy]

lemma buddy_ne (b : Block) : b.buddy ≠ b := by
  intro h
  have hbit := congrArg (fun c : Block => c.head.testBit b.order) h
  simp [buddy] at hbit

lemma buddy_index (b : Block) : b.buddy.head / 2 ^ b.order = (b.head / 2 ^ b.order) ^^^ 2 ^ 0 := by
  apply Nat.eq_of_testBit_eq
  intro i
  simp only [buddy, Nat.testBit_div_two_pow, Nat.testBit_xor, Nat.testBit_two_pow]
  simp [eq_comm]

lemma parent_div {k : ℕ} (hk : b.order < k) : b.parent.head / 2 ^ k = b.head / 2 ^ k := by
  apply Nat.eq_of_testBit_eq
  intro i
  have hne : b.order ≠ i + k := by omega
  simp [parent, Nat.testBit_ldiff, Nat.testBit_div_two_pow, hne]

lemma ite_half (q i : ℕ) : (if q / 2 = i / 2 then 1 else 0) =
    (if q = i then 1 else 0) + if q = i ^^^ 1 then 1 else 0 := by
  rcases Nat.even_or_odd i with h | h
  · rw [Nat.xor_one_of_even h]
    rw [Nat.even_iff] at h
    split_ifs <;> omega
  · rw [Nat.xor_one_of_odd h]
    rw [Nat.odd_iff] at h
    split_ifs <;> omega

lemma covers_parent (b : Block) (p : ℕ) : (if b.parent.Covers p then 1 else 0) =
      (if b.Covers p then 1 else 0) + if b.buddy.Covers p then 1 else 0 := by
  have hbuddy : b.buddy.Covers p ↔ p / 2 ^ b.order = (b.head / 2 ^ b.order) ^^^ 1 := by
    rw [← pow_zero 2, ← buddy_index]
    rfl
  have hparent : b.parent.Covers p ↔ p / 2 ^ b.order / 2 = b.head / 2 ^ b.order / 2 := by
    rw [Nat.div_div_eq_div_mul, Nat.div_div_eq_div_mul, ← pow_succ,
      ← parent_div b.order.lt_succ_self]
    rfl
  rw [if_congr hbuddy rfl rfl, if_congr hparent rfl rfl, ite_half]
  rfl

lemma two_pow_dvd_iff {k : ℕ} : 2 ^ k ∣ n ↔ ∀ i < k, n.testBit i = false := by
  rw [Nat.dvd_iff_mod_eq_zero, Nat.eq_iff_testBit_eq]
  simp only [Nat.testBit_mod_two_pow, Nat.zero_testBit, Bool.and_eq_false_iff,
    decide_eq_false_iff_not, ← imp_iff_not_or]

lemma Aligned.buddy (hb : b.Aligned) : b.buddy.Aligned := by
  refine two_pow_dvd_iff.mpr fun i hi => ?_
  have hne : b.order ≠ i := ne_of_gt hi
  simp [Block.buddy, two_pow_dvd_iff.mp hb i hi, hne]

lemma Aligned.parent (hb : b.Aligned) : b.parent.Aligned := by
  refine two_pow_dvd_iff.mpr fun i hi => ?_
  rcases Nat.lt_succ_iff_lt_or_eq.mp hi with hlt | rfl
  · simp [Block.parent, Nat.testBit_ldiff, two_pow_dvd_iff.mp hb i hlt]
  · simp [Block.parent, Nat.testBit_ldiff]

lemma buddy_of_dvd (h : 2 ^ (o + 1) ∣ n) : buddy ⟨o, n⟩ = ⟨o, n + 2 ^ o⟩ := by
  have hbit := two_pow_dvd_iff.mp h o (Nat.lt_succ_self o)
  obtain ⟨i, rfl⟩ := h
  have hlt : 2 ^ o < 2 ^ (o + 1) := Nat.pow_lt_pow_succ (by omega)
  have hhead : (2 ^ (o + 1) * i) ^^^ 2 ^ o = 2 ^ (o + 1) * i + 2 ^ o := by
    rw [Nat.two_pow_add_eq_or_of_lt hlt]
    apply Nat.eq_of_testBit_eq
    intro j
    by_cases hj : o = j
    · simp [← hj, hbit]
    · simp [hj]
  rw [buddy, hhead]

lemma parent_of_dvd (h : 2 ^ (o + 1) ∣ n) : parent ⟨o, n⟩ = ⟨o + 1, n⟩ := by
  have hbit := two_pow_dvd_iff.mp h o (Nat.lt_succ_self o)
  have hhead : n.ldiff (2 ^ o) = n := by
    apply Nat.eq_of_testBit_eq
    intro i
    by_cases hi : o = i
    · simp [← hi, hbit]
    · simp [hi]
  rw [parent, hhead]

lemma buddy_div {k : ℕ} (hk : b.order < k) : b.buddy.head / 2 ^ k = b.head / 2 ^ k := by
  apply Nat.eq_of_testBit_eq
  intro i
  have hne : b.order ≠ i + k := by omega
  simp [buddy, Nat.testBit_div_two_pow, hne]

end Block

/-! ### Tilings -/

/-- Each place of the region is in exactly one of the blocks, and no other place is in any. -/
structure Tiles (B : Multiset Block) (R : Set ℕ) : Prop where
  one : ∀ p ∈ R, B.countP (Block.Covers · p) = 1
  zero : ∀ p ∉ R, B.countP (Block.Covers · p) = 0

section Tiles

variable {B C : Multiset Block} {R : Set ℕ} {b c : Block} {p : ℕ}

lemma Tiles.congr (h : Tiles B R)
    (hBC : ∀ p, C.countP (Block.Covers · p) = B.countP (Block.Covers · p)) : Tiles C R where
  one p hp := (hBC p).trans (h.one p hp)
  zero p hp := (hBC p).trans (h.zero p hp)

lemma tiles_parent : Tiles (b.parent ::ₘ B) R ↔ Tiles (b ::ₘ b.buddy ::ₘ B) R := by
  have hcount : ∀ p, (b.parent ::ₘ B).countP (Block.Covers · p) =
      (b ::ₘ b.buddy ::ₘ B).countP (Block.Covers · p) := by
    intro p
    simp only [countP_cons, Block.covers_parent]
    omega
  exact ⟨fun h => h.congr fun p => (hcount p).symm, fun h => h.congr hcount⟩

lemma Tiles.le_one (h : Tiles B R) (p : ℕ) : B.countP (Block.Covers · p) ≤ 1 := by
  by_cases hp : p ∈ R
  · exact (h.one p hp).le
  · exact (h.zero p hp).le.trans (Nat.zero_le 1)

lemma Tiles.mem_of_covers (h : Tiles B R) (hb : b ∈ B) (hp : b.Covers p) : p ∈ R := by
  by_contra hR
  exact Multiset.countP_eq_zero.mp (h.zero p hR) b hb hp

lemma Tiles.not_covers (h : Tiles (b ::ₘ B) R) (hc : c ∈ B) (hp : b.Covers p) : ¬ c.Covers p := by
  intro hcp
  have hle := h.le_one p
  have hpos : 0 < B.countP (Block.Covers · p) := Multiset.countP_pos.mpr ⟨c, hc, hcp⟩
  rw [countP_cons, if_pos hp] at hle
  omega

lemma Tiles.notMem (h : Tiles (b ::ₘ B) R) : b ∉ B :=
  fun hb => h.not_covers hb b.covers_head b.covers_head

lemma Tiles.nodup (h : Tiles B R) : B.Nodup := by
  apply Multiset.nodup_iff_ne_cons_cons.mpr
  rintro b C rfl
  exact h.notMem (mem_cons_self b C)

lemma Tiles.eq_of_covers (h : Tiles B R) (hb : b ∈ B) (hc : c ∈ B) (hbp : b.Covers p)
    (hcp : c.Covers p) : b = c := by
  obtain ⟨C, rfl⟩ := exists_cons_of_mem hb
  rcases Multiset.mem_cons.mp hc with rfl | hc
  · rfl
  · exact absurd hcp (h.not_covers hc hbp)

end Tiles

end Tiling
