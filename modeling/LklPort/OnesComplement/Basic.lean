import Mathlib.Data.Nat.ModEq

/-!
# One's-complement sums

The sum of `w`-bit words with end-around carry is their sum modulo `2 ^ w - 1`, where the residue
zero has two representatives: the zero word, which only a sum of zero words gives, and the word
with all bits set. Programs compute it by adding the words into a wider accumulator and folding
the upper part of the accumulator back onto its lowest `w` bits.
-/

namespace OnesComplement

variable {w x y : ℕ}

/-- Add the upper part of `x` to its lowest `w` bits. -/
def fold (w x : ℕ) : ℕ := x % 2 ^ w + x / 2 ^ w

/-- The `w`-bit word that repeated folding of `x` ends in. -/
def norm (w x : ℕ) : ℕ := if x = 0 then 0 else (x - 1) % (2 ^ w - 1) + 1

lemma two_pow_modEq_one (w : ℕ) : 2 ^ w ≡ 1 [MOD 2 ^ w - 1] :=
  (Nat.modEq_iff_dvd' Nat.one_le_two_pow).2 dvd_rfl |>.symm

lemma fold_modEq (w x : ℕ) : fold w x ≡ x [MOD 2 ^ w - 1] := by
  calc x % 2 ^ w + x / 2 ^ w
      = x % 2 ^ w + 1 * (x / 2 ^ w) := by rw [one_mul]
    _ ≡ x % 2 ^ w + 2 ^ w * (x / 2 ^ w) [MOD 2 ^ w - 1] :=
        ((two_pow_modEq_one w).symm.mul_right _).add_left _
    _ = x := Nat.mod_add_div x (2 ^ w)

lemma fold_pos (hx : 0 < x) : 0 < fold w x := by
  have h := Nat.mod_add_div x (2 ^ w)
  rcases Nat.eq_zero_or_pos (x / 2 ^ w) with hd | hd
  · rw [hd, mul_zero, add_zero] at h
    exact Nat.add_pos_left (h.symm ▸ hx) _
  · exact Nat.add_pos_right _ hd

lemma fold_lt (hx : x < 2 ^ w * 2 ^ w) : fold w x < 2 * 2 ^ w - 1 := by
  have hhigh : x / 2 ^ w < 2 ^ w := Nat.div_lt_of_lt_mul hx
  unfold fold
  omega

lemma fold_lt_two_pow (hx : x < 2 * 2 ^ w - 1) : fold w x < 2 ^ w := by
  unfold fold
  rcases lt_or_ge x (2 ^ w) with h | h
  · rw [Nat.mod_eq_of_lt h, Nat.div_eq_of_lt h]
    exact h
  · have hdiv : x / 2 ^ w = 1 := Nat.div_eq_of_lt_le (by omega) (by omega)
    have hmod : x % 2 ^ w = x - 2 ^ w := by
      rw [Nat.mod_eq_sub_mod h, Nat.mod_eq_of_lt (by omega)]
    omega

lemma norm_modEq (w x : ℕ) : norm w x ≡ x [MOD 2 ^ w - 1] := by
  unfold norm
  split_ifs with hx
  · rw [hx]
  · calc (x - 1) % (2 ^ w - 1) + 1
        ≡ x - 1 + 1 [MOD 2 ^ w - 1] := (Nat.mod_modEq _ _).add_right 1
      _ = x := Nat.succ_pred_eq_of_ne_zero hx

lemma norm_pos (hx : 0 < x) : 0 < norm w x := by
  simp [norm, hx.ne']

lemma norm_lt (hw : 2 ≤ 2 ^ w) (x : ℕ) : norm w x < 2 ^ w := by
  unfold norm
  split_ifs
  · omega
  · have := Nat.mod_lt (x - 1) (show 0 < 2 ^ w - 1 by omega)
    omega

lemma eq_norm (hy : y < 2 ^ w) (hpos : 0 < x → 0 < y) (hzero : x = 0 → y = 0)
    (h : y ≡ x [MOD 2 ^ w - 1]) : y = norm w x := by
  unfold norm
  split_ifs with hx
  · exact hzero hx
  · have hy0 := hpos (Nat.pos_of_ne_zero hx)
    have h' : y - 1 ≡ x - 1 [MOD 2 ^ w - 1] := by
      apply Nat.ModEq.add_right_cancel' 1
      rwa [Nat.sub_add_cancel hy0, Nat.sub_add_cancel (Nat.pos_of_ne_zero hx)]
    rw [← h', Nat.mod_eq_of_lt (by omega)]
    omega

lemma norm_eq_ones (hw : 2 ≤ 2 ^ w) (hx : 0 < x) (h : x ≡ 0 [MOD 2 ^ w - 1]) :
    norm w x = 2 ^ w - 1 := by
  refine (eq_norm (by omega) (fun _ => by omega) (fun h0 => absurd h0 hx.ne') ?_).symm
  exact (Nat.modEq_zero_iff_dvd.mpr dvd_rfl).trans h.symm

lemma fold_fold (hx : x < 2 ^ w * 2 ^ w) : fold w (fold w x) = norm w x := by
  refine eq_norm (fold_lt_two_pow (fold_lt hx)) (fun h => fold_pos (fold_pos h)) ?_
    ((fold_modEq w _).trans (fold_modEq w x))
  rintro rfl
  simp [fold]

/-! ### Numbers that stand for a sum -/

/-- The number `x` is as good as `y` for a sum of `w`-bit words: it has the same residue, and is
zero only if `y` is. -/
def Represents (w x y : ℕ) : Prop := x ≡ y [MOD 2 ^ w - 1] ∧ (x = 0 → y = 0)

namespace Represents

variable {x' y' z : ℕ}

lemma refl (w x : ℕ) : Represents w x x := ⟨Nat.ModEq.refl x, id⟩

lemma trans (h : Represents w x y) (h' : Represents w y z) : Represents w x z :=
  ⟨h.1.trans h'.1, fun hx => h'.2 (h.2 hx)⟩

lemma add (h : Represents w x y) (h' : Represents w x' y') : Represents w (x + x') (y + y') := by
  refine ⟨h.1.add h'.1, fun hx => ?_⟩
  obtain ⟨hx, hx'⟩ := Nat.add_eq_zero_iff.mp hx
  rw [h.2 hx, h'.2 hx']

lemma fold (w x : ℕ) : Represents w (fold w x) x := by
  refine ⟨fold_modEq w x, fun h => ?_⟩
  by_contra hx
  exact (fold_pos (Nat.pos_of_ne_zero hx)).ne' h

lemma norm (w x : ℕ) : Represents w (norm w x) x := by
  refine ⟨norm_modEq w x, fun h => ?_⟩
  by_contra hx
  exact (norm_pos (Nat.pos_of_ne_zero hx)).ne' h

end Represents

end OnesComplement
