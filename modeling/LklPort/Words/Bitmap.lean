import Mathlib.Data.Finset.Card
import Mathlib.Data.Nat.Bitwise

/-!
# Bit maps

A bit map is an array of 64-bit words. Its bits are tested, set and cleared one at a time, in a
run of consecutive bits, or searched for a bit that is not set.
-/

namespace Words

open Function BitVec

abbrev Bitmap := ℕ → BitVec 64

namespace Bitmap

variable (m : Bitmap)

/-- `test_bit(i, m)`. -/
def test (i : ℕ) : Bool := (m (i / 64)).getLsbD (i % 64)

def set (i : ℕ) : Bitmap := update m (i / 64) (m (i / 64) ||| BitVec.twoPow 64 (i % 64))

def clear (i : ℕ) : Bitmap :=
  update m (i / 64) (m (i / 64) &&& ~~~BitVec.twoPow 64 (i % 64))

/-- Clears `k` bits from `i` on. There is no result if one of them is not set. -/
def clearRun (m : Bitmap) : (k i : ℕ) → Option Bitmap
  | 0, _ => some m
  | k + 1, i => if m.test i then clearRun (m.clear i) k (i + 1) else none

/-- The first of `k` bits from `i` on that is set. -/
def firstSet (m : Bitmap) : (k i : ℕ) → Option ℕ
  | 0, _ => none
  | k + 1, i => if m.test i then some i else firstSet m k (i + 1)

/-- The first of `k` bits from `i` on that is not set, or the end of the run. -/
def zeroFrom (m : Bitmap) : (k i : ℕ) → ℕ
  | 0, i => i
  | k + 1, i => if m.test i then zeroFrom m k (i + 1) else i

/-- `find_next_zero_bit(m, size, off)`. -/
def findNextZeroBit (size off : ℕ) : ℕ := if size ≤ off then size else m.zeroFrom (size - off) off

variable {m} {i j k size off : ℕ}

/-! ### Single bits -/

lemma mod_eq_iff_of_div_eq (hw : j / 64 = i / 64) : i % 64 = j % 64 ↔ i = j := by omega

@[simp] lemma test_set : (m.set i).test j = (m.test j || decide (i = j)) := by
  unfold test set
  by_cases hw : j / 64 = i / 64
  · rw [hw, update_self, getLsbD_or, getLsbD_twoPow]
    have hlt : i % 64 < 64 := Nat.mod_lt _ (by decide)
    simp [hlt, mod_eq_iff_of_div_eq hw]
  · rw [update_of_ne hw]
    have hne : i ≠ j := fun h => hw (by rw [h])
    simp [hne]

@[simp] lemma test_clear : (m.clear i).test j = (m.test j && !decide (i = j)) := by
  unfold test clear
  by_cases hw : j / 64 = i / 64
  · rw [hw, update_self, getLsbD_and, getLsbD_not, getLsbD_twoPow]
    have hlt : i % 64 < 64 := Nat.mod_lt _ (by decide)
    have hlt' : j % 64 < 64 := Nat.mod_lt _ (by decide)
    simp [hlt, hlt', mod_eq_iff_of_div_eq hw]
  · rw [update_of_ne hw]
    have hne : i ≠ j := fun h => hw (by rw [h])
    simp [hne]

lemma ext {m m' : Bitmap} (h : ∀ j, m'.test j = m.test j) : m' = m := by
  funext w
  apply eq_of_getLsbD_eq
  intro i hi
  have hbit := h (64 * w + i)
  rwa [test, test, show (64 * w + i) / 64 = w by omega, show (64 * w + i) % 64 = i by omega] at hbit

/-! ### Runs of bits -/

/-- The bit `j` is one of `k` bits from `i` on. -/
def InRun (i k j : ℕ) : Prop := i ≤ j ∧ j < i + k
  deriving Decidable

lemma inRun_succ : InRun i (k + 1) j ↔ j = i ∨ InRun (i + 1) k j := by
  unfold InRun
  omega

lemma not_inRun_self : ¬ InRun (i + 1) k i := by
  unfold InRun
  omega

lemma exists_clearRun (h : ∀ j, InRun i k j → m.test j = true) :
    ∃ m', m.clearRun k i = some m' := by
  induction k generalizing m i with
  | zero => exact ⟨m, rfl⟩
  | succ k ih =>
    rw [clearRun, if_pos (h i (inRun_succ.2 (.inl rfl)))]
    apply ih
    intro j hj
    have hne : i ≠ j := by
      rintro rfl
      exact not_inRun_self hj
    simp [hne, h j (inRun_succ.2 (.inr hj))]

lemma test_clearRun {m' : Bitmap} (h : m.clearRun k i = some m') :
    m'.test j = (m.test j && !decide (InRun i k j)) := by
  induction k generalizing m i with
  | zero =>
    cases h
    have hnot : ¬ InRun i 0 j := by
      unfold InRun
      omega
    simp [hnot]
  | succ k ih =>
    rw [clearRun] at h
    split_ifs at h with hi
    rw [ih h, test_clear]
    simp only [inRun_succ]
    by_cases hij : i = j
    · simp [hij]
    · have hji : ¬ j = i := fun h => hij h.symm
      simp [hij, hji]

lemma firstSet_eq_none : m.firstSet k i = none ↔ ∀ j, InRun i k j → m.test j = false := by
  induction k generalizing i with
  | zero =>
    simp only [firstSet, true_iff]
    intro j hj
    unfold InRun at hj
    omega
  | succ k ih =>
    rw [firstSet]
    simp only [inRun_succ, forall_eq_or_imp]
    by_cases hi : m.test i = true
    · simp [hi]
    · rw [if_neg hi, ih]
      simp [hi]

lemma firstSet_eq_some (h : m.firstSet k i = some j) : InRun i k j ∧ m.test j = true := by
  induction k generalizing i with
  | zero => simp [firstSet] at h
  | succ k ih =>
    rw [firstSet] at h
    split_ifs at h with hi
    · cases h
      exact ⟨inRun_succ.2 (.inl rfl), hi⟩
    · exact ⟨inRun_succ.2 (.inr (ih h).1), (ih h).2⟩

lemma test_of_lt_firstSet (h : m.firstSet k i = some j) {x : ℕ} (hx : i ≤ x) (hlt : x < j) :
    m.test x = false := by
  induction k generalizing i with
  | zero => simp [firstSet] at h
  | succ k ih =>
    rw [firstSet] at h
    split_ifs at h with hi
    · cases h
      omega
    · rcases hx.eq_or_lt with rfl | hx
      · exact Bool.eq_false_iff.2 hi
      · exact ih h hx

/-! ### The search for a bit that is not set -/

lemma le_zeroFrom : i ≤ m.zeroFrom k i := by
  induction k generalizing i with
  | zero => exact le_refl i
  | succ k ih =>
    rw [zeroFrom]
    split_ifs
    · exact Nat.le_of_succ_le ih
    · exact le_refl i

lemma zeroFrom_le : m.zeroFrom k i ≤ i + k := by
  induction k generalizing i with
  | zero => exact le_refl i
  | succ k ih =>
    rw [zeroFrom]
    split_ifs
    · have h := @ih (i + 1)
      omega
    · omega

lemma findNextZeroBit_le (m : Bitmap) (size off : ℕ) : m.findNextZeroBit size off ≤ size := by
  unfold findNextZeroBit
  split_ifs with h
  · exact le_refl size
  · have hle := zeroFrom_le (m := m) (k := size - off) (i := off)
    omega

lemma le_findNextZeroBit (h : off < size) : off ≤ m.findNextZeroBit size off := by
  unfold findNextZeroBit
  rw [if_neg (not_le.2 h)]
  exact le_zeroFrom

lemma zeroFrom_spec : (m.zeroFrom k i < i + k → m.test (m.zeroFrom k i) = false) ∧
    ∀ j, i ≤ j → j < m.zeroFrom k i → m.test j = true := by
  induction k generalizing i with
  | zero =>
    exact ⟨fun h => absurd h (lt_irrefl i), fun j hj hlt => absurd hlt (not_lt.2 hj)⟩
  | succ k ih =>
    rw [zeroFrom]
    split_ifs with hi
    · obtain ⟨hclear, hset⟩ := @ih (i + 1)
      refine ⟨fun h => hclear (by omega), fun j hj hlt => ?_⟩
      rcases eq_or_lt_of_le hj with rfl | hj
      · exact hi
      · exact hset j hj hlt
    · exact ⟨fun _ => by simpa using hi, fun j hj hlt => absurd hlt (not_lt.2 hj)⟩

lemma test_findNextZeroBit (h : m.findNextZeroBit size off < size) :
    m.test (m.findNextZeroBit size off) = false := by
  unfold findNextZeroBit at h ⊢
  split_ifs at h ⊢ with hoff
  · exact absurd h (lt_irrefl size)
  · exact zeroFrom_spec.1 (by omega)

lemma test_of_lt_findNextZeroBit (hj : off ≤ j) (hlt : j < m.findNextZeroBit size off) :
    m.test j = true := by
  have hoff : ¬ size ≤ off := fun h => by
    have hle := findNextZeroBit_le m size off
    omega
  rw [findNextZeroBit, if_neg hoff] at hlt
  exact zeroFrom_spec.2 j hj hlt

/-! ### The number of bits that are not set -/

/-- How many of the first `size` bits are not set. -/
def zeros (m : Bitmap) (size : ℕ) : ℕ := ((Finset.range size).filter (m.test · = false)).card

lemma zeros_set (hi : i < size) (h : m.test i = false) :
    (m.set i).zeros size + 1 = m.zeros size := by
  have hmem : i ∈ (Finset.range size).filter (m.test · = false) := by simp [hi, h]
  have hset : (Finset.range size).filter ((m.set i).test · = false) =
      ((Finset.range size).filter (m.test · = false)).erase i := by
    ext j
    simp only [Finset.mem_filter, Finset.mem_erase, test_set, Bool.or_eq_false_iff,
      decide_eq_false_iff_not]
    tauto
  rw [zeros, hset, Finset.card_erase_add_one hmem]
  rfl

lemma zeros_clear (hi : i < size) (h : m.test i = true) :
    (m.clear i).zeros size = m.zeros size + 1 := by
  have hclear : (m.clear i).test i = false := by simp
  rw [← zeros_set hi hclear, zeros]
  congr 3
  ext j
  by_cases hj : i = j
  · subst hj
    simp [h]
  · simp [hj]

lemma zeros_pos (hi : i < size) (h : m.test i = false) : 0 < m.zeros size := by
  have hset := zeros_set hi h
  omega

end Bitmap

end Words
