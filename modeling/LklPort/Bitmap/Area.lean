import LklPort.Rounds.Basic
import LklPort.Words.Align
import LklPort.Words.Bitmap
import Mathlib.Order.Bounds.Basic

/-!
# The search for an area of zero bits

`bitmap_find_next_zero_area` takes the next zero bit, rounds it up, and starts again behind the
first bit that is set in the area from there on. Neither of these jumps leaves an area behind.
-/

namespace LklPort.Bitmap

open Words Words.Bitmap

/-- `find_next_bit(map, size, off)`. -/
def findNextBit (map : Bitmap) (size off : ℕ) : ℕ := (map.firstSet (size - off) off).getD size

/-- `bitmap_find_next_zero_area` from `again` on: where it starts again, or its result. -/
def again (map : Bitmap) (size nr alignMask start : ℕ) : ℕ ⊕ ℕ :=
  let index := align (map.findNextZeroBit size start) (alignMask + 1)
  let end_ := (index + nr) % 2 ^ 64
  if size < end_ then .inr end_
  else
    let i := findNextBit map end_ index
    if i < end_ then .inl (i + 1) else .inr index

/-- `bitmap_find_next_zero_area`, with at most so many rounds. -/
def bitmapFindNextZeroArea (map : Bitmap) (size start nr alignMask rounds : ℕ) : Option ℕ :=
  Rounds.run (again map size nr alignMask) rounds start

/-- The area from `c` on is one that the caller may get. -/
structure Area (map : Bitmap) (size nr a start c : ℕ) : Prop where
  le : start ≤ c
  dvd : a ∣ c
  zero : ∀ j, InRun c nr j → map.test j = false
  fits : c + nr ≤ size

/-- The result is the first area, or a number beyond the map if there is none. -/
structure Found (map : Bitmap) (size nr a start r : ℕ) : Prop where
  least : (∃ c, Area map size nr a start c) → IsLeast {c | Area map size nr a start c} r
  none_iff : size < r ↔ ∀ c, ¬ Area map size nr a start c

variable {map : Bitmap} {size nr a start c off : ℕ}

lemma findNextBit_of_lt (h : findNextBit map size off < size) :
    InRun off (size - off) (findNextBit map size off) ∧
      map.test (findNextBit map size off) = true := by
  unfold findNextBit at h ⊢
  cases hset : map.firstSet (size - off) off with
  | none => simp [hset] at h
  | some i => exact firstSet_eq_some hset

lemma test_of_findNextBit (h : ¬ findNextBit map size off < size) {j : ℕ}
    (hj : InRun off (size - off) j) : map.test j = false := by
  unfold findNextBit at h
  cases hset : map.firstSet (size - off) off with
  | none => exact firstSet_eq_none.1 hset j hj
  | some i =>
    obtain ⟨⟨hle, hlt⟩, -⟩ := firstSet_eq_some hset
    rw [hset, Option.getD_some] at h
    omega

/-- No area begins at or before a bit that is set in the first `nr` bits that it could have. -/
lemma area_iff_of_set {i index : ℕ} (hi : InRun index nr i) (hset : map.test i = true)
    (hindex : ∀ c, Area map size nr a start c → index ≤ c) (hstart : start ≤ i) :
    Area map size nr a (i + 1) c ↔ Area map size nr a start c := by
  refine ⟨fun h => ⟨hstart.trans (Nat.le_of_succ_le h.le), h.dvd, h.zero, h.fits⟩, fun h => ?_⟩
  refine ⟨Nat.lt_of_not_le fun hle => ?_, h.dvd, h.zero, h.fits⟩
  have hrun : InRun c nr i := ⟨hle, hi.2.trans_le (Nat.add_le_add_right (hindex c h) nr)⟩
  simp [h.zero i hrun] at hset

section

variable (ha : IsPow a) (hnr : 0 < nr) (hsize : size + nr + (a - 1) < 2 ^ 64)

include ha hnr hsize

lemma Area.index_le (h : Area map size nr a start c) :
    align (map.findNextZeroBit size start) a ≤ c := by
  have hle := findNextZeroBit_le map size start
  refine align_le_of_dvd ha (by omega) h.dvd (not_lt.1 fun hlt => ?_)
  have hzero := h.zero c ⟨le_refl c, by omega⟩
  simp [test_of_lt_findNextZeroBit h.le hlt] at hzero

lemma again_spec (map : Bitmap) (start : ℕ) :
    match again map size nr (a - 1) start with
    | .inl start' => start < start' ∧ start' ≤ size ∧
        ∀ c, Area map size nr a start' c ↔ Area map size nr a start c
    | .inr r => Found map size nr a start r := by
  have hle := findNextZeroBit_le map size start
  have hpos := ha.pos
  have hfit : map.findNextZeroBit size start + a ≤ 2 ^ 64 := by omega
  have hfrom := le_align ha hfit
  have hupto := align_lt_add ha hfit
  have hdvd := dvd_align ha hfit
  have hindex := fun c (h : Area map size nr a start c) => h.index_le ha hnr hsize
  simp only [again, Nat.sub_add_cancel hpos]
  rw [Nat.mod_eq_of_lt (by omega)]
  generalize align (map.findNextZeroBit size start) a = index at *
  by_cases hbig : size < index + nr
  · have hnone : ∀ c, ¬ Area map size nr a start c := fun c h =>
      hbig.not_ge (h.fits.trans' (Nat.add_le_add_right (hindex c h) nr))
    rw [if_pos hbig]
    exact ⟨fun ⟨c, h⟩ => absurd h (hnone c), iff_of_true hbig hnone⟩
  have hstart : start ≤ index := by
    refine (le_findNextZeroBit (Nat.lt_of_not_le fun hge => ?_)).trans hfrom
    rw [findNextZeroBit, if_pos hge] at hfrom
    omega
  split_ifs with hset
  · obtain ⟨hrun, htest⟩ := findNextBit_of_lt hset
    rw [Nat.add_sub_cancel_left] at hrun
    have hi := hstart.trans hrun.1
    exact ⟨by omega, by omega, fun c => area_iff_of_set hrun htest hindex hi⟩
  · have harea : Area map size nr a start index := by
      refine ⟨hstart, hdvd, fun j hj => ?_, not_lt.1 hbig⟩
      exact test_of_findNextBit hset (by rwa [Nat.add_sub_cancel_left])
    exact ⟨fun _ => ⟨harea, hindex⟩, iff_of_false (by omega) fun hnone => hnone index harea⟩

lemma bitmapFindNextZeroArea_spec {rounds : ℕ} (hrounds : size - start < rounds) :
    ∃ r, bitmapFindNextZeroArea map size start nr (a - 1) rounds = some r ∧
      Found map size nr a start r := by
  induction rounds generalizing start with
  | zero => exact absurd hrounds (Nat.not_lt_zero _)
  | succ rounds ih =>
    have hround := again_spec ha hnr hsize map start
    cases hagain : again map size nr (a - 1) start with
    | inl start' =>
      rw [hagain] at hround
      obtain ⟨hlt, hle, hiff⟩ := hround
      obtain ⟨r, hr, hleast, hnone⟩ := ih (show size - start' < rounds by omega)
      simp only [hiff] at hleast hnone
      exact ⟨r, (Rounds.run_inl hagain).trans hr, hleast, hnone⟩
    | inr r =>
      rw [hagain] at hround
      exact ⟨r, Rounds.run_inr hagain, hround⟩

end

theorem bitmap_find_next_zero_area_exact (map : Bitmap) (size start : ℕ) {nr k : ℕ}
    (hnr : 0 < nr) (hsize : size + nr + (2 ^ k - 1) < 2 ^ 64) :
    ∃ rounds r, bitmapFindNextZeroArea map size start nr (2 ^ k - 1) rounds = some r ∧
      Found map size nr (2 ^ k) start r := by
  have hk : 2 ^ k < 2 ^ 64 := by omega
  have hpow : IsPow (2 ^ k) := ⟨k, (Nat.pow_lt_pow_iff_right (by decide)).1 hk, rfl⟩
  exact ⟨_, bitmapFindNextZeroArea_spec hpow hnr hsize (Nat.lt_succ_self (size - start))⟩

/-- The bits 0 and 6 are set, and four bits are wanted at a multiple of four. -/
theorem bitmap_find_next_zero_area_exact_eight : Found (fun _ => 0x41) 16 4 4 0 8 := by
  obtain ⟨rounds, r, hr, hfound⟩ := bitmap_find_next_zero_area_exact (fun _ => 0x41) 16 0
    (k := 2) (by decide : 0 < 4) (by decide)
  have height : bitmapFindNextZeroArea (fun _ => 0x41) 16 0 4 3 2 = some 8 := by decide +kernel
  rwa [Rounds.run_unique height hr]

end LklPort.Bitmap
