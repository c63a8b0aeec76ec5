import LklPort.PosixLock.Basic

/-!
# The range of a lock

`flock_to_posix_lock` computes the range of a `struct flock` in `off_t`, whose additions wrap, and
finds ranges that do not fit by the signs of the results. A file position is wider than an `off_t`
of 32 bits, and loses its upper half. A range before a position is refused if the position itself
does not fit, although all of its bytes may.
-/

namespace LklPort.PosixLock

/-- An `off_t` of 32 or of 64 bits. -/
inductive OffT where
  | bits32
  | bits64

abbrev OffT.bits : OffT → ℕ
  | .bits32 => 32
  | .bits64 => 64

/-- A `struct flock`. -/
structure Flock (o : OffT) where
  type : ℤ
  whence : ℤ
  start : BitVec o.bits
  len : BitVec o.bits

inductive RangeError where
  | einval
  | eoverflow
  deriving DecidableEq

def assignType : ℤ → Except RangeError LockType
  | 0 => .ok .rdlck
  | 1 => .ok .wrlck
  | 2 => .ok .unlck
  | _ => .error .einval

/-- `start` before `l_start` is added. A file has a position and a size below `2 ^ 63`. -/
def flockBase (pos size : Fin (2 ^ 63)) : ℤ → Except RangeError ℤ
  | 0 => .ok 0
  | 1 => .ok pos
  | 2 => .ok size
  | _ => .error .einval

/-- The part of `flock_to_posix_lock` that uses `l_len`. -/
def flockRange {w : ℕ} (start len : BitVec w) : Except RangeError (ℤ × ℤ) :=
  if start.toInt < 0 then .error .einval
  else if 0 < len.toInt then .ok (start.toInt, (start + len - 1).toInt)
  else if len.toInt < 0 then
    if (start + len).toInt < 0 then .error .einval
    else .ok ((start + len).toInt, (start - 1).toInt)
  else .ok (start.toInt, offsetMax)

def flockToPosixLock {o : OffT} (pos size : Fin (2 ^ 63)) (l : Flock o) :
    Except RangeError (ℤ × ℤ × LockType) := do
  let base ← flockBase pos size l.whence
  let r ← flockRange (BitVec.ofInt o.bits base + l.start) l.len
  if r.2 < r.1 then .error .eoverflow
  else
    let type ← assignType l.type
    .ok (r.1, r.2, type)

/-- The first and the last byte of the range with `len` at the offset `start`. -/
def denoted (start len : ℤ) : ℤ × ℤ :=
  if 0 < len then (start, start + len - 1)
  else if len < 0 then (start + len, start - 1)
  else (start, offsetMax)

/-- No byte is before 0 or past the largest `off_t`. A range to the end of the file starts there or
before. -/
def Fits (o : OffT) (start len : ℤ) : Prop :=
  0 ≤ (denoted start len).1 ∧ (if len = 0 then start else (denoted start len).2) < 2 ^ (o.bits - 1)
  deriving Decidable

/-- The lock is accepted if its range fits, and has this range then. -/
def RangeLaw {o : OffT} (pos size : Fin (2 ^ 63)) (l : Flock o) (base : ℤ) : Prop :=
  ((∃ r, flockToPosixLock pos size l = .ok r) ↔ Fits o (base + l.start.toInt) l.len.toInt) ∧
    ∀ r, flockToPosixLock pos size l = .ok r →
      (r.1, r.2.1) = denoted (base + l.start.toInt) l.len.toInt

/-- For an offset that does not wrap, the signs of the results tell whether the range fits. -/
lemma flockRange_iff {o : OffT} (start len : BitVec o.bits) (r : ℤ × ℤ) :
    flockRange start len = .ok r ∧ r.1 ≤ r.2 ↔
      Fits o start.toInt len.toInt ∧ r = denoted start.toInt len.toInt := by
  obtain ⟨first, last⟩ := r
  have hs := And.intro start.le_toInt start.toInt_lt
  have hl := And.intro len.le_toInt len.toInt_lt
  have hone : (1 : BitVec o.bits).toInt = 1 := by cases o <;> rfl
  unfold flockRange Fits denoted
  rw [BitVec.toInt_sub, BitVec.toInt_sub, BitVec.toInt_add, hone, Int.bmod_sub_bmod]
  generalize len.toInt = l at *
  -- The three cases are those of the code; the rest is arithmetic at each of the two widths.
  obtain hneg | rfl | hpos := lt_trichotomy l 0
  · simp only [hneg, Int.lt_asymm hneg, Int.ne_of_lt hneg, if_true, if_false]
    cases o <;> simp only [OffT.bits, Int.bmod_def] at * <;> split_ifs <;> simp <;> omega
  · cases o <;> simp [offsetMax] at * <;> split_ifs <;> simp <;> omega
  · simp only [hpos, Int.ne_of_gt hpos, if_true, if_false]
    cases o <;> simp only [OffT.bits, Int.bmod_def] at * <;> split_ifs <;> simp <;> omega

lemma denoted_injective (len : ℤ) : Function.Injective (denoted · len) := by
  intro s s' h
  simp only [denoted] at h
  split_ifs at h <;> simp at h <;> omega

lemma wrap_of_lt {o : OffT} {x : ℤ} (h : -2 ^ (o.bits - 1) ≤ x) (h' : x < 2 ^ (o.bits - 1)) :
    x.bmod (2 ^ o.bits) = x := by
  cases o <;> apply Int.bmod_eq_of_le <;> simpa using by assumption

lemma wrap_lt {o : OffT} (x : ℤ) : x.bmod (2 ^ o.bits) < 2 ^ (o.bits - 1) := by
  simpa only [BitVec.toInt_ofInt] using (BitVec.ofInt o.bits x).toInt_lt

section

variable {o : OffT} {pos size : Fin (2 ^ 63)} {l : Flock o} {base : ℤ} {t : LockType}

lemma flockToPosixLock_iff (hbase : flockBase pos size l.whence = .ok base)
    (htype : assignType l.type = .ok t) (r : ℤ × ℤ × LockType) :
    flockToPosixLock pos size l = .ok r ↔
      Fits o ((base + l.start.toInt).bmod (2 ^ o.bits)) l.len.toInt ∧
        (r.1, r.2.1) = denoted ((base + l.start.toInt).bmod (2 ^ o.bits)) l.len.toInt ∧
        r.2.2 = t := by
  have hwrap : (BitVec.ofInt o.bits base + l.start).toInt =
      (base + l.start.toInt).bmod (2 ^ o.bits) := by
    rw [BitVec.toInt_add, BitVec.toInt_ofInt, Int.bmod_add_bmod]
  rw [← hwrap, ← and_assoc, ← flockRange_iff]
  unfold flockToPosixLock
  rw [hbase, htype]
  obtain ⟨first, last, type⟩ := r
  cases hrange : flockRange (BitVec.ofInt o.bits base + l.start) l.len with
  | error => simp [hrange, bind, Except.bind]
  | ok range =>
    obtain ⟨first', last'⟩ := range
    simp only [hrange, bind, Except.bind]
    split_ifs with hlt
    · simp
      omega
    · grind

/-- A position that can be a file's, and an `off_t`, do not sum to less than the least `off_t`. -/
lemma flockBase_nonneg (hbase : flockBase pos size l.whence = .ok base) : 0 ≤ base := by
  unfold flockBase at hbase
  split at hbase <;> simp_all <;> omega

/-- The range of a lock is right if its offset is one `off_t` can hold. If it is not, the offset is
wrapped, and the range must be one to refuse both before and after. -/
theorem flock_to_posix_lock_iff (hbase : flockBase pos size l.whence = .ok base)
    (htype : assignType l.type = .ok t) :
    RangeLaw pos size l base ↔
      base + l.start.toInt < 2 ^ (o.bits - 1) ∨
        ¬ Fits o (base + l.start.toInt) l.len.toInt ∧
          ¬ Fits o ((base + l.start.toInt).bmod (2 ^ o.bits)) l.len.toInt := by
  have hstart := l.start.le_toInt
  have hnonneg := flockBase_nonneg hbase
  unfold RangeLaw
  simp only [flockToPosixLock_iff hbase htype]
  by_cases hfits : base + l.start.toInt < 2 ^ (o.bits - 1)
  · rw [wrap_of_lt (by omega) hfits]
    simp only [hfits, true_or, iff_true]
    exact ⟨⟨fun ⟨r, h, _⟩ => h, fun h => ⟨(_, _, t), h, rfl, rfl⟩⟩, fun r h => h.2.1⟩
  · have hne : (base + l.start.toInt).bmod (2 ^ o.bits) ≠ base + l.start.toInt := by
      have := wrap_lt (o := o) (base + l.start.toInt)
      omega
    simp only [hfits, false_or]
    constructor
    · rintro ⟨hiff, hexact⟩
      have hwrapped : ¬ Fits o ((base + l.start.toInt).bmod (2 ^ o.bits)) l.len.toInt := by
        intro h
        exact hne (denoted_injective _ (hexact (_, _, t) ⟨h, rfl, rfl⟩))
      refine ⟨fun h => ?_, hwrapped⟩
      obtain ⟨_, h', _⟩ := hiff.2 h
      exact hwrapped h'
    · rintro ⟨hfits, hwrapped⟩
      simp [hfits, hwrapped]

end

/-- The 20 bytes before the offset 50 from the position 100. -/
theorem flock_to_posix_lock_before :
    flockToPosixLock (o := .bits32) 100 1000 ⟨1, 1, 50, -20⟩ = .ok (130, 149, .wrlck) ∧
      RangeLaw (o := .bits32) 100 1000 ⟨1, 1, 50, -20⟩ 100 :=
  ⟨rfl, (flock_to_posix_lock_iff (t := .wrlck) rfl rfl).2 (.inl (by decide))⟩

/-- The last byte of a file of the largest size is refused, as it is given by the offset after it.
With an `off_t` of 32 bits, a lock at the position `2 ^ 32` is one at 0. -/
theorem flock_to_posix_lock_wraps :
    (flockToPosixLock (o := .bits64) 0 (Fin.last (2 ^ 63 - 1)) ⟨1, 2, 1, -1⟩ = .error .einval ∧
      Fits .bits64 (2 ^ 63 - 1 + 1) (-1) ∧
      ¬ RangeLaw (o := .bits64) 0 (Fin.last (2 ^ 63 - 1)) ⟨1, 2, 1, -1⟩ (2 ^ 63 - 1)) ∧
    flockToPosixLock (o := .bits32) 4294967296 0 ⟨1, 1, 0, 1⟩ = .ok (0, 0, .wrlck) ∧
      ¬ RangeLaw (o := .bits32) 4294967296 0 ⟨1, 1, 0, 1⟩ (2 ^ 32) := by
  have hback : flockToPosixLock (o := .bits64) 0 (Fin.last (2 ^ 63 - 1)) ⟨1, 2, 1, -1⟩ =
      .error .einval := rfl
  have hfits : Fits .bits64 (2 ^ 63 - 1 + 1) (-1) := by decide
  have hzero : flockToPosixLock (o := .bits32) 4294967296 0 ⟨1, 1, 0, 1⟩ = .ok (0, 0, .wrlck) := rfl
  refine ⟨⟨hback, hfits, fun h => ?_⟩, hzero, fun h => ?_⟩
  · obtain ⟨r, hr⟩ := h.1.2 hfits
    rw [hback] at hr
    exact nomatch hr
  · have := h.2 _ hzero
    revert this
    decide

end LklPort.PosixLock
