import Mathlib.Data.BitVec

/-!
# Peeking into a kfifo

`kfifo_out_peek` of `kernel/kfifo.c` copies bytes of a queue from an offset on, and does not remove
them. It takes the smaller one of the length of the queue and `len + offset`, but then copies that
many bytes from the offset on. So with an offset it writes more bytes than the destination has
space for, or bytes from behind the end of the queue, unless the sum overflows.
-/

namespace LklPort.Kfifo

open List

/-- `struct kfifo`, with or without a buffer. The indices run freely, and the queue is not longer
than the buffer. -/
structure Fifo where
  buffer : List (BitVec 8)
  /-- The index `in`. -/
  input : BitVec 32
  out : BitVec 32
  size : buffer = [] ∨ ∃ k < 32, buffer.length = 2 ^ k
  len_le : (input - out).toNat ≤ buffer.length

variable (f : Fifo)

def kfifoLen : ℕ := (f.input - f.out).toNat

/-- `__kfifo_off`. -/
def kfifoOff (off : BitVec 32) : ℕ := (off &&& (BitVec.ofNat 32 f.buffer.length - 1)).toNat

/-- The bytes that `__kfifo_out_data` writes to the destination, in two copies. -/
def kfifoOutData (len : ℕ) (off : BitVec 32) : List (BitVec 8) :=
  let off := kfifoOff f (f.out + off)
  let l := min len (f.buffer.length - off)
  (f.buffer.drop off).take l ++ f.buffer.take (len - l)

lemma toNat_sub_add {a b : BitVec 32} {n : ℕ} (h : n ≤ (a - b).toNat) :
    (a - (b + BitVec.ofNat 32 n)).toNat = (a - b).toNat - n := by
  simp only [BitVec.toNat_sub, BitVec.toNat_add, BitVec.toNat_ofNat] at h ⊢
  omega

/-- `__kfifo_add_out`, for bytes that are in the queue. -/
def kfifoAddOut (n : ℕ) (h : n ≤ kfifoLen f) : Fifo :=
  { f with
    out := f.out + BitVec.ofNat 32 n
    len_le := toNat_sub_add h ▸ Nat.le_trans (Nat.sub_le _ n) f.len_le }

def kfifoResetOut : Fifo :=
  { f with
    out := f.input
    len_le := by simp }

def kfifoSkip (len : BitVec 32) : Fifo :=
  if h : len.toNat < kfifoLen f then kfifoAddOut f len.toNat (Nat.le_of_lt h)
  else kfifoResetOut f

/-- What a call returns, what it has written to its destination, and the queue after it. -/
structure Copied where
  ret : ℕ
  bytes : List (BitVec 8)
  fifo : Fifo

def kfifoOut (len : BitVec 32) : Copied :=
  let n := min (kfifoLen f) len.toNat
  ⟨n, kfifoOutData f n 0, kfifoAddOut f n (Nat.min_le_left _ _)⟩

def kfifoOutPeek (len offset : BitVec 32) : Copied :=
  let n := min (kfifoLen f) (len + offset).toNat
  ⟨n, kfifoOutData f n offset, f⟩

/-- Peeking agrees with reading. -/
structure PeekLaw (len offset : BitVec 32) : Prop where
  fits : (kfifoOutPeek f len offset).bytes.length ≤ len.toNat
  ret : (kfifoOutPeek f len offset).ret = (kfifoOutPeek f len offset).bytes.length
  count : (kfifoOutPeek f len offset).ret =
    if offset.toNat ≤ kfifoLen f then min len.toNat (kfifoLen f - offset.toNat) else 0
  same : (kfifoOutPeek f len offset).bytes = (kfifoOut (kfifoSkip f offset) len).bytes
  unchanged : (kfifoOutPeek f len offset).fifo = f

/-- There is no offset or the queue is empty, or the sum of length and offset overflows to the
number of bytes that are to be copied. -/
def PeekOk (len offset : ℕ) : Prop :=
  offset = 0 ∨ kfifoLen f = 0 ∨ offset ≤ kfifoLen f ∧ len + 2 * offset = 2 ^ 32 + kfifoLen f ∨
    kfifoLen f < offset ∧ len + offset = 2 ^ 32

variable {f} {n : ℕ}

lemma length_kfifoOutData (hn : n ≤ f.buffer.length) (off : BitVec 32) :
    (kfifoOutData f n off).length = n := by
  simp only [kfifoOutData, length_append, length_take, length_drop]
  omega

lemma kfifoLen_le (f : Fifo) : kfifoLen f ≤ 2 ^ 31 := by
  have hle : kfifoLen f ≤ f.buffer.length := f.len_le
  obtain hnil | ⟨k, hk, hsize⟩ := f.size
  · rw [hnil] at hle
    exact Nat.le_trans hle (Nat.zero_le _)
  · rw [hsize] at hle
    exact Nat.le_trans hle (Nat.pow_le_pow_right Nat.two_pos (Nat.le_of_lt_succ hk))

lemma bytes_kfifoOut_kfifoSkip (len offset : BitVec 32) :
    (kfifoOut (kfifoSkip f offset) len).bytes =
      kfifoOutData f (min (kfifoLen f - offset.toNat) len.toNat) offset := by
  unfold kfifoSkip
  split_ifs with h
  · have hlen : kfifoLen (kfifoAddOut f offset.toNat (Nat.le_of_lt h)) = _ :=
      toNat_sub_add (Nat.le_of_lt h)
    simp only [kfifoOut, hlen]
    simp [kfifoOutData, kfifoAddOut, kfifoOff, kfifoLen]
  · have hlen : kfifoLen (kfifoResetOut f) = 0 := by simp [kfifoLen, kfifoResetOut]
    simp [kfifoOut, hlen, kfifoOutData, Nat.sub_eq_zero_of_le (Nat.le_of_not_lt h)]

/-- Peeking agrees with reading exactly if there is no offset, or by luck. -/
theorem kfifo_out_peek_iff (f : Fifo) (len offset : BitVec 32) :
    PeekLaw f len offset ↔ PeekOk f len.toNat offset.toNat := by
  have hmax := kfifoLen_le f
  have hsum := BitVec.toNat_add len offset
  have hto := length_kfifoOutData (Nat.le_trans (Nat.min_le_left _ (len + offset).toNat) f.len_le)
    offset
  constructor
  · intro h
    have hcount : min (kfifoLen f) (len + offset).toNat = _ := h.count
    unfold PeekOk
    split_ifs at hcount <;> omega
  · intro h
    have hcount : min (kfifoLen f) (len + offset).toNat =
        min (kfifoLen f - offset.toNat) len.toNat := by
      unfold PeekOk at h
      omega
    refine ⟨hto.trans_le ?_, hto.symm, hcount.trans ?_, ?_, rfl⟩
    · exact hcount.trans_le (Nat.min_le_right _ _)
    · split_ifs <;> omega
    · rw [bytes_kfifoOut_kfifoSkip, ← hcount]
      rfl

/-- A full queue of four bytes. -/
def fullQueue : Fifo := ⟨[1, 2, 3, 4], 4, 0, .inr ⟨2, by decide, rfl⟩, by decide⟩

/-- Two bytes are written to a destination of one byte. -/
theorem kfifo_out_peek_overruns : (kfifoOutPeek fullQueue 1 1).bytes = [2, 3] ∧
    (kfifoOut (kfifoSkip fullQueue 1) 1).bytes = [2] ∧ ¬ PeekLaw fullQueue 1 1 :=
  ⟨by decide, by decide, fun h => absurd h.fits (by decide)⟩

end LklPort.Kfifo
