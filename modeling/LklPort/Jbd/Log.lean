import LklPort.Jbd.Walk
import LklPort.RedoLog.Basic

/-!
# Sequence numbers and the table of revoke records

Sequence numbers are compared by the sign of their difference, which is right for those that are
less than half of the range apart. The table then has, for each block, the last transaction that
revokes it, whatever the hash function is.
-/

namespace LklPort.Jbd

variable {q : BitVec 32} {i m : ℕ}

/-- The sequence number of the transaction `i` of a log that starts with `q`. -/
def seqOf (q : BitVec 32) (i : ℕ) : BitVec 32 := q + BitVec.ofNat 32 i

@[simp] lemma seqOf_zero (q : BitVec 32) : seqOf q 0 = q := BitVec.add_zero q

lemma seqOf_succ (q : BitVec 32) (i : ℕ) : seqOf q (i + 1) = seqOf q i + 1 := by
  rw [seqOf, BitVec.ofNat_add, ← BitVec.add_assoc]
  rfl

lemma seqOf_add_one (q : BitVec 32) (i : ℕ) : seqOf (q + 1) i = seqOf q (i + 1) := by
  rw [seqOf_succ, seqOf, seqOf]
  grind

section

variable (h : i < m + 2 ^ 31) (h' : m ≤ i + 2 ^ 31)

include h h'

lemma toInt_seqOf_sub : (seqOf q i - seqOf q m).toInt = (i : ℤ) - m := by
  have hsub : seqOf q i - seqOf q m = BitVec.ofNat 32 i - BitVec.ofNat 32 m := by
    unfold seqOf
    grind
  rw [hsub, BitVec.toInt_sub, BitVec.toInt_ofNat', BitVec.toInt_ofNat', Int.sub_bmod_bmod,
    Int.bmod_sub_bmod]
  apply Int.bmod_eq_of_le
  · omega
  · omega

lemma tidGt_seqOf : tidGt (seqOf q i) (seqOf q m) = decide (m < i) := by
  rw [tidGt, toInt_seqOf_sub h h']
  exact decide_eq_decide.2 (by omega)

lemma tidGeq_seqOf : tidGeq (seqOf q i) (seqOf q m) = decide (m ≤ i) := by
  rw [tidGeq, toInt_seqOf_sub h h']
  exact decide_eq_decide.2 (by omega)

end

/-! ### Records -/

section

variable {b : BitVec 32}

lemma findRevokeRecord_cons (r : RevokeRecord) (l : List RevokeRecord) :
    findRevokeRecord b (r :: l) = if r.blocknr = b then some r else findRevokeRecord b l := by
  unfold findRevokeRecord
  rw [List.find?_cons]
  by_cases h : r.blocknr = b
  · simp [h]
  · rw [if_neg h, beq_false_of_ne h]

lemma findRevokeRecord_raise (b b' s : BitVec 32) (l : List RevokeRecord) :
    findRevokeRecord b' (raise b s l) = (findRevokeRecord b' l).map fun r =>
      if b' = b ∧ tidGt s r.sequence then { r with sequence := s } else r := by
  induction l with
  | nil => rfl
  | cons r _ ih =>
    rw [raise, findRevokeRecord_cons]
    by_cases hr : r.blocknr = b
    · have hblock : (if tidGt s r.sequence = true then { r with sequence := s } else r).blocknr =
          r.blocknr := by
        split_ifs <;> rfl
      rw [if_pos (beq_iff_eq.2 hr), findRevokeRecord_cons, hblock, hr]
      by_cases hb : b = b'
      · subst hb
        simp [hr]
      · simp [hb, Ne.symm hb]
    · rw [if_neg (by simpa using hr), findRevokeRecord_cons, ih]
      split_ifs with hb
      · rw [Option.map_some, if_neg fun h => hr (hb.trans h.1)]
      · rfl

end

/-- What the table has for a block after the revocations in `hist`, each of which is given by its
transaction and its block: the last transaction that revokes the block. -/
def Latest (q : BitVec 32) (hist : List (ℕ × BitVec 32)) (b : BitVec 32) :
    Option RevokeRecord → Prop
  | none => ∀ i, (i, b) ∉ hist
  | some r => ∃ i, (i, b) ∈ hist ∧ r = ⟨seqOf q i, b⟩ ∧ ∀ i', (i', b) ∈ hist → i' ≤ i

/-- The table has the last transaction for every block. -/
def TableOk (j : Journal) (q : BitVec 32) (hist : List (ℕ × BitVec 32)) (t : RevokeTable) : Prop :=
  ∀ b, Latest q hist b (findRevokeRecord b (t (j.hash b)))

variable {j : Journal} {hist : List (ℕ × BitVec 32)} {t : RevokeTable} {b : BitVec 32}

lemma tableOk_nil (j : Journal) (q : BitVec 32) : TableOk j q [] fun _ => [] :=
  fun _ _ => List.not_mem_nil

lemma findRevokeRecord_setRevoke_of_ne {b' s : BitVec 32} (h : b' ≠ b) :
    findRevokeRecord b' (j.setRevoke b s t (j.hash b')) = findRevokeRecord b' (t (j.hash b')) := by
  unfold Journal.setRevoke
  by_cases hhash : j.hash b' = j.hash b
  · rw [hhash, Function.update_self]
    split
    · simp [findRevokeRecord_raise, h]
    · rw [findRevokeRecord_cons, if_neg (Ne.symm h)]
  · rw [Function.update_of_ne hhash]

lemma Latest.append_of_ne {b' : BitVec 32} {r : Option RevokeRecord} (hne : b' ≠ b)
    (h : Latest q hist b' r) : Latest q (hist ++ [(i, b)]) b' r := by
  have hmem (i' : ℕ) : (i', b') ∈ hist ++ [(i, b)] ↔ (i', b') ∈ hist := by simp [hne]
  cases r with
  | none => exact fun i' hi' => h i' ((hmem i').1 hi')
  | some =>
    obtain ⟨m, hm, hr, hmax⟩ := h
    exact ⟨m, (hmem m).2 hm, hr, fun i' hi' => hmax i' ((hmem i').1 hi')⟩

lemma append_self (hle : ∀ p ∈ hist, p.1 ≤ i) :
    Latest q (hist ++ [(i, b)]) b (some ⟨seqOf q i, b⟩) := by
  refine ⟨i, by simp, rfl, fun i' hi' => ?_⟩
  rcases List.mem_append.1 hi' with hmem | hmem
  · exact hle _ hmem
  · simp at hmem
    omega

lemma TableOk.setRevoke (h : TableOk j q hist t) (hle : ∀ p ∈ hist, p.1 ≤ i) (hi : i < 2 ^ 31)
    (b : BitVec 32) : TableOk j q (hist ++ [(i, b)]) (j.setRevoke b (seqOf q i) t) := by
  intro b'
  by_cases hb : b' = b
  · subst hb
    have hself := append_self (q := q) (b := b') hle
    have hold := h b'
    unfold Journal.setRevoke
    rw [Function.update_self]
    cases hfind : findRevokeRecord b' (t (j.hash b')) with
    | none => rwa [findRevokeRecord_cons, if_pos rfl]
    | some =>
      rw [hfind] at hold
      obtain ⟨m, hm, rfl, -⟩ := hold
      have hmi := hle _ hm
      rw [findRevokeRecord_raise, hfind, Option.map_some, tidGt_seqOf (by omega) (by omega)]
      by_cases hlt : m < i
      · simpa [hlt] using hself
      · have heq : m = i := by omega
        subst heq
        simpa using hself
  · rw [findRevokeRecord_setRevoke_of_ne hb]
    exact (h b').append_of_ne hb

lemma TableOk.testRevoke (h : TableOk j q hist t) (hlt : ∀ p ∈ hist, p.1 < 2 ^ 31)
    (hm : m < 2 ^ 31) (b : BitVec 32) :
    j.testRevoke b (seqOf q m) t = true ↔ ∃ i, m ≤ i ∧ (i, b) ∈ hist := by
  have hlatest := h b
  unfold Journal.testRevoke
  cases hfind : findRevokeRecord b (t (j.hash b)) with
  | none =>
    rw [hfind] at hlatest
    simp only [Bool.false_eq_true, false_iff]
    rintro ⟨i, -, hi⟩
    exact hlatest i hi
  | some =>
    rw [hfind] at hlatest
    obtain ⟨i, hi, rfl, hmax⟩ := hlatest
    have hi' := hlt _ hi
    simp only [tidGt_seqOf (i := m) (m := i) (by omega) (by omega), Bool.not_eq_true',
      decide_eq_false_iff_not, not_lt]
    constructor
    · exact fun hle => ⟨i, hle, hi⟩
    · rintro ⟨i', hle, hmem⟩
      exact le_trans hle (hmax i' hmem)

/-!
## Logs that were written by the journal

The log of a journal is circular. It starts with the block `s_start`, and has complete transactions
with consecutive sequence numbers. Each has descriptor blocks with the blocks that they describe,
and revoke blocks, in any order, and ends with a commit block. A part of one more transaction may
follow, and then a block that does not go on with it.
-/

open List

variable {b : Block} {os : List ℕ}

namespace Journal

variable (j : Journal)

/-! ### Places in the log -/

/-- The block number `i` of the log, counted from its start. -/
def pos (i : ℕ) : ℕ := j.first + (j.start - j.first + i) % (j.last - j.first)

/-- The contents of the block number `i` of the log. -/
def nth (disk : Disk) (i : ℕ) : Block := j.log disk (j.pos i)

variable {j} {i n : ℕ}

lemma pos_lt (i : ℕ) : j.pos i < j.last := by
  have hfirst := j.first_lt
  have hmod := Nat.mod_lt (j.start - j.first + i) (Nat.sub_pos_of_lt hfirst)
  unfold pos
  omega

lemma pos_zero (hstart : j.first ≤ j.start) (hlast : j.start < j.last) : j.pos 0 = j.start := by
  rw [pos, add_zero, Nat.mod_eq_of_lt (by omega)]
  omega

lemma wrap_pos (hn : n ≤ j.last - j.first) (hlt : j.pos i + n < 2 ^ 32) :
    j.wrap ((j.pos i + n) % 2 ^ 32) = j.pos (i + n) := by
  have hfirst := j.first_lt
  rw [Nat.mod_eq_of_lt hlt]
  unfold wrap pos at *
  have hmod := Nat.mod_lt (j.start - j.first + i) (Nat.sub_pos_of_lt hfirst)
  rw [← add_assoc (j.start - j.first), Nat.add_mod (j.start - j.first + i)]
  generalize (j.start - j.first + i) % (j.last - j.first) = y at *
  rcases lt_or_ge n (j.last - j.first) with hn' | hn'
  · rw [Nat.mod_eq_of_lt hn']
    by_cases hwrap : j.first + y + n ≥ j.last
    · rw [if_pos hwrap, Nat.mod_eq_sub_mod (by omega), Nat.mod_eq_of_lt (by omega)]
      omega
    · rw [if_neg hwrap, Nat.mod_eq_of_lt (by omega)]
      omega
  · have heq : n = j.last - j.first := by omega
    rw [heq, Nat.mod_self, add_zero, Nat.mod_eq_of_lt hmod, if_pos (by omega)]
    omega

lemma succ_pos (i : ℕ) : j.succ (j.pos i) = j.pos (i + 1) := by
  have hfirst := j.first_lt
  have hpos := pos_lt (j := j) i
  have hlast := j.last_le
  have hmax := j.maxlen_lt
  exact wrap_pos (by omega) (by omega)

lemma iterate_succ_pos (i n : ℕ) : j.succ^[n] (j.pos i) = j.pos (i + n) := by
  induction n generalizing i with
  | zero => rfl
  | succ _ ih =>
    rw [Function.iterate_succ_apply, succ_pos, ih]
    congr 1
    omega

lemma skip_pos (pass : Pass) (hb : countTags b j.blocksize 12 = n) (hn : n ≤ j.last - j.first)
    (hlt : j.pos i + n < 2 ^ 32) : j.skip pass b (j.pos i) = j.pos (i + n) := by
  unfold skip
  split_ifs
  · rw [hb, iterate_succ_pos]
  · rw [hb, wrap_pos hn hlt]

/-! ### The number of tags -/

lemma length_tagOffsets_le (b : Block) (size off : ℕ) :
    (tagOffsets b size off).length ≤ (size - off) / 8 := by
  induction h : size - off using Nat.strong_induction_on generalizing off with
  | _ k ih =>
    rw [tagOffsets]
    split_ifs with hoff hlast
    · simp only [length_singleton]
      omega
    · have hnext : off + 8 ≤ (tagAt b off).next off := by
        unfold Tag.next
        omega
      have hrest := ih _ (by omega) ((tagAt b off).next off) rfl
      rw [length_cons]
      omega
    · exact Nat.zero_le _

end Journal

/-- A journal with at most `2 ^ 31` transactions in its log, and with no descriptor block whose tags
lead to block numbers that are not `unsigned int`s. -/
def Geometry.Safe (g : Geometry) : Prop :=
  g.last - g.first ≤ 2 ^ 31 + 1 ∧
    g.last - 1 + min ((g.blocksize - 12) / 8) (g.last - g.first - 2) < 2 ^ 32

namespace Journal

variable (j : Journal)

/-! ### Transactions -/

/-- The contents of a block. -/
abbrev Contents := Fin j.blocksize → BitVec 8

def contents (disk : Disk) (n : BitVec 32) : j.Contents := fun i => disk n i

/-- The block of the file system that a block of the log is a copy of. The magic number was taken
out of it if it started with it. -/
def copy (t : Tag) (data : Block) : j.Contents := fun i =>
  if t.has JFS_FLAG_ESCAPE = true ∧ (i : ℕ) < 4 then magicByte i else data i

/-- The copies that the tags at these offsets describe, in the blocks from `i` on. -/
def copies (lg : ℕ → Block) (b : Block) : List ℕ → ℕ → List (BitVec 32 × j.Contents)
  | [], _ => []
  | o :: os, i =>
    ((tagAt b o).blocknr, j.copy (tagAt b o) (lg i)) :: copies lg b os (i + 1)

abbrev Txn := RedoLog.Txn (BitVec 32) j.Contents

/-- The blocks from `i` to `i'` are descriptor blocks, with the blocks they describe, and revoke
blocks of a transaction. -/
inductive Body (lg : ℕ → Block) (seq : BitVec 32) : ℕ → ℕ → j.Txn → Prop where
  | nil (i : ℕ) : Body lg seq i i ⟨[], []⟩
  | descriptor {i i' : ℕ} {t : j.Txn} (hb : blockKind (lg i) seq = some .descriptor)
      (h : Body lg seq (i + 1 + (tagOffsets (lg i) j.blocksize 12).length) i' t) :
      Body lg seq i i'
        ⟨j.copies lg (lg i) (tagOffsets (lg i) j.blocksize 12) (i + 1) ++ t.writes, t.revokes⟩
  | revoke {i i' : ℕ} {t : j.Txn} (hb : blockKind (lg i) seq = some .revoke)
      (hcount : rCount (lg i) ≤ j.blocksize) (h : Body lg seq (i + 1) i' t) :
      Body lg seq i i' ⟨t.writes, (revokeOffsets (rCount (lg i)) 16).map (be32 (lg i)) ++ t.revokes⟩

/-- The blocks from `i` to `i'` are complete transactions. -/
inductive Committed (lg : ℕ → Block) : BitVec 32 → ℕ → ℕ → List j.Txn → Prop where
  | nil (seq : BitVec 32) (i : ℕ) : Committed lg seq i i []
  | cons {seq : BitVec 32} {i c i' : ℕ} {t : j.Txn} {ts : List j.Txn} (hbody : j.Body lg seq i c t)
      (hc : blockKind (lg c) seq = some .commit) (h : Committed lg (seq + 1) (c + 1) i' ts) :
      Committed lg seq i i' (t :: ts)

/-- A log that starts at `s_start` with `s_sequence`, with these complete transactions. A part of a
further transaction follows, and then a block that is not one of it. All of this is not longer than
the circle, and no tag names a block of the journal. -/
structure WellFormed (disk : Disk) (ts : List j.Txn) : Prop where
  first_le : j.first ≤ j.start
  lt_last : j.start < j.last
  blocks : ∃ mid stop rest, j.Committed (j.nth disk) j.sequence 0 mid ts ∧
    j.Body (j.nth disk) (seqOf j.sequence ts.length) mid stop rest ∧
    blockKind (j.nth disk stop) (seqOf j.sequence ts.length) = none ∧
    stop + 1 ≤ j.last - j.first ∧
    ∀ t ∈ ts ++ [rest], ∀ w ∈ t.writes, ∀ p < j.maxlen, j.bmap p ≠ w.1

/-- No descriptor block of the transaction from `i` on, with its blocks on the circle, leads to a
block number that is not an `unsigned int`. -/
def Fits (lg : ℕ → Block) (seq : BitVec 32) (i : ℕ) : Prop :=
  ∀ k t, j.Body lg seq i k t → blockKind (lg k) seq = some .descriptor →
    k + 1 + (tagOffsets (lg k) j.blocksize 12).length < j.last - j.first →
    j.pos (k + 1) + (tagOffsets (lg k) j.blocksize 12).length < 2 ^ 32

/-- This is so for each transaction of the log, the last one included. -/
def Roomy (lg : ℕ → Block) (seq : BitVec 32) (i : ℕ) : Prop :=
  ∀ ts c, j.Committed lg seq i c ts → j.Fits lg (seqOf seq ts.length) c

variable {j} {lg : ℕ → Block} {seq : BitVec 32} {i i' : ℕ} {t : j.Txn} {ts : List j.Txn}

lemma Body.le (h : j.Body lg seq i i' t) : i ≤ i' := by
  induction h with
  | nil => exact le_refl _
  | descriptor => omega
  | revoke => omega

lemma Committed.add_length_le (h : j.Committed lg seq i i' ts) : i + ts.length ≤ i' := by
  induction h with
  | nil => exact le_refl _
  | cons hbody =>
    have hle := hbody.le
    rw [length_cons]
    omega

lemma WellFormed.length_lt {disk : Disk} (h : j.WellFormed disk ts) :
    ts.length < j.last - j.first := by
  obtain ⟨mid, stop, rest, hcommitted, hbody, -, hlen, -⟩ := h.blocks
  have hle := hbody.le
  have hmid := hcommitted.add_length_le
  omega

lemma Roomy.fits (h : j.Roomy lg seq i) : j.Fits lg seq i := by
  have hnow := h [] i (.nil seq i)
  rwa [length_nil, seqOf_zero] at hnow

lemma Roomy.next {c : ℕ} (h : j.Roomy lg seq i) (hbody : j.Body lg seq i c t)
    (hc : blockKind (lg c) seq = some .commit) : j.Roomy lg (seq + 1) (c + 1) := by
  intro ts c' hrest
  have hlater := h (t :: ts) c' (.cons hbody hc hrest)
  rwa [length_cons, ← seqOf_add_one] at hlater

lemma roomy_of_lt (h : j.last - 1 + min ((j.blocksize - 12) / 8) (j.last - j.first - 2) < 2 ^ 32) :
    j.Roomy lg seq i := by
  intro ts c _ k t _ _ hfit
  have hpos := pos_lt (j := j) (k + 1)
  have hmost := length_tagOffsets_le (lg k) j.blocksize 12
  omega

lemma mem_copies {w : BitVec 32 × j.Contents} (h : w ∈ j.copies lg b os i) :
    ∃ o ∈ os, w.1 = (tagAt b o).blocknr := by
  induction os generalizing i with
  | nil => cases h
  | cons o _ ih =>
    rcases List.mem_cons.1 h with rfl | h
    · exact ⟨o, mem_cons_self, rfl⟩
    · obtain ⟨o', ho', hw⟩ := ih h
      exact ⟨o', mem_cons_of_mem _ ho', hw⟩

lemma exists_mem_copies (lg : ℕ → Block) {o : ℕ} (h : o ∈ os) (i : ℕ) :
    ∃ c, ((tagAt b o).blocknr, c) ∈ j.copies lg b os i := by
  induction os generalizing i with
  | nil => cases h
  | cons _ _ ih =>
    rcases List.mem_cons.1 h with rfl | h
    · exact ⟨_, mem_cons_self⟩
    · obtain ⟨c, hc⟩ := ih h (i + 1)
      exact ⟨c, mem_cons_of_mem _ hc⟩

end Journal

end LklPort.Jbd
