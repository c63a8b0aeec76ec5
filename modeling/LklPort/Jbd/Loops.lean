import LklPort.Jbd.Basic

/-!
# The loops over one block of the log

`count_tags` and the loop of the last pass look at the same tags of a descriptor block, all of which
lie in the block. The last pass takes one block of the log for each of them. `scan_revoke_records`
looks at the words up to `r_count`.
-/

namespace LklPort.Jbd

open List

variable {b : Block} {size off o : ℕ}

/-! ### Blocks that are given by their words -/

/-- The block with these words. -/
def ofWords (w : ℕ → BitVec 32) : Block := fun i => (w (i / 4) >>> (24 - 8 * (i % 4))).setWidth 8

lemma append_bytes (x : BitVec 32) :
    (x >>> 24).setWidth 8 ++ (x >>> 16).setWidth 8 ++ (x >>> 8).setWidth 8 ++
      (x >>> 0).setWidth 8 = x := by
  apply BitVec.eq_of_getLsbD_eq
  intro i hi
  grind

lemma be32_ofWords (w : ℕ → BitVec 32) (k : ℕ) : be32 (ofWords w) (4 * k) = w k := by
  have hbyte (i : ℕ) (hi : i < 4) : ofWords w (4 * k + i) = (w k >>> (24 - 8 * i)).setWidth 8 := by
    rw [ofWords, show (4 * k + i) / 4 = k by omega, show (4 * k + i) % 4 = i by omega]
  have hfirst : ofWords w (4 * k) = (w k >>> 24).setWidth 8 := hbyte 0 (by decide)
  rw [be32, hfirst, hbyte 1 (by decide), hbyte 2 (by decide), hbyte 3 (by decide)]
  exact append_bytes (w k)

/-- The block with a header and further words. -/
def headed (type seq : BitVec 32) (w : ℕ → BitVec 32) : Block :=
  ofWords fun
    | 0 => JFS_MAGIC_NUMBER
    | 1 => type
    | 2 => seq
    | k + 3 => w k

lemma be32_headed (type seq : BitVec 32) (w : ℕ → BitVec 32) (k : ℕ) :
    be32 (headed type seq w) (12 + 4 * k) = w k := by
  rw [show 12 + 4 * k = 4 * (k + 3) by omega]
  exact be32_ofWords _ _

lemma sequence_headed (type seq : BitVec 32) (w : ℕ → BitVec 32) :
    be32 (headed type seq w) 8 = seq := be32_ofWords _ 2

lemma blockKind_headed (type seq : BitVec 32) (w : ℕ → BitVec 32) :
    blockKind (headed type seq w) seq =
      if type = JFS_DESCRIPTOR_BLOCK then some .descriptor
      else if type = JFS_COMMIT_BLOCK then some .commit
      else if type = JFS_REVOKE_BLOCK then some .revoke
      else none := by
  have hmagic : be32 (headed type seq w) 0 = JFS_MAGIC_NUMBER := be32_ofWords _ 0
  have htype : be32 (headed type seq w) 4 = type := be32_ofWords _ 1
  rw [blockKind, hmagic, htype, sequence_headed]
  simp only [ne_eq, not_true_eq_false, if_false]

/-! ### Tags -/

lemma countTags_eq_length (b : Block) (size off : ℕ) :
    countTags b size off = (tagOffsets b size off).length := by
  induction h : size - off using Nat.strong_induction_on generalizing off with
  | _ k ih =>
    rw [countTags, tagOffsets]
    split_ifs with hoff hlast
    · rfl
    · have hlt := (tagAt b off).lt_next off
      have hrest := ih _ (by omega) ((tagAt b off).next off) rfl
      rw [length_cons, hrest, add_comm]
    · rfl

lemma mem_tagOffsets (h : o ∈ tagOffsets b size off) : off ≤ o ∧ o + 8 ≤ size := by
  induction hk : size - off using Nat.strong_induction_on generalizing off with
  | _ k ih =>
    have hlt := (tagAt b off).lt_next off
    rw [tagOffsets] at h
    split_ifs at h with hoff hlast
    · rw [mem_singleton] at h
      omega
    · rcases List.mem_cons.1 h with rfl | h
      · omega
      · obtain ⟨hle, hend⟩ := ih _ (by omega) h rfl
        omega
    · cases h

variable {n : BitVec 32} {stop : ℤ}

namespace Journal

variable (j : Journal)

lemma replayTags_eq (b : Block) (off : ℕ) (s : PassState) : j.replayTags b off s =
      (tagOffsets b j.blocksize off).foldl (fun s o => j.replayTag b o s) s := by
  induction h : j.blocksize - off using Nat.strong_induction_on generalizing off s with
  | _ k ih =>
    rw [replayTags, tagOffsets]
    split_ifs with hoff hlast
    · rfl
    · have hlt := (tagAt b off).lt_next off
      exact ih _ (by omega) _ _ rfl
    · rfl

section

variable (b : Block) (o : ℕ) (s : PassState)

@[simp] lemma advance_nextBlock : (j.advance s).nextBlock = j.succ s.nextBlock := rfl

@[simp] lemma advance_nextCommit : (j.advance s).nextCommit = s.nextCommit := rfl

@[simp] lemma advance_success : (j.advance s).success = s.success := rfl

@[simp] lemma advance_disk : (j.advance s).disk = s.disk := rfl

@[simp] lemma advance_table : (j.advance s).table = s.table := rfl

@[simp] lemma replayTag_nextBlock : (j.replayTag b o s).nextBlock = j.succ s.nextBlock := by
  unfold replayTag
  simp only
  split_ifs <;> rfl

@[simp] lemma replayTag_nextCommit : (j.replayTag b o s).nextCommit = s.nextCommit := by
  unfold replayTag
  simp only
  split_ifs <;> rfl

@[simp] lemma replayTag_table : (j.replayTag b o s).table = s.table := by
  unfold replayTag
  simp only
  split_ifs <;> rfl

@[simp] lemma replayTag_ends : (j.replayTag b o s).ends = (o + 8) :: s.ends := by
  unfold replayTag
  simp only
  split_ifs <;> rfl

lemma replayTag_disk_of_ne (h : n ≠ (tagAt b o).blocknr) :
    (j.replayTag b o s).disk n = s.disk n := by
  unfold replayTag
  simp only
  split_ifs
  · rfl
  · rfl
  · exact Function.update_of_ne h _ _

lemma replayTag_reads : (j.replayTag b o s).reads = s.reads ∨
    s.nextBlock < j.maxlen ∧ (j.replayTag b o s).reads = (j.advance s).reads := by
  unfold replayTag
  simp only
  split_ifs with hmax
  · exact .inl rfl
  · exact .inr ⟨not_le.1 hmax, rfl⟩
  · exact .inr ⟨not_le.1 hmax, rfl⟩

end

/-! ### A descriptor block in the last pass -/

variable {j} {os : List ℕ} {s : PassState}

lemma foldl_replayTag_nextBlock (os : List ℕ) (s : PassState) :
    (os.foldl (fun s o => j.replayTag b o s) s).nextBlock = j.succ^[os.length] s.nextBlock := by
  induction os generalizing s with
  | nil => rfl
  | cons _ _ ih => rw [foldl_cons, ih, replayTag_nextBlock]; rfl

lemma foldl_replayTag_nextCommit (os : List ℕ) (s : PassState) :
    (os.foldl (fun s o => j.replayTag b o s) s).nextCommit = s.nextCommit := by
  induction os generalizing s with
  | nil => rfl
  | cons _ _ ih => rw [foldl_cons, ih, replayTag_nextCommit]

lemma foldl_replayTag_disk (h : ∀ o ∈ os, n ≠ (tagAt b o).blocknr) :
    (os.foldl (fun s o => j.replayTag b o s) s).disk n = s.disk n := by
  induction os generalizing s with
  | nil => rfl
  | cons o _ ih =>
    rw [foldl_cons, ih fun o' ho' => h o' (mem_cons_of_mem _ ho'),
      replayTag_disk_of_ne j b o s (h o mem_cons_self)]

lemma mem_foldl_replayTag_ends {e : ℕ} (he : e ∈ (os.foldl (fun s o => j.replayTag b o s) s).ends) :
    e ∈ s.ends ∨ ∃ o ∈ os, e = o + 8 := by
  induction os generalizing s with
  | nil => exact .inl he
  | cons o _ ih =>
    rcases ih he with he | ⟨o', ho', rfl⟩
    · rw [replayTag_ends] at he
      rcases List.mem_cons.1 he with rfl | he
      · exact .inr ⟨o, mem_cons_self, rfl⟩
      · exact .inl he
    · exact .inr ⟨o', mem_cons_of_mem _ ho', rfl⟩

/-! ### Blocks that are read -/

lemma mem_readahead {p q : ℕ} (h : p ∈ j.readahead q) : p < j.maxlen := by
  unfold readahead at h
  rw [mem_range'_1] at h
  omega

lemma advance_reads (hs : ∀ p ∈ s.reads, p < j.maxlen) (hmax : s.nextBlock < j.maxlen) :
    ∀ p ∈ (j.advance s).reads, p < j.maxlen := by
  intro p hp
  rcases List.mem_cons.1 hp with rfl | hp
  · exact hmax
  · rcases List.mem_append.1 hp with hp | hp
    · exact mem_readahead hp
    · exact hs p hp

lemma foldl_replayTag_reads (os : List ℕ) (hs : ∀ p ∈ s.reads, p < j.maxlen) :
    ∀ p ∈ (os.foldl (fun s o => j.replayTag b o s) s).reads, p < j.maxlen := by
  induction os generalizing s with
  | nil => exact hs
  | cons o _ ih =>
    apply ih
    rcases j.replayTag_reads b o s with heq | ⟨hmax, heq⟩
    · rwa [heq]
    · rw [heq]
      exact advance_reads hs hmax

/-! ### Revoke entries -/

/-- The places of the entries that `scan_revoke_records` looks at. -/
def revokeOffsets (stop : ℤ) (off : ℕ) : List ℕ :=
  List.range' off ((stop - off + 3) / 4).toNat 4

lemma mem_revokeOffsets :
    o ∈ revokeOffsets stop off ↔ off ≤ o ∧ (o : ℤ) < stop ∧ (o - off) % 4 = 0 := by
  unfold revokeOffsets
  rw [mem_range']
  constructor
  · rintro ⟨i, hi, rfl⟩
    omega
  · rintro ⟨hle, hlt, hmod⟩
    exact ⟨(o - off) / 4, by omega, by omega⟩

lemma revokeOffsets_of_lt (h : (off : ℤ) < stop) :
    revokeOffsets stop off = off :: revokeOffsets stop (off + 4) := by
  unfold revokeOffsets
  obtain ⟨k, hk⟩ : ∃ k, ((stop - off + 3) / 4).toNat = k + 1 :=
    ⟨((stop - off + 3) / 4).toNat - 1, by omega⟩
  have hk' : ((stop - (off + 4 : ℕ) + 3) / 4).toNat = k := by omega
  rw [hk, hk', List.range'_succ]

lemma revokeOffsets_of_le (h : stop ≤ (off : ℤ)) : revokeOffsets stop off = [] := by
  unfold revokeOffsets
  rw [show ((stop - off + 3) / 4).toNat = 0 by omega]
  rfl

/-- The entry at an offset is recorded. -/
def revokeEntry (j : Journal) (b : Block) (s : PassState) (o : ℕ) : PassState :=
  { s with table := j.setRevoke (be32 b o) s.nextCommit s.table, ends := (o + 4) :: s.ends }

lemma scanRevokeRecords_eq (b : Block) (stop : ℤ) (off : ℕ) (s : PassState) :
    j.scanRevokeRecords b stop off s = (revokeOffsets stop off).foldl (j.revokeEntry b) s := by
  induction h : (stop - off).toNat using Nat.strong_induction_on generalizing off s with
  | _ k ih =>
    rw [scanRevokeRecords]
    by_cases hoff : (off : ℤ) < stop
    · rw [if_pos hoff, revokeOffsets_of_lt hoff, foldl_cons]
      exact ih _ (by omega) _ _ rfl
    · rw [if_neg hoff, revokeOffsets_of_le (not_lt.1 hoff)]
      rfl

lemma foldl_revokeEntry (os : List ℕ) (s : PassState) : os.foldl (j.revokeEntry b) s =
      { s with
        table := os.foldl (fun t o => j.setRevoke (be32 b o) s.nextCommit t) s.table
        ends := (os.map (· + 4)).reverse ++ s.ends } := by
  induction os generalizing s with
  | nil => rfl
  | cons _ _ ih =>
    rw [foldl_cons, ih]
    simp [revokeEntry]

end Journal

end LklPort.Jbd
