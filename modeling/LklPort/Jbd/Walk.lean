import Mathlib.Data.Finite.Prod
import Mathlib.Tactic.IntervalCases
import LklPort.Jbd.Loops

/-!
# The walk through an untrusted log

Where a pass goes next depends on the block that it reads and on the sequence number it expects,
and on nothing else that it has done. A commit block raises the sequence number, so a pass that does
not end comes back to a block without a commit block on the way: there is a ring of descriptor and
revoke blocks of one transaction. No tag or block behind the end of the log is looked at, but
`scan_revoke_records` trusts `r_count`.
-/

namespace LklPort.Jbd

open BitVec

open Relation (TransGen)

variable {b : Block} {n : ℕ} {S : Finset ℕ}

namespace Journal

variable (j : Journal)

/-! ### The next block -/

/-- Where a pass goes on behind the blocks of a descriptor block. The last pass takes them one by
one, and the others all at once. -/
def skip (pass : Pass) (b : Block) (p : ℕ) : ℕ :=
  if pass = .replay then j.succ^[countTags b j.blocksize 12] p
  else j.wrap ((p + countTags b j.blocksize 12) % 2 ^ 32)

/-- The block `next_log_block` and the sequence number `next_commit_ID` after a round. -/
def place (log : ℕ → Block) (pass : Pass) (endTransaction : BitVec 32) (c : ℕ × BitVec 32) :
    (ℕ × BitVec 32) ⊕ Unit :=
  if Stops pass endTransaction c.2 then .inr ()
  else if c.1 ≥ j.maxlen then .inr ()
  else
    match blockKind (log c.1) c.2 with
    | none => .inr ()
    | some .descriptor => .inl (j.skip pass (log c.1) (j.succ c.1), c.2)
    | some .commit => .inl (j.succ c.1, c.2 + 1)
    | some .revoke => .inl (j.succ c.1, c.2)

/-- The pass gets to the block `p`, where it expects the sequence number `seq`. -/
def Gets (log : ℕ → Block) (pass : Pass) (endTransaction : BitVec 32) (p : ℕ) (seq : BitVec 32) :
    Prop :=
  Rounds.Reaches (j.place log pass endTransaction) (j.start, j.sequence) (p, seq)

/-- The block `p` is a descriptor or revoke block of the transaction, and the pass goes on from it
with the block `p'`. -/
inductive Link (log : ℕ → Block) (pass : Pass) (seq : BitVec 32) (p : ℕ) : ℕ → Prop where
  | descriptor (hp : p < j.maxlen) (hb : blockKind (log p) seq = some .descriptor) :
      Link log pass seq p (j.skip pass (log p) (j.succ p))
  | revoke (hp : p < j.maxlen) (hb : blockKind (log p) seq = some .revoke) :
      Link log pass seq p (j.succ p)

/-- Descriptor and revoke blocks of one transaction that lead back to the block `p`. -/
def Ring (log : ℕ → Block) (pass : Pass) (seq : BitVec 32) (p : ℕ) : Prop :=
  TransGen (j.Link log pass seq) p p

/-! ### What a pass may look at -/

/-- No tag names a block of the journal. -/
def NoSelf (log : ℕ → Block) : Prop :=
  ∀ p < j.maxlen, ∀ seq, blockKind (log p) seq = some .descriptor →
    ∀ o ∈ tagOffsets (log p) j.blocksize 12, ∀ p' < j.maxlen, j.bmap p' ≠ (tagAt (log p) o).blocknr

/-- The states of a pass before each of its rounds, and the last one. -/
inductive Seen (pass : Pass) (endTransaction : BitVec 32) (disk : Disk) (table : RevokeTable) :
    PassState → Prop where
  | round {s : PassState}
      (h : Rounds.Reaches (j.round pass endTransaction) (j.begin disk table) s) :
      Seen pass endTransaction disk table s
  | last {s : PassState} {e : Exit}
      (h : Rounds.Reaches (j.round pass endTransaction) (j.begin disk table) s)
      (hexit : j.round pass endTransaction s = .inr e) : Seen pass endTransaction disk table e.state

/-- A pass that ends, and looks at no block behind the end of the log and at no entry behind the end
of its block. -/
structure WellBehaved (pass : Pass) (endTransaction : BitVec 32) (disk : Disk)
    (table : RevokeTable) : Prop where
  ends : ∃ rounds r, j.doOnePass rounds pass endTransaction disk table = some r
  blocks : ∀ s, j.Seen pass endTransaction disk table s → ∀ p ∈ s.reads, p < j.maxlen
  entries : ∀ s, j.Seen pass endTransaction disk table s → ∀ e ∈ s.ends, e ≤ j.blocksize

variable {j} {log : ℕ → Block} {pass : Pass} {tid seq : BitVec 32} {p p' : ℕ}

/-! ### A round -/

/-- The pass reads a block of this kind. -/
structure Reading (j : Journal) (pass : Pass) (tid : BitVec 32) (s : PassState)
    (kind : Option Kind) : Prop where
  go : ¬ Stops pass tid s.nextCommit
  lt : s.nextBlock < j.maxlen
  kind : blockKind (j.log s.disk s.nextBlock) s.nextCommit = kind

section

variable {s : PassState}

lemma round_of_descriptor (h : Reading j pass tid s (some .descriptor)) : j.round pass tid s =
      .inl (if pass = .replay then j.replayTags (j.log s.disk s.nextBlock) 12 (j.advance s)
        else { j.advance s with
          nextBlock := j.skip pass (j.log s.disk s.nextBlock) (j.succ s.nextBlock)
          ends :=
            (tagOffsets (j.log s.disk s.nextBlock) j.blocksize 12).map (· + 8) ++ s.ends }) := by
  rw [round, if_neg h.go, if_neg (not_le.2 h.lt)]
  simp only [advance_nextCommit, h.kind]
  by_cases hpass : pass = .replay
  · rw [if_pos hpass, if_pos hpass]
  · rw [if_neg hpass, if_neg hpass, skip, if_neg hpass]
    rfl

lemma round_of_commit (h : Reading j pass tid s (some .commit)) : j.round pass tid s =
      .inl { j.advance s with nextCommit := s.nextCommit + 1 } := by
  rw [round, if_neg h.go, if_neg (not_le.2 h.lt)]
  simp only [advance_nextCommit, h.kind]

lemma round_of_revoke (h : Reading j pass tid s (some .revoke)) : j.round pass tid s =
      .inl (if pass = .revoke then j.scanRevokeRecords (j.log s.disk s.nextBlock)
        (rCount (j.log s.disk s.nextBlock)) 16 (j.advance s) else j.advance s) := by
  rw [round, if_neg h.go, if_neg (not_le.2 h.lt)]
  simp only [advance_nextCommit, h.kind]
  split_ifs <;> rfl

lemma round_of_none (h : Reading j pass tid s none) :
    j.round pass tid s = .inr (.done (j.advance s)) := by
  rw [round, if_neg h.go, if_neg (not_le.2 h.lt)]
  simp only [advance_nextCommit, h.kind]

end

/-- What a round of a pass does. -/
inductive RoundSpec (j : Journal) (pass : Pass) (tid : BitVec 32) (s : PassState) :
    PassState ⊕ Exit → Prop where
  | stop (h : Stops pass tid s.nextCommit) :
      RoundSpec j pass tid s (.inr (.done s))
  | failed (hp : j.maxlen ≤ s.nextBlock) : RoundSpec j pass tid s (.inr (.failed s))
  | other (h : Reading j pass tid s none) :
      RoundSpec j pass tid s (.inr (.done (j.advance s)))
  | skip (h : Reading j pass tid s (some .descriptor)) (hpass : pass ≠ .replay) :
      RoundSpec j pass tid s (.inl { j.advance s with
        nextBlock := j.skip pass (j.log s.disk s.nextBlock) (j.succ s.nextBlock)
        ends := (tagOffsets (j.log s.disk s.nextBlock) j.blocksize 12).map (· + 8) ++ s.ends })
  | replay (h : Reading j pass tid s (some .descriptor)) (hpass : pass = .replay) :
      RoundSpec j pass tid s (.inl (j.replayTags (j.log s.disk s.nextBlock) 12 (j.advance s)))
  | commit (h : Reading j pass tid s (some .commit)) :
      RoundSpec j pass tid s (.inl { j.advance s with nextCommit := s.nextCommit + 1 })
  | pass (h : Reading j pass tid s (some .revoke)) :
      RoundSpec j pass tid s (.inl (j.advance s))
  | revoke (h : Reading j pass tid s (some .revoke)) (hpass : pass = .revoke) :
      RoundSpec j pass tid s (.inl (j.scanRevokeRecords (j.log s.disk s.nextBlock)
        (rCount (j.log s.disk s.nextBlock)) 16 (j.advance s)))

lemma round_spec (j : Journal) (pass : Pass) (tid : BitVec 32) (s : PassState) :
    RoundSpec j pass tid s (j.round pass tid s) := by
  by_cases h : Stops pass tid s.nextCommit
  · rw [round, if_pos h]
    exact .stop h
  by_cases hp : s.nextBlock ≥ j.maxlen
  · rw [round, if_neg h, if_pos hp]
    exact .failed hp
  have hread : Reading j pass tid s _ := ⟨h, not_le.1 hp, rfl⟩
  cases hb : blockKind (j.log s.disk s.nextBlock) s.nextCommit with
  | none =>
    rw [hb] at hread
    rw [round_of_none hread]
    exact .other hread
  | some kind =>
    rw [hb] at hread
    cases kind with
    | commit =>
      rw [round_of_commit hread]
      exact .commit hread
    | descriptor =>
      rw [round_of_descriptor hread]
      split_ifs with hpass
      · exact .replay hread hpass
      · exact .skip hread hpass
    | revoke =>
      rw [round_of_revoke hread]
      split_ifs with hpass
      · exact .revoke hread hpass
      · exact .pass hread

/-! ### The walk is the walk of the pass -/

lemma succ_lt (p : ℕ) : j.succ p < 2 ^ 32 := by
  unfold succ wrap
  split_ifs <;> omega

lemma skip_lt (b : Block) (hp : p < 2 ^ 32) : j.skip pass b p < 2 ^ 32 := by
  unfold skip
  split_ifs
  · cases countTags b j.blocksize 12 with
    | zero => exact hp
    | succ =>
      rw [Function.iterate_succ_apply']
      exact succ_lt _
  · unfold wrap
    split_ifs <;> omega

/-- The blocks of the log are as they were. -/
def SameLog (j : Journal) (log : ℕ → Block) (s : PassState) : Prop :=
  ∀ p < j.maxlen, j.log s.disk p = log p

/-- The part of the state that says where the pass goes. -/
def placeOf (s : PassState) : ℕ × BitVec 32 := (s.nextBlock, s.nextCommit)

section

variable {s : PassState}

lemma place_read {kind : Option Kind} (h : Reading j pass tid s kind) (hlog : SameLog j log s) :
    j.place log pass tid (placeOf s) =
      match blockKind (j.log s.disk s.nextBlock) s.nextCommit with
      | none => .inr ()
      | some .descriptor =>
        .inl (j.skip pass (j.log s.disk s.nextBlock) (j.succ s.nextBlock), s.nextCommit)
      | some .commit => .inl (j.succ s.nextBlock, s.nextCommit + 1)
      | some .revoke => .inl (j.succ s.nextBlock, s.nextCommit) := by
  rw [place, placeOf, if_neg h.go, if_neg (not_le.2 h.lt), hlog _ h.lt]

lemma sameLog_replayTags (hself : j.NoSelf log) (hlog : SameLog j log s)
    (h : Reading j pass tid s (some .descriptor)) :
    SameLog j log (j.replayTags (j.log s.disk s.nextBlock) 12 (j.advance s)) := by
  intro p hlt
  have hb := h.kind
  rw [hlog _ h.lt] at hb ⊢
  rw [replayTags_eq, Journal.log, foldl_replayTag_disk fun o ho => hself _ h.lt _ hb o ho p hlt]
  exact hlog p hlt

lemma placeOf_replayTags (b : Block) : placeOf (j.replayTags b 12 (j.advance s)) =
      (j.skip .replay b (j.succ s.nextBlock), s.nextCommit) := by
  rw [replayTags_eq, placeOf, foldl_replayTag_nextBlock, foldl_replayTag_nextCommit, skip,
    if_pos rfl, countTags_eq_length, advance_nextBlock, advance_nextCommit]

end

lemma follows_place (hself : j.NoSelf log) :
    Rounds.Follows (SameLog j log) placeOf (j.round pass tid) (j.place log pass tid) where
  inl s t hlog hround := by
    have hspec := round_spec j pass tid s
    rw [hround] at hspec
    cases hspec with
    | skip h _ | commit h | pass h => exact ⟨by rw [place_read h hlog, h.kind]; rfl, hlog⟩
    | replay h hpass =>
      subst hpass
      rw [place_read h hlog, h.kind, placeOf_replayTags]
      exact ⟨rfl, sameLog_replayTags hself hlog h⟩
    | revoke h =>
      rw [place_read h hlog, h.kind, scanRevokeRecords_eq, foldl_revokeEntry]
      exact ⟨rfl, hlog⟩
  inr s r hlog hround := by
    have hspec := round_spec j pass tid s
    rw [hround] at hspec
    cases hspec with
    | stop h => exact ⟨(), if_pos h⟩
    | failed hp => exact ⟨(), by simp [place, placeOf, hp]⟩
    | other h => exact ⟨(), by rw [place_read h hlog, h.kind]⟩

/-! ### Rings -/

section

variable {c d : ℕ × BitVec 32}

lemma sequence_of_blockKind {kind : Kind} (h : blockKind b seq = some kind) : be32 b 8 = seq := by
  unfold blockKind at h
  split_ifs at h with _ hseq
  all_goals exact not_not.1 hseq

lemma next_place (h : Rounds.Next (j.place log pass tid) c d) :
    ¬ Stops pass tid c.2 ∧ c.1 < j.maxlen ∧ (j.Link log pass c.2 c.1 d.1 ∧ d.2 = c.2 ∨
        blockKind (log c.1) c.2 = some .commit ∧ d.2 = c.2 + 1) := by
  unfold Rounds.Next place at h
  split_ifs at h with hstop hp
  have hp := not_le.1 hp
  refine ⟨hstop, hp, ?_⟩
  split at h
  · cases h
  · next hb =>
    cases h
    exact .inl ⟨.descriptor hp hb, rfl⟩
  · next hb =>
    cases h
    exact .inr ⟨hb, rfl⟩
  · next hb =>
    cases h
    exact .inl ⟨.revoke hp hb, rfl⟩

lemma next_of_link (hstop : ¬ Stops pass tid seq) (h : j.Link log pass seq p p') :
    Rounds.Next (j.place log pass tid) (p, seq) (p', seq) := by
  unfold Rounds.Next place
  rw [if_neg hstop]
  cases h with
  | descriptor hp hb | revoke hp hb => rw [if_neg (not_le.2 hp), hb]

/-- What a walk from `c` to `d` has met: `n` commit blocks, which are those in `S`. Each of them has
a sequence number of its own. -/
structure Met (j : Journal) (log : ℕ → Block) (c d : ℕ × BitVec 32) (n : ℕ) (S : Finset ℕ) :
    Prop where
  commit : d.2 = c.2 + BitVec.ofNat 32 n
  card : S.card = n
  block : ∀ p ∈ S, p < j.maxlen ∧ ∃ i < n, be32 (log p) 8 = c.2 + BitVec.ofNat 32 i

lemma Met.le (h : Met j log c d n S) : n ≤ j.maxlen := by
  have hsub : S ⊆ Finset.range j.maxlen := fun p hp => Finset.mem_range.2 (h.block p hp).1
  have hcard := Finset.card_le_card hsub
  rwa [h.card, Finset.card_range] at hcard

lemma Met.insert {d' : ℕ × BitVec 32} (h : Met j log c d n S) (hp : d.1 < j.maxlen)
    (hb : blockKind (log d.1) d.2 = some .commit) (hd' : d'.2 = d.2 + 1) :
    Met j log c d' (n + 1) (insert d.1 S) := by
  have hseq := sequence_of_blockKind hb
  rw [h.commit] at hseq
  have hnew : d.1 ∉ S := by
    intro hmem
    obtain ⟨-, i, hi, hseq'⟩ := h.block d.1 hmem
    rw [hseq'] at hseq
    have hle := h.le
    have hlt := j.maxlen_lt
    have heq := congrArg BitVec.toNat (BitVec.add_right_inj _ |>.1 hseq)
    rw [toNat_ofNat, toNat_ofNat, Nat.mod_eq_of_lt (by omega), Nat.mod_eq_of_lt (by omega)] at heq
    omega
  refine ⟨?_, by rw [Finset.card_insert_of_notMem hnew, h.card], fun p hmem => ?_⟩
  · rw [hd', h.commit, BitVec.add_assoc, BitVec.ofNat_add]
    rfl
  · rcases Finset.mem_insert.1 hmem with rfl | hmem
    · exact ⟨hp, n, Nat.lt_succ_self n, hseq⟩
    · obtain ⟨hlt, i, hi, hseq'⟩ := h.block p hmem
      exact ⟨hlt, i, Nat.lt_succ_of_lt hi, hseq'⟩

lemma exists_met (h : TransGen (Rounds.Next (j.place log pass tid)) c d) :
    ∃ n S, Met j log c d n S ∧ (n = 0 → TransGen (j.Link log pass c.2) c.1 d.1) := by
  have hnil : Met j log c c 0 ∅ := ⟨by simp, rfl, by simp⟩
  induction h with
  | single hnext =>
    obtain ⟨-, hp, ⟨hlink, hcommit⟩ | ⟨hb, hcommit⟩⟩ := next_place hnext
    · exact ⟨0, ∅, { hnil with commit := by rw [hcommit]; simp }, fun _ => .single hlink⟩
    · exact ⟨1, _, hnil.insert hp hb hcommit, nofun⟩
  | tail _ hnext ih =>
    obtain ⟨n, S, hmet, hlinks⟩ := ih
    obtain ⟨-, hp, ⟨hlink, hcommit⟩ | ⟨hb, hcommit⟩⟩ := next_place hnext
    · refine ⟨n, S, { hmet with commit := by rw [hcommit, hmet.commit] }, fun h0 => ?_⟩
      apply (hlinks h0).tail
      have hsame := hmet.commit
      rw [h0] at hsame
      rwa [hsame, BitVec.add_zero] at hlink
    · exact ⟨n + 1, _, hmet.insert hp hb hcommit, nofun⟩

lemma ring_of_cycles (h : Rounds.Cycles (j.place log pass tid) c) :
    ¬ Stops pass tid c.2 ∧ j.Ring log pass c.2 c.1 := by
  obtain ⟨d, hnext, -⟩ := h.exists_next
  refine ⟨(next_place hnext).1, ?_⟩
  obtain ⟨n, S, hmet, hlinks⟩ := exists_met h
  apply hlinks
  have hle := hmet.le
  have hlt := j.maxlen_lt
  have hzero : c.2 + BitVec.ofNat 32 n = c.2 + 0#32 := by
    rw [← hmet.commit, BitVec.add_zero]
  have heq := congrArg BitVec.toNat ((BitVec.add_right_inj _).1 hzero)
  rwa [toNat_ofNat, Nat.mod_eq_of_lt (by omega)] at heq

lemma cycles_of_ring (hstop : ¬ Stops pass tid seq) (h : j.Ring log pass seq p) :
    Rounds.Cycles (j.place log pass tid) (p, seq) := by
  refine TransGen.lift (fun p => (p, seq)) (fun p p' hlink => ?_) p p h
  exact next_of_link hstop hlink

end

/-! ### When a pass ends -/

lemma next_place_lt {c d : ℕ × BitVec 32}
    (hnext : Rounds.Next (j.place log pass tid) c d) : d.1 < 2 ^ 32 := by
  unfold Rounds.Next place at hnext
  split_ifs at hnext
  split at hnext <;> cases hnext
  · exact skip_lt _ (succ_lt _)
  · exact succ_lt _
  · exact succ_lt _

lemma finite_places : {c | Rounds.Reaches (j.place log pass tid)
    (j.start, j.sequence) c}.Finite := by
  have hfin : Finite (BitVec 32) := Finite.of_injective BitVec.toFin fun _ _ => eq_of_toFin_eq
  refine ((Set.finite_lt_nat (2 ^ 32)).prod Set.finite_univ).subset fun c hc => ⟨?_, trivial⟩
  exact Rounds.Reaches.invariant (I := fun c => c.1 < 2 ^ 32) hc j.start_lt
    fun _ _ _ => next_place_lt

lemma halts_iff_no_ring {disk : Disk} {table : RevokeTable} (hself : j.NoSelf (j.log disk)) :
    Rounds.Halts (j.round pass tid) (j.begin disk table) ↔
      ∀ p seq, j.Gets (j.log disk) pass tid p seq → ¬ Stops pass tid seq →
        ¬ j.Ring (j.log disk) pass seq p := by
  have hlog : SameLog j (j.log disk) (j.begin disk table) := fun _ _ => rfl
  rw [(follows_place hself).halts_iff hlog, show placeOf (j.begin disk table) =
    (j.start, j.sequence) from rfl, Rounds.halts_iff_of_finite finite_places]
  constructor
  · intro h p seq hgets hstop hring
    exact h (p, seq) hgets (cycles_of_ring hstop hring)
  · intro h c hgets hcycle
    obtain ⟨hstop, hring⟩ := ring_of_cycles hcycle
    exact h c.1 c.2 hgets hstop hring

/-! ### What is looked at -/

section

variable {s : PassState} {disk : Disk} {table : RevokeTable}

/-- The state after a round. -/
def stateAfter : PassState ⊕ Exit → PassState
  | .inl s => s
  | .inr e => e.state

lemma round_reads (hs : ∀ p ∈ s.reads, p < j.maxlen) :
    ∀ p ∈ (stateAfter (j.round pass tid s)).reads, p < j.maxlen := by
  have hspec := round_spec j pass tid s
  generalize j.round pass tid s = r at hspec
  cases hspec with
  | stop | failed => exact hs
  | other h | skip h _ | commit h | pass h => exact advance_reads hs h.lt
  | replay h =>
    rw [replayTags_eq]
    exact foldl_replayTag_reads _ (advance_reads hs h.lt)
  | revoke h =>
    rw [scanRevokeRecords_eq, foldl_revokeEntry]
    exact advance_reads hs h.lt

lemma tag_end_le {e : ℕ} (h : ∃ o ∈ tagOffsets b j.blocksize 12, e = o + 8) : e ≤ j.blocksize := by
  obtain ⟨o, ho, rfl⟩ := h
  exact (mem_tagOffsets ho).2

lemma four_dvd_blocksize (j : Journal) : 4 ∣ j.blocksize ∧ 16 ≤ j.blocksize := by
  obtain ⟨k, hk, hsize⟩ := j.blocksize_pow
  rw [hsize]
  refine ⟨Nat.pow_dvd_pow 2 (by omega : 2 ≤ k), ?_⟩
  calc 16 = 2 ^ 4 := by decide
    _ ≤ 2 ^ k := Nat.pow_le_pow_right (by decide) (by omega)

/-- A round looks at entries in its block, unless it scans a revoke block with a count that goes
beyond it. -/
lemma round_ends (hs : ∀ e ∈ s.ends, e ≤ j.blocksize)
    (hcount : pass = .revoke → Reading j pass tid s (some .revoke) →
      rCount (j.log s.disk s.nextBlock) ≤ j.blocksize) :
    ∀ e ∈ (stateAfter (j.round pass tid s)).ends, e ≤ j.blocksize := by
  have hspec := round_spec j pass tid s
  generalize j.round pass tid s = r at hspec
  cases hspec with
  | stop _ | failed _ | other _ | commit _ | pass _ => exact hs
  | skip =>
    intro e he
    rcases List.mem_append.1 he with he | he
    · obtain ⟨o, ho, rfl⟩ := List.mem_map.1 he
      exact tag_end_le ⟨o, ho, rfl⟩
    · exact hs e he
  | replay =>
    intro e he
    rw [replayTags_eq] at he
    rcases mem_foldl_replayTag_ends he with he | he
    · exact hs e he
    · exact tag_end_le he
  | revoke h hpass =>
    intro e he
    rw [scanRevokeRecords_eq, foldl_revokeEntry] at he
    rcases List.mem_append.1 he with he | he
    · rw [List.mem_reverse] at he
      obtain ⟨o, ho, rfl⟩ := List.mem_map.1 he
      obtain ⟨hle, hlt, hmod⟩ := mem_revokeOffsets.1 ho
      have hend := hcount hpass h
      have hfour := four_dvd_blocksize j
      omega
    · exact hs e he

lemma exists_end_of_rCount (h : Reading j .revoke tid s (some .revoke))
    (hcount : (j.blocksize : ℤ) < rCount (j.log s.disk s.nextBlock)) :
    ∃ t, j.round .revoke tid s = .inl t ∧ j.blocksize + 4 ∈ t.ends := by
  have hfour := four_dvd_blocksize j
  refine ⟨_, round_of_revoke h, ?_⟩
  rw [scanRevokeRecords_eq, foldl_revokeEntry]
  apply List.mem_append_left
  rw [List.mem_reverse]
  exact List.mem_map.2 ⟨j.blocksize, mem_revokeOffsets.2 ⟨hfour.2, hcount, by omega⟩, rfl⟩

lemma Seen.of_round {P : PassState → Prop} (hbegin : P (j.begin disk table))
    (hround : ∀ s, Rounds.Reaches (j.round pass tid) (j.begin disk table) s → P s →
      P (stateAfter (j.round pass tid s)))
    (h : j.Seen pass tid disk table s) : P s := by
  have hreach {s : PassState}
      (h : Rounds.Reaches (j.round pass tid) (j.begin disk table) s) : P s := by
    induction h with
    | refl => exact hbegin
    | @tail t u ht hnext ih =>
      have hP := hround t ht ih
      rwa [show j.round pass tid t = .inl u from hnext] at hP
  cases h with
  | round h => exact hreach h
  | @last t _ ht hexit =>
    have hP := hround t ht (hreach ht)
    rwa [hexit] at hP

lemma exists_doOnePass_iff_halts : (∃ rounds r, j.doOnePass rounds pass tid disk table = some r) ↔
      Rounds.Halts (j.round pass tid) (j.begin disk table) := by
  unfold doOnePass Rounds.Halts
  constructor
  · rintro ⟨rounds, r, h⟩
    obtain ⟨e, he, -⟩ := Option.map_eq_some_iff.1 h
    exact ⟨rounds, e, he⟩
  · rintro ⟨rounds, e, he⟩
    exact ⟨rounds, _, by rw [he, Option.map_some]⟩

end

/-- A pass over any log ends, and looks at nothing behind the end of the log or of a block, if and
only if it gets to no ring of descriptor and revoke blocks of one transaction, and, in the second
pass, to no revoke block whose count goes beyond the block. -/
theorem do_one_pass_well_behaved_iff (j : Journal) (pass : Pass) (endTransaction : BitVec 32)
    (disk : Disk) (table : RevokeTable) (hself : j.NoSelf (j.log disk)) :
    j.WellBehaved pass endTransaction disk table ↔
      (∀ p seq, j.Gets (j.log disk) pass endTransaction p seq → ¬ Stops pass endTransaction seq →
        ¬ j.Ring (j.log disk) pass seq p) ∧
      (pass = .revoke → ∀ p seq, j.Gets (j.log disk) pass endTransaction p seq →
        ¬ Stops pass endTransaction seq → p < j.maxlen →
        blockKind (j.log disk p) seq = some .revoke → rCount (j.log disk p) ≤ j.blocksize) := by
  have hlog : SameLog j (j.log disk) (j.begin disk table) := fun _ _ => rfl
  constructor
  · intro h
    refine ⟨(halts_iff_no_ring hself).1 (exists_doOnePass_iff_halts.1 h.ends), ?_⟩
    rintro rfl p seq hgets hstop hp hb
    by_contra hcount
    obtain ⟨s, hreach, hplace⟩ := (follows_place hself).exists_of_reaches hlog hgets
    obtain ⟨rfl, rfl⟩ := Prod.mk.inj hplace
    have hsame := ((follows_place hself).reaches hlog hreach).2 s.nextBlock hp
    rw [← hsame] at hb hcount
    obtain ⟨t, hround, hend⟩ := exists_end_of_rCount ⟨hstop, hp, hb⟩ (not_le.1 hcount)
    have hle := h.entries t (.round (hreach.tail hround)) _ hend
    omega
  · rintro ⟨hring, hcount⟩
    refine ⟨exists_doOnePass_iff_halts.2 ((halts_iff_no_ring hself).2 hring),
      fun s hs => ?_, fun s hs => ?_⟩
    · exact hs.of_round (P := fun s => ∀ p ∈ s.reads, p < j.maxlen) (fun p hp => by cases hp)
        fun _ _ hs => round_reads hs
    · refine hs.of_round (P := fun s => ∀ e ∈ s.ends, e ≤ j.blocksize) (fun e he => by cases he)
        fun t ht hends => round_ends hends fun hpass h => ?_
      obtain ⟨hgets, hsame⟩ := (follows_place hself).reaches hlog ht
      have hb := h.kind
      rw [hsame _ h.lt] at hb ⊢
      exact hcount hpass _ _ hgets h.go h.lt hb

end Journal

variable {m size p p' : ℕ} {seq : BitVec 32}

/-! ### Blocks and journals to look at -/

/-- A journal of this size whose blocks are the first ones of the device. -/
def Geometry.journal (g : Geometry) (start : ℕ) (h : start < 2 ^ 32) : Journal where
  toGeometry := g
  start := start
  sequence := 0
  bmap p := BitVec.ofNat 32 p
  hash _ := 0
  hashSize := 256
  start_lt := h

/-- A block of zeros. -/
def zeroBlock : Block := fun _ => 0

lemma blockKind_zeroBlock (seq : BitVec 32) : blockKind zeroBlock seq = none := by
  rw [blockKind, if_pos]
  decide

/-- A commit block. -/
def commitBlock (seq : BitVec 32) : Block := headed JFS_COMMIT_BLOCK seq fun _ => 0

lemma blockKind_commitBlock (seq : BitVec 32) : blockKind (commitBlock seq) seq = some .commit := by
  rw [commitBlock, blockKind_headed]
  decide

/-- A descriptor block with `m` tags, which name the last block of the device. -/
def tagsBlock (m : ℕ) : Block := headed JFS_DESCRIPTOR_BLOCK 0 fun k =>
  if k % 2 = 0 then BitVec.allOnes 32
  else if k / 2 + 1 = m then JFS_FLAG_SAME_UUID ||| JFS_FLAG_LAST_TAG
  else JFS_FLAG_SAME_UUID

lemma blockKind_tagsBlock (m : ℕ) : blockKind (tagsBlock m) 0 = some .descriptor := by
  rw [tagsBlock, blockKind_headed, if_pos rfl]

lemma tagAt_tagsBlock (m i : ℕ) : tagAt (tagsBlock m) (12 + 8 * i) = ⟨BitVec.allOnes 32,
      if i + 1 = m then JFS_FLAG_SAME_UUID ||| JFS_FLAG_LAST_TAG else JFS_FLAG_SAME_UUID⟩ := by
  rw [tagAt, show 12 + 8 * i + 4 = 12 + 4 * (2 * i + 1) by omega,
    show 12 + 8 * i = 12 + 4 * (2 * i) by omega, tagsBlock, be32_headed, be32_headed,
    if_pos (by omega), if_neg (by omega), show (2 * i + 1) / 2 = i by omega]

lemma tagOffsets_tagsBlock_of_lt {i : ℕ} (d : ℕ) (hd : i + d + 1 = m) (hsize : 12 + 8 * m ≤ size) :
    tagOffsets (tagsBlock m) size (12 + 8 * i) = List.range' (12 + 8 * i) (d + 1) 8 := by
  induction d generalizing i with
  | zero =>
    have hlast : (tagAt (tagsBlock m) (12 + 8 * i)).has JFS_FLAG_LAST_TAG = true := by
      rw [tagAt_tagsBlock, if_pos (by omega)]
      decide
    rw [tagOffsets, if_pos (by omega), if_pos hlast]
    rfl
  | succ d ih =>
    have hlast : ¬ (tagAt (tagsBlock m) (12 + 8 * i)).has JFS_FLAG_LAST_TAG = true := by
      rw [tagAt_tagsBlock, if_neg (by omega)]
      decide
    have hnext : (tagAt (tagsBlock m) (12 + 8 * i)).next (12 + 8 * i) = 12 + 8 * (i + 1) := by
      have hsame : (tagAt (tagsBlock m) (12 + 8 * i)).has JFS_FLAG_SAME_UUID = true := by
        rw [tagAt_tagsBlock, if_neg (by omega)]
        decide
      rw [Tag.next, if_pos hsame]
      omega
    rw [tagOffsets, if_pos (by omega), if_neg hlast, hnext, ih (by omega)]
    rfl

lemma tagOffsets_tagsBlock (hpos : 0 < m) (hsize : 12 + 8 * m ≤ size) :
    tagOffsets (tagsBlock m) size 12 = List.range' 12 m 8 := by
  obtain ⟨d, rfl⟩ : ∃ d, m = d + 1 := ⟨m - 1, by omega⟩
  exact tagOffsets_tagsBlock_of_lt (i := 0) d (by omega) hsize

/-! ### A log of one transaction -/

namespace Journal

lemma exists_pow_1024 : ∃ k, 10 ≤ k ∧ 1024 = 2 ^ k := ⟨10, Nat.le_refl 10, rfl⟩

/-- A journal with five blocks for the log. -/
def smallGeometry : Geometry where
  first := 1
  last := 6
  maxlen := 6
  blocksize := 1024
  first_pos := Nat.one_pos
  first_lt := by decide
  last_le := by decide
  maxlen_lt := by decide
  blocksize_pow := exists_pow_1024

/-- The log starts with the last block but one and goes on with the first one. -/
def oneTxn : Journal := smallGeometry.journal 4 (by decide)

/-- A transaction of a descriptor block, a copy of the last block of the device, and a commit
block. -/
def oneTxnDisk : Disk := fun n =>
  if n = 4 then tagsBlock 1
  else if n = 5 then fun _ => 1
  else if n = 1 then commitBlock 0
  else zeroBlock

lemma tagOffsets_oneTxn : tagOffsets (tagsBlock 1) oneTxn.blocksize 12 = [12] :=
  tagOffsets_tagsBlock (by decide) (by decide)

lemma bmap_oneTxn (hp : p < oneTxn.maxlen) : oneTxn.bmap p ≠ (tagAt (tagsBlock 1) 12).blocknr := by
  change p < 6 at hp
  interval_cases p <;> decide

lemma kind_oneTxn {kind : Kind} (hp : p < oneTxn.maxlen)
    (h : blockKind (oneTxn.log oneTxnDisk p) seq = some kind) :
    p = 4 ∧ kind = .descriptor ∨ p = 1 ∧ kind = .commit := by
  have hzero : blockKind zeroBlock seq ≠ some kind := by simp [blockKind_zeroBlock]
  change p < 6 at hp
  interval_cases p
  · exact absurd h hzero
  · have hseq : 0 = seq := (sequence_headed _ 0 _).symm.trans (sequence_of_blockKind h)
    exact .inr ⟨rfl, Option.some.inj (h.symm.trans (hseq ▸ blockKind_commitBlock 0))⟩
  · exact absurd h hzero
  · exact absurd h hzero
  · have hseq : 0 = seq := (sequence_headed _ 0 _).symm.trans (sequence_of_blockKind h)
    exact .inl ⟨rfl, Option.some.inj (h.symm.trans (hseq ▸ blockKind_tagsBlock 1))⟩
  · have hnone : blockKind (fun _ => 1) seq = none := if_pos (by decide)
    cases hnone.symm.trans h

lemma noSelf_oneTxn : oneTxn.NoSelf (oneTxn.log oneTxnDisk) := by
  intro p hp seq hb o ho p' hp'
  rcases kind_oneTxn hp hb with ⟨rfl, -⟩ | ⟨-, hkind⟩
  · rw [show oneTxn.log oneTxnDisk 4 = tagsBlock 1 from rfl, tagOffsets_oneTxn,
      List.mem_singleton] at ho
    subst ho
    exact bmap_oneTxn hp'
  · cases hkind

lemma link_oneTxn (h : oneTxn.Link (oneTxn.log oneTxnDisk) .revoke seq p p') : p = 4 ∧ p' = 1 := by
  cases h with
  | descriptor hp hb =>
    rcases kind_oneTxn hp hb with ⟨rfl, -⟩ | ⟨-, hkind⟩
    · refine ⟨rfl, ?_⟩
      rw [show oneTxn.log oneTxnDisk 4 = tagsBlock 1 from rfl, skip, countTags_eq_length,
        tagOffsets_oneTxn]
      decide
    · cases hkind
  | revoke hp hb => rcases kind_oneTxn hp hb with ⟨-, hkind⟩ | ⟨-, hkind⟩ <;> cases hkind

theorem do_one_pass_well_behaved_iff_oneTxn :
    oneTxn.WellBehaved .revoke 1 oneTxnDisk fun _ => [] := by
  refine (do_one_pass_well_behaved_iff oneTxn .revoke 1 oneTxnDisk _ noSelf_oneTxn).2 ⟨?_, ?_⟩
  · intro p seq _ _ hring
    obtain ⟨p', hfirst, hrest⟩ := Relation.TransGen.head'_iff.1 hring
    obtain ⟨rfl, rfl⟩ := link_oneTxn hfirst
    obtain heq | ⟨_, hlink, -⟩ := hrest.cases_head
    · cases heq
    · cases (link_oneTxn hlink).1
  · intro _ p seq _ _ hp hb
    rcases kind_oneTxn hp hb with ⟨-, hkind⟩ | ⟨-, hkind⟩ <;> cases hkind

/-! ### A log of one block -/

/-- A journal with one block for the log. -/
def oneBlock : Journal where
  first := 1
  last := 2
  maxlen := 2
  blocksize := 1024
  first_pos := Nat.one_pos
  first_lt := by decide
  last_le := by decide
  maxlen_lt := by decide
  blocksize_pow := exists_pow_1024
  start := 1
  sequence := 7
  bmap p := BitVec.ofNat 32 p
  hash _ := 0
  hashSize := 256
  start_lt := by decide

/-- All blocks are revoke blocks of the expected transaction, with the same count. -/
def revokeBlocks (count : BitVec 32) : Disk := fun _ => headed JFS_REVOKE_BLOCK 7 fun _ => count

lemma blockKind_revokeBlocks (count n : BitVec 32) :
    blockKind (revokeBlocks count n) 7 = some .revoke := by
  rw [revokeBlocks, blockKind_headed]
  decide

lemma rCount_revokeBlocks (count n : BitVec 32) : rCount (revokeBlocks count n) = count.toInt := by
  rw [rCount, revokeBlocks, be32_headed JFS_REVOKE_BLOCK 7 (fun _ => count) 0]

lemma noSelf_revokeBlocks (count : BitVec 32) :
    oneBlock.NoSelf (oneBlock.log (revokeBlocks count)) := by
  intro p _ seq hb
  have hseq : (7 : BitVec 32) = seq :=
    (sequence_headed JFS_REVOKE_BLOCK 7 fun _ => count).symm.trans (sequence_of_blockKind hb)
  subst hseq
  rw [Journal.log, blockKind_revokeBlocks] at hb
  cases hb

lemma ring_revokeBlocks (count : BitVec 32) (pass : Pass) :
    oneBlock.Ring (oneBlock.log (revokeBlocks count)) pass 7 1 :=
  .single (.revoke (by decide) (blockKind_revokeBlocks count _))

/-- The first pass over a log that is full of revoke blocks without a commit block does not end, and
the second one reads entries behind the end of a block if its count says so. -/
theorem untrusted_log_misbehaves :
    (∀ rounds, oneBlock.doOnePass rounds .scan 0 (revokeBlocks 16) (fun _ => []) = none) ∧
      ∃ s, oneBlock.Seen .revoke 8 (revokeBlocks 2000) (fun _ => []) s ∧ 1028 ∈ s.ends := by
  constructor
  · intro rounds
    cases hrun : oneBlock.doOnePass rounds .scan 0 (revokeBlocks 16) (fun _ => []) with
    | none => rfl
    | some r =>
      have hhalts := exists_doOnePass_iff_halts.1 ⟨rounds, r, hrun⟩
      exact absurd (ring_revokeBlocks 16 .scan)
        ((halts_iff_no_ring (noSelf_revokeBlocks 16)).1 hhalts 1 7 .refl (by decide))
  · have hcount : (1024 : ℤ) < rCount (revokeBlocks 2000 1) := by
      rw [rCount_revokeBlocks]
      decide
    have hread : Reading oneBlock .revoke 8 (oneBlock.begin (revokeBlocks 2000) fun _ => [])
        (some .revoke) := ⟨by decide, by decide, blockKind_revokeBlocks 2000 1⟩
    obtain ⟨t, hround, hend⟩ := exists_end_of_rCount hread hcount
    exact ⟨t, .round (.single hround), hend⟩

end Journal

end LklPort.Jbd
