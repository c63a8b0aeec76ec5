import LklPort.Jbd.Log

/-!
# The passes over a well-formed log

All three passes walk through the same blocks. The second one leaves a table that says, for each
copy of a block, whether its transaction or a later one revokes the block, and the third one writes
the other copies in the order of the log.
-/

namespace LklPort.Jbd

open List Function Option

open RedoLog (putAll live revoked)
open Rounds (Reaches)

namespace Journal

variable {j : Journal} {disk : Disk} {pass : Pass} {tid seq q : BitVec 32}
  {i i' m : ℕ} {s s' : PassState}

/-- The pass is at the block number `i` of the log. -/
structure At (j : Journal) (disk : Disk) (i : ℕ) (seq : BitVec 32) (s : PassState) : Prop where
  block : s.nextBlock = j.pos i
  commit : s.nextCommit = seq
  success : s.success = 0
  log : SameLog j (j.log disk) s

section

variable (h : At j disk i seq s)

include h

lemma At.lt : s.nextBlock < j.maxlen := by
  rw [h.block]
  exact lt_of_lt_of_le (pos_lt i) j.last_le

lemma At.read : j.log s.disk s.nextBlock = j.nth disk i := by
  rw [h.log _ h.lt, h.block]
  rfl

lemma At.advance : At j disk (i + 1) seq (j.advance s) where
  block := by rw [advance_nextBlock, h.block, succ_pos]
  commit := h.commit
  success := h.success
  log := h.log

lemma At.reading {kind : Option Kind}
    (hstop : ¬ Stops pass tid seq) (hb : blockKind (j.nth disk i) seq = kind) :
    Reading j pass tid s kind :=
  ⟨by rwa [h.commit], h.lt, by rw [h.read, h.commit, hb]⟩

end

/-! ### A descriptor block -/

lemma contents_restore (t : Tag) (data : Block) (disk : Disk) (n : BitVec 32) :
    j.contents (update disk n (restore j.blocksize t data (disk n))) =
      update (j.contents disk) n (j.copy t data) := by
  funext n' i
  by_cases hn : n' = n
  · subst hn
    rw [update_self, contents, update_self, restore, if_pos i.isLt]
    rfl
  · rw [update_of_ne hn, contents, update_of_ne hn]
    rfl

lemma At.replayTag (h : At j disk i seq s) (b : Block) (o : ℕ)
    (hself : ∀ p < j.maxlen, j.bmap p ≠ (tagAt b o).blocknr) :
    At j disk (i + 1) seq (j.replayTag b o s) ∧ j.contents (j.replayTag b o s).disk =
        putAll ([((tagAt b o).blocknr, j.copy (tagAt b o) (j.nth disk i))].filter
          fun w => !j.testRevoke w.1 seq s.table) (j.contents s.disk) := by
  have hread := h.read
  have hlt := h.lt
  refine ⟨⟨by rw [replayTag_nextBlock, h.block, succ_pos],
    by rw [replayTag_nextCommit, h.commit], ?_, fun p hp => ?_⟩, ?_⟩
  · unfold Journal.replayTag
    simp only [if_neg (not_le.2 hlt)]
    split_ifs <;> exact h.success
  · rw [Journal.log, replayTag_disk_of_ne j b o s (hself p hp)]
    exact h.log p hp
  · unfold Journal.replayTag
    simp only [if_neg (not_le.2 hlt), advance_nextCommit, advance_table, advance_disk, h.commit]
    cases htest : j.testRevoke (tagAt b o).blocknr seq s.table with
    | true => simp [htest, putAll]
    | false =>
      rw [if_neg (by decide), contents_restore]
      have hread' : j.log s.disk s.nextBlock = j.nth disk i := hread
      simp [htest, putAll, hread']

lemma At.foldl_replayTag (h : At j disk i seq s) (b : Block) (os : List ℕ)
    (hself : ∀ o ∈ os, ∀ p < j.maxlen, j.bmap p ≠ (tagAt b o).blocknr) :
    At j disk (i + os.length) seq (os.foldl (fun s o => j.replayTag b o s) s) ∧
      j.contents (os.foldl (fun s o => j.replayTag b o s) s).disk =
        putAll ((j.copies (j.nth disk) b os i).filter fun w => !j.testRevoke w.1 seq s.table)
          (j.contents s.disk) ∧
      (os.foldl (fun s o => j.replayTag b o s) s).table = s.table := by
  induction os generalizing i s with
  | nil => exact ⟨h, rfl, rfl⟩
  | cons o os ih =>
    obtain ⟨hat, hcontents⟩ := h.replayTag b o (hself o mem_cons_self)
    obtain ⟨hat', hcontents', htable⟩ := ih hat fun o' ho' => hself o' (mem_cons_of_mem _ ho')
    refine ⟨?_, ?_, ?_⟩
    · rw [length_cons, add_comm os.length, ← add_assoc]
      exact hat'
    · rw [foldl_cons, hcontents', hcontents, ← RedoLog.putAll_append, replayTag_table,
        ← filter_append]
      rfl
    · rw [foldl_cons, htable, replayTag_table]

/-! ### The blocks of a transaction -/

/-- What a pass does with the copies and revocations of a transaction. -/
structure Effect (j : Journal) (pass : Pass) (seq : BitVec 32) (t : j.Txn) (s s' : PassState) :
    Prop where
  contents : j.contents s'.disk =
    if pass = .replay then
      putAll (t.writes.filter fun w => !j.testRevoke w.1 seq s.table) (j.contents s.disk)
    else j.contents s.disk
  table : s'.table =
    if pass = .revoke then t.revokes.foldl (fun tb b => j.setRevoke b seq tb) s.table else s.table

lemma Effect.nil (j : Journal) (pass : Pass) (seq : BitVec 32) (s : PassState) :
    Effect j pass seq ⟨[], []⟩ s s where
  contents := by simp [putAll]
  table := by simp

lemma Effect.trans {t t' : j.Txn} {s'' : PassState} (h : Effect j pass seq t s s')
    (h' : Effect j pass seq t' s' s'') :
    Effect j pass seq ⟨t.writes ++ t'.writes, t.revokes ++ t'.revokes⟩ s s'' where
  contents := by
    rw [h'.contents, h.contents]
    split_ifs with hpass
    · have htable : s'.table = s.table := by
        rw [h.table, hpass]
        rfl
      rw [htable, ← RedoLog.putAll_append, filter_append]
    · rfl
  table := by
    rw [h'.table, h.table]
    split_ifs
    · rw [foldl_append]
    · rfl

section

variable (hroom : j.Fits (j.nth disk) seq i) (hstop : ¬ Stops pass tid seq) (hs : At j disk i seq s)

include hstop hs

lemma exists_next_of_descriptor (hb : blockKind (j.nth disk i) seq = some .descriptor)
    (hskip : j.skip pass (j.nth disk i) (j.pos (i + 1)) =
      j.pos (i + 1 + (tagOffsets (j.nth disk i) j.blocksize 12).length))
    (hself : pass = .replay → ∀ o ∈ tagOffsets (j.nth disk i) j.blocksize 12,
      ∀ p < j.maxlen, j.bmap p ≠ (tagAt (j.nth disk i) o).blocknr) :
    ∃ s', Rounds.Next (j.round pass tid) s s' ∧
      At j disk (i + 1 + (tagOffsets (j.nth disk i) j.blocksize 12).length) seq s' ∧
      Effect j pass seq ⟨j.copies (j.nth disk) (j.nth disk i)
        (tagOffsets (j.nth disk i) j.blocksize 12) (i + 1), []⟩ s s' := by
  have hround := round_of_descriptor (hs.reading hstop hb)
  rw [hs.read] at hround
  by_cases hpass : pass = .replay
  · rw [if_pos hpass, replayTags_eq] at hround
    obtain ⟨hat, hcontents, htable⟩ := hs.advance.foldl_replayTag (j.nth disk i) _ (hself hpass)
    refine ⟨_, hround, hat, ?_, ?_⟩
    · rw [hcontents, if_pos hpass]
      rfl
    · rw [htable, hpass]
      rfl
  · rw [if_neg hpass] at hround
    refine ⟨_, hround, ⟨?_, hs.commit, hs.success, hs.log⟩, ?_, ?_⟩
    · rw [hs.block, succ_pos, hskip]
    · rw [if_neg hpass]
      rfl
    · simp

lemma exists_next_of_revoke (hb : blockKind (j.nth disk i) seq = some .revoke) :
    ∃ s', Rounds.Next (j.round pass tid) s s' ∧ At j disk (i + 1) seq s' ∧
      Effect j pass seq ⟨[], (revokeOffsets (rCount (j.nth disk i)) 16).map
        (be32 (j.nth disk i))⟩ s s' := by
  have hround := round_of_revoke (hs.reading hstop hb)
  rw [hs.read] at hround
  have hat := hs.advance
  by_cases hpass : pass = .revoke
  · rw [if_pos hpass, scanRevokeRecords_eq, foldl_revokeEntry] at hround
    refine ⟨_, hround, ⟨hat.block, hat.commit, hat.success, hat.log⟩, ?_, ?_⟩
    · rw [hpass]
      rfl
    · rw [if_pos hpass, foldl_map, advance_nextCommit, hs.commit]
      rfl
  · rw [if_neg hpass] at hround
    refine ⟨_, hround, hat, ?_, ?_⟩
    · simp [putAll]
    · rw [if_neg hpass]
      rfl

include hroom

lemma Body.reaches {t : j.Txn} (hbody : j.Body (j.nth disk) seq i i' t)
    (hlen : i' + 1 ≤ j.last - j.first)
    (hself : pass = .replay → ∀ w ∈ t.writes, ∀ p < j.maxlen, j.bmap p ≠ w.1) :
    ∃ s', Reaches (j.round pass tid) s s' ∧ At j disk i' seq s' ∧ Effect j pass seq t s s' := by
  induction hbody generalizing s with
  | nil => exact ⟨s, .refl, hs, .nil j pass seq s⟩
  | @descriptor i _ _ hb hrest ih =>
    have hle := hrest.le
    have hskip := skip_pos pass
      (countTags_eq_length (j.nth disk i) j.blocksize 12) (by omega)
      (hroom i _ (.nil i) hb (by omega))
    obtain ⟨s1, hnext, hat, heff⟩ := exists_next_of_descriptor hstop hs hb hskip
      fun hpass o ho p hp => by
        obtain ⟨c, hc⟩ := exists_mem_copies (j.nth disk) ho (i + 1)
        exact hself hpass _ (mem_append_left _ hc) p hp
    obtain ⟨s', hreach, hat', heff'⟩ := ih
      (fun k t hbody => hroom k _ (.descriptor hb hbody)) hat hlen fun hpass w hw =>
        hself hpass w (mem_append_right _ hw)
    exact ⟨s', .head hnext hreach, hat', heff.trans heff'⟩
  | revoke hb hcount _ ih =>
    obtain ⟨s1, hnext, hat, heff⟩ := exists_next_of_revoke hstop hs hb
    obtain ⟨s', hreach, hat', heff'⟩ := ih
      (fun k t hbody => hroom k _ (.revoke hb hcount hbody)) hat hlen hself
    exact ⟨s', .head hnext hreach, hat', heff.trans heff'⟩

end

/-! ### All transactions -/

/-- The file system after the copies of the transactions from `m` on were written, except those that
the table says are revoked. -/
def replayed (j : Journal) (q : BitVec 32) (table : RevokeTable) :
    ℕ → List j.Txn → (BitVec 32 → j.Contents) → BitVec 32 → j.Contents
  | _, [], c => c
  | m, t :: ts, c => replayed j q table (m + 1) ts
      (putAll (t.writes.filter fun w => !j.testRevoke w.1 (seqOf q m) table) c)

/-- The table after the revocations of the transactions from `m` on were recorded. -/
def recorded (j : Journal) (q : BitVec 32) : ℕ → List j.Txn → RevokeTable → RevokeTable
  | _, [], table => table
  | m, t :: ts, table => recorded j q (m + 1) ts
      (t.revokes.foldl (fun tb b => j.setRevoke b (seqOf q m) tb) table)

/-- What a pass does with complete transactions. -/
structure Passed (j : Journal) (pass : Pass) (q : BitVec 32) (m : ℕ) (ts : List j.Txn)
    (s s' : PassState) : Prop where
  contents : j.contents s'.disk =
    if pass = .replay then replayed j q s.table m ts (j.contents s.disk) else j.contents s.disk
  table : s'.table = if pass = .revoke then recorded j q m ts s.table else s.table

lemma exists_next_of_commit (hstop : ¬ Stops pass tid seq) (hs : At j disk i seq s)
    (hb : blockKind (j.nth disk i) seq = some .commit) :
    ∃ s', Rounds.Next (j.round pass tid) s s' ∧ At j disk (i + 1) (seq + 1) s' ∧
      s'.disk = s.disk ∧ s'.table = s.table := by
  have hround := round_of_commit (hs.reading hstop hb)
  have hat := hs.advance
  exact ⟨_, hround, ⟨hat.block, by rw [hs.commit], hat.success, hat.log⟩, rfl, rfl⟩

variable {ts : List j.Txn} {table : RevokeTable}

lemma Committed.reaches (hroom : j.Roomy (j.nth disk) seq i)
    (h : j.Committed (j.nth disk) seq i i' ts) (hseq : seq = seqOf q m)
    (hstop : ∀ n < ts.length, ¬ Stops pass tid (seqOf q (m + n)))
    (hlen : i' + 1 ≤ j.last - j.first) (hs : At j disk i seq s)
    (hself : pass = .replay → ∀ t ∈ ts, ∀ w ∈ t.writes, ∀ p < j.maxlen, j.bmap p ≠ w.1) :
    ∃ s', Reaches (j.round pass tid) s s' ∧ At j disk i' (seqOf q (m + ts.length)) s' ∧
      Passed j pass q m ts s s' := by
  induction h generalizing s m with
  | nil => exact ⟨s, .refl, hseq ▸ hs, by simp [replayed], by simp [recorded]⟩
  | @cons _ _ _ _ t ts hbody hc hrest ih =>
    subst hseq
    have hle := hrest.add_length_le
    have hstop0 : ¬ Stops pass tid (seqOf q m) := hstop 0 (Nat.succ_pos _)
    obtain ⟨s1, hreach1, hat1, heff⟩ := hbody.reaches hroom.fits hstop0 hs (by omega)
      fun hpass => hself hpass t mem_cons_self
    obtain ⟨s2, hnext, hat2, hdisk, htable⟩ := exists_next_of_commit hstop0 hat1 hc
    rw [← seqOf_succ] at hat2
    obtain ⟨s', hreach', hat', hpassed⟩ := ih (hroom.next hbody hc) (seqOf_succ q m).symm
      (fun n hn => by
        have hnext := hstop (n + 1) (Nat.succ_lt_succ hn)
        rwa [add_comm n, ← add_assoc] at hnext) hlen
      (by rwa [← seqOf_succ]) fun hpass t ht => hself hpass t (mem_cons_of_mem _ ht)
    refine ⟨s', hreach1.trans (.head hnext hreach'), ?_, ?_, ?_⟩
    · rwa [length_cons, add_comm ts.length, ← add_assoc]
    · rw [hpassed.contents, hdisk, htable, heff.contents, heff.table]
      split_ifs with hpass hrevoke
      · simp [hpass] at hrevoke
      · rfl
      · rfl
    · rw [hpassed.table, htable, heff.table]
      split_ifs
      · rfl
      · rfl

variable {hist : List (ℕ × BitVec 32)} {rounds : ℕ}

/-! ### What the table says -/

lemma foldl_setRevoke (h : TableOk j q hist table) (hle : ∀ p ∈ hist, p.1 ≤ m)
    (hm : m < 2 ^ 31) (bs : List (BitVec 32)) : TableOk j q (hist ++ bs.map (m, ·))
      (bs.foldl (fun tb b => j.setRevoke b (seqOf q m) tb) table) := by
  induction bs generalizing hist table with
  | nil => simpa using h
  | cons b _ ih =>
    have hset := ih (h.setRevoke hle hm b) fun p hp => by
      rcases List.mem_append.1 hp with hp | hp
      · exact hle p hp
      · rw [List.mem_singleton.1 hp]
    rwa [append_assoc] at hset

/-- The history of revocations of the transactions from `m` on. -/
def history (j : Journal) : ℕ → List j.Txn → List (ℕ × BitVec 32)
  | _, [] => []
  | m, t :: ts => t.revokes.map (m, ·) ++ history j (m + 1) ts

lemma mem_history {n : ℕ} {b : BitVec 32} :
    (n, b) ∈ history j m ts ↔ m ≤ n ∧ ∃ t, ts[n - m]? = some t ∧ b ∈ t.revokes := by
  induction ts generalizing m with
  | nil => simp [history]
  | cons t _ ih =>
    rw [history, mem_append, ih]
    constructor
    · rintro (hmem | ⟨hle, t', ht', hb⟩)
      · obtain ⟨b', hb', heq⟩ := List.mem_map.1 hmem
        cases heq
        exact ⟨Nat.le_refl _, t, by rw [Nat.sub_self]; rfl, hb'⟩
      · refine ⟨by omega, t', ?_, hb⟩
        rwa [show n - m = n - (m + 1) + 1 by omega, List.getElem?_cons_succ]
    · rintro ⟨hle, t', ht', hb⟩
      rcases eq_or_lt_of_le hle with rfl | hlt
      · rw [Nat.sub_self] at ht'
        cases ht'
        exact .inl (List.mem_map.2 ⟨b, hb, rfl⟩)
      · rw [show n - m = n - (m + 1) + 1 by omega, List.getElem?_cons_succ] at ht'
        exact .inr ⟨hlt, t', ht', hb⟩

lemma TableOk.recorded (h : TableOk j q hist table) (hle : ∀ p ∈ hist, p.1 ≤ m)
    (hm : m + ts.length ≤ 2 ^ 31) :
    TableOk j q (hist ++ history j m ts) (recorded j q m ts table) := by
  induction ts generalizing hist table m with
  | nil => simpa [history, Journal.recorded] using h
  | cons t ts ih =>
    rw [length_cons] at hm
    have hset := ih (foldl_setRevoke h hle (by omega) t.revokes) (fun p hp => by
      rcases List.mem_append.1 hp with hp | hp
      · exact Nat.le_succ_of_le (hle p hp)
      · obtain ⟨b, -, rfl⟩ := List.mem_map.1 hp
        exact Nat.le_succ m) (by omega : m + 1 + ts.length ≤ 2 ^ 31)
    rwa [append_assoc] at hset

lemma testRevoke_recorded (hlen : ts.length ≤ 2 ^ 31) (hm : m < ts.length) (b : BitVec 32) :
    j.testRevoke b (seqOf q m) (recorded j q 0 ts fun _ => []) = revoked (ts.drop m) b := by
  have hok : TableOk j q (history j 0 ts) (recorded j q 0 ts fun _ => []) :=
    TableOk.recorded (tableOk_nil j q) (fun p hp => by cases hp) (by omega)
  have hlt (p : ℕ × BitVec 32) (hp : p ∈ history j 0 ts) : p.1 < ts.length := by
    obtain ⟨-, t, ht, -⟩ := mem_history.1 hp
    exact (List.getElem?_eq_some_iff.1 ht).1
  rw [Bool.eq_iff_iff, hok.testRevoke (fun p hp => lt_of_lt_of_le (hlt p hp) hlen)
    (lt_of_lt_of_le hm hlen), RedoLog.revoked_eq_true_iff]
  constructor
  · rintro ⟨i, hle, hmem⟩
    obtain ⟨-, t, ht, hb⟩ := mem_history.1 hmem
    refine ⟨t, mem_iff_getElem?.2 ⟨i - m, ?_⟩, hb⟩
    rw [List.getElem?_drop, Nat.add_sub_of_le hle]
    exact ht
  · rintro ⟨t, ht, hb⟩
    obtain ⟨i, hi⟩ := mem_iff_getElem?.1 ht
    rw [List.getElem?_drop] at hi
    exact ⟨m + i, Nat.le_add_right _ _, mem_history.2 ⟨Nat.zero_le _, t, hi, hb⟩⟩

lemma replayed_eq_putAll {c : BitVec 32 → j.Contents}
    (htest : ∀ n < ts.length, ∀ b, j.testRevoke b (seqOf q (m + n)) table = revoked (ts.drop n) b) :
    replayed j q table m ts c = putAll (live ts) c := by
  induction ts generalizing m c with
  | nil => rfl
  | cons t ts ih =>
    have hfirst : (fun w : BitVec 32 × j.Contents => !j.testRevoke w.1 (seqOf q m) table) =
        fun w => !revoked (t :: ts) w.1 := by
      funext w
      have hnow := htest 0 (Nat.succ_pos _) w.1
      rw [add_zero, drop_zero] at hnow
      rw [hnow]
    rw [replayed, live, RedoLog.putAll_append, hfirst]
    refine ih fun n hn b => ?_
    have hnext := htest (n + 1) (Nat.succ_lt_succ hn) b
    rwa [add_comm n, ← add_assoc, add_comm 1, drop_succ_cons] at hnext

/-! ### The passes -/

lemma exists_doOnePass {e : Exit} (h : Reaches (j.round pass tid) (j.begin disk table) s)
    (he : j.round pass tid s = .inr e) :
    ∃ rounds, j.doOnePass rounds pass tid disk table = some (passResult pass tid e, e.state) := by
  obtain ⟨rounds, hrun⟩ := Rounds.exists_run_of_reaches h he
  exact ⟨rounds, by rw [doOnePass, hrun, map_some]⟩

lemma doOnePass_of_le {r : ℤ × PassState} {rounds' : ℕ}
    (h : j.doOnePass rounds pass tid disk table = some r) (hle : rounds ≤ rounds') :
    j.doOnePass rounds' pass tid disk table = some r := by
  unfold doOnePass at h ⊢
  obtain ⟨e, he, rfl⟩ := Option.map_eq_some_iff.1 h
  rw [Rounds.run_of_le he hle, map_some]

lemma at_begin (disk' : Disk) (table : RevokeTable) (hstart : j.first ≤ j.start)
    (hlast : j.start < j.last) (hlog : ∀ p < j.maxlen, j.log disk' p = j.log disk p) :
    At j disk 0 j.sequence (j.begin disk' table) where
  block := (pos_zero hstart hlast).symm
  commit := rfl
  success := rfl
  log := hlog

section

variable {ts : List j.Txn} (hroom : j.Roomy (j.nth disk) j.sequence 0) (hwf : j.WellFormed disk ts)

include hroom hwf

lemma WellFormed.scan (table : RevokeTable) :
    ∃ rounds s, j.doOnePass rounds .scan 0 disk table = some (0, s) ∧
      s.nextCommit = seqOf j.sequence ts.length ∧ SameLog j (j.log disk) s ∧
      j.contents s.disk = j.contents disk ∧ s.table = table := by
  obtain ⟨mid, stop, rest, hcommitted, hbody, hend, hlen, -⟩ := hwf.blocks
  have hle := hbody.le
  have hstop (seq : BitVec 32) : ¬ Stops .scan 0 seq := fun h => h.1 rfl
  have hat := at_begin disk table hwf.first_le hwf.lt_last fun _ _ => rfl
  obtain ⟨s1, hreach1, hat1, hpassed⟩ := hcommitted.reaches
    hroom (seqOf_zero _).symm (fun _ _ => hstop _) (by omega) hat nofun
  rw [zero_add] at hat1
  obtain ⟨s2, hreach2, hat2, heff⟩ := hbody.reaches (hroom _ _ hcommitted) (hstop _) hat1 hlen nofun
  have hround := round_of_none (hat2.reading (hstop _) hend)
  obtain ⟨rounds, hrun⟩ := exists_doOnePass (hreach1.trans hreach2) hround
  refine ⟨rounds, j.advance s2, ?_, hat2.commit, hat2.log, ?_, ?_⟩
  · rw [hrun, passResult, if_neg fun h => h.1 rfl, advance_success, hat2.success]
    rfl
  · rw [advance_disk, heff.contents, if_neg (by decide), hpassed.contents, if_neg (by decide)]
    rfl
  · rw [advance_table, heff.table, if_neg (by decide), hpassed.table, if_neg (by decide)]
    rfl

lemma WellFormed.laterPass (hpass : pass ≠ .scan) (hk : ts.length ≤ 2 ^ 31) {disk' : Disk}
    (hlog : ∀ p < j.maxlen, j.log disk' p = j.log disk p) (table : RevokeTable) :
    ∃ rounds s, j.doOnePass rounds pass (seqOf j.sequence ts.length) disk' table = some (0, s) ∧
      SameLog j (j.log disk) s ∧ Passed j pass j.sequence 0 ts (j.begin disk' table) s := by
  obtain ⟨mid, stop, rest, hcommitted, hbody, -, hlen, hself⟩ := hwf.blocks
  have hle := hbody.le
  have hat := at_begin disk' table hwf.first_le hwf.lt_last hlog
  have hgo (n : ℕ) (hn : n < ts.length) :
      ¬ Stops pass (seqOf j.sequence ts.length) (seqOf j.sequence (0 + n)) := by
    rintro ⟨-, hgeq⟩
    rw [zero_add, tidGeq_seqOf (by omega) (by omega)] at hgeq
    have hge := of_decide_eq_true hgeq
    omega
  obtain ⟨s, hreach, hats, hpassed⟩ := hcommitted.reaches hroom (seqOf_zero _).symm hgo (by omega)
    hat fun _ t ht => hself t (mem_append_left _ ht)
  rw [zero_add] at hats
  have hround : j.round pass (seqOf j.sequence ts.length) s = .inr (.done s) := by
    have hgeq : tidGeq s.nextCommit (seqOf j.sequence ts.length) = true := by
      rw [hats.commit, tidGeq_seqOf (by omega) (by omega)]
      exact decide_eq_true (Nat.le_refl _)
    rw [round, if_pos ⟨hpass, hgeq⟩]
  obtain ⟨rounds, hrun⟩ := exists_doOnePass hreach hround
  refine ⟨rounds, s, ?_, hats.log, hpassed⟩
  rw [hrun, passResult, if_neg fun h => h.2.1 hats.commit.symm, hats.success]
  rfl

end

/-! ### Recovery -/

/-- What `journal_recover` has to do with a log: it returns zero, every block of the file system has
its last copy that neither its transaction nor a later one revokes, or is as it was if there is no
such copy, and the next sequence number is behind that of the last complete transaction. -/
def Recovers (j : Journal) (disk : Disk) (ts : List j.Txn) : Prop :=
  ∃ rounds r, j.journalRecover rounds disk (fun _ => []) = some r ∧ r.err = 0 ∧
    r.transactionSequence = seqOf j.sequence ts.length + 1 ∧
    ∀ n, j.contents r.disk n = (RedoLog.lastCopy ts n).getD (j.contents disk n)

lemma journalRecover_eq {p p' p'' : ℤ × PassState} (hstart : j.start ≠ 0)
    (hscan : j.doOnePass rounds .scan 0 disk table = some p)
    (hrevoke : j.passUnless rounds .revoke (if p.1 = 0 then p.2.nextCommit else 0) p = some p')
    (hreplay : j.passUnless rounds .replay (if p.1 = 0 then p.2.nextCommit else 0) p' = some p'') :
    j.journalRecover rounds disk table = some {
      err := p''.1
      transactionSequence := (if p.1 = 0 then p.2.nextCommit else 0) + 1
      disk := p''.2.disk
      table := j.clearRevoke p''.2.table } := by
  rw [journalRecover, if_neg hstart, hscan]
  simp only [bind_eq_bind, bind_some, hrevoke, hreplay]

lemma WellFormed.recovers (hwf : j.WellFormed disk ts) (hroom : j.Roomy (j.nth disk) j.sequence 0)
    (hk : ts.length ≤ 2 ^ 31) : Recovers j disk ts := by
  obtain ⟨n1, s1, hscan, hcommit, hlog1, hcontents1, htable1⟩ := hwf.scan hroom fun _ => []
  obtain ⟨n2, s2, hrevoke, hlog2, hpassed2⟩ :=
    hwf.laterPass hroom (show Pass.revoke ≠ .scan by decide) hk hlog1 s1.table
  obtain ⟨n3, s3, hreplay, -, hpassed3⟩ :=
    hwf.laterPass hroom (show Pass.replay ≠ .scan by decide) hk hlog2 s2.table
  have hstart : j.start ≠ 0 := by
    have hpos := j.first_pos
    have hle := hwf.first_le
    omega
  have hrun := journalRecover_eq hstart
    (doOnePass_of_le hscan (show n1 ≤ max n1 (max n2 n3) by omega))
    (by
      rw [passUnless, hcommit]
      exact doOnePass_of_le hrevoke (by omega))
    (by
      rw [passUnless, hcommit]
      exact doOnePass_of_le hreplay (by omega))
  refine ⟨_, _, hrun, rfl, by rw [if_pos rfl, hcommit], fun n => ?_⟩
  have htable : s2.table = recorded j j.sequence 0 ts fun _ => [] := by
    rw [hpassed2.table, ← htable1]
    rfl
  have hcontents2 : j.contents s2.disk = j.contents disk := by
    rw [hpassed2.contents, if_neg (by decide), ← hcontents1]
    rfl
  rw [show j.contents s3.disk = _ from hpassed3.contents,
    show j.contents (j.begin s2.disk s2.table).disk = j.contents s2.disk from rfl, htable,
    hcontents2, replayed_eq_putAll fun m hm b => by
      rw [zero_add]
      exact testRevoke_recorded hk hm b]
  exact RedoLog.putAll_apply

end Journal

end LklPort.Jbd
