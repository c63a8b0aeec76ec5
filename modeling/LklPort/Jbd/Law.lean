import LklPort.Jbd.Replay

/-!
# When recovery is right

Recovery does what it should for every well-formed log with at most `2 ^ 31` transactions in which
no block number overflows, and so for every well-formed log of a journal of a safe size. A journal
with room for more than `2 ^ 31` transactions is not safe, because the sequence number of the first
one then counts as behind that of the last one. Neither is a journal whose last blocks have numbers
so large that the number of the block behind a descriptor block and its blocks can overflow: the
passes that skip these blocks then go on somewhere else than the one that replays them.
-/

namespace LklPort.Jbd

open List BitVec

open Journal (oneTxn oneTxnDisk tagOffsets_oneTxn bmap_oneTxn roomy_of_lt)

variable {table : RevokeTable} {p : ℕ} {j : Journal} {disk : Disk} {rounds m : ℕ}

namespace Journal

/-! ### What a recovery that returns has done -/

lemma exists_passes {r : Recovered} (hstart : j.start ≠ 0)
    (h : j.journalRecover rounds disk table = some r) :
    ∃ p p' p'', j.doOnePass rounds .scan 0 disk table = some p ∧
      j.passUnless rounds .revoke (if p.1 = 0 then p.2.nextCommit else 0) p = some p' ∧
      j.passUnless rounds .replay (if p.1 = 0 then p.2.nextCommit else 0) p' = some p'' ∧
      r.err = p''.1 ∧ r.transactionSequence = (if p.1 = 0 then p.2.nextCommit else 0) + 1 := by
  rw [journalRecover, if_neg hstart] at h
  obtain ⟨p, hp, h⟩ := Option.bind_eq_some_iff.1 h
  obtain ⟨p', hp', h⟩ := Option.bind_eq_some_iff.1 h
  obtain ⟨p'', hp'', h⟩ := Option.bind_eq_some_iff.1 h
  cases h
  exact ⟨p, p', p'', hp, hp', hp'', rfl, rfl⟩

lemma doOnePass_unique {pass : Pass} {tid : BitVec 32} {rounds' : ℕ}
    {p p' : ℤ × PassState} (h : j.doOnePass rounds pass tid disk table = some p)
    (h' : j.doOnePass rounds' pass tid disk table = some p') : p = p' := by
  have hmax := doOnePass_of_le h (Nat.le_max_left rounds rounds')
  rw [doOnePass_of_le h' (Nat.le_max_right rounds rounds')] at hmax
  exact (Option.some.inj hmax).symm

/-! ### Too many transactions -/

lemma stops_of_many {k : ℕ} (q : BitVec 32) (hk : k < 2 ^ 32) (hmany : 2 ^ 31 < k) :
    Stops .revoke (seqOf q k) q := by
  have hdiff : q - seqOf q k = BitVec.ofNat 32 (2 ^ 32 - k) := by
    have hneg : q - seqOf q k = 0 - BitVec.ofNat 32 k := by
      unfold seqOf
      grind
    apply eq_of_toNat_eq
    rw [hneg, toNat_sub, toNat_ofNat, toNat_ofNat, Nat.mod_eq_of_lt hk]
    rfl
  refine ⟨by decide, ?_⟩
  rw [tidGeq, hdiff, toInt_ofNat', Int.bmod_eq_of_le (by omega) (by omega)]
  exact decide_eq_true (by omega)

lemma WellFormed.not_recovers {ts : List j.Txn} (hwf : j.WellFormed disk ts)
    (hroom : j.Roomy (j.nth disk) j.sequence 0) (hmany : 2 ^ 31 < ts.length) :
    ¬ Recovers j disk ts := by
  rintro ⟨rounds, r, hrun, herr, -⟩
  have hpos := j.first_pos
  have hfirst := hwf.first_le
  have hlast := j.last_le
  have hmax := j.maxlen_lt
  have hlen := hwf.length_lt
  obtain ⟨p, p', p'', hscan, hrevoke, hreplay, hr, -⟩ := exists_passes (by omega) hrun
  obtain ⟨n, s, hscan', hcommit, -⟩ := hwf.scan hroom fun _ => []
  rw [doOnePass_unique hscan hscan', hcommit] at hrevoke hreplay
  -- the first sequence number counts as behind the last one
  have hround : j.round .revoke (seqOf j.sequence ts.length) (j.begin s.disk s.table) =
      .inr (.done (j.begin s.disk s.table)) := if_pos (stops_of_many _ (by omega) hmany)
  obtain ⟨n', hrevoke'⟩ := exists_doOnePass .refl hround
  have hne : seqOf j.sequence ts.length ≠ j.sequence := by
    intro heq
    have hnat := congrArg BitVec.toNat (BitVec.add_right_eq_self.1 heq)
    rw [toNat_ofNat, Nat.mod_eq_of_lt (by omega), toNat_zero] at hnat
    omega
  rw [passResult, if_pos ⟨by decide, hne, rfl⟩] at hrevoke'
  have hfail : (- EIO : ℤ) ≠ 0 := by decide
  rw [doOnePass_unique hrevoke hrevoke', passUnless, if_neg hfail] at hreplay
  cases hreplay
  rw [herr] at hr
  cases hr

/-! ### The first pass outside of the log -/

/-- The first pass, which has changed nothing, is at a block of the device that need not be one of
the log. -/
structure Scanning (disk : Disk) (p : ℕ) (seq : BitVec 32) (s : PassState) : Prop where
  block : s.nextBlock = p
  commit : s.nextCommit = seq
  success : s.success = 0
  disk : s.disk = disk

section

variable {j : Journal} {disk : Disk} {p : ℕ} {seq : BitVec 32} {s : PassState}

lemma not_stops_scan (seq : BitVec 32) : ¬ Stops .scan 0 seq := fun h => h.1 rfl

section

variable (h : Scanning disk p seq s)

include h

lemma Scanning.descriptor (hp : p < j.maxlen)
    (hb : blockKind (j.log disk p) seq = some .descriptor) :
    ∃ s', Rounds.Next (j.round .scan 0) s s' ∧
      Scanning disk (j.skip .scan (j.log disk p) (j.succ p)) seq s' := by
  obtain ⟨rfl, rfl, hsuccess, rfl⟩ := h
  have hround := round_of_descriptor ⟨not_stops_scan _, hp, hb⟩
  exact ⟨_, hround, rfl, rfl, hsuccess, rfl⟩

lemma Scanning.commitBlock (hp : p < j.maxlen) (hb : blockKind (j.log disk p) seq = some .commit) :
    ∃ s', Rounds.Next (j.round .scan 0) s s' ∧ Scanning disk (j.succ p) (seq + 1) s' := by
  obtain ⟨rfl, rfl, hsuccess, rfl⟩ := h
  exact ⟨_, round_of_commit ⟨not_stops_scan _, hp, hb⟩, rfl, rfl, hsuccess, rfl⟩

lemma Scanning.exists_doOnePass
    (hs : Rounds.Reaches (j.round .scan 0) (j.begin disk table) s) (hp : p < j.maxlen)
    (hb : blockKind (j.log disk p) seq = none) :
    ∃ rounds s, j.doOnePass rounds .scan 0 disk table = some (0, s) ∧ s.nextCommit = seq := by
  obtain ⟨rfl, rfl, hsuccess, hdisk⟩ := h
  rw [← hdisk] at hb
  obtain ⟨rounds, hrun⟩ := Journal.exists_doOnePass hs (round_of_none ⟨not_stops_scan _, hp, hb⟩)
  rw [passResult, if_neg fun h => h.1 rfl, advance_success, hsuccess] at hrun
  exact ⟨rounds, _, hrun, rfl⟩

end

end

end Journal

/-! ### A log of commit blocks -/

variable {g : Geometry}

lemma toNat_bmap (hp : p < 2 ^ 32) : (BitVec.ofNat 32 p).toNat = p := by
  rw [toNat_ofNat, Nat.mod_eq_of_lt hp]

/-- `k` commit blocks from the first block of the log on. -/
def commitDisk (g : Geometry) (k : ℕ) : Disk := fun n =>
  if g.first ≤ n.toNat ∧ n.toNat < g.first + k then
    commitBlock (BitVec.ofNat 32 (n.toNat - g.first))
  else zeroBlock

section

variable (h : g.first < 2 ^ 32) {k i : ℕ}

lemma nth_commitDisk (hi : i < g.last - g.first) : (g.journal g.first h).nth (commitDisk g k) i =
      if i < k then commitBlock (BitVec.ofNat 32 i) else zeroBlock := by
  have hlast := g.last_le
  have hmax := g.maxlen_lt
  have hpos : (g.journal g.first h).pos i = g.first + i := by
    unfold Journal.pos
    rw [show (g.journal g.first h).start = g.first from rfl,
      show (g.journal g.first h).first = g.first from rfl,
      show (g.journal g.first h).last = g.last from rfl, Nat.sub_self, Nat.zero_add,
      Nat.mod_eq_of_lt hi]
  have hnat : ((g.journal g.first h).bmap (g.first + i)).toNat = g.first + i :=
    toNat_bmap (by omega)
  rw [Journal.nth, Journal.log, hpos, commitDisk, hnat, Nat.add_sub_cancel_left]
  by_cases hik : i < k
  · rw [if_pos (by omega), if_pos hik]
  · rw [if_neg (by omega), if_neg hik]

lemma committed_commitDisk (hk : k < g.last - g.first) (d : ℕ) (hd : i + d = k) :
    (g.journal g.first h).Committed ((g.journal g.first h).nth (commitDisk g k)) (seqOf 0 i) i k
      (List.replicate d ⟨[], []⟩) := by
  induction d generalizing i with
  | zero =>
    subst hd
    exact .nil _ _
  | succ d ih =>
    refine .cons (.nil i) ?_ ?_
    · rw [nth_commitDisk h (by omega), if_pos (by omega), show seqOf 0 i = _ from BitVec.zero_add _]
      exact blockKind_commitBlock _
    · rw [← seqOf_succ]
      exact ih (by omega)

lemma wellFormed_commitDisk (hk : k < g.last - g.first) :
    (g.journal g.first h).WellFormed (commitDisk g k) (List.replicate k ⟨[], []⟩) where
  first_le := le_refl _
  lt_last := g.first_lt
  blocks := by
    refine ⟨k, k, ⟨[], []⟩, ?_, .nil k, ?_, hk, ?_⟩
    · have hall := committed_commitDisk h hk k (Nat.zero_add k)
      rwa [seqOf_zero] at hall
    · rw [nth_commitDisk h hk, if_neg (lt_irrefl k)]
      exact blockKind_zeroBlock _
    · intro t ht w hw
      rcases List.mem_append.1 ht with ht | ht
      · simp [eq_of_mem_replicate ht] at hw
      · simp [List.mem_singleton.1 ht] at hw

end

/-! ### Block numbers that overflow -/

/-- The log starts with a descriptor block that is the last block but one of the journal. The block
with the number zero, which is not one of the log, is a commit block. -/
def overflowDisk (g : Geometry) (m : ℕ) : Disk := fun n =>
  if n.toNat = g.last - 2 then tagsBlock m
  else if n.toNat = 0 then commitBlock 0
  else zeroBlock

section

variable (h : g.last - 2 < 2 ^ 32) {m : ℕ}

lemma log_overflowDisk (hp : p < 2 ^ 32) : (g.journal (g.last - 2) h).log (overflowDisk g m) p =
      if p = g.last - 2 then tagsBlock m else if p = 0 then commitBlock 0 else zeroBlock := by
  have hnat : ((g.journal (g.last - 2) h).bmap p).toNat = p := toNat_bmap hp
  rw [Journal.log, overflowDisk, hnat]

lemma succ_journal (hp : p + 1 < g.last) : (g.journal (g.last - 2) h).succ p = p + 1 := by
  have hlast := g.last_le
  have hmax := g.maxlen_lt
  rw [Journal.succ, Nat.mod_eq_of_lt (by omega)]
  exact if_neg (not_le.2 hp)

section

variable (hm : m + 2 ≤ g.last - g.first)

include hm

lemma pos_overflow (hpos : 0 < m) :
    (g.journal (g.last - 2) h).pos (0 + 1 + m) = g.first + (m - 1) := by
  unfold Journal.pos
  rw [show (g.journal (g.last - 2) h).start = g.last - 2 from rfl,
    show (g.journal (g.last - 2) h).first = g.first from rfl,
    show (g.journal (g.last - 2) h).last = g.last from rfl,
    show g.last - 2 - g.first + (0 + 1 + m) = m - 1 + (g.last - g.first) by omega,
    Nat.add_mod_right, Nat.mod_eq_of_lt (by omega)]

lemma wellFormed_overflowDisk (hpos : 0 < m) (hsize : 12 + 8 * m ≤ g.blocksize) :
    (g.journal (g.last - 2) h).WellFormed (overflowDisk g m) [] where
  first_le := (by omega : g.first ≤ g.last - 2)
  lt_last := (by omega : g.last - 2 < g.last)
  blocks := by
    have hfirst := g.first_pos
    have hmax := g.maxlen_lt
    have hnth : (g.journal (g.last - 2) h).nth (overflowDisk g m) 0 = tagsBlock m := by
      rw [Journal.nth, Journal.pos_zero (by omega : g.first ≤ g.last - 2)
        (by omega : g.last - 2 < g.last)]
      exact (log_overflowDisk h h).trans (if_pos rfl)
    have hoffs : tagOffsets (tagsBlock m) (g.journal (g.last - 2) h).blocksize 12 =
        List.range' 12 m 8 := tagOffsets_tagsBlock hpos hsize
    have hkind : blockKind ((g.journal (g.last - 2) h).nth (overflowDisk g m) 0) 0 =
        some .descriptor := by
      rw [hnth]
      exact blockKind_tagsBlock m
    have hbody := Journal.Body.descriptor (j := g.journal (g.last - 2) h) hkind (.nil _)
    rw [hnth, hoffs, length_range'] at hbody
    refine ⟨0, _, _, .nil _ 0, hbody, ?_, ?_, ?_⟩
    · rw [Journal.nth, pos_overflow h hm hpos, log_overflowDisk h (by omega), if_neg (by omega),
        if_neg (by omega)]
      exact blockKind_zeroBlock _
    · change 0 + 1 + m + 1 ≤ g.last - g.first
      omega
    · intro t ht w hw p hp heq
      rw [List.mem_singleton.1 ht, append_nil] at hw
      obtain ⟨o, ho, hname⟩ := Journal.mem_copies hw
      obtain ⟨i, -, rfl⟩ := mem_range'.1 ho
      rw [hname, tagAt_tagsBlock] at heq
      have hnat : p = (BitVec.allOnes 32).toNat :=
        (toNat_bmap (lt_trans hp hmax)).symm.trans (congrArg BitVec.toNat heq)
      rw [toNat_allOnes] at hnat
      have hp' : p < g.maxlen := hp
      omega

section

variable (hsize : 12 + 8 * m ≤ g.blocksize) (hover : g.last - 1 + m = 2 ^ 32)

include hsize hover

lemma scan_overflowDisk :
    ∃ rounds s, (g.journal (g.last - 2) h).doOnePass rounds .scan 0 (overflowDisk g m)
      (fun _ => []) = some (0, s) ∧ s.nextCommit = 1 := by
  have hlast := g.last_le
  have hmax := g.maxlen_lt
  have hskip : (g.journal (g.last - 2) h).skip .scan (tagsBlock m)
      ((g.journal (g.last - 2) h).succ (g.last - 2)) = 0 := by
    rw [succ_journal h (by omega), Journal.skip, if_neg (by decide), countTags_eq_length,
      show (g.journal (g.last - 2) h).blocksize = g.blocksize from rfl,
      tagOffsets_tagsBlock (by omega) hsize, length_range',
      show g.last - 2 + 1 + m = 2 ^ 32 by omega, Nat.mod_self]
    exact if_neg (by omega : ¬ 0 ≥ g.last)
  have hlog (p : ℕ) (hp : p < g.maxlen) :=
    log_overflowDisk (m := m) h (lt_trans hp hmax)
  have hbegin : Journal.Scanning (overflowDisk g m) (g.last - 2) 0
      ((g.journal (g.last - 2) h).begin (overflowDisk g m) fun _ => []) := ⟨rfl, rfl, rfl, rfl⟩
  obtain ⟨s1, hnext1, hs1⟩ := hbegin.descriptor
    (by omega : g.last - 2 < g.maxlen) (by
      rw [hlog _ (by omega), if_pos rfl]
      exact blockKind_tagsBlock m)
  rw [hlog _ (by omega), if_pos rfl, hskip] at hs1
  obtain ⟨s2, hnext2, hs2⟩ := hs1.commitBlock
    (by omega : 0 < g.maxlen) (by
      rw [hlog _ (by omega), if_neg (by omega)]
      exact blockKind_commitBlock 0)
  rw [succ_journal h (by omega)] at hs2
  apply hs2.exists_doOnePass (.head hnext1 (.head hnext2 .refl)) (by omega : 1 < g.maxlen)
  rw [hlog _ (by omega), if_neg (by omega), if_neg (by decide)]
  exact blockKind_zeroBlock _

lemma not_recovers_overflowDisk :
    ¬ Journal.Recovers (g.journal (g.last - 2) h) (overflowDisk g m) [] := by
  rintro ⟨rounds, r, hrun, -, hseq, -⟩
  obtain ⟨p, p', p'', hscan, -, -, -, hseq'⟩ :=
    Journal.exists_passes (by omega : g.last - 2 ≠ 0) hrun
  obtain ⟨n, s, hscan', hcommit⟩ := scan_overflowDisk h hm hsize hover
  rw [Journal.doOnePass_unique hscan hscan', hcommit, hseq] at hseq'
  exact absurd hseq' (by decide : ¬ seqOf 0 0 + 1 = 1 + 1)

end

end

end

/-! ### The law -/

lemma exists_not_recovers (hsafe : ¬ g.Safe) :
    ∃ j : Journal, j.toGeometry = g ∧ ∃ disk ts, j.WellFormed disk ts ∧
      ¬ Journal.Recovers j disk ts := by
  have hlast := g.last_le
  have hmax := g.maxlen_lt
  by_cases hroom : g.last - 1 + min ((g.blocksize - 12) / 8) (g.last - g.first - 2) < 2 ^ 32
  · have hmany : ¬ g.last - g.first ≤ 2 ^ 31 + 1 := fun hle => hsafe ⟨hle, hroom⟩
    have hk : 2 ^ 31 + 1 < g.last - g.first := not_le.1 hmany
    have hstart : g.first < 2 ^ 32 := by omega
    exact ⟨g.journal g.first hstart, rfl, _, _, wellFormed_commitDisk hstart hk,
      (wellFormed_commitDisk hstart hk).not_recovers (roomy_of_lt hroom)
        (by rw [length_replicate]; exact Nat.lt_succ_self _)⟩
  · obtain ⟨m, hover⟩ : ∃ m, g.last - 1 + m = 2 ^ 32 := ⟨2 ^ 32 - (g.last - 1), by omega⟩
    have hstart : g.last - 2 < 2 ^ 32 := by omega
    have hm : m + 2 ≤ g.last - g.first := by omega
    have hsize : 12 + 8 * m ≤ g.blocksize := by omega
    exact ⟨g.journal (g.last - 2) hstart, rfl, _, _,
      wellFormed_overflowDisk hstart hm (by omega) hsize,
      not_recovers_overflowDisk hstart hm hsize hover⟩

/-- Recovery of a log in which no block number overflows is right exactly if there are at most
`2 ^ 31` complete transactions. It is right for all well-formed logs of exactly the journals that
are safe. -/
theorem journal_recover_law_iff (g : Geometry) :
    (∀ j : Journal, j.toGeometry = g → ∀ disk ts, j.WellFormed disk ts →
      j.Roomy (j.nth disk) j.sequence 0 → (Journal.Recovers j disk ts ↔ ts.length ≤ 2 ^ 31)) ∧
    ((∀ j : Journal, j.toGeometry = g → ∀ disk ts, j.WellFormed disk ts →
      Journal.Recovers j disk ts) ↔ g.Safe) := by
  refine ⟨fun j _ disk ts hwf hroom => ⟨fun hrec => ?_, hwf.recovers hroom⟩, fun hall => ?_, ?_⟩
  · by_contra hmany
    exact hwf.not_recovers hroom (not_le.1 hmany) hrec
  · by_contra hsafe
    obtain ⟨j, hj, disk, ts, hwf, hnot⟩ := exists_not_recovers hsafe
    exact hnot (hall j hj disk ts hwf)
  · rintro ⟨hcircle, hroom⟩ j rfl disk ts hwf
    have hlen := hwf.length_lt
    exact hwf.recovers (roomy_of_lt hroom) (by omega)

lemma wellFormed_oneTxn : oneTxn.WellFormed oneTxnDisk
    [⟨oneTxn.copies (oneTxn.nth oneTxnDisk) (tagsBlock 1) [12] 1, []⟩] where
  first_le := by decide
  lt_last := by decide
  blocks := by
    have hbody := Journal.Body.descriptor (j := oneTxn)
      (show blockKind (oneTxn.nth oneTxnDisk 0) 0 = _ from blockKind_tagsBlock 1) (.nil _)
    rw [show oneTxn.nth oneTxnDisk 0 = tagsBlock 1 from rfl, tagOffsets_oneTxn, append_nil] at hbody
    refine ⟨3, 3, ⟨[], []⟩, .cons hbody (blockKind_commitBlock 0) (.nil _ 3), .nil 3,
      blockKind_zeroBlock _, by decide, ?_⟩
    intro t ht w hw p hp
    rcases List.mem_cons.1 ht with rfl | ht
    · obtain ⟨o, ho, hname⟩ := Journal.mem_copies hw
      rw [hname, List.mem_singleton.1 ho]
      exact bmap_oneTxn hp
    · simp [List.mem_singleton.1 ht] at hw

/-- The copy in the log is written to the last block of the device. -/
theorem journal_recover_law_iff_oneTxn :
    ∃ rounds r, oneTxn.journalRecover rounds oneTxnDisk (fun _ => []) = some r ∧ r.err = 0 ∧
      r.transactionSequence = 2 ∧ oneTxn.contents r.disk (BitVec.allOnes 32) = fun _ => 1 := by
  obtain ⟨rounds, r, hrun, herr, hseq, hdisk⟩ := ((journal_recover_law_iff _).1 oneTxn rfl _ _
    wellFormed_oneTxn (roomy_of_lt (by decide))).2 (by decide)
  have htag : tagAt (tagsBlock 1) 12 =
      ⟨BitVec.allOnes 32, JFS_FLAG_SAME_UUID ||| JFS_FLAG_LAST_TAG⟩ := tagAt_tagsBlock 1 0
  refine ⟨rounds, r, hrun, herr, hseq, ?_⟩
  rw [hdisk]
  simp only [Journal.copies, htag]
  rfl

/-- A journal with room for `2 ^ 31 + 1` transactions. -/
def hugeGeometry : Geometry where
  first := 1
  last := 2 ^ 31 + 3
  maxlen := 2 ^ 31 + 3
  blocksize := 1024
  first_pos := Nat.one_pos
  first_lt := by decide
  last_le := by decide
  maxlen_lt := by decide
  blocksize_pow := Journal.exists_pow_1024

/-- A log of `2 ^ 31 + 1` transactions, each of which is a commit block only, is not recovered. -/
theorem huge_log_not_recovered :
    (hugeGeometry.journal 1 (by decide)).WellFormed (commitDisk hugeGeometry (2 ^ 31 + 1))
        (List.replicate (2 ^ 31 + 1) ⟨[], []⟩) ∧
      ¬ Journal.Recovers (hugeGeometry.journal 1 (by decide))
        (commitDisk hugeGeometry (2 ^ 31 + 1)) (List.replicate (2 ^ 31 + 1) ⟨[], []⟩) :=
  ⟨wellFormed_commitDisk (by decide) (by decide), (wellFormed_commitDisk (by decide)
    (by decide)).not_recovers (roomy_of_lt (by decide)) (by rw [length_replicate]; decide)⟩

end LklPort.Jbd
