import Mathlib.Algebra.Group.Nat.Defs
import LklPort.Rounds.Basic

/-!
# Recovery of a journal

`journal_recover` of `fs/jbd/recovery.c` walks through the log three times. The first pass looks for
its end, the second one collects the revoked blocks in the hash table of `fs/jbd/revoke.c`, and the
third one copies the blocks of the log to their places in the file system.

A block is the memory from `b_data` on, so that bytes behind its end have values, too. Reading and
writing blocks and allocating memory do not fail. `journal_bmap` gives the place of a block of the
log on the device. The counters of `struct recovery_info` that only go into messages are left out.
-/

namespace LklPort.Jbd

/-- The bytes from `b_data` on. -/
abbrev Block := ℕ → BitVec 8

/-- The device, by block numbers. -/
abbrev Disk := BitVec 32 → Block

/-- `be32_to_cpu` of the word at an offset. -/
def be32 (b : Block) (off : ℕ) : BitVec 32 := b off ++ b (off + 1) ++ b (off + 2) ++ b (off + 3)

def EIO : ℤ := 5

def JFS_MAGIC_NUMBER : BitVec 32 := 0xc03b3998

def JFS_DESCRIPTOR_BLOCK : BitVec 32 := 1

def JFS_COMMIT_BLOCK : BitVec 32 := 2

def JFS_REVOKE_BLOCK : BitVec 32 := 5

def JFS_FLAG_ESCAPE : BitVec 32 := 1

def JFS_FLAG_SAME_UUID : BitVec 32 := 2

def JFS_FLAG_LAST_TAG : BitVec 32 := 8

def tidGt (x y : BitVec 32) : Bool := 0 < (x - y).toInt

def tidGeq (x y : BitVec 32) : Bool := 0 ≤ (x - y).toInt

/-- The sizes of a journal, as they are loaded from its superblock. -/
structure Geometry where
  first : ℕ
  last : ℕ
  maxlen : ℕ
  blocksize : ℕ
  first_pos : 0 < first
  first_lt : first < last
  last_le : last ≤ maxlen
  maxlen_lt : maxlen < 2 ^ 32
  blocksize_pow : ∃ k, 10 ≤ k ∧ blocksize = 2 ^ k

/-- `journal_t`, with `s_start` and `s_sequence` of the superblock. The hash function may be any
one: for the size of table that is used, one of its shifts has a negative count. -/
structure Journal extends Geometry where
  start : ℕ
  sequence : BitVec 32
  bmap : ℕ → BitVec 32
  hash : BitVec 32 → ℕ
  hashSize : ℕ
  start_lt : start < 2 ^ 32

/-! ### Revoke records -/

structure RevokeRecord where
  sequence : BitVec 32
  blocknr : BitVec 32

/-- The lists of the hash table. -/
abbrev RevokeTable := ℕ → List RevokeRecord

/-- `find_revoke_record`, for a list of the table. -/
def findRevokeRecord (blocknr : BitVec 32) (l : List RevokeRecord) : Option RevokeRecord :=
  l.find? (·.blocknr == blocknr)

/-- The record that `find_revoke_record` finds gets the sequence number if that is a later one. -/
def raise (blocknr seq : BitVec 32) : List RevokeRecord → List RevokeRecord
  | [] => []
  | r :: l =>
    if r.blocknr == blocknr then
      (if tidGt seq r.sequence then { r with sequence := seq } else r) :: l
    else r :: raise blocknr seq l

/-- `journal_set_revoke`. -/
def Journal.setRevoke (j : Journal) (blocknr seq : BitVec 32) (t : RevokeTable) : RevokeTable :=
  let l := t (j.hash blocknr)
  Function.update t (j.hash blocknr) <|
    match findRevokeRecord blocknr l with
    | some _ => raise blocknr seq l
    | none => { sequence := seq, blocknr := blocknr } :: l

/-- `journal_test_revoke`. -/
def Journal.testRevoke (j : Journal) (blocknr seq : BitVec 32) (t : RevokeTable) : Bool :=
  match findRevokeRecord blocknr (t (j.hash blocknr)) with
  | none => false
  | some r => !tidGt seq r.sequence

/-- `journal_clear_revoke`. -/
def Journal.clearRevoke (j : Journal) (t : RevokeTable) : RevokeTable :=
  fun i => if i < j.hashSize then [] else t i

/-! ### Blocks of the log -/

/-- What kind of block the log goes on with. -/
inductive Kind where
  | descriptor
  | commit
  | revoke
  deriving DecidableEq

/-- The kind of a block that has the magic number and the expected sequence number. All other blocks
end the log. -/
def blockKind (b : Block) (seq : BitVec 32) : Option Kind :=
  if be32 b 0 ≠ JFS_MAGIC_NUMBER then none
  else if be32 b 8 ≠ seq then none
  else if be32 b 4 = JFS_DESCRIPTOR_BLOCK then some .descriptor
  else if be32 b 4 = JFS_COMMIT_BLOCK then some .commit
  else if be32 b 4 = JFS_REVOKE_BLOCK then some .revoke
  else none

/-- `journal_block_tag_t`. -/
structure Tag where
  blocknr : BitVec 32
  flags : BitVec 32

def tagAt (b : Block) (off : ℕ) : Tag := ⟨be32 b off, be32 b (off + 4)⟩

def Tag.has (t : Tag) (flag : BitVec 32) : Bool := t.flags &&& flag != 0

/-- Where the tag behind this one starts. -/
def Tag.next (t : Tag) (off : ℕ) : ℕ := off + 8 + if t.has JFS_FLAG_SAME_UUID then 0 else 16

lemma Tag.lt_next (t : Tag) (off : ℕ) : off < t.next off := by
  unfold Tag.next
  omega

/-- The loop of `count_tags`. -/
def countTags (b : Block) (size off : ℕ) : ℕ :=
  if off + 8 ≤ size then
    1 + if (tagAt b off).has JFS_FLAG_LAST_TAG then 0
      else countTags b size ((tagAt b off).next off)
  else 0
termination_by size - off
decreasing_by
  have := (tagAt b off).lt_next off
  omega

/-- The places of the tags that a loop over a descriptor block looks at. -/
def tagOffsets (b : Block) (size off : ℕ) : List ℕ :=
  if off + 8 ≤ size then
    off :: if (tagAt b off).has JFS_FLAG_LAST_TAG then []
      else tagOffsets b size ((tagAt b off).next off)
  else []
termination_by size - off
decreasing_by
  have := (tagAt b off).lt_next off
  omega

/-- A byte of the magic number. -/
def magicByte (i : ℕ) : BitVec 8 := (JFS_MAGIC_NUMBER >>> (24 - 8 * i)).setWidth 8

/-- A block of the file system after `memcpy` of a block of the log. If the tag says so, the magic
number is put back to its start. -/
def restore (size : ℕ) (t : Tag) (data old : Block) : Block := fun i =>
  if i < size then (if t.has JFS_FLAG_ESCAPE = true ∧ i < 4 then magicByte i else data i) else old i

/-! ### A pass over the log -/

inductive Pass where
  | scan
  | revoke
  | replay
  deriving DecidableEq

/-- The variables of `do_one_pass` and what it changes. -/
structure PassState where
  nextCommit : BitVec 32
  nextBlock : ℕ
  success : ℤ
  disk : Disk
  table : RevokeTable
  /-- History: the blocks of the log that were read. -/
  reads : List ℕ
  /-- History: where the tags and revoke entries that were looked at end in their blocks. -/
  ends : List ℕ

namespace Journal

variable (j : Journal)

/-- The blocks of the log. -/
def log (disk : Disk) (p : ℕ) : Block := disk (j.bmap p)

def wrap (v : ℕ) : ℕ := if v ≥ j.last then v - (j.last - j.first) else v

/-- `next_log_block++` and `wrap`. -/
def succ (p : ℕ) : ℕ := j.wrap ((p + 1) % 2 ^ 32)

/-- The blocks that `do_readahead` asks for. -/
def readahead (p : ℕ) : List ℕ :=
  List.range' p (min ((p + 128 * 1024 / j.blocksize) % 2 ^ 32) j.maxlen - p)

/-- A block of the log is read, and `next_log_block` is the one behind it. -/
def advance (s : PassState) : PassState :=
  { s with
    nextBlock := j.succ s.nextBlock
    reads := s.nextBlock :: j.readahead s.nextBlock ++ s.reads }

/-- The tag at an offset is replayed. -/
def replayTag (b : Block) (off : ℕ) (s : PassState) : PassState :=
  let t := tagAt b off
  let s := { s with ends := (off + 8) :: s.ends }
  if s.nextBlock ≥ j.maxlen then { s with nextBlock := j.succ s.nextBlock, success := - EIO }
  else
    let data := j.log s.disk s.nextBlock
    let s := j.advance s
    if j.testRevoke t.blocknr s.nextCommit s.table then s
    else
      let new := restore j.blocksize t data (s.disk t.blocknr)
      { s with disk := Function.update s.disk t.blocknr new }

/-- The loop over the tags of a descriptor block in the last pass. -/
def replayTags (b : Block) (off : ℕ) (s : PassState) : PassState :=
  if off + 8 ≤ j.blocksize then
    let s := j.replayTag b off s
    if (tagAt b off).has JFS_FLAG_LAST_TAG then s
    else replayTags b ((tagAt b off).next off) s
  else s
termination_by j.blocksize - off
decreasing_by
  have := (tagAt b off).lt_next off
  omega

/-- The loop of `scan_revoke_records`. -/
def scanRevokeRecords (b : Block) (stop : ℤ) (off : ℕ) (s : PassState) : PassState :=
  if off < stop then
    scanRevokeRecords b stop (off + 4)
      { s with
        table := j.setRevoke (be32 b off) s.nextCommit s.table
        ends := (off + 4) :: s.ends }
  else s
termination_by (stop - off).toNat

/-- `r_count`, as an `int`. -/
def rCount (b : Block) : ℤ := (be32 b 12).toInt

/-- How a pass leaves its loop. -/
inductive Exit where
  | done (s : PassState)
  | failed (s : PassState)

/-- The last state of a pass. -/
def Exit.state : Exit → PassState
  | .done s => s
  | .failed s => s

/-- A pass stops before it reads a block of a transaction behind the last one. -/
def Stops (pass : Pass) (endTransaction seq : BitVec 32) : Prop :=
  pass ≠ .scan ∧ tidGeq seq endTransaction = true
  deriving Decidable

/-- A round of the loop of `do_one_pass`. -/
def round (pass : Pass) (endTransaction : BitVec 32) (s : PassState) : PassState ⊕ Exit :=
  if Stops pass endTransaction s.nextCommit then .inr (.done s)
  else if s.nextBlock ≥ j.maxlen then .inr (.failed s)
  else
    let b := j.log s.disk s.nextBlock
    let s := j.advance s
    match blockKind b s.nextCommit with
    | none => .inr (.done s)
    | some .descriptor =>
      if pass = .replay then .inl (j.replayTags b 12 s)
      else .inl { s with
        nextBlock := j.wrap ((s.nextBlock + countTags b j.blocksize 12) % 2 ^ 32)
        ends := (tagOffsets b j.blocksize 12).map (· + 8) ++ s.ends }
    | some .commit => .inl { s with nextCommit := s.nextCommit + 1 }
    | some .revoke =>
      if pass = .revoke then .inl (j.scanRevokeRecords b (rCount b) 16 s) else .inl s

/-- The state that a pass starts in. -/
def begin (disk : Disk) (table : RevokeTable) : PassState where
  nextCommit := j.sequence
  nextBlock := j.start
  success := 0
  disk := disk
  table := table
  reads := []
  ends := []

/-- The return value of a pass. -/
def passResult (pass : Pass) (endTransaction : BitVec 32) : Exit → ℤ
  | .failed _ => - EIO
  | .done s =>
    if pass ≠ .scan ∧ endTransaction ≠ s.nextCommit ∧ s.success = 0 then - EIO else s.success

/-- `do_one_pass`, if it takes at most so many rounds. -/
def doOnePass (rounds : ℕ) (pass : Pass) (endTransaction : BitVec 32) (disk : Disk)
    (table : RevokeTable) : Option (ℤ × PassState) :=
  (Rounds.run (j.round pass endTransaction) rounds (j.begin disk table)).map fun e =>
    (passResult pass endTransaction e, e.state)

/-! ### Recovery -/

/-- What `journal_recover` leaves. -/
structure Recovered where
  err : ℤ
  transactionSequence : BitVec 32
  disk : Disk
  table : RevokeTable

/-- A pass is skipped if an earlier one failed. -/
def passUnless (rounds : ℕ) (pass : Pass) (endTransaction : BitVec 32) (p : ℤ × PassState) :
    Option (ℤ × PassState) :=
  if p.1 = 0 then j.doOnePass rounds pass endTransaction p.2.disk p.2.table else some p

/-- `journal_recover`, if each pass takes at most so many rounds. -/
def journalRecover (rounds : ℕ) (disk : Disk) (table : RevokeTable) : Option Recovered :=
  if j.start = 0 then
    some { err := 0, transactionSequence := j.sequence + 1, disk := disk, table := table }
  else do
    let p ← j.doOnePass rounds .scan 0 disk table
    let endTransaction := if p.1 = 0 then p.2.nextCommit else 0
    let p ← j.passUnless rounds .revoke endTransaction p
    let p ← j.passUnless rounds .replay endTransaction p
    some {
      err := p.1
      transactionSequence := endTransaction + 1
      disk := p.2.disk
      table := j.clearRevoke p.2.table }

end Journal

end LklPort.Jbd
