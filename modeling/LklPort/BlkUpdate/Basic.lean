import Mathlib.Algebra.Group.Int.Defs
import Mathlib.Algebra.Ring.Nat
import Mathlib.Data.List.Basic

/-!
# Partial completion of requests

A request of the block layer carries a chain of bios, each with a vector of pieces of pages.
`blk_update_request` of `blk-core.c` completes a number of bytes at the front of a request, and ends
a bio after its last byte.

The chain of bios is a list, and the bios that have been ended are kept in a history. Byte counts
are unsigned, except for `total_bytes`, which is an `int`.
-/

namespace LklPort.BlkUpdate

/-- A `struct bio_vec`, with the address of its page. -/
structure Vec where
  page : ℕ
  offset : BitVec 32
  len : ℕ
deriving DecidableEq

/-- `page_address(bv_page) + bv_offset`. -/
def Vec.addr (v : Vec) : ℕ := v.page + v.offset.toNat

/-- The first `n` bytes of the vector are done. -/
def Vec.skip (v : Vec) (n : ℕ) : Vec :=
  { v with offset := v.offset + BitVec.ofNat 32 n, len := v.len - n }

structure Bio where
  ptr : ℕ
  /-- `bi_io_vec`, with `bi_vcnt` entries. -/
  vecs : List Vec
  /-- `bi_idx` -/
  idx : ℕ
  /-- `bi_size` -/
  size : ℕ
  /-- `bi_sector` -/
  sector : BitVec 64
  /-- `BIO_UPTODATE` -/
  uptodate : Bool
deriving DecidableEq

/-- `bio_iovec`. -/
def Bio.iovec (bio : Bio) : Vec := bio.vecs.getD bio.idx ⟨0, 0, 0⟩

def bioCurBytes (bio : Bio) : ℕ := if bio.vecs.length ≠ 0 then bio.iovec.len else bio.size

/-- `bio_data`, where `NULL` is 0. -/
def bioData (bio : Bio) : ℕ := if bio.vecs.length ≠ 0 then bio.iovec.addr else 0

structure Rq where
  /-- `blk_fs_request` -/
  fs : Bool
  /-- `blk_discard_rq` -/
  discard : Bool
  /-- The request is the `bar_rq` of its queue. -/
  bar : Bool
  bios : List Bio
  /-- `__sector` -/
  sector : BitVec 64
  /-- `__data_len` -/
  dataLen : BitVec 32
  buffer : ℕ
  /-- History: the bios that have been ended, with the error they were ended with. -/
  ended : List (ℕ × ℤ)
deriving DecidableEq

def blkRqPos (rq : Rq) : BitVec 64 := rq.sector

def blkRqBytes (rq : Rq) : BitVec 32 := rq.dataLen

def blkRqSectors (rq : Rq) : BitVec 32 := blkRqBytes rq >>> 9

/-- `blk_rq_cur_bytes`, an `int`. -/
def blkRqCurBytes (rq : Rq) : BitVec 32 :=
  match rq.bios with
  | [] => 0
  | bio :: _ => BitVec.ofNat 32 (bioCurBytes bio)

/-- `blk_rq_cur_sectors`, an `unsigned int` that comes from a shift of an `int`. -/
def blkRqCurSectors (rq : Rq) : BitVec 32 := (blkRqCurBytes rq).sshiftRight 9

/-- The error that a bio is ended with, where `-EIO` is -5. -/
def endError (error : ℤ) (uptodate : Bool) : ℤ :=
  if error ≠ 0 then error else if uptodate then 0 else -5

/-- `req_bio_endio`: the bio after it, and the error if the bio is ended. -/
def reqBioEndio (bar : Bool) (bio : Bio) (nbytes : ℕ) (error : ℤ) : Bio × Option ℤ :=
  if bar then (bio, none)
  else
    let uptodate := if error ≠ 0 then false else bio.uptodate
    let nbytes := if nbytes > bio.size then bio.size else nbytes
    let size := bio.size - nbytes
    let sector := bio.sector + BitVec.ofNat 64 (nbytes >>> 9)
    ({ bio with uptodate := uptodate, size := size, sector := sector },
      if size = 0 then some (endError error bio.uptodate) else none)

/-- The variables of the loop of `blk_update_request`. -/
structure Progress where
  /-- `nr_bytes` -/
  nr : ℕ
  /-- `total_bytes` -/
  total : BitVec 32
  /-- `bio_nbytes` -/
  bioNbytes : ℕ
  /-- `next_idx` -/
  nextIdx : ℕ
  ended : List (ℕ × ℤ)

/-- The loop as long as it is at one bio, with the vectors from `bi_idx + next_idx` on. `endBio` is
what it does when the whole bio is done. A `BUG` is `none`. -/
def scan (bio : Bio) (rest : List Bio) (endBio : Progress → Option (Progress × List Bio)) :
    List Vec → Progress → Option (Progress × List Bio)
  | vecs, p =>
    if p.nr ≥ bio.size then endBio p
    else
      match vecs with
      | [] => some (p, bio :: rest)
      | v :: vecs =>
        if v.len > bio.size then none
        else if v.len > p.nr then
          some ({ p with
            bioNbytes := p.bioNbytes + p.nr
            total := p.total + BitVec.ofNat 32 p.nr }, bio :: rest)
        else
          let p := { p with
            nextIdx := p.nextIdx + 1
            bioNbytes := p.bioNbytes + v.len
            total := p.total + BitVec.ofNat 32 v.len
            nr := p.nr - v.len }
          if p.nr = 0 then some (p, bio :: rest) else scan bio rest endBio vecs p

/-- The loop of `blk_update_request`: its variables at the end, and `req->bio`. -/
def updateLoop (bar : Bool) (error : ℤ) : List Bio → Progress → Option (Progress × List Bio)
  | [], p => some (p, [])
  | bio :: rest, p =>
    let endBio := fun p : Progress =>
      let ended := (reqBioEndio bar bio bio.size error).2
      let p := { p with
        nextIdx := 0
        bioNbytes := 0
        total := p.total + BitVec.ofNat 32 bio.size
        nr := p.nr - bio.size
        ended := p.ended ++ ended.toList.map fun e => (bio.ptr, e) }
      if rest ≠ [] ∧ p.nr = 0 then some (p, rest) else updateLoop bar error rest p
    scan bio rest endBio (bio.vecs.drop (bio.idx + p.nextIdx)) p

/-- The bio at which the loop has ended is brought up to date. -/
def finishBio (bar : Bool) (error : ℤ) (bio : Bio) (p : Progress) : Bio × List (ℕ × ℤ) :=
  if p.bioNbytes ≠ 0 then
    let (bio, e) := reqBioEndio bar bio p.bioNbytes error
    let idx := bio.idx + p.nextIdx
    ({ bio with idx := idx, vecs := bio.vecs.modify idx (·.skip p.nr) },
      e.toList.map fun e => (bio.ptr, e))
  else (bio, [])

/-- What happens after the loop. -/
def finish (rq : Rq) (error : ℤ) (p : Progress) : List Bio → Bool × Rq
  | [] => (false, { rq with bios := [], dataLen := 0, ended := p.ended })
  | bio :: rest =>
    let (bio, e) := finishBio rq.bar error bio p
    let rq := { rq with
      bios := bio :: rest
      dataLen := rq.dataLen - p.total
      buffer := bioData bio
      sector :=
        if rq.fs || rq.discard then rq.sector + (p.total.sshiftRight 9).signExtend 64
        else rq.sector
      ended := p.ended ++ e }
    -- "request botched"
    (true, if blkRqBytes rq < blkRqCurBytes rq then { rq with dataLen := blkRqCurBytes rq } else rq)

/-- `blk_update_request`, with its return value and the request after it. -/
def blkUpdateRequest (rq : Rq) (error : ℤ) (nr : ℕ) : Option (Bool × Rq) :=
  match rq.bios with
  | [] => some (false, rq)
  | bio :: rest =>
    (updateLoop rq.bar error (bio :: rest) ⟨nr, 0, 0, 0, rq.ended⟩).map fun x =>
      finish rq error x.1 x.2

end LklPort.BlkUpdate
