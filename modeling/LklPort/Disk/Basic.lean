import LklPort.BlkUpdate.Basic

/-!
# The disk driver

`lkl_disk_request` transfers one piece of a request at a time with `lkl_disk_do_rw` and has the
block layer complete it, which moves the request on to the next piece.
-/

namespace LklPort.Disk

open BlkUpdate

def blkEndRequestCur (rq : Rq) (error : ℤ) : Option (Bool × Rq) :=
  blkUpdateRequest rq error (blkRqCurBytes rq).toNat

/-- A call of `lkl_disk_do_rw`. -/
structure Call where
  sector : ℕ
  nsect : ℕ
  buffer : ℕ

/-- What `lkl_disk_do_rw` leaves in the `struct lkl_disk_cs`. -/
structure Cs where
  error : Bool
  sync : Bool

/-- What the driver has done: its calls of `lkl_disk_do_rw`, and the bios ended. -/
structure Trace where
  calls : List Call
  ended : List (ℕ × ℤ)

/-- The error that is reported for a call: `-EIO`, or none. -/
def errorOf (failed : Bool) : ℤ := if failed then -5 else 0

/-- The do-while loop of `lkl_disk_request`, where `i` calls of `lkl_disk_do_rw` have been made
before. The fuel bounds the number of rounds; a `BUG` is `none` as well. -/
def transferLoop (host : ℕ → Cs) : ℕ → ℕ → Rq → Option Trace
  | 0, _, _ => none
  | fuel + 1, i, rq =>
    let call : Call := ⟨(blkRqPos rq).toNat, (blkRqCurSectors rq).toNat, rq.buffer⟩
    if (host i).sync = false then none
    else
      match blkEndRequestCur rq (errorOf (host i).error) with
      | none => none
      | some (true, rq') =>
        (transferLoop host fuel (i + 1) rq').map fun t => ⟨call :: t.calls, t.ended⟩
      | some (false, rq') => some ⟨[call], rq'.ended⟩

/-- `lkl_disk_request`, over the requests that `blk_fetch_request` finds. -/
def lklDiskRequest (host : ℕ → Cs) (fuel : ℕ) : ℕ → List Rq → Option Trace
  | _, [] => some ⟨[], []⟩
  | i, rq :: rqs =>
    if rq.fs = false then
      match blkEndRequestCur rq (errorOf true) with
      | none => none
      | some (_, rq') =>
        (lklDiskRequest host fuel i rqs).map fun t => ⟨t.calls, rq'.ended ++ t.ended⟩
    else
      match transferLoop host fuel i rq with
      | none => none
      | some t => (lklDiskRequest host fuel (i + t.calls.length) rqs).map fun u =>
        ⟨t.calls ++ u.calls, t.ended ++ u.ended⟩

end LklPort.Disk
