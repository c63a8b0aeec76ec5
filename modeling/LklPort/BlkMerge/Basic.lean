import Mathlib.Algebra.Group.Nat.Defs
import LklPort.Program.Basic

/-!
# Merging of block requests

`__make_request` with the functions of `blk-merge.c` and `elevator.c` that it uses, for a queue
with the noop scheduler and bios that are no barriers. Requests are numbered, and a bio chain is a
list. A program fails on a `BUG_ON`.
-/

namespace LklPort.BlkMerge

open Program

/-- A `struct bio`: a sequence of whole sectors, which is not empty. -/
structure Bio where
  ptr : ℕ
  sector : ℕ
  /-- `bi_size`. -/
  size : ℕ
  /-- The data direction. -/
  write : Bool
  /-- `BIO_RW_DISCARD`. -/
  discard : Bool
  /-- `bi_bdev->bd_disk`. -/
  disk : ℕ
  /-- `bio_phys_segments`. -/
  physSegments : ℕ
  sector_lt : sector < 2 ^ 64
  size_lt : size < 2 ^ 32
  size_pos : 0 < size
  dvd_size : 512 ∣ size
deriving DecidableEq

/-- `bio_sectors`. -/
def Bio.sectors (b : Bio) : ℕ := b.size >>> 9

/-- What a request transfers. -/
structure Transfer where
  /-- `__sector`. -/
  pos : ℕ
  /-- `__data_len`. -/
  dataLen : ℕ
  bios : List Bio
  write : Bool
  /-- `REQ_DISCARD`. -/
  discard : Bool
  disk : ℕ

/-- A `struct request`. -/
structure Request extends Transfer where
  /-- `REQ_NOMERGE`. -/
  nomerge : Bool
  /-- `REQ_STARTED`. -/
  started : Bool
  /-- `REQ_SOFTBARRIER` or `REQ_HARDBARRIER`. -/
  barrier : Bool
  special : Bool
  nrPhysSegments : ℕ

/-- `blk_rq_sectors`. -/
def Transfer.sectors (t : Transfer) : ℕ := t.dataLen >>> 9

/-- `rq_hash_key`, which is also the end of the request. -/
def Transfer.key (t : Transfer) : ℕ := (t.pos + t.sectors) % 2 ^ 64

structure Queue where
  rq : ℕ → Request
  /-- The list of the noop scheduler. -/
  sorted : List ℕ
  /-- `queue_head`. -/
  dispatch : List ℕ
  hash : Fin 64 → List ℕ
  lastMerge : Option ℕ
  endSector : ℕ
  maxSectors : ℕ
  maxSegments : ℕ

def Queue.setRq (q : Queue) (i : ℕ) (f : Request → Request) : Queue :=
  { q with rq := Function.update q.rq i (f (q.rq i)) }

/-! ### Looking for a request -/

def rqMergeable (r : Request) : Bool := !(r.nomerge || r.started || r.barrier)

def elvRqMergeOk (r : Request) (b : Bio) : Bool :=
  rqMergeable r && decide (r.bios.head?.map Bio.discard = some b.discard) &&
    decide (b.write = r.write) && (decide (r.disk = b.disk) && !r.special)

/-- `ELEVATOR_BACK_MERGE` and `ELEVATOR_FRONT_MERGE`. -/
inductive MergeType where
  | back
  | front
deriving DecidableEq

def elvTryMerge (r : Request) (b : Bio) : Option MergeType :=
  if elvRqMergeOk r b then
    if r.key = b.sector then some .back
    else if (r.pos + 2 ^ 64 - b.sectors) % 2 ^ 64 = b.sector then some .front
    else none
  else none

/-- `ELV_ON_HASH`. -/
def Queue.OnHash (q : Queue) (i : ℕ) : Prop := ∃ k, i ∈ q.hash k
  deriving Decidable

def elvRqhashDel (i : ℕ) : Program Queue Unit :=
  write fun q => { q with hash := fun k => (q.hash k).filter (· ≠ i) }

section

variable (hashFn : ℕ → Fin 64)

/-- `elv_rqhash_add`, with `ELV_HASH_FN` for `hashFn`. -/
def elvRqhashAdd (i : ℕ) : Program Queue Unit := do
  let q ← read
  if q.OnHash i then fail
  else
    let k := hashFn (q.rq i).key
    write fun q => { q with hash := Function.update q.hash k (i :: q.hash k) }

def elvRqhashReposition (i : ℕ) : Program Queue Unit := do
  elvRqhashDel i
  elvRqhashAdd hashFn i

/-- One step of the search in `elv_rqhash_find`. -/
def elvRqhashTry (offset i : ℕ) : Program Queue (Option ℕ) := do
  let q ← read
  if rqMergeable (q.rq i) = false then do
    elvRqhashDel i
    return none
  else if (q.rq i).key = offset then return some i
  else return none

def elvRqhashFind (offset : ℕ) : Program Queue (Option ℕ) := do
  let q ← read
  (q.hash (hashFn offset)).findSomeM? (elvRqhashTry offset)

/-- The lookup of `elv_merge` in the hash. -/
def elvMergeHash (b : Bio) : Program Queue (Option (ℕ × MergeType)) := do
  match ← elvRqhashFind hashFn b.sector with
  | none => return none
  | some i => do
    let q ← read
    if elvRqMergeOk (q.rq i) b then return some (i, .back) else return none

/-- `elv_merge`. The flags are `blk_queue_nomerges` and `blk_queue_noxmerges`. -/
def elvMerge (nomerges noxmerges : Bool) (b : Bio) : Program Queue (Option (ℕ × MergeType)) :=
  if nomerges then return none
  else do
    let q ← read
    match q.lastMerge.bind fun i => (elvTryMerge (q.rq i) b).map fun type => (i, type) with
    | some x => return some x
    | none => if noxmerges then return none else elvMergeHash hashFn b

/-! ### Limits -/

/-- The request is not merged any more. -/
def noMerge (i : ℕ) : Program Queue Unit :=
  write fun q => { q.setRq i fun r => { r with nomerge := true } with
    lastMerge := if q.lastMerge = some i then none else q.lastMerge }

def llNewHwSegment (i : ℕ) (b : Bio) : Program Queue Bool := do
  let q ← read
  if (q.rq i).nrPhysSegments + b.physSegments > q.maxSegments then do
    noMerge i
    return false
  else do
    write fun q => q.setRq i fun r => { r with nrPhysSegments := r.nrPhysSegments + b.physSegments }
    return true

/-- `ll_back_merge_fn` and `ll_front_merge_fn`, in which `max_sectors` is an `unsigned short`. -/
def llMergeFn (i : ℕ) (b : Bio) : Program Queue Bool := do
  let q ← read
  if (q.rq i).sectors + b.sectors > q.maxSectors % 2 ^ 16 then do
    noMerge i
    return false
  else llNewHwSegment i b

/-- `ll_merge_requests_fn`, where `contig` is what `blk_phys_contig_segment` returns. -/
def llMergeRequestsFn (contig : Bool) (req next : ℕ) : Program Queue Bool := do
  let q ← read
  let total := (q.rq req).nrPhysSegments + (q.rq next).nrPhysSegments - (if contig then 1 else 0)
  if (q.rq req).special = true ∨ (q.rq next).special = true then return false
  else if (q.rq req).sectors + (q.rq next).sectors > q.maxSectors then return false
  else if total > q.maxSegments then return false
  else do
    write fun q => q.setRq req fun r => { r with nrPhysSegments := total }
    return true

/-! ### Merging requests -/

/-- `elv_merge_requests`, with `noop_merged_requests`. -/
def elvMergeRequests (req next : ℕ) : Program Queue Unit := do
  write fun q => { q with sorted := q.sorted.erase next }
  elvRqhashReposition hashFn req
  elvRqhashDel next
  write fun q => { q with lastMerge := some req }

/-- `__blk_put_request` of a request that nobody else holds. -/
def blkPutRequest (i : ℕ) : Program Queue Unit := do
  let q ← read
  if i ∈ q.sorted ∨ i ∈ q.dispatch ∨ q.OnHash i then fail else return

/-- The last part of `attempt_merge`. -/
def absorb (req next : ℕ) : Program Queue Unit := do
  write fun q => q.setRq req fun r => { r with
    bios := r.bios ++ (q.rq next).bios
    dataLen := (r.dataLen + (q.rq next).dataLen) % 2 ^ 32 }
  elvMergeRequests hashFn req next
  write fun q => q.setRq next fun r => { r with bios := [] }
  blkPutRequest next

def attemptMerge (contig : Bool) (req next : ℕ) : Program Queue Bool := do
  let q ← read
  if rqMergeable (q.rq req) = false ∨ rqMergeable (q.rq next) = false then return false
  else if (q.rq req).key ≠ (q.rq next).pos then return false
  else if (q.rq req).write ≠ (q.rq next).write ∨ (q.rq req).disk ≠ (q.rq next).disk ∨
      (q.rq next).special = true then return false
  else
    match ← llMergeRequestsFn contig req next with
    | false => return false
    | true => do
      absorb hashFn req next
      return true

/-- The element after `i` in a list. -/
def latter : List ℕ → ℕ → Option ℕ
  | a :: b :: l, i => if a = i then some b else latter (b :: l) i
  | _, _ => none

/-- `attempt_back_merge`, with `noop_latter_request`. -/
def attemptBackMerge (contig : Bool) (i : ℕ) : Program Queue Bool := do
  let q ← read
  match latter q.sorted i with
  | none => return false
  | some next => attemptMerge hashFn contig i next

/-- `attempt_front_merge`, with `noop_former_request`. -/
def attemptFrontMerge (contig : Bool) (i : ℕ) : Program Queue Bool := do
  let q ← read
  match latter q.sorted.reverse i with
  | none => return false
  | some prev => attemptMerge hashFn contig prev i

def elvMergedRequest (i : ℕ) : MergeType → Program Queue Unit
  | .back => do
    elvRqhashReposition hashFn i
    write fun q => { q with lastMerge := some i }
  | .front => write fun q => { q with lastMerge := some i }

/-! ### Submitting a bio -/

/-- The bio becomes the last one of the request. -/
def backMerge (contig : Bool) (i : ℕ) (b : Bio) : Program Queue Unit := do
  write fun q => q.setRq i fun r => { r with
    bios := r.bios ++ [b]
    dataLen := (r.dataLen + b.size) % 2 ^ 32 }
  match ← attemptBackMerge hashFn contig i with
  | true => return
  | false => elvMergedRequest hashFn i .back

/-- The bio becomes the first one of the request. -/
def frontMerge (contig : Bool) (i : ℕ) (b : Bio) : Program Queue Unit := do
  write fun q => q.setRq i fun r => { r with
    bios := b :: r.bios
    pos := b.sector
    dataLen := (r.dataLen + b.size) % 2 ^ 32 }
  match ← attemptFrontMerge hashFn contig i with
  | true => return
  | false => elvMergedRequest hashFn i .front

def joinBio (contig : Bool) (i : ℕ) (b : Bio) : MergeType → Program Queue Unit
  | .back => backMerge hashFn contig i b
  | .front => frontMerge hashFn contig i b

/-- The cases of `__make_request` in which the elevator has found a request. -/
def mergeBio (contig : Bool) (b : Bio) (i : ℕ) (type : MergeType) : Program Queue Bool := do
  let q ← read
  if rqMergeable (q.rq i) = false then fail
  else
    match ← llMergeFn i b with
    | false => return false
    | true => do
      joinBio hashFn contig i b type
      return true

/-- What is not decided by the queue and the bio: the flags that switch merging off, and whether
two segments are next to each other in memory. -/
structure Env where
  nomerges : Bool
  noxmerges : Bool
  contig : Bool

/-- `__make_request` up to where a new request is needed. -/
def makeRequest (env : Env) (b : Bio) : Program Queue Bool := do
  let q ← read
  if q.dispatch = [] ∧ q.sorted = [] then return false
  else
    match ← elvMerge hashFn env.nomerges env.noxmerges b with
    | none => return false
    | some (i, type) => mergeBio hashFn env.contig b i type

def initRequestFromBio (b : Bio) : Request where
  pos := b.sector
  dataLen := b.size
  bios := [b]
  write := b.write
  discard := b.discard
  disk := b.disk
  nomerge := false
  started := false
  barrier := false
  special := false
  nrPhysSegments := b.physSegments

/-- The rest of `__make_request`, with the new request `i`: `elv_insert` with
`ELEVATOR_INSERT_SORT`, and `noop_add_request`. -/
def addRequest (i : ℕ) (b : Bio) : Program Queue Unit := do
  write fun q => q.setRq i fun _ => initRequestFromBio b
  elvRqhashAdd hashFn i
  write fun q => { q with
    lastMerge := if q.lastMerge = none then some i else q.lastMerge
    sorted := q.sorted ++ [i] }

end

/-! ### Dispatching -/

/-- In `elv_dispatch_sort` the request `r` is put before `pos`. -/
def goesBefore (endSector : ℕ) (r pos : Request) : Bool :=
  if r.discard ≠ pos.discard then false
  else if r.write ≠ pos.write then false
  else if pos.started || pos.barrier then false
  else if r.pos ≥ endSector ∧ pos.pos < endSector then true
  else if ¬ r.pos ≥ endSector ∧ pos.pos ≥ endSector then false
  else decide (r.pos < pos.pos)

def dispatchSort (q : Queue) (i : ℕ) : List ℕ :=
  let before := fun j => goesBefore q.endSector (q.rq i) (q.rq j)
  (q.dispatch.reverse.dropWhile before).reverse ++ i ::
    (q.dispatch.reverse.takeWhile before).reverse

/-- `noop_dispatch`, with `elv_dispatch_sort`. -/
def noopDispatch : Program Queue Unit := do
  let q ← read
  match q.sorted with
  | [] => return
  | i :: rest => do
    write fun q => { q with
      sorted := rest
      lastMerge := if q.lastMerge = some i then none else q.lastMerge }
    elvRqhashDel i
    write fun q => { q with dispatch := dispatchSort q i }

/-- `blk_peek_request` of the first request to be dispatched. -/
def blkPeekRequest (i : ℕ) : Program Queue Unit :=
  write fun q => { q.setRq i fun r => { r with started := true } with
    endSector := (q.rq i).key }

/-- `blk_start_request`, which takes the request from the queue. -/
def blkStartRequest (i : ℕ) : Program Queue Unit := do
  let q ← read
  if i ∉ q.dispatch ∨ q.OnHash i then fail
  else write fun q => { q with dispatch := q.dispatch.erase i }

end LklPort.BlkMerge
