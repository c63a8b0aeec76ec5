import Mathlib.Algebra.Group.Int.Defs
import Mathlib.Algebra.Group.Nat.Defs
import Mathlib.Data.Int.Order.Basic
import LklPort.Machine.Basic

/-!
# POSIX locks

The locks of an inode are in the list `i_flock`: the locks of other kinds first, then the POSIX
locks. `__posix_lock_file` goes once over the locks of the owner of a request. It extends,
replaces, cuts and deletes them in place, and `request` may come to point to one of them.

A lock has a number in place of its address. A blocked request waits for a lock of an inode until
this lock is deleted, replaced or cut.
-/

namespace LklPort.PosixLock

open Machine

/-- `fl_type`. -/
inductive LockType where
  | rdlck
  | wrlck
  | unlck
  deriving DecidableEq

def offsetMax : ℤ := 2 ^ 63 - 1

/-- Arithmetic on `loff_t`. -/
def wrap (x : ℤ) : ℤ := x.bmod (2 ^ 64)

variable (Owner : Type)

/-- A `struct file_lock` in the list of an inode. -/
structure Lock where
  /-- The number of a POSIX lock, in place of its address. -/
  id : ℕ
  /-- `IS_POSIX`. -/
  posix : Bool
  owner : Owner
  type : LockType
  start : ℤ
  end_ : ℤ
  deriving DecidableEq

/-- The `struct file_lock` of a caller, with the flags that are looked at. -/
structure Request where
  owner : Owner
  type : LockType
  start : ℤ
  end_ : ℤ
  flAccess : Bool
  flSleep : Bool
  flExists : Bool

/-- A request in `blocked_list`. Its `fl_next` is the lock `lock` of `inode`. -/
structure Waiter where
  owner : Owner
  inode : ℕ
  lock : ℕ
  deriving DecidableEq

/-- The locks of all inodes and the blocked requests. -/
structure State where
  files : ℕ → List (Lock Owner)
  blocked : List (Waiter Owner)
  /-- The number of the next lock that is allocated. -/
  fresh : ℕ

/-- What `__posix_lock_file` returns. -/
inductive Ret where
  | ok
  | eagain
  | edeadlk
  /-- `FILE_LOCK_DEFERRED`. -/
  | deferred
  | enolck
  | enoent
  deriving DecidableEq

variable {Owner} [DecidableEq Owner]

/-! ### Conflicts -/

def locksOverlap (req : Request Owner) (fl : Lock Owner) : Bool :=
  decide (req.end_ ≥ fl.start) && decide (fl.end_ ≥ req.start)

def locksConflict (req : Request Owner) (fl : Lock Owner) : Bool :=
  decide (fl.type = .wrlck) || decide (req.type = .wrlck)

def posixLocksConflict (req : Request Owner) (fl : Lock Owner) : Bool :=
  if !fl.posix || decide (req.owner = fl.owner) then false
  else if !locksOverlap req fl then false
  else locksConflict req fl

/-- The first lock of the list that conflicts with a request. -/
def firstConflict (req : Request Owner) (ls : List (Lock Owner)) : Option (Lock Owner) :=
  if req.type = .unlck then none
  else ls.find? fun fl => fl.posix && posixLocksConflict req fl

/-! ### The locks of the owner -/

/-- Where the pass over the locks is, and its variables. -/
structure Cursor (Owner : Type) where
  /-- The locks before `*before`. -/
  passed : List (Lock Owner)
  /-- `request->fl_start` and `request->fl_end`. -/
  start : ℤ
  end_ : ℤ
  /-- The lock that `request` points to, if it is no longer the caller's. -/
  target : Option ℕ
  added : Bool
  left : Option ℕ
  right : Option ℕ
  /-- The locks whose waiters have been woken up. -/
  woken : List ℕ

/-- `fl_start` and `fl_end` are written. -/
def Lock.withRange (fl : Lock Owner) (start end_ : ℤ) : Lock Owner :=
  { fl with start := start, end_ := end_ }

/-- Write to the POSIX lock with a number. -/
def change (id : ℕ) (f : Lock Owner → Lock Owner) (ls : List (Lock Owner)) : List (Lock Owner) :=
  ls.map fun fl => if fl.posix ∧ fl.id = id then f fl else fl

namespace Cursor

variable (c : Cursor Owner) (fl : Lock Owner)

/-- `before = &fl->fl_next`. -/
def advance : Cursor Owner := { c with passed := c.passed ++ [fl] }

/-- Write the range of `*request`. -/
def write (start end_ : ℤ) : Cursor Owner :=
  { c with
    start := start
    end_ := end_
    passed := match c.target with
      | none => c.passed
      | some id => change id (·.withRange start end_) c.passed }

/-- `locks_wake_up_blocks`. -/
def wake (id : ℕ) : Cursor Owner := { c with woken := id :: c.woken }

/-- `request = fl; added = 1`, and on to the next lock. -/
def retarget : Cursor Owner := { c.advance fl with target := some fl.id, added := true }

end Cursor

/-- The loop over the locks with the owner of the request. -/
def process (req : Request Owner) : List (Lock Owner) → Cursor Owner →
    Cursor Owner × List (Lock Owner)
  | [], c => (c, [])
  | fl :: rest, c =>
    if req.owner ≠ fl.owner then (c, fl :: rest)
    else if req.type = fl.type then
      if fl.end_ < wrap (c.start - 1) then process req rest (c.advance fl)
      else if wrap (fl.start - 1) > c.end_ then (c, fl :: rest)
      else
        let start := if fl.start > c.start then c.start else fl.start
        let end_ := if fl.end_ < c.end_ then c.end_ else fl.end_
        let c := c.write start end_
        if c.added then process req rest (c.wake fl.id)
        else process req rest (c.retarget (fl.withRange start end_))
    else if fl.end_ < c.start then process req rest (c.advance fl)
    else if fl.start > c.end_ then (c, fl :: rest)
    else
      let c := if req.type = .unlck then { c with added := true } else c
      let c := if fl.start < c.start then { c with left := some fl.id } else c
      if fl.end_ > c.end_ then ({ c with right := some fl.id }, fl :: rest)
      else if fl.start ≥ c.start then
        if c.added then process req rest (c.wake fl.id)
        else
          process req rest ((c.wake fl.id).retarget
            { fl.withRange c.start c.end_ with type := req.type })
      else process req rest (c.advance fl)

/-- `left->fl_end = request->fl_start - 1`. -/
def cutEnd (c : Cursor Owner) (left : Option ℕ) (ls : List (Lock Owner)) : List (Lock Owner) :=
  match left with
  | none => ls
  | some id => change id (fun fl => { fl with end_ := wrap (c.start - 1) }) ls

/-- `right->fl_start = request->fl_end + 1`. -/
def cutStart (c : Cursor Owner) (right : ℕ) (ls : List (Lock Owner)) : List (Lock Owner) :=
  change right (fun fl => { fl with start := wrap (c.end_ + 1) }) ls

/-- `new_fl`, if `request` does not point to a lock of the list. -/
def newLocks (req : Request Owner) (c : Cursor Owner) (id : ℕ) : List (Lock Owner) :=
  if c.added then [] else [⟨id, true, req.owner, req.type, c.start, c.end_⟩]

/-- The list after the pass, with the new locks and the cut ones, and the locks whose waiters are
woken up. `new_fl` is `id`, and `new_fl2` is `id + 1`. -/
def insertLocks (req : Request Owner) (c : Cursor Owner) (rest : List (Lock Owner)) (id : ℕ) :
    List (Lock Owner) × List ℕ :=
  let new := newLocks req c id
  match c.right with
  | none => (cutEnd c c.left (c.passed ++ (new ++ rest)), c.left.toList ++ c.woken)
  | some right =>
    if c.left = some right then
      -- the new lock breaks the old one in two pieces
      let copy := (rest.find? fun fl => fl.posix && decide (fl.id = right)).toList.map
        fun fl => { fl with id := id + 1 }
      (cutEnd c (some (id + 1)) (cutStart c right (c.passed ++ (copy ++ (new ++ rest)))),
        (id + 1) :: right :: c.woken)
    else
      (cutEnd c c.left (cutStart c right (c.passed ++ (new ++ rest))),
        c.left.toList ++ right :: c.woken)

/-- What follows the loop. `new₁` and `new₂` say whether there are `new_fl` and `new_fl2`. -/
def finish (req : Request Owner) (c : Cursor Owner) (rest : List (Lock Owner)) (id : ℕ)
    (new₁ new₂ : Bool) : Ret × List (Lock Owner) × List ℕ :=
  if c.right ≠ none ∧ c.left = c.right ∧ new₂ = false then
    (.enolck, c.passed ++ rest, c.woken)
  else if c.added = false ∧ req.type = .unlck then
    (if req.flExists then .enoent else .ok, c.passed ++ rest, c.woken)
  else if c.added = false ∧ new₁ = false then (.enolck, c.passed ++ rest, c.woken)
  else (.ok, insertLocks req c rest id)

/-- The part of `__posix_lock_file` after the search for a conflict: the result, the new list and
the locks whose waiters are woken up. -/
def applyRequest (req : Request Owner) (ls : List (Lock Owner)) (id : ℕ) (new₁ new₂ : Bool) :
    Ret × List (Lock Owner) × List ℕ :=
  -- first skip locks owned by other processes
  let skip : Lock Owner → Bool := fun fl => !fl.posix || decide (req.owner ≠ fl.owner)
  let c : Cursor Owner :=
    ⟨ls.takeWhile skip, req.start, req.end_, none, false, none, none, []⟩
  let (c, rest) := process req (ls.dropWhile skip) c
  finish req c rest id new₁ new₂

/-! ### Deadlock detection -/

/-- The lock that a blocked request waits for. -/
def State.lockOf (s : State Owner) (w : Waiter Owner) : Option (Lock Owner) :=
  (s.files w.inode).find? fun fl => fl.posix && decide (fl.id = w.lock)

def whatOwnerIsWaitingFor (s : State Owner) (o : Owner) : Option (Lock Owner) :=
  (s.blocked.find? fun w => decide (w.owner = o)).bind s.lockOf

def maxDeadlkIterations : ℕ := 10

/-- The loop of `posix_locks_deadlock`, with the number of iterations that are left. -/
def deadlockLoop (s : State Owner) (caller : Owner) : ℕ → Owner → Bool
  | n, o =>
    match whatOwnerIsWaitingFor s o, n with
    | none, _ => false
    | some _, 0 => false
    | some fl, n + 1 => if caller = fl.owner then true else deadlockLoop s caller n fl.owner

/-- `posix_locks_deadlock`. It gives up when its counter is beyond `MAX_DEADLK_ITERATIONS`. -/
def posixLocksDeadlock (s : State Owner) (caller : Owner) (fl : Lock Owner) : Bool :=
  deadlockLoop s caller (maxDeadlkIterations + 1) fl.owner

def locksInsertBlock (s : State Owner) (inode : ℕ) (fl : Lock Owner) (o : Owner) : State Owner :=
  { s with blocked := ⟨o, inode, fl.id⟩ :: s.blocked }

/-- `__posix_lock_file`, where `alloc₁` and `alloc₂` say whether `locks_alloc_lock` succeeds. -/
def posixLockFile (s : State Owner) (inode : ℕ) (req : Request Owner) (alloc₁ alloc₂ : Bool) :
    Ret × State Owner :=
  match firstConflict req (s.files inode) with
  | some fl =>
    if !req.flSleep then (.eagain, s)
    else if posixLocksDeadlock s req.owner fl then (.edeadlk, s)
    else (.deferred, locksInsertBlock s inode fl req.owner)
  | none =>
    if req.flAccess then (.ok, s)
    else
      let may := decide (req.type ≠ .unlck ∨ req.start ≠ 0 ∨ req.end_ ≠ offsetMax)
      let r := applyRequest req (s.files inode) s.fresh (may && alloc₁) (may && alloc₂)
      (r.1,
        { files := Function.update s.files inode r.2.1
          blocked := s.blocked.filter fun w => !(decide (w.inode = inode) && r.2.2.contains w.lock)
          fresh := s.fresh + 2 })

/-! ### Runs -/

inductive Action (Owner : Type) where
  | request (inode : ℕ) (req : Request Owner) (alloc₁ alloc₂ : Bool)
  /-- `locks_delete_block`: an owner stops waiting. -/
  | cancel (owner : Owner)
  /-- Locks of other kinds are added or removed, before the POSIX locks. -/
  | others (inode : ℕ) (ls : List (Lock Owner))

/-- Requests are for a range of offsets. -/
def Valid : Action Owner → Prop
  | .request _ req _ _ => 0 ≤ req.start ∧ req.start ≤ req.end_ ∧ req.end_ ≤ offsetMax
  | .cancel _ => True
  | .others _ ls => ∀ fl ∈ ls, fl.posix = false

def step (s : State Owner) : Action Owner → State Owner
  | .request inode req alloc₁ alloc₂ => (posixLockFile s inode req alloc₁ alloc₂).2
  | .cancel owner => { s with blocked := s.blocked.filter fun w => decide (w.owner ≠ owner) }
  | .others inode ls =>
    { s with files := Function.update s.files inode (ls ++ (s.files inode).filter (·.posix)) }

def machine (Owner : Type) [DecidableEq Owner] : Machine (State Owner) (Action Owner) where
  init := ⟨fun _ => [], [], 0⟩
  guard _ := Valid
  next := step

instance (s : State Owner) (a : Action Owner) : Decidable ((machine Owner).guard s a) := by
  cases a <;> dsimp only [machine, Valid] <;> infer_instance

end LklPort.PosixLock
