import LklPort.Interleaving.Basic
import Mathlib.Algebra.Group.Int.Defs
import Mathlib.Algebra.Group.Nat.Defs

/-!
# The reader-writer semaphore

`lib/rwsem-spinlock.c`. Every function takes `wait_lock` for all that it does to the semaphore, so
each of these sections is a step. A task that has put itself on the wait list sleeps until the task
that wakes it has cleared `waiter.task`; it has the lock from then on, and finds this out in a step
of its own. `activity` is an `__s32` and wraps around.
-/

namespace LklPort.RwSem

/-- `RWSEM_WAITING_FOR_READ` and `RWSEM_WAITING_FOR_WRITE`. -/
inductive Mode where
  | read
  | write
deriving DecidableEq

/-- A `struct rwsem_waiter`. -/
structure Waiter (T : Type) where
  task : T
  mode : Mode
deriving DecidableEq

structure Sem (T : Type) where
  activity : ℤ
  waitList : List (Waiter T)

variable {T : Type}

/-- A value of an `__s32`. -/
def s32 (x : ℤ) : ℤ := x.bmod (2 ^ 32)

/-! ### Waking -/

/-- The loop of `__rwsem_do_wake`: the readers it takes from the list, and what is left. -/
def wakeReaders : List (Waiter T) → List (Waiter T) × List (Waiter T)
  | [] => ([], [])
  | w :: l =>
    match w.mode with
    | .read => (w :: (wakeReaders l).1, (wakeReaders l).2)
    | .write => ([], w :: l)

/-- `__rwsem_do_wake`, with the waiters whose `task` it clears. -/
def rwsemDoWake (sem : Sem T) (wakewrite : Bool) : Sem T × List (Waiter T) :=
  match sem.waitList with
  | [] => (sem, [])
  | w :: l =>
    match w.mode, wakewrite with
    | .write, false => (sem, [])
    | .write, true => (⟨-1, l⟩, [w])
    | .read, _ =>
      let (woken, left) := wakeReaders (w :: l)
      (⟨s32 (sem.activity + woken.length), left⟩, woken)

/-- `__rwsem_wake_one_writer`, which does not look at the flags of the waiter. -/
def rwsemWakeOneWriter (sem : Sem T) : Sem T × List (Waiter T) :=
  match sem.waitList with
  | [] => (sem, [])
  | w :: l => (⟨-1, l⟩, [w])

/-! ### Calls -/

/-- The lock is granted at once, or the task becomes the last one on the list. -/
inductive Outcome where
  | granted
  | blocked
deriving DecidableEq

/-- `__down_read`, up to where the task waits. -/
def downRead (sem : Sem T) (t : T) : Sem T × Outcome :=
  if sem.activity ≥ 0 ∧ sem.waitList = [] then
    ({ sem with activity := s32 (sem.activity + 1) }, .granted)
  else ({ sem with waitList := sem.waitList ++ [⟨t, .read⟩] }, .blocked)

def downReadTrylock (sem : Sem T) : Sem T × Bool :=
  if sem.activity ≥ 0 ∧ sem.waitList = [] then
    ({ sem with activity := s32 (sem.activity + 1) }, true)
  else (sem, false)

/-- `__down_write_nested`, up to where the task waits. -/
def downWrite (sem : Sem T) (t : T) : Sem T × Outcome :=
  if sem.activity = 0 ∧ sem.waitList = [] then ({ sem with activity := -1 }, .granted)
  else ({ sem with waitList := sem.waitList ++ [⟨t, .write⟩] }, .blocked)

def downWriteTrylock (sem : Sem T) : Sem T × Bool :=
  if sem.activity = 0 ∧ sem.waitList = [] then ({ sem with activity := -1 }, true)
  else (sem, false)

def upRead (sem : Sem T) : Sem T × List (Waiter T) :=
  let sem := { sem with activity := s32 (sem.activity - 1) }
  if sem.activity = 0 ∧ sem.waitList ≠ [] then rwsemWakeOneWriter sem else (sem, [])

def upWrite (sem : Sem T) : Sem T × List (Waiter T) :=
  let sem := { sem with activity := 0 }
  if sem.waitList ≠ [] then rwsemDoWake sem true else (sem, [])

def downgradeWrite (sem : Sem T) : Sem T × List (Waiter T) :=
  let sem := { sem with activity := 1 }
  if sem.waitList ≠ [] then rwsemDoWake sem false else (sem, [])

/-! ### Tasks -/

/-- The waiters that a call has woken, and those that it has left on the list. -/
structure Wake (T : Type) where
  granted : List (Waiter T)
  left : List (Waiter T)

/-- The semaphore, who has it, and what has happened to it. -/
structure Shared (T : Type) where
  sem : Sem T
  /-- The tasks to which the lock was granted and that have not released it, once for each time. -/
  holders : Mode → List T
  /-- History: the requests that were blocked, in the order of their arrival. -/
  blocked : List (Waiter T)
  /-- History: what has been woken. -/
  wakes : List (Wake T)

inductive Pc where
  | running
  /-- In the loop that waits for `waiter.task` to be cleared. -/
  | waiting (mode : Mode)
deriving DecidableEq

inductive Act where
  | downRead
  | downReadTrylock
  | downWrite
  | downWriteTrylock
  | upRead
  | upWrite
  | downgradeWrite
  /-- The task is scheduled and finds that `waiter.task` has been cleared. -/
  | proceed

variable [DecidableEq T]

namespace Shared

/-- The lock is granted to tasks. -/
def grant (m : Shared T) (ws : List (Waiter T)) : Shared T :=
  { m with holders := fun mode => (ws.filter (·.mode = mode)).map Waiter.task ++ m.holders mode }

/-- A task gives the lock back. -/
def drop (m : Shared T) (mode : Mode) (t : T) : Shared T :=
  { m with holders := Function.update m.holders mode ((m.holders mode).erase t) }

/-- What a call that may block leads to. -/
def attempt (m : Shared T) (mode : Mode) (t : T) : Sem T × Outcome → Shared T × Pc
  | (sem, .granted) => ({ m with sem := sem }.grant [⟨t, mode⟩], .running)
  | (sem, .blocked) =>
    ({ m with sem := sem, blocked := m.blocked ++ [⟨t, mode⟩] }, .waiting mode)

/-- What a call that does not block leads to. -/
def attemptTry (m : Shared T) (mode : Mode) (t : T) : Sem T × Bool → Shared T × Pc
  | (sem, true) => ({ m with sem := sem }.grant [⟨t, mode⟩], .running)
  | (sem, false) => ({ m with sem := sem }, .running)

/-- Woken waiters have the lock. -/
def wake (m : Shared T) : Sem T × List (Waiter T) → Shared T
  | (sem, []) => { m with sem := sem }
  | (sem, w :: l) =>
    { m.grant (w :: l) with sem := sem, wakes := m.wakes ++ [⟨w :: l, sem.waitList⟩] }

end Shared

/-- What a task does. Only those that have the lock release it. -/
def exec (m : Shared T) (t : T) : Pc → Act → Option (Shared T × Pc)
  | .running, .downRead => some (m.attempt .read t (downRead m.sem t))
  | .running, .downReadTrylock => some (m.attemptTry .read t (downReadTrylock m.sem))
  | .running, .downWrite => some (m.attempt .write t (downWrite m.sem t))
  | .running, .downWriteTrylock => some (m.attemptTry .write t (downWriteTrylock m.sem))
  | .running, .upRead =>
    if t ∈ m.holders .read then some ((m.drop .read t).wake (upRead m.sem), .running) else none
  | .running, .upWrite =>
    if t ∈ m.holders .write then some ((m.drop .write t).wake (upWrite m.sem), .running) else none
  | .running, .downgradeWrite =>
    if t ∈ m.holders .write then
      some (((m.drop .write t).grant [⟨t, .read⟩]).wake (downgradeWrite m.sem), .running)
    else none
  | .waiting mode, .proceed =>
    if (⟨t, mode⟩ : Waiter T) ∈ m.sem.waitList then none else some (m, .running)
  | _, _ => none

/-- Any number of tasks that use a semaphore. -/
def program (T : Type) [DecidableEq T] : Interleaving (Shared T) T Pc Act := ⟨exec⟩

def initRwsem : Shared T := ⟨⟨0, []⟩, fun _ => [], [], []⟩

def machine (T : Type) [DecidableEq T] : Machine (Interleaving.State (Shared T) T Pc) (T × Act) :=
  (program T).machine initRwsem .running

instance (s : Interleaving.State (Shared T) T Pc) (a : T × Act) :
    Decidable ((machine T).guard s a) :=
  inferInstanceAs (Decidable (((program T).machine initRwsem .running).guard s a))

end LklPort.RwSem
