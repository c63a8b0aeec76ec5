import LklPort.Interleaving.Basic
import Mathlib.Algebra.Group.Int.Defs
import Mathlib.Algebra.Group.Nat.Defs

/-!
# The POSIX semaphore

`envs/posix.c` builds the semaphores of the kernel from a mutex, a condition variable and an `int`.
Each statement of `sem_up` and `sem_down` is a step of its own. `pthread_cond_wait` gives the mutex
back and blocks in one step; a thread that is not blocked any more takes the mutex again.
`pthread_cond_signal` unblocks at least one thread if there is one, and a thread may be unblocked
without a signal. The `int` wraps around.
-/

namespace LklPort.Semaphore

/-- `pthread_sem_t`, and what has happened to it. -/
structure Sem (T : Type) where
  /-- The thread that has locked the mutex. -/
  lock : Option T
  count : ℤ
  /-- The threads that are blocked on the condition variable. -/
  cond : List T
  /-- History: how often `sem_up` has incremented the count. -/
  ups : ℕ
  /-- History: how often `sem_down` has decremented the count. -/
  downs : ℕ
  /-- History: how many calls of `sem_up` have returned. -/
  upsDone : ℕ
  /-- History: how many calls of `sem_down` have returned. -/
  downsDone : ℕ
  /-- History: how often `sem_up` has incremented `INT_MAX`. -/
  overflows : ℕ

/-- The places of a thread. -/
inductive Pc where
  | idle
  | upLock
  | upInc
  | upTest
  | upSignal
  | upUnlock
  | downLock
  /-- At the condition of the `while` loop, for the first time or after a wait. -/
  | downTest (again : Bool)
  /-- Before `pthread_cond_wait`. -/
  | downWait
  /-- In `pthread_cond_wait`. -/
  | waiting
  | downDec (again : Bool)
  | downUnlock
  deriving DecidableEq

inductive Act (T : Type) where
  /-- The thread calls `sem_up`. -/
  | up
  /-- The thread calls `sem_down`. -/
  | down
  /-- The next statement. -/
  | run
  /-- `pthread_cond_signal`, which unblocks the threads in `ws`. -/
  | signal (ws : List T)
  /-- The thread is unblocked without a signal. -/
  | spurious

def intMax : ℤ := 2 ^ 31 - 1

variable {T : Type} [DecidableEq T]

namespace Sem

/-- `sem_alloc` -/
def alloc (count : ℤ) : Sem T := ⟨none, count, [], 0, 0, 0, 0, 0⟩

/-- `sem->count++` -/
def inc (m : Sem T) : Sem T :=
  { m with
    count := (m.count + 1).bmod (2 ^ 32)
    ups := m.ups + 1
    overflows := if m.count = intMax then m.overflows + 1 else m.overflows }

/-- `sem->count--` -/
def dec (m : Sem T) : Sem T :=
  { m with count := (m.count - 1).bmod (2 ^ 32), downs := m.downs + 1 }

/-- The threads in `ws` are not blocked any more. -/
def wake (m : Sem T) (ws : List T) : Sem T := { m with cond := m.cond.filter (· ∉ ws) }

/-- What `pthread_cond_signal` may do. -/
def Signals (m : Sem T) (ws : List T) : Prop :=
  ws.Nodup ∧ (∀ w ∈ ws, w ∈ m.cond) ∧ (m.cond ≠ [] → ws ≠ [])

instance (m : Sem T) (ws : List T) : Decidable (m.Signals ws) :=
  inferInstanceAs (Decidable (ws.Nodup ∧ (∀ w ∈ ws, w ∈ m.cond) ∧ (m.cond ≠ [] → ws ≠ [])))

end Sem

/-- `sem_up` and `sem_down`, statement by statement. -/
def exec (m : Sem T) (t : T) : Pc → Act T → Option (Sem T × Pc)
  | .idle, .up => some (m, .upLock)
  | .upLock, .run => if m.lock = none then some ({ m with lock := some t }, .upInc) else none
  | .upInc, .run => some (m.inc, .upTest)
  | .upTest, .run => some (m, if 0 < m.count then .upSignal else .upUnlock)
  | .upSignal, .signal ws => if m.Signals ws then some (m.wake ws, .upUnlock) else none
  | .upUnlock, .run => some ({ m with lock := none, upsDone := m.upsDone + 1 }, .idle)
  | .idle, .down => some (m, .downLock)
  | .downLock, .run =>
    if m.lock = none then some ({ m with lock := some t }, .downTest false) else none
  | .downTest again, .run => some (m, if m.count ≤ 0 then .downWait else .downDec again)
  | .downWait, .run => some ({ m with lock := none, cond := t :: m.cond }, .waiting)
  | .waiting, .spurious => if t ∈ m.cond then some (m.wake [t], .waiting) else none
  | .waiting, .run =>
    if t ∉ m.cond ∧ m.lock = none then some ({ m with lock := some t }, .downTest true) else none
  | .downDec _, .run => some (m.dec, .downUnlock)
  | .downUnlock, .run => some ({ m with lock := none, downsDone := m.downsDone + 1 }, .idle)
  | _, _ => none

/-- Any number of threads that call `sem_up` and `sem_down`. -/
def program (T : Type) [DecidableEq T] : Interleaving (Sem T) T Pc (Act T) := ⟨exec⟩

/-- The threads and a semaphore that was allocated with the count `c`. -/
def machine (T : Type) [DecidableEq T] (c : ℤ) :
    Machine (Interleaving.State (Sem T) T Pc) (T × Act T) :=
  (program T).machine (.alloc c) .idle

instance (c : ℤ) (s : Interleaving.State (Sem T) T Pc) (a : T × Act T) :
    Decidable ((machine T c).guard s a) :=
  inferInstanceAs (Decidable (((program T).machine (.alloc c) .idle).guard s a))

/-! ### Steps of a thread -/

/-- What a thread does, place by place. -/
inductive Step (m : Sem T) (t : T) : Pc → Sem T → Pc → Prop
  | callUp : Step m t .idle m .upLock
  | lockUp (h : m.lock = none) : Step m t .upLock { m with lock := some t } .upInc
  | inc : Step m t .upInc m.inc .upTest
  | test (h : 0 < m.count) : Step m t .upTest m .upSignal
  | skip (h : m.count ≤ 0) : Step m t .upTest m .upUnlock
  | signal (ws : List T) (h : m.Signals ws) : Step m t .upSignal (m.wake ws) .upUnlock
  | unlockUp : Step m t .upUnlock { m with lock := none, upsDone := m.upsDone + 1 } .idle
  | callDown : Step m t .idle m .downLock
  | lockDown (h : m.lock = none) : Step m t .downLock { m with lock := some t } (.downTest false)
  | block (again : Bool) (h : m.count ≤ 0) : Step m t (.downTest again) m .downWait
  | pass (again : Bool) (h : 0 < m.count) : Step m t (.downTest again) m (.downDec again)
  | wait : Step m t .downWait { m with lock := none, cond := t :: m.cond } .waiting
  | spurious (h : t ∈ m.cond) : Step m t .waiting (m.wake [t]) .waiting
  | relock (hcond : t ∉ m.cond) (h : m.lock = none) :
      Step m t .waiting { m with lock := some t } (.downTest true)
  | dec (again : Bool) : Step m t (.downDec again) m.dec .downUnlock
  | unlockDown :
      Step m t .downUnlock { m with lock := none, downsDone := m.downsDone + 1 } .idle

lemma step_of_exec {m m' : Sem T} {t : T} {p p' : Pc} {a : Act T}
    (h : exec m t p a = some (m', p')) : Step m t p m' p' := by
  unfold exec at h
  split at h
  case h_1 =>
    cases h
    exact .callUp
  case h_2 =>
    split_ifs at h with hfree
    cases h
    exact .lockUp hfree
  case h_3 =>
    cases h
    exact .inc
  case h_4 =>
    cases h
    split_ifs with hpos
    · exact .test hpos
    · exact .skip (Int.not_lt.1 hpos)
  case h_5 ws =>
    split_ifs at h with hws
    cases h
    exact .signal ws hws
  case h_6 =>
    cases h
    exact .unlockUp
  case h_7 =>
    cases h
    exact .callDown
  case h_8 =>
    split_ifs at h with hfree
    cases h
    exact .lockDown hfree
  case h_9 again =>
    cases h
    split_ifs with hle
    · exact .block again hle
    · exact .pass again (Int.not_le.1 hle)
  case h_10 =>
    cases h
    exact .wait
  case h_11 =>
    split_ifs at h with hcond
    cases h
    exact .spurious hcond
  case h_12 =>
    split_ifs at h with hfree
    cases h
    exact .relock hfree.1 hfree.2
  case h_13 again =>
    cases h
    exact .dec again
  case h_14 =>
    cases h
    exact .unlockDown
  case h_15 => cases h

end LklPort.Semaphore
