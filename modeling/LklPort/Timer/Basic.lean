import LklPort.Machine.Basic
import Mathlib.Algebra.Group.Int.Defs
import Mathlib.Algebra.Group.Nat.Defs

/-!
# The timer

The clock event device of the kernel is a thread of the host. The kernel asks for a timer
interrupt by writing a delta in nanoseconds to a pipe. The thread waits in `poll` with a time-out
that it computes from the last delta, and triggers `TIMER_IRQ` when the time is over. Two small
values are no deltas: one is written at the end of `time_init`, the other one stops the thread.

The machine has the kernel on one side and the thread on the other one. Time is not modelled: a
`poll` with a time-out that is not negative may end at any moment. The pipe has no bound, so a
write does not block, and `read` and `write` do not fail.
-/

namespace LklPort.Timer

def LKL_TIMER_INIT : ℕ := 0

def LKL_TIMER_SHUTDOWN : ℕ := 1

def LKL_TIMER_LAST_OP : ℕ := 1

/-! ### The clock event device -/

/-- The modes of a clock event device, except the periodic one, which this device does not have. -/
inductive Mode where
  | unused
  | shutdown
  | oneshot
  deriving DecidableEq

/-- `clockevent.max_delta_ns` -/
def maxDeltaNs : ℤ := 0xffffffff

/-- `clockevent.min_delta_ns` -/
def minDeltaNs : ℤ := 0

/-- `tick_period`: `NSEC_PER_SEC / HZ`. -/
def tickPeriod : ℤ := 1000000000 / 100

/-- The value of a `ktime_t`, a signed integer of 64 bits. -/
def s64 (x : ℤ) : ℤ := x.bmod (2 ^ 64)

/-- How `clockevents_program_event` ends. -/
inductive Programmed where
  | etime
  /-- The device is shut down. -/
  | off
  /-- The device gets its next event. -/
  | event (clc : ℕ)

/-- `clockevents_program_event`, for the `mult` 1 and the `shift` 0 of this device. -/
def clockeventsProgramEvent (mode : Mode) (expires now : ℤ) : Programmed :=
  if expires < 0 then .etime
  else
    let delta := s64 (expires - now)
    if delta ≤ 0 then .etime
    else if mode = .shutdown then .off
    else
      let delta := if delta > maxDeltaNs then maxDeltaNs else delta
      let delta := if delta < minDeltaNs then minDeltaNs else delta
      .event delta.toNat

/-- `tick_setup_periodic` for a device without periodic mode. The list has what `ktime_get` returns
in each round; there is no result if the loop does not end with them. -/
def tickSetupPeriodic (next : ℤ) : List ℤ → Option (Option ℕ)
  | [] => none
  | now :: readings =>
    match clockeventsProgramEvent .oneshot next now with
    | .etime => tickSetupPeriodic (s64 (next + tickPeriod)) readings
    | .off => some none
    | .event clc => some (some clc)

/-- `clockevents_register_device` for the first device: `tick_setup_device` takes the time for
`tick_next_period`, and sets up the tick. -/
def clockeventsRegisterDevice : List ℤ → Option (Option ℕ)
  | [] => none
  | tickNextPeriod :: readings => tickSetupPeriodic tickNextPeriod readings

/-- What `clockevent_next_event` writes for a delta. -/
def clockeventNextEvent (delta : ℕ) : ℕ :=
  if delta ≤ LKL_TIMER_LAST_OP then LKL_TIMER_LAST_OP + 1 else delta

/-- What `timer_thread` passes to `poll` after it has read `timeoutNs`: an `int`. -/
def pollTimeout (timeoutNs : ℕ) : ℤ :=
  let timeoutMs := timeoutNs / 1000000
  let timeoutMs := if timeoutMs = 0 then timeoutMs + 1 else timeoutMs
  (timeoutMs : ℤ).bmod (2 ^ 32)

/-! ### The machine -/

/-- How far the kernel is. -/
inductive Kernel where
  | boot
  /-- In `time_init`, after `clockevents_register_device`. -/
  | registered
  | running
  /-- At the end of `lkl_start_kernel`. -/
  | stopped
  deriving DecidableEq

/-- The places in `timer_thread`. -/
inductive Thread where
  | start
  /-- `pipe` has failed. -/
  | noPipe
  /-- Before the `read` that waits for the initialization. -/
  | initRead
  /-- In `poll`, or before it. -/
  | poll (timeoutMs : ℤ)
  /-- `poll` has returned 1. -/
  | reading
  /-- `poll` has returned something else. -/
  | irq
  | exited
  deriving DecidableEq

structure State where
  kernel : Kernel
  thread : Thread
  /-- The values in the pipe, from the call of `pipe` on. -/
  pipe : Option (List ℕ)
  /-- History: all values that the kernel has written. -/
  written : List ℕ
  /-- History: how many values were written before there was a pipe. -/
  born : ℕ
  /-- History: how many values were written before there was a pipe, or read. -/
  consumed : ℕ
  /-- History: the place of the last delta in `written`. -/
  programmed : Option ℕ
  /-- History: the place in `written` of the value that the time-out was computed from. -/
  source : Option ℕ
  /-- History: the value of `consumed` when `TIMER_IRQ` was triggered the last time. -/
  irqAt : ℕ
  /-- History: `LKL_TIMER_SHUTDOWN` was read. -/
  stopRead : Bool
  /-- History: `TIMER_IRQ` was triggered after that. -/
  lateIrq : Bool

namespace State

/-- `timer`: before there is a pipe, `timer_pipe[1]` is 0, so the value goes to another file. -/
def write (s : State) (delta : ℕ) : State :=
  { s with pipe := s.pipe.map (· ++ [delta]), written := s.written ++ [delta] }

/-- `clockevent_next_event` -/
def program (s : State) (delta : ℕ) : State :=
  { s.write (clockeventNextEvent delta) with programmed := some s.written.length }

/-- The value that a `read` gets. -/
def front (s : State) : Option ℕ := s.pipe.bind List.head?

/-- A `read`. -/
def pop (s : State) : State :=
  { s with pipe := s.pipe.map List.tail, consumed := s.consumed + 1 }

end State

inductive Act where
  /-- `clockevents_register_device`, with what `ktime_get` returns. -/
  | register (readings : List ℤ)
  /-- The last write of `time_init`. -/
  | init
  | program (delta : ℕ)
  | shutdown
  | pipe (ok : Bool)
  /-- The first `read` of `timer_thread`. -/
  | readInit
  /-- `poll` returns 1. -/
  | pollin
  /-- `poll` returns 0. -/
  | timeout
  /-- `poll` fails. -/
  | error
  /-- The `read` in the loop. -/
  | read
  | triggerIrq

def guard (s : State) : Act → Prop
  | .register readings => s.kernel = .boot ∧ (clockeventsRegisterDevice readings).isSome = true
  | .init => s.kernel = .registered
  | .program _ | .shutdown => s.kernel = .running
  | .pipe _ => s.thread = .start
  | .readInit => s.thread = .initRead ∧ s.front.isSome = true
  | .pollin =>
    match s.thread with
    | .poll _ => s.front.isSome = true
    | _ => False
  | .timeout =>
    match s.thread with
    | .poll timeoutMs => 0 ≤ timeoutMs ∧ s.front = none
    | _ => False
  | .error =>
    match s.thread with
    | .poll _ => True
    | _ => False
  | .read => s.thread = .reading ∧ s.front.isSome = true
  | .triggerIrq => s.thread = .irq

def next (s : State) : Act → State
  | .register readings =>
    match clockeventsRegisterDevice readings with
    | some (some clc) => { s.program clc with kernel := .registered }
    | _ => { s with kernel := .registered }
  | .init => { s.write LKL_TIMER_INIT with kernel := .running }
  | .program delta => s.program delta
  | .shutdown => { s.write LKL_TIMER_SHUTDOWN with kernel := .stopped }
  | .pipe ok =>
    if ok then
      { s with thread := .initRead, pipe := some []
               born := s.written.length, consumed := s.written.length }
    else { s with thread := .noPipe }
  | .readInit =>
    { s.pop with thread := .poll (-1), stopRead := decide (s.front = some LKL_TIMER_SHUTDOWN) }
  | .pollin => { s with thread := .reading, source := none }
  | .timeout | .error => { s with thread := .irq, source := none }
  | .read =>
    match s.front with
    | none => s
    | some timeoutNs =>
      if timeoutNs = LKL_TIMER_SHUTDOWN then { s.pop with thread := .exited, stopRead := true }
      else { s.pop with thread := .poll (pollTimeout timeoutNs), source := some s.consumed }
  | .triggerIrq =>
    { s with thread := .poll (-1), irqAt := s.consumed, lateIrq := s.lateIrq || s.stopRead }

/-- The kernel and the timer thread, from the start of the thread on. -/
def machine : Machine State Act where
  init := ⟨.boot, .start, none, [], 0, 0, none, none, 0, false, false⟩
  guard := guard
  next := next

instance (s : State) (act : Act) : Decidable (machine.guard s act) := by
  cases act <;> dsimp only [machine, guard] <;>
    first | infer_instance | cases s.thread <;> infer_instance

end LklPort.Timer
