import LklPort.Machine.Basic
import Mathlib.Data.Int.Notation

/-!
# Interrupts

`arch/lkl/kernel/irq.c` keeps, for every irq, a list of data and a count of interrupts without
data. Host threads add to them under the lock of the irq and post a semaphore afterwards; the idle
thread waits on that semaphore in `run_irqs` and then takes everything out again, irq by irq.

A section that runs under the lock of an irq is one step of the machine below, and so is each
operation on the semaphore. A handler that triggers an interrupt is one of the callers.
-/

namespace LklPort.Irq

def nrIrqs : ℕ := 4

/-- An irq that passes the `BUG_ON` of the functions below. -/
abbrev IrqNo := Fin nrIrqs

def timerIrq : IrqNo := ⟨0, by decide⟩

def ethIrq : IrqNo := ⟨3, by decide⟩

/-! ### The sections under the lock of an irq -/

/-- `struct irq_info`. The kernel is compiled with `-fno-strict-overflow`, so the `int` wraps. -/
structure IrqInfo (δ : Type*) where
  dataList : List δ
  noDataCount : BitVec 32

namespace IrqInfo

variable {δ : Type*}

def empty : IrqInfo δ := ⟨[], 0⟩

/-- `lkl_trigger_irq`. -/
def trigger (q : IrqInfo δ) : IrqInfo δ := { q with noDataCount := q.noDataCount + 1 }

/-- `lkl_trigger_irq_with_data`. -/
def triggerWithData (q : IrqInfo δ) (d : δ) : IrqInfo δ := { q with dataList := q.dataList ++ [d] }

/-- `lkl_purge_irq_queue`. -/
def purge (_ : IrqInfo δ) : IrqInfo δ := empty

/-- `dequeue_data`, for a list that is not empty: the rest of the list. -/
def dequeueData (q : IrqInfo δ) : IrqInfo δ := { q with dataList := q.dataList.tail }

/-- `dequeue_nodata`, for a positive count. -/
def dequeueNodata (q : IrqInfo δ) : IrqInfo δ := { q with noDataCount := q.noDataCount - 1 }

end IrqInfo

/-! ### The state of the interrupt layer -/

abbrev ThreadId := ℕ

/-- An element of a data list. The sequence number says how many data had been enqueued for the
irq before; the code does not have it. -/
structure Entry where
  seq : ℕ
  data : ℕ
  deriving DecidableEq

/-- What a call has queued. -/
inductive Event where
  | nodata
  | data (e : Entry)
  deriving DecidableEq

/-- A call of `lkl_trigger_irq` or `lkl_trigger_irq_with_data` that has queued its event and has
not reached `sem_up(sem)`. -/
structure Call where
  thread : ThreadId
  irq : IrqNo
  event : Event
  deriving DecidableEq

/-- Where the idle thread is. -/
inductive Pc where
  /-- In `cpu_idle`, or switched out. -/
  | outside
  /-- At `if (!linux_halted)`. -/
  | top
  /-- At `sem_down(sem)`. -/
  | down
  /-- At `dequeue_nodata(i)`. -/
  | nodata (i : IrqNo)
  /-- At the `do_IRQ` of an interrupt without data. -/
  | handleNodata (i : IrqNo)
  /-- At `dequeue_data(i)`. -/
  | data (i : IrqNo)
  /-- At the `do_IRQ` of an interrupt with data. -/
  | handleData (i : IrqNo) (e : Entry)
  /-- At the condition of the loop. -/
  | cond
  deriving DecidableEq

/-- What has happened to one irq so far. -/
structure History where
  /-- The data enqueued, in the order of the lock. -/
  enqueued : List Entry
  /-- The data passed to `do_IRQ`. -/
  delivered : List Entry
  purged : List Entry
  /-- The calls of `lkl_trigger_irq`. -/
  triggered : ℕ
  /-- Those of them that found `no_data_count` at `INT_MAX`. -/
  overflows : ℕ
  /-- The calls of `do_IRQ` after `dequeue_nodata`. -/
  handled : ℕ
  /-- The sum of the counts that purges reset. -/
  discarded : ℤ

def History.empty : History := ⟨[], [], [], 0, 0, 0, 0⟩

/-- The state of the interrupt layer, with the history of each irq. -/
structure State where
  irqs : IrqNo → IrqInfo Entry
  sem : ℕ
  linuxHalted : Bool
  calls : List Call
  pc : Pc
  hist : IrqNo → History

/-- The state after `init_IRQ`. -/
def State.init : State where
  irqs := fun _ => .empty
  sem := 0
  linuxHalted := false
  calls := []
  pc := .outside
  hist := fun _ => .empty

/-- Change the queues of one irq, and its history. -/
def State.modify (s : State) (i : IrqNo) (f : IrqInfo Entry → IrqInfo Entry)
    (g : History → History) : State :=
  { s with
    irqs := Function.update s.irqs i (f (s.irqs i))
    hist := Function.update s.hist i (g (s.hist i)) }

attribute [local simp] State.modify

section

variable (s : State) {i j : IrqNo} (f : IrqInfo Entry → IrqInfo Entry) (g : History → History)

@[simp] lemma State.irqs_modify_self : (s.modify i f g).irqs i = f (s.irqs i) := by
  simp

@[simp] lemma State.hist_modify_self : (s.modify i f g).hist i = g (s.hist i) := by
  simp

lemma irqs_modify_of_ne (h : j ≠ i) : (s.modify i f g).irqs j = s.irqs j := by
  simp [h]

lemma hist_modify_of_ne (h : j ≠ i) : (s.modify i f g).hist j = s.hist j := by
  simp [h]

end

/-! ### The machine -/

/-- The semaphores of the host environments. -/
inductive SemKind where
  /-- A counting semaphore without a bound. -/
  | counting
  /-- `CreateSemaphore` of `envs/nt.c`, with a maximum of 100. -/
  | nt

/-- `sem_up`. On NT an up at the maximum fails, and the failure is ignored. -/
def semUp : SemKind → ℕ → ℕ
  | .counting, n => n + 1
  | .nt, n => if n < 100 then n + 1 else n

lemma semUp_pos (kind : SemKind) (n : ℕ) : 0 < semUp kind n := by
  cases kind with
  | counting => exact Nat.succ_pos n
  | nt =>
    simp only [semUp]
    split_ifs <;> omega

/-- The section of `lkl_trigger_irq` under the lock, in a call by `t`. -/
def triggerIrq (s : State) (t : ThreadId) (i : IrqNo) : State :=
  { s.modify i IrqInfo.trigger fun h =>
      { h with
        triggered := h.triggered + 1
        overflows :=
          h.overflows + if (s.irqs i).noDataCount = BitVec.intMax 32 then 1 else 0 } with
    calls := ⟨t, i, .nodata⟩ :: s.calls }

/-- The `struct irq_data` that the next call for `i` enqueues. -/
def State.nextEntry (s : State) (i : IrqNo) (d : ℕ) : Entry := ⟨(s.hist i).enqueued.length, d⟩

/-- The section of `lkl_trigger_irq_with_data` under the lock, in a call by `t`. -/
def triggerIrqWithData (s : State) (t : ThreadId) (i : IrqNo) (d : ℕ) : State :=
  { s.modify i (·.triggerWithData (s.nextEntry i d)) fun h =>
      { h with enqueued := h.enqueued ++ [s.nextEntry i d] } with
    calls := ⟨t, i, .data (s.nextEntry i d)⟩ :: s.calls }

/-- `lkl_purge_irq_queue`. -/
def purgeIrqQueue (s : State) (i : IrqNo) : State :=
  s.modify i IrqInfo.purge fun h =>
    { h with
      purged := h.purged ++ (s.irqs i).dataList
      discarded := h.discarded + (s.irqs i).noDataCount.toInt }

/-- The header of the `for` loop, with `i = k`. -/
def scanFrom (k : ℕ) : Pc := if h : k < nrIrqs then .nodata ⟨k, h⟩ else .cond

/-- The next step of the idle thread inside `run_irqs`, where `need_resched()` returns `resched`. -/
def runIrqs (s : State) (resched : Bool) : State :=
  match s.pc with
  | .outside => s
  | .top => { s with pc := if s.linuxHalted then scanFrom 0 else .down }
  | .down => { s with sem := s.sem - 1, pc := scanFrom 0 }
  | .nodata i =>
    if 0 < (s.irqs i).noDataCount.toInt then
      { s.modify i IrqInfo.dequeueNodata id with pc := .handleNodata i }
    else { s with pc := .data i }
  | .handleNodata i =>
    { s.modify i id fun h => { h with handled := h.handled + 1 } with pc := .nodata i }
  | .data i =>
    match (s.irqs i).dataList with
    | e :: _ => { s.modify i IrqInfo.dequeueData id with pc := .handleData i e }
    | [] => { s with pc := scanFrom (i + 1) }
  | .handleData i e =>
    { s.modify i id fun h => { h with delivered := h.delivered ++ [e] } with pc := .data i }
  | .cond => { s with pc := if !resched && !s.linuxHalted then .top else .outside }

/-- The steps of the callers and of the idle thread. -/
inductive Act where
  | triggerIrq (t : ThreadId) (i : IrqNo)
  /-- `mem_alloc` gives the `struct irq_data` or fails. -/
  | triggerIrqWithData (t : ThreadId) (i : IrqNo) (d : ℕ) (alloc : Bool)
  /-- The `sem_up(sem)` at the end of a call. -/
  | semUp (t : ThreadId)
  | purgeIrqQueue (t : ThreadId) (i : IrqNo)
  /-- `machine_halt` sets `linux_halted`. -/
  | machineHalt
  /-- `cpu_idle` calls `run_irqs`. -/
  | enter
  | runIrqs (resched : Bool)
  deriving DecidableEq

/-- The thread is not inside a call. -/
def State.Free (s : State) (t : ThreadId) : Prop := ∀ c ∈ s.calls, c.thread ≠ t
  deriving Decidable

/-- When a step can be taken. -/
def guard (s : State) : Act → Prop
  | .triggerIrq t _ | .triggerIrqWithData t _ _ _ | .purgeIrqQueue t _ => s.Free t
  | .semUp t => ¬ s.Free t
  | .machineHalt => True
  | .enter => s.pc = .outside
  | .runIrqs _ => s.pc ≠ .outside ∧ (s.pc = .down → 0 < s.sem)

/-- What a step does. -/
def next (kind : SemKind) (s : State) : Act → State
  | .triggerIrq t i => triggerIrq s t i
  | .triggerIrqWithData t i d alloc => if alloc then triggerIrqWithData s t i d else s
  | .semUp t => { s with sem := semUp kind s.sem, calls := s.calls.eraseP (·.thread = t) }
  | .purgeIrqQueue _ i => purgeIrqQueue s i
  | .machineHalt => { s with linuxHalted := true }
  | .enter => { s with pc := .top }
  | .runIrqs resched => runIrqs s resched

/-- The interrupt layer, with the callers and the idle thread interleaved in any order. -/
def machine (kind : SemKind) : Machine State Act where
  init := .init
  guard := guard
  next := next kind

instance (kind : SemKind) (s : State) (a : Act) : Decidable ((machine kind).guard s a) := by
  cases a <;> dsimp only [machine, guard] <;> infer_instance

end LklPort.Irq
