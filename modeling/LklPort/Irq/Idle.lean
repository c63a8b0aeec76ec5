import LklPort.Machine.Basic
import Mathlib.Data.Int.Notation

/-!
# The idle loop

`cpu_idle` handles interrupts and schedules until the kernel is halted, and then until nothing is
left to do: no task can run, and an RCU callback that it has queued itself was called. Whether
another round is needed is counted in `loop`, which is decremented at the start of a round and
incremented again at its end. The flag `linux_halted` is tested both times, and other tasks set
it while the idle task is in `schedule`.
-/

namespace LklPort.Irq.Idle

/-- Where the idle task is. -/
inductive Pc where
  /-- At `while (loop)`. -/
  | head
  /-- In `run_irqs`, or on the way to it. -/
  | irqs
  /-- At the test after `run_irqs`. -/
  | test
  /-- In `schedule`. -/
  | schedule
  | returned
  deriving DecidableEq

structure State where
  pc : Pc
  loop : ℤ
  linuxHalted : Bool
  rcuStart : Bool
  rcuDone : Bool
  /-- History: the calls of `call_rcu`. -/
  callRcu : ℕ
  /-- History: `linux_halted` at the start of the last round. -/
  began : Bool
  /-- History: `need_resched()` and `rcu_done` at the last test. -/
  tested : Option (Bool × Bool)

/-- `if (linux_halted) ...` at the start of a round. -/
def startRound (s : State) : State :=
  if s.linuxHalted then
    { s with
      rcuStart := true
      callRcu := if s.rcuStart then s.callRcu else s.callRcu + 1
      loop := s.loop - 1 }
  else s

/-- The next step of `cpu_idle`, where `need_resched()` returns `resched`. -/
def cpuIdle (s : State) (resched : Bool) : State :=
  match s.pc with
  | .head =>
    if s.loop = 0 then { s with pc := .returned }
    else { startRound s with pc := .irqs, began := s.linuxHalted }
  | .irqs => { s with pc := .test }
  | .test =>
    let s := { s with tested := some (resched, s.rcuDone) }
    if resched || !s.rcuDone then
      { s with pc := .schedule, loop := if s.linuxHalted then s.loop + 1 else s.loop }
    else { s with pc := .head }
  | .schedule => { s with pc := .head }
  | .returned => s

inductive Act where
  | cpuIdle (resched : Bool)
  /-- The call of `rcu_func`. -/
  | rcuFunc
  /-- Another task calls `machine_halt`. -/
  | machineHalt
  deriving DecidableEq

/-- The callback runs after `call_rcu`, from an interrupt or while the idle task is scheduled out.
Other tasks run while it is scheduled out. -/
def guard (s : State) : Act → Prop
  | .cpuIdle _ => s.pc ≠ .returned
  | .rcuFunc => s.rcuStart = true ∧ s.rcuDone = false ∧ (s.pc = .irqs ∨ s.pc = .schedule)
  | .machineHalt => s.pc = .schedule

/-- The idle loop, where the kernel may be halted before it starts. -/
def machine (halted : Bool) : Machine State Act where
  init := ⟨.head, 1, halted, false, false, 0, false, none⟩
  guard := guard
  next s
    | .cpuIdle resched => cpuIdle s resched
    | .rcuFunc => { s with rcuDone := true }
    | .machineHalt => { s with linuxHalted := true }

instance (halted : Bool) (s : State) (a : Act) : Decidable ((machine halted).guard s a) := by
  cases a <;> dsimp only [machine, guard] <;> infer_instance

/-! ### The counter -/

/-- The last round has found nothing left to do. -/
def State.Quiet (s : State) : Prop := s.began = true ∧ s.tested = some (false, true)

/-- The counter at each place. Within a round `linux_halted` does not change, so it tells whether
the counter was decremented. -/
def Counted (s : State) : Prop :=
  match s.pc with
  | .head => s.loop = 1 ∨ s.loop = 0 ∧ s.Quiet
  | .irqs | .test => s.began = s.linuxHalted ∧ s.loop = if s.linuxHalted then 0 else 1
  | .schedule => s.loop = 1
  | .returned => s.loop = 0 ∧ s.Quiet

/-- The flags of RCU are set one after another, the first of them after a halt. -/
structure Inv (s : State) : Prop where
  counted : Counted s
  callRcu : s.callRcu = if s.rcuStart then 1 else 0
  start : s.rcuStart = true → s.linuxHalted = true
  done : s.rcuDone = true → s.rcuStart = true
  began : s.began = true → s.rcuStart = true

lemma inv_init (halted : Bool) : Inv (machine halted).init where
  counted := .inl rfl
  callRcu := rfl
  start := nofun
  done := nofun
  began := nofun

variable {halted : Bool} {s : State}

lemma Inv.startRound (h : Inv s) (hloop : s.loop = 1) :
    Inv { Idle.startRound s with pc := .irqs, began := s.linuxHalted } := by
  by_cases hhalted : s.linuxHalted = true
  · have hround : Idle.startRound s =
        { s with rcuStart := true, callRcu := 1, loop := 0 } := by
      have hcall : (if s.rcuStart = true then s.callRcu else s.callRcu + 1) = 1 := by
        rw [h.callRcu]
        cases s.rcuStart <;> rfl
      rw [Idle.startRound, if_pos hhalted, hcall, hloop]
      rfl
    rw [hround, hhalted]
    exact ⟨⟨rfl, rfl⟩, rfl, fun _ => rfl, fun _ => rfl, fun _ => rfl⟩
  · have hround : Idle.startRound s = s := if_neg hhalted
    rw [hround]
    refine ⟨⟨rfl, ?_⟩, h.callRcu, h.start, h.done, fun hb => absurd hb hhalted⟩
    exact hloop.trans (if_neg hhalted).symm

lemma Inv.test (h : Inv s) (resched : Bool) (hpc : s.pc = .test) : Inv (cpuIdle s resched) := by
  obtain ⟨hbegan, hloop⟩ : s.began = s.linuxHalted ∧ s.loop = if s.linuxHalted then 0 else 1 := by
    simpa only [Counted, hpc] using h.counted
  simp only [cpuIdle, hpc]
  by_cases hbusy : (resched || !s.rcuDone) = true
  · rw [if_pos hbusy]
    refine ⟨?_, h.callRcu, h.start, h.done, h.began⟩
    cases hhalted : s.linuxHalted <;> simp_all [Counted]
  · rw [if_neg hbusy]
    obtain ⟨rfl, hdone⟩ : resched = false ∧ s.rcuDone = true := by simpa using hbusy
    -- the callback was queued by a round that had seen the halt
    have hhalted : s.linuxHalted = true := h.start (h.done hdone)
    rw [hhalted] at hbegan hloop
    refine ⟨.inr ⟨hloop, hbegan, ?_⟩, h.callRcu, h.start, h.done, h.began⟩
    simp only [hdone]

lemma Inv.cpuIdle (h : Inv s) (resched : Bool) (hpc : s.pc ≠ .returned) :
    Inv (cpuIdle s resched) := by
  have hcounted := h.counted
  cases hplace : s.pc with
  | head =>
    simp only [Counted, hplace] at hcounted
    rcases hcounted with hloop | ⟨hloop, hquiet⟩
    · simp only [Idle.cpuIdle, hplace, if_neg (show ¬ s.loop = 0 by omega)]
      exact h.startRound hloop
    · simp only [Idle.cpuIdle, hplace, if_pos hloop]
      exact ⟨⟨hloop, hquiet⟩, h.callRcu, h.start, h.done, h.began⟩
  | irqs =>
    simp only [Counted, hplace] at hcounted
    simp only [Idle.cpuIdle, hplace]
    exact ⟨hcounted, h.callRcu, h.start, h.done, h.began⟩
  | test => exact h.test resched hplace
  | schedule =>
    simp only [Counted, hplace] at hcounted
    simp only [Idle.cpuIdle, hplace]
    exact ⟨.inl hcounted, h.callRcu, h.start, h.done, h.began⟩
  | returned => exact absurd hplace hpc

lemma inv_of_reachable (h : (machine halted).Reachable s) : Inv s := by
  refine h.invariant (inv_init halted) fun s a hs ha => ?_
  cases a with
  | cpuIdle resched => exact hs.cpuIdle resched ha
  | rcuFunc => exact ⟨hs.counted, hs.callRcu, hs.start, fun _ => ha.1, hs.began⟩
  | machineHalt =>
    have hpc : s.pc = .schedule := ha
    have hcounted := hs.counted
    refine ⟨?_, hs.callRcu, fun _ => rfl, hs.done, hs.began⟩
    simpa only [Counted, machine, hpc] using hcounted

/-- `cpu_idle` returns only after a round that began with the kernel halted and in which no task
could run and the callback had been called, `call_rcu` is called once, and the counter is 0 or 1
at the head of the loop. -/
theorem idle_loop_law (h : (machine halted).Reachable s) :
    (s.pc = .returned → s.began = true ∧ s.tested = some (false, true) ∧ s.callRcu = 1) ∧
    s.callRcu ≤ 1 ∧ (s.began = true → s.callRcu = 1) ∧
    (s.pc = .head → s.loop = 0 ∨ s.loop = 1) := by
  have hinv := inv_of_reachable h
  have hcall : s.began = true → s.callRcu = 1 := fun hbegan => by
    rw [hinv.callRcu, if_pos (hinv.began hbegan)]
  have hcounted := hinv.counted
  refine ⟨fun hpc => ?_, ?_, hcall, fun hpc => ?_⟩
  · simp only [Counted, hpc] at hcounted
    exact ⟨hcounted.2.1, hcounted.2.2, hcall hcounted.2.1⟩
  · rw [hinv.callRcu]
    split_ifs <;> omega
  · simp only [Counted, hpc] at hcounted
    exact hcounted.symm.imp_left And.left

/-- The kernel is halted in the first round, and two more rounds follow. -/
def haltedRun : List Act :=
  [.cpuIdle false, .cpuIdle false, .cpuIdle true, .machineHalt, .cpuIdle false,
    .cpuIdle false, .cpuIdle false, .cpuIdle false, .rcuFunc, .cpuIdle false,
    .cpuIdle false, .cpuIdle false, .cpuIdle false, .cpuIdle false]

theorem idle_loop_law_haltedRun :
    ((machine false).runFrom (machine false).init haltedRun).pc = .returned ∧
      ((machine false).runFrom (machine false).init haltedRun).callRcu = 1 := by
  have hpc : ((machine false).runFrom (machine false).init haltedRun).pc = .returned := by decide
  have hreach := Machine.reachable_of_admits (M := machine false) haltedRun (by decide)
  have hlaw := idle_loop_law hreach
  exact ⟨hpc, (hlaw.1 hpc).2.2⟩

end LklPort.Irq.Idle
