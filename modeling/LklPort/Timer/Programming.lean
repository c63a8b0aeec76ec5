import LklPort.Timer.Basic

/-!
# Programming the timer

The thread takes the first value in its pipe for `LKL_TIMER_INIT`, but `time_init` registers the
clock event device first, and that programs a delta. So the first delta is swallowed, and
`LKL_TIMER_INIT` is taken for a delta of no time. From the second delta on, a thread that waits
has computed its time-out from the last delta, unless the interrupt has come since.
-/

namespace LklPort.Timer

open List

/-! ### The law -/

namespace State

/-- The thread is waiting in `poll`, and the pipe is empty. -/
def Waiting (s : State) : Prop := (∃ timeoutMs, s.thread = .poll timeoutMs) ∧ s.pipe = some []

/-- The time-out was computed from the value at the place `i`. -/
def TimeoutFrom (s : State) (i : ℕ) : Prop :=
  s.source = some i ∧ ∃ v, s.written[i]? = some v ∧ s.thread = .poll (pollTimeout v)

/-- `TIMER_IRQ` was triggered after the value at the place `i` was read. -/
def IrqSince (s : State) (i : ℕ) : Prop := s.born ≤ i ∧ i < s.irqAt

/-- No programming of the timer is lost: a thread that waits does so for the last delta, unless the
interrupt has come since. The interrupt does not come any more once the thread was told to stop. -/
structure Law (s : State) : Prop where
  programmed : s.Waiting → ∀ i, s.programmed = some i → s.TimeoutFrom i ∨ s.IrqSince i
  no_late_irq : s.lateIrq = false

/-- The last delta is swallowed: it was written before there was a pipe, or was the first value in
it, and no interrupt has come since. -/
def Swallowed (s : State) : Prop :=
  s.Waiting ∧ ∃ i, s.programmed = some i ∧ (i < s.born ∨ i = s.born ∧ s.irqAt ≤ s.born)

/-- The first value in the pipe was the one that stops the thread, and was swallowed as well. -/
def SwallowedStop (s : State) : Prop :=
  s.written[s.born]? = some LKL_TIMER_SHUTDOWN ∧ s.born < s.irqAt

end State

/-! ### The invariant -/

/-- Where the last delta is. -/
def LastDelta (s : State) : Prop :=
  match s.kernel with
  | .boot => s.written = [] ∧ s.programmed = none
  | .registered => ∀ i, s.programmed = some i → i = 0
  | .running => ∀ i, s.programmed = some i → i = 0 ∨ i + 1 = s.written.length
  | .stopped =>
    ∀ i, s.programmed = some i → i = 0 ∨
      i + 2 = s.written.length ∧ s.written[i + 1]? = some LKL_TIMER_SHUTDOWN

/-- The pipe has the values that were written and not read. -/
def Linked (s : State) : Prop := s.pipe = some (s.written.drop s.consumed)

/-- The first `read` has returned, and the thread was not told to stop in the loop. -/
structure InLoop (s : State) : Prop where
  linked : Linked s
  born_lt : s.born < s.consumed
  stopRead : s.stopRead = true ↔ s.written[s.born]? = some LKL_TIMER_SHUTDOWN
  no_stop : ∀ j, s.born < j → j < s.consumed → s.written[j]? ≠ some LKL_TIMER_SHUTDOWN

/-- Where the time-out of `poll` comes from: the last value that was read in the loop, if there is
one and the interrupt has not come since. -/
def TimeoutOk (s : State) (timeoutMs : ℤ) : Prop :=
  (s.source = some (s.consumed - 1) ∧ s.born + 1 < s.consumed ∧
    ∃ v, s.written[s.consumed - 1]? = some v ∧ timeoutMs = pollTimeout v) ∨
  (s.source = none ∧ (s.irqAt = s.consumed ∨ s.consumed = s.born + 1))

/-- The places in the loop of `timer_thread`. -/
def Thread.looping : Thread → Bool
  | .poll _ | .reading | .irq => true
  | .start | .noPipe | .initRead | .exited => false

structure Inv (s : State) : Prop where
  lastDelta : LastDelta s
  consumed_le : s.consumed ≤ s.written.length
  irqAt_le : s.irqAt ≤ s.consumed
  late : s.lateIrq = true ↔ s.SwallowedStop
  start : s.thread = .start → s.irqAt = 0 ∧ s.source = none
  initRead : s.thread = .initRead → Linked s ∧ s.consumed = s.born ∧ s.irqAt = 0 ∧ s.source = none
  loop : s.thread.looping = true → InLoop s
  poll : ∀ t, s.thread = .poll t → TimeoutOk s t
  irq : s.thread = .irq → s.source = none

variable {s : State} {i v : ℕ}

/-! ### The kernel -/

lemma getElem?_write (h : i < s.written.length) : (s.write v).written[i]? = s.written[i]? :=
  List.getElem?_append_left h

lemma Linked.write (h : Linked s) (hle : s.consumed ≤ s.written.length) :
    (s.write v).pipe = some ((s.write v).written.drop s.consumed) := by
  simp only [State.write]
  rw [h, Option.map_some, drop_append_of_le_length hle]

section

variable (hI : Inv s)

include hI

lemma Inv.write (v : ℕ) (k : Kernel) (p : Option ℕ)
    (hlast : LastDelta { s.write v with kernel := k, programmed := p }) :
    Inv { s.write v with kernel := k, programmed := p } where
  lastDelta := hlast
  consumed_le := by
    simp only [State.write, length_append]
    exact Nat.le_add_right_of_le hI.consumed_le
  irqAt_le := hI.irqAt_le
  late := hI.late.trans <| and_congr_left fun hlt => by
    have hlen : s.born < s.written.length :=
      Nat.lt_of_lt_of_le hlt (Nat.le_trans hI.irqAt_le hI.consumed_le)
    exact Eq.congr_left (getElem?_write hlen).symm
  start := hI.start
  initRead h := by
    obtain ⟨hlinked, hrest⟩ := hI.initRead h
    exact ⟨hlinked.write hI.consumed_le, hrest⟩
  loop h := by
    have hl := hI.loop h
    refine ⟨hl.linked.write hI.consumed_le, hl.born_lt, ?_, fun j hj hj' => ?_⟩
    · exact hl.stopRead.trans (Eq.congr_left
        (getElem?_write (Nat.lt_of_lt_of_le hl.born_lt hI.consumed_le)).symm)
    · exact fun hstop => hl.no_stop j hj hj'
        ((getElem?_write (Nat.lt_of_lt_of_le hj' hI.consumed_le)).symm.trans hstop)
  poll t ht := by
    refine (hI.poll t ht).imp (fun ⟨hsource, hlt, v, hv, htimeout⟩ => ?_) id
    have hlen : s.consumed - 1 < s.written.length := by
      have hle := hI.consumed_le
      omega
    exact ⟨hsource, hlt, v, (getElem?_write hlen).trans hv, htimeout⟩
  irq := hI.irq

lemma Inv.of_kernel (k : Kernel) (hlast : LastDelta { s with kernel := k }) :
    Inv { s with kernel := k } where
  lastDelta := hlast
  consumed_le := hI.consumed_le
  irqAt_le := hI.irqAt_le
  late := hI.late
  start := hI.start
  initRead := hI.initRead
  loop h := by
    have hl := hI.loop h
    exact ⟨hl.linked, hl.born_lt, hl.stopRead, hl.no_stop⟩
  poll := hI.poll
  irq := hI.irq

lemma Inv.register (hk : s.kernel = .boot) (readings : List ℤ) :
    Inv (next s (.register readings)) := by
  obtain ⟨hempty, hnone⟩ : s.written = [] ∧ s.programmed = none := by
    have hlast := hI.lastDelta
    rwa [LastDelta, hk] at hlast
  have hskip : Inv { s with kernel := .registered } := by
    refine hI.of_kernel _ fun i hi => ?_
    simp [hnone] at hi
  simp only [next]
  cases clockeventsRegisterDevice readings with
  | none => exact hskip
  | some clc =>
    cases clc with
    | none => exact hskip
    | some =>
      apply hI.write _ .registered (some s.written.length)
      rintro i ⟨⟩
      rw [hempty, length_nil]

lemma Inv.init (hk : s.kernel = .registered) : Inv (next s .init) := by
  refine hI.write _ .running s.programmed fun i hi => .inl ?_
  have hlast := hI.lastDelta
  rw [LastDelta, hk] at hlast
  exact hlast i hi

lemma Inv.program (hk : s.kernel = .running) (delta : ℕ) : Inv (next s (.program delta)) := by
  have hkernel : next s (.program delta) = { s.program delta with kernel := .running } := by
    rw [← hk]
    rfl
  rw [hkernel]
  apply hI.write _ .running (some s.written.length)
  rintro i ⟨⟩
  exact .inr (by simp [State.write])

lemma Inv.shutdown (hk : s.kernel = .running) : Inv (next s .shutdown) := by
  refine hI.write _ .stopped s.programmed fun i hi => ?_
  have hlast := hI.lastDelta
  rw [LastDelta, hk] at hlast
  refine (hlast i hi).imp id fun hi => ?_
  simp only [State.write, length_append, length_singleton]
  exact ⟨by omega, by rw [hi, List.getElem?_concat_length]⟩

end

/-! ### The thread -/

lemma Linked.getElem? (h : Linked s) (hv : s.front = some v) : s.written[s.consumed]? = some v := by
  rw [← List.head?_drop, ← hv, State.front, h, Option.bind_some]

lemma Linked.consumed_lt (h : Linked s) (hv : s.front = some v) : s.consumed < s.written.length :=
  (List.getElem?_eq_some_iff.1 (h.getElem? hv)).1

lemma Linked.pop (h : Linked s) : s.pop.pipe = some (s.written.drop (s.consumed + 1)) := by
  simp only [State.pop]
  rw [h, Option.map_some, tail_drop]

section

variable (hI : Inv s)

include hI

lemma Inv.pipe (hthread : s.thread = .start) (ok : Bool) : Inv (next s (.pipe ok)) := by
  obtain ⟨hirq, hsource⟩ := hI.start hthread
  cases ok with
  | false =>
    exact ⟨hI.lastDelta, hI.consumed_le, hI.irqAt_le, hI.late, Thread.noConfusion,
      Thread.noConfusion, Bool.noConfusion, fun _ => Thread.noConfusion, Thread.noConfusion⟩
  | true =>
    have hnot (p : Prop) (b : ℕ) : ¬ (p ∧ b < s.irqAt) := by
      rw [hirq]
      exact fun h => Nat.not_lt_zero _ h.2
    refine ⟨hI.lastDelta, Nat.le_refl _, ?_, ?_, Thread.noConfusion, fun _ => ?_,
      Bool.noConfusion, fun _ => Thread.noConfusion, Thread.noConfusion⟩
    · exact hirq ▸ Nat.zero_le _
    · exact hI.late.trans ⟨fun h => absurd h (hnot _ _), fun h => absurd h (hnot _ _)⟩
    · exact ⟨congrArg some List.drop_length.symm, rfl, hirq, hsource⟩

lemma Inv.readInit (hthread : s.thread = .initRead) (hv : s.front = some v) :
    Inv (next s .readInit) := by
  obtain ⟨hlinked, hborn, hirq, hsource⟩ := hI.initRead hthread
  refine ⟨hI.lastDelta, hlinked.consumed_lt hv, Nat.le_succ_of_le hI.irqAt_le, hI.late,
    Thread.noConfusion, Thread.noConfusion, fun _ => ⟨hlinked.pop, ?_, ?_, fun j hj hj' => ?_⟩,
    fun t ht => ?_, Thread.noConfusion⟩
  · exact hborn ▸ Nat.lt_succ_self _
  · simp only [next, decide_eq_true_eq, State.pop]
    rw [← hborn, hlinked.getElem? hv, hv]
  · have hlt : j < s.consumed + 1 := hj'
    rw [hborn] at hlt
    exact absurd hj (Nat.not_lt.2 (Nat.le_of_lt_succ hlt))
  · exact .inr ⟨hsource, .inr (congrArg (· + 1) hborn)⟩

lemma Inv.leave (hloop : s.thread.looping = true) {t : Thread}
    (ht : t = .reading ∨ t = .irq) : Inv { s with thread := t, source := none } := by
  have hl := hI.loop hloop
  refine ⟨hI.lastDelta, hI.consumed_le, hI.irqAt_le, hI.late, ?_, ?_,
    fun _ => ⟨hl.linked, hl.born_lt, hl.stopRead, hl.no_stop⟩, ?_, fun _ => rfl⟩
  · rcases ht with rfl | rfl <;> exact Thread.noConfusion
  · rcases ht with rfl | rfl <;> exact Thread.noConfusion
  · rcases ht with rfl | rfl <;> exact fun _ => Thread.noConfusion

lemma Inv.read (hthread : s.thread = .reading) (hv : s.front = some v) : Inv (next s .read) := by
  have hl := hI.loop (by rw [hthread]; rfl)
  have hget := hl.linked.getElem? hv
  have hlt := hl.linked.consumed_lt hv
  have hle := Nat.le_succ_of_le hI.irqAt_le
  simp only [next, hv]
  split_ifs with hstop
  · exact ⟨hI.lastDelta, hlt, hle, hI.late, Thread.noConfusion, Thread.noConfusion,
      Bool.noConfusion, fun _ => Thread.noConfusion, Thread.noConfusion⟩
  · refine ⟨hI.lastDelta, hlt, hle, hI.late, Thread.noConfusion, Thread.noConfusion,
      fun _ => ⟨hl.linked.pop, Nat.lt_succ_of_lt hl.born_lt, hl.stopRead, fun j hj hj' => ?_⟩,
      fun t ht => ?_, Thread.noConfusion⟩
    · rcases Nat.lt_succ_iff_lt_or_eq.1 hj' with hj' | rfl
      · exact hl.no_stop j hj hj'
      · exact fun h => hstop (Option.some.inj (hget.symm.trans h))
    · exact .inl ⟨rfl, Nat.succ_lt_succ hl.born_lt, v, hget, (Thread.poll.inj ht).symm⟩

lemma Inv.triggerIrq (hthread : s.thread = .irq) : Inv (next s .triggerIrq) := by
  have hl := hI.loop (by rw [hthread]; rfl)
  refine ⟨hI.lastDelta, hI.consumed_le, Nat.le_refl _, ?_, Thread.noConfusion, Thread.noConfusion,
    fun _ => ⟨hl.linked, hl.born_lt, hl.stopRead, hl.no_stop⟩, fun t ht => ?_, Thread.noConfusion⟩
  · simp only [next, Bool.or_eq_true, hI.late, hl.stopRead, State.SwallowedStop]
    exact ⟨fun h => ⟨h.elim And.left id, hl.born_lt⟩, fun h => .inr h.1⟩
  · exact .inr ⟨hI.irq hthread, .inl rfl⟩

lemma Inv.next {act : Act} (hact : guard s act) : Inv (next s act) := by
  cases act with
  | register readings => exact hI.register hact.1 readings
  | init => exact hI.init hact
  | program delta => exact hI.program hact delta
  | shutdown => exact hI.shutdown hact
  | pipe ok => exact hI.pipe hact ok
  | readInit =>
    obtain ⟨v, hv⟩ := Option.isSome_iff_exists.1 hact.2
    exact hI.readInit hact.1 hv
  | pollin =>
    cases hthread : s.thread with
    | poll => exact hI.leave (by rw [hthread]; rfl) (.inl rfl)
    | start | noPipe | initRead | reading | irq | exited => simp [guard, hthread] at hact
  | timeout | error =>
    cases hthread : s.thread with
    | poll => exact hI.leave (by rw [hthread]; rfl) (.inr rfl)
    | start | noPipe | initRead | reading | irq | exited => simp [guard, hthread] at hact
  | read =>
    obtain ⟨v, hv⟩ := Option.isSome_iff_exists.1 hact.2
    exact hI.read hact.1 hv
  | triggerIrq => exact hI.triggerIrq hact

end

lemma inv_init : Inv machine.init :=
  ⟨⟨rfl, rfl⟩, Nat.le_refl _, Nat.le_refl _,
    ⟨Bool.noConfusion, fun h => absurd h.2 (Nat.not_lt_zero _)⟩, fun _ => ⟨rfl, rfl⟩,
    Thread.noConfusion, Bool.noConfusion, fun _ => Thread.noConfusion, Thread.noConfusion⟩

theorem inv_of_reachable (h : machine.Reachable s) : Inv s :=
  h.invariant inv_init fun _ _ hI => hI.next

/-! ### Time-outs -/

lemma pollTimeout_bounds (h : v ≤ 0xffffffff) : 1 ≤ pollTimeout v ∧ pollTimeout v ≤ 4294 := by
  have hms : v / 1000000 ≤ 4294 := by omega
  unfold pollTimeout
  simp only
  split_ifs with h0
  · rw [h0]
    decide
  · rw [Int.bmod_eq_of_le (by omega) (by omega)]
    omega

/-! ### The law of programming -/

section

variable (hI : Inv s) (hloop : s.thread.looping = true) (hempty : s.pipe = some [])

include hI hloop hempty

lemma Inv.consumed_eq : s.consumed = s.written.length := by
  have hlinked := (hI.loop hloop).linked
  rw [Linked, hempty, Option.some.injEq, eq_comm, drop_eq_nil_iff] at hlinked
  exact Nat.le_antisymm hI.consumed_le hlinked

lemma Inv.succ_eq_consumed (hi : s.programmed = some i) (hborn : s.born < i) :
    i + 1 = s.consumed := by
  have hlast := hI.lastDelta
  have hall := hI.consumed_eq hloop hempty
  unfold LastDelta at hlast
  cases hk : s.kernel with
  | boot =>
    simp only [hk] at hlast
    simp [hlast.2] at hi
  | registered | running =>
    simp only [hk] at hlast
    have := hlast i hi
    omega
  | stopped =>
    simp only [hk] at hlast
    rcases hlast i hi with rfl | ⟨hlen, hstop⟩
    · omega
    · -- the thread would have stopped
      exact absurd hstop ((hI.loop hloop).no_stop (i + 1) (by omega) (by omega))

end

lemma Inv.programmed_iff (hI : Inv s) (hwait : s.Waiting) (hi : s.programmed = some i) :
    s.TimeoutFrom i ∨ s.IrqSince i ↔ ¬ (i < s.born ∨ i = s.born ∧ s.irqAt ≤ s.born) := by
  obtain ⟨⟨t, hthread⟩, hempty⟩ := hwait
  have hloop : s.thread.looping = true := by
    rw [hthread]
    rfl
  constructor
  · rintro (⟨hsource, -⟩ | ⟨hge, hlt⟩)
    · rcases hI.poll t hthread with ⟨hfrom, hlt, -⟩ | ⟨hnone, -⟩
      · have : i = s.consumed - 1 := Option.some.inj (hsource.symm.trans hfrom)
        omega
      · simp [hnone] at hsource
    · omega
  · intro hnot
    by_cases heq : i = s.born
    · exact .inr ⟨by omega, by omega⟩
    · have hlast := hI.succ_eq_consumed hloop hempty hi (by omega)
      have hpred : s.consumed - 1 = i := by omega
      rcases hI.poll t hthread with ⟨hfrom, -, v, hv, ht⟩ | ⟨-, hirq | hfirst⟩
      · rw [hpred] at hfrom hv
        exact .inl ⟨hfrom, v, hv, ht ▸ hthread⟩
      · exact .inr ⟨by omega, by omega⟩
      · omega

/-- Programming of the timer is lost exactly if the last delta, or the value that stops the thread,
is taken for `LKL_TIMER_INIT` or was written before there was a pipe. -/
theorem timer_law_iff (h : machine.Reachable s) : s.Law ↔ ¬ (s.Swallowed ∨ s.SwallowedStop) := by
  have hI := inv_of_reachable h
  constructor
  · rintro ⟨hprog, hlate⟩ (⟨hwait, i, hi, hbad⟩ | hstop)
    · exact (hI.programmed_iff hwait hi).1 (hprog hwait i hi) hbad
    · simp [hI.late.2 hstop] at hlate
  · intro hnot
    refine ⟨fun hwait i hi => ?_, ?_⟩
    · exact (hI.programmed_iff hwait hi).2 fun hbad => hnot (.inl ⟨hwait, i, hi, hbad⟩)
    · exact Bool.eq_false_iff.2 fun hlate => hnot (.inr (hI.late.1 hlate))

/-- `time_init`, and one delta after it. The interrupt comes for `LKL_TIMER_INIT`. -/
def bootRun : List Act :=
  [.pipe true, .register [1000000000, 1000000001, 1000000002], .init, .readInit, .pollin, .read,
    .timeout, .triggerIrq, .program 5000000, .pollin, .read]

theorem timer_law_bootRun : (machine.runFrom machine.init bootRun).Waiting ∧
      (machine.runFrom machine.init bootRun).thread = .poll 5 ∧
      (machine.runFrom machine.init bootRun).Law := by
  refine ⟨⟨⟨5, by decide⟩, by decide⟩, by decide, ?_⟩
  refine (timer_law_iff (Machine.reachable_of_admits bootRun (by decide))).2 ?_
  rintro (⟨-, i, hi, hbad⟩ | ⟨hstop, -⟩)
  · have hi : i = 2 := (Option.some.inj hi).symm
    have hborn : (machine.runFrom machine.init bootRun).born = 0 := by decide
    omega
  · exact absurd hstop (by decide)

/-- The thread reads the delta of `clockevents_register_device` before its loop, and waits for the
time-out that it has computed from `LKL_TIMER_INIT`. -/
def initRun : List Act :=
  [.pipe true, .register [1000000000, 1000000001, 1000000002], .init, .readInit, .pollin, .read]

theorem not_timer_law_initRun : machine.Reachable (machine.runFrom machine.init initRun) ∧
      (machine.runFrom machine.init initRun).written = [9999998, LKL_TIMER_INIT] ∧
      (machine.runFrom machine.init initRun).thread = .poll 1 ∧
      ¬ (machine.runFrom machine.init initRun).Law := by
  refine ⟨Machine.reachable_of_admits initRun (by decide), by decide, by decide, fun hlaw => ?_⟩
  rcases hlaw.programmed ⟨⟨1, by decide⟩, by decide⟩ 0 (by decide) with ⟨hsource, -⟩ | ⟨-, hirq⟩
  · exact absurd hsource (by decide)
  · exact absurd hirq (by decide)

end LklPort.Timer
