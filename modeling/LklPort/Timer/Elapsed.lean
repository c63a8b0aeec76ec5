import LklPort.Timer.Programming
import Mathlib.Order.Lattice
import Mathlib.Order.Nat

/-!
# When the timer interrupt comes

The machine of the timer is given a clock. Time passes in any steps between its actions, and a
`poll` whose time is not over does not return 0. Every call that programs the timer is kept with
the time of the call and the delta that was asked for.

The thread rounds a delta down to milliseconds, so the interrupt may come up to a millisecond too
early. And a thread that has swallowed the first delta takes `LKL_TIMER_INIT` for the next one and
waits for a millisecond, unless a further delta comes before that.
-/

namespace LklPort.Timer

open List Option

/-! ### The requested deltas -/

/-- The delta of the call of `clockevents_program_event` that ends `tick_setup_periodic`. -/
def tickSetupDelta (next : ℤ) : List ℤ → ℤ
  | [] => 0
  | now :: readings =>
    match clockeventsProgramEvent .oneshot next now with
    | .etime => tickSetupDelta (s64 (next + tickPeriod)) readings
    | .off | .event _ => s64 (next - now)

/-- The delta that `clockevents_register_device` asks for. -/
def registerDelta : List ℤ → ℤ
  | [] => 0
  | tickNextPeriod :: readings => tickSetupDelta tickNextPeriod readings

/-- `min(delta, max_delta_ns)`, the time that the device is asked to wait for. -/
def clamped (delta : ℤ) : ℤ := min delta maxDeltaNs

variable {expires now : ℤ} {clc d : ℕ} {readings : List ℤ} {s' : State}

lemma event_eq_clamped {mode : Mode} (h : clockeventsProgramEvent mode expires now = .event clc) :
    (clc : ℤ) = clamped (s64 (expires - now)) := by
  simp only [clockeventsProgramEvent] at h
  split_ifs at h
  all_goals
    injection h with h
    simp only [clamped, maxDeltaNs, minDeltaNs] at *
    omega

lemma tickSetupPeriodic_eq_clamped {next : ℤ}
    (h : tickSetupPeriodic next readings = some (some clc)) :
    (clc : ℤ) = clamped (tickSetupDelta next readings) := by
  induction readings generalizing next with
  | nil => simp [tickSetupPeriodic] at h
  | cons now _ ih =>
    rw [tickSetupPeriodic] at h
    rw [tickSetupDelta]
    cases hevent : clockeventsProgramEvent .oneshot next now with
    | etime =>
      simp only [hevent] at h ⊢
      exact ih h
    | off => simp [hevent] at h
    | event =>
      simp only [hevent, Option.some.injEq] at h ⊢
      exact h ▸ event_eq_clamped hevent

lemma clockeventsRegisterDevice_eq_clamped
    (h : clockeventsRegisterDevice readings = some (some clc)) :
    (clc : ℤ) = clamped (registerDelta readings) := by
  cases readings with
  | nil => simp [clockeventsRegisterDevice] at h
  | cons => exact tickSetupPeriodic_eq_clamped h

/-! ### The machine with a clock -/

/-- A call that programs the timer. -/
structure Call where
  /-- The time of the call, in nanoseconds. -/
  time : ℕ
  delta : ℤ
  deriving DecidableEq

structure Clock where
  now : ℕ
  /-- History: the calls that have written the values in `written`. The first value and the last
  one have none. -/
  calls : List (Option Call)
  /-- When the thread has computed the time-out that it passes to `poll`. -/
  since : ℕ
  /-- History: the call whose delta the thread has read last. -/
  lastRead : Option Call
  /-- History: the last value that was read in the loop is `LKL_TIMER_INIT`. -/
  initRead : Bool
  /-- History: the last `poll` has returned 0. -/
  timedOut : Bool

inductive TimedAct where
  | tick (ns : ℕ)
  /-- `clockevents_program_event`, where `ktime_get` has returned `now`. -/
  | programEvent (expires now : ℤ)
  /-- Another action of the kernel or the thread. -/
  | act (a : Act)

/-- The delta that `clockevents_program_event` passes to the device. -/
def eventOf (expires now : ℤ) : Option ℕ :=
  match clockeventsProgramEvent .oneshot expires now with
  | .event clc => some clc
  | .etime | .off => none

/-- The time of the `poll` of the thread is over. -/
def PollOver (s : State) (c : Clock) : Prop :=
  match s.thread with
  | .poll timeoutMs => (c.since : ℤ) + timeoutMs * 1000000 ≤ c.now
  | _ => True

instance (s : State) (c : Clock) : Decidable (PollOver s c) := by
  dsimp only [PollOver]
  induction s.thread using Thread.casesOn <;> infer_instance

def timedGuard (s : State) (c : Clock) : TimedAct → Prop
  | .tick _ => True
  | .programEvent expires now => s.kernel = .running ∧ (eventOf expires now).isSome = true
  | .act (.program _) => False
  | .act .timeout => machine.guard s .timeout ∧ PollOver s c
  | .act a => machine.guard s a

/-- The action on the state without the clock. -/
def TimedAct.untimed : TimedAct → Option Act
  | .tick _ => none
  | .programEvent expires now => (eventOf expires now).map .program
  | .act a => some a

/-- The call of the next value in the pipe. -/
def nextCall (s : State) (c : Clock) : Option Call := (c.calls[s.consumed]?).bind id

def clockNext (s : State) (c : Clock) : TimedAct → Clock
  | .tick ns => { c with now := c.now + ns }
  | .programEvent expires now =>
    { c with calls := c.calls ++ [some ⟨c.now, s64 (expires - now)⟩] }
  | .act (.register readings) =>
    match clockeventsRegisterDevice readings with
    | some (some _) => { c with calls := c.calls ++ [some ⟨c.now, registerDelta readings⟩] }
    | _ => c
  | .act .init | .act .shutdown => { c with calls := c.calls ++ [none] }
  | .act .readInit => { c with lastRead := nextCall s c }
  | .act .read =>
    { c with
      since := c.now
      lastRead := (nextCall s c).or c.lastRead
      initRead := decide (s.front = some LKL_TIMER_INIT) }
  | .act .timeout => { c with timedOut := true }
  | .act .error => { c with timedOut := false }
  | .act _ => c

/-- The kernel and the timer thread, with time. -/
def timed : Machine (State × Clock) TimedAct where
  init := (machine.init, ⟨0, [], 0, none, false, false⟩)
  guard p a := timedGuard p.1 p.2 a
  next p a := (a.untimed.elim p.1 (machine.next p.1), clockNext p.1 p.2 a)

/-- An interrupt that comes because the time of `poll` is over does not come before the time that
was asked for last. -/
def NotEarly (p : State × Clock) : Prop :=
  p.1.thread = .irq → p.2.timedOut = true → ∀ call ∈ p.2.lastRead,
    (call.time : ℤ) + clamped call.delta ≤ p.2.now

/-- A delta that is not rounded down. -/
def WholeMs (delta : ℤ) : Prop := clamped delta ≤ 1000000 ∨ (1000000 : ℤ) ∣ clamped delta
  deriving Decidable

/-- The deltas are whole milliseconds, unless they are shorter, and no time-out of `LKL_TIMER_INIT`
ends after the thread has read a delta. -/
def Exact (p : State × Clock) : TimedAct → Prop
  | .programEvent expires now => WholeMs (s64 (expires - now))
  | .act (.register readings) => WholeMs (registerDelta readings)
  | .act .timeout => p.2.initRead = true → p.2.lastRead = none
  | _ => True

/-! ### Rounding -/

lemma clockeventNextEvent_of_lt (h : 1 < d) : clockeventNextEvent d = d :=
  if_neg (not_le.2 h)

lemma clockeventNextEvent_le (h : d ≤ 0xffffffff) : clockeventNextEvent d ≤ 0xffffffff := by
  rw [clockeventNextEvent, LKL_TIMER_LAST_OP]
  split_ifs <;> omega

lemma pollTimeout_mul {k : ℕ} (hpos : 0 < k) (hmax : k ≤ 4294) : pollTimeout (1000000 * k) = k := by
  have hdiv : 1000000 * k / 1000000 = k := by omega
  unfold pollTimeout
  simp only [hdiv, if_neg (ne_of_gt hpos)]
  exact Int.bmod_eq_of_le (by omega) (by omega)

lemma le_pollTimeout (hmax : d ≤ 0xffffffff) (h : d ≤ 1000000 ∨ 1000000 ∣ d) :
    (d : ℤ) ≤ pollTimeout (clockeventNextEvent d) * 1000000 := by
  by_cases hshort : d ≤ 1000000
  · have hge := (pollTimeout_bounds (clockeventNextEvent_le hmax)).1
    omega
  · obtain ⟨k, rfl⟩ := h.resolve_left hshort
    rw [clockeventNextEvent_of_lt (by omega), pollTimeout_mul (by omega) (by omega)]
    omega

lemma clamped_le_pollTimeout {delta : ℤ} (h : WholeMs delta) :
    clamped delta ≤ pollTimeout (clockeventNextEvent (clamped delta).toNat) * 1000000 := by
  have hmax : clamped delta ≤ 0xffffffff := Int.min_le_right _ _
  rw [WholeMs] at h
  generalize clamped delta = d at h hmax
  refine (Int.self_le_toNat d).trans (le_pollTimeout (by omega) (h.imp ?_ ?_))
  · intro hd
    omega
  · intro hd
    omega

/-! ### The invariant -/

/-- What is known about the calls: the values that they have written, and when they were. -/
structure CallsOk (s : State) (c : Clock) : Prop where
  length : c.calls.length = s.written.length
  call : ∀ (i : ℕ) (call : Call), c.calls[i]? = some (some call) →
    s.written[i]? = some (clockeventNextEvent (clamped call.delta).toNat) ∧ call.time ≤ c.now ∧
      WholeMs call.delta
  other : ∀ i : ℕ, c.calls[i]? = some none →
    s.written[i]? = some LKL_TIMER_INIT ∨ s.written[i]? = some LKL_TIMER_SHUTDOWN

/-- The time-out of `poll` is the one for the delta that was read last, if it is not the one for
`LKL_TIMER_INIT`. -/
def TimeoutFor (s : State) (c : Clock) : Prop :=
  ∀ t (call : Call), s.thread = .poll t → 0 ≤ t → c.lastRead = some call → c.initRead = false →
    call.time ≤ c.since ∧ t = pollTimeout (clockeventNextEvent (clamped call.delta).toNat) ∧
      WholeMs call.delta

structure TimedInv (p : State × Clock) : Prop where
  base : Inv p.1
  calls : CallsOk p.1 p.2
  timeout : TimeoutFor p.1 p.2
  notEarly : NotEarly p

variable {s : State} {c : Clock}

lemma inv_next (h : Inv s) (a : Act) (ha : machine.guard s a) : Inv (machine.next s a) :=
  Inv.next h ha

lemma CallsOk.append (h : CallsOk s c) {v : ℕ} (hs' : s'.written = s.written ++ [v])
    {call : Option Call}
    (hcall : ∀ x : Call, call = some x → v = clockeventNextEvent (clamped x.delta).toNat ∧
      x.time ≤ c.now ∧ WholeMs x.delta)
    (hnone : call = none → v = LKL_TIMER_INIT ∨ v = LKL_TIMER_SHUTDOWN) :
    CallsOk s' { c with calls := c.calls ++ [call] } := by
  have hlast : ∀ (i : ℕ) x, (c.calls ++ [call])[i]? = some x →
      c.calls[i]? = some x ∧ s'.written[i]? = s.written[i]? ∨
        x = call ∧ s'.written[i]? = some v := by
    intro i x hx
    rw [hs']
    rcases lt_or_ge i c.calls.length with hlt | hge
    · rw [List.getElem?_append_left hlt] at hx
      exact .inl ⟨hx, List.getElem?_append_left (h.length ▸ hlt)⟩
    · have hi : i = c.calls.length := by
        have := (List.getElem?_eq_some_iff.1 hx).1
        rw [length_append, length_singleton] at this
        omega
      rw [hi, List.getElem?_concat_length, some_inj] at hx
      rw [hi, h.length, List.getElem?_concat_length]
      exact .inr ⟨hx.symm, rfl⟩
  refine ⟨?_, fun i x hx => ?_, fun i hx => ?_⟩
  · rw [hs', length_append, length_append, h.length]
    rfl
  · rcases hlast i _ hx with ⟨hold, hw⟩ | ⟨rfl, hw⟩
    · rw [hw]
      exact h.call i x hold
    · obtain ⟨rfl, htime, hms⟩ := hcall x rfl
      exact ⟨hw, htime, hms⟩
  · rcases hlast i _ hx with ⟨hold, hw⟩ | ⟨rfl, hw⟩
    · rw [hw]
      exact h.other i hold
    · rw [hw]
      exact (hnone rfl).imp (congrArg some) (congrArg some)

lemma CallsOk.of_eq (h : CallsOk s c) {c' : Clock} (hs : s'.written = s.written)
    (hcalls : c'.calls = c.calls) (hnow : c.now ≤ c'.now) : CallsOk s' c' := by
  refine ⟨?_, fun i call hcall => ?_, fun i hi => ?_⟩
  · rw [hs, hcalls, h.length]
  · rw [hcalls] at hcall
    obtain ⟨hw, htime, hms⟩ := h.call i call hcall
    exact ⟨hs ▸ hw, htime.trans hnow, hms⟩
  · rw [hcalls] at hi
    rw [hs]
    exact h.other i hi

section

variable (h : TimedInv (s, c))

include h

lemma TimedInv.write (hbase : Inv s') (hthread : s'.thread = s.thread)
    {calls : List (Option Call)} (hcalls : CallsOk s' { c with calls := calls }) :
    TimedInv (s', { c with calls := calls }) where
  base := hbase
  calls := hcalls
  timeout := by
    intro t call ht
    exact h.timeout t call (hthread ▸ ht)
  notEarly := by
    intro ht
    exact h.notEarly (hthread ▸ ht)

lemma TimedInv.tick (ns : ℕ) : TimedInv (s, { c with now := c.now + ns }) where
  base := h.base
  calls := h.calls.of_eq rfl rfl (Nat.le_add_right _ _)
  timeout := h.timeout
  notEarly := by
    intro hirq hout call hcall
    have hle : (call.time : ℤ) + clamped call.delta ≤ c.now := h.notEarly hirq hout call hcall
    have hnow : (c.now : ℤ) ≤ (c.now + ns : ℕ) := Int.ofNat_le.2 (Nat.le_add_right _ _)
    exact hle.trans hnow

lemma TimedInv.move (hbase : Inv s') (hwritten : s'.written = s.written)
    (hpoll : ∀ t, s'.thread = .poll t → t < 0) {c' : Clock} (hcalls : c'.calls = c.calls)
    (hnow : c'.now = c.now) (hirq : s'.thread = .irq → c'.timedOut = false) :
    TimedInv (s', c') where
  base := hbase
  calls := h.calls.of_eq hwritten hcalls hnow.ge
  timeout := by
    intro t call ht ht0
    exact absurd ht0 (not_le.2 (hpoll t ht))
  notEarly := by
    intro hthread hout
    rw [hirq hthread] at hout
    exact absurd hout (by decide)

lemma TimedInv.timedOut (hguard : machine.guard s .timeout)
    (hover : PollOver s c) (hexact : c.initRead = true → c.lastRead = none) :
    TimedInv (machine.next s .timeout, { c with timedOut := true }) where
  base := inv_next h.base .timeout hguard
  calls := h.calls.of_eq rfl rfl (le_refl _)
  timeout := nofun
  notEarly := by
    intro _ _ call hcall
    have hdelta : c.initRead = false := Bool.eq_false_iff.2 fun hinit => by
      cases (hexact hinit).symm.trans hcall
    cases hthread : s.thread with
    | poll t =>
      simp only [machine, guard, hthread] at hguard
      simp only [PollOver, hthread] at hover
      obtain ⟨htime, ht, hms⟩ := h.timeout t call hthread hguard.1 hcall hdelta
      have hround := clamped_le_pollTimeout hms
      show (call.time : ℤ) + clamped call.delta ≤ c.now
      have htime' : (call.time : ℤ) ≤ c.since := Int.ofNat_le.2 htime
      omega
    | start | noPipe | initRead | reading | irq | exited =>
      simp [machine, guard, hthread] at hguard

lemma TimedInv.read (hguard : machine.guard s .read) :
    TimedInv (machine.next s .read, clockNext s c (.act .read)) := by
  have hbase : Inv (machine.next s .read) := inv_next h.base .read hguard
  obtain ⟨hthread, hfront⟩ := hguard
  obtain ⟨v, hv⟩ := Option.isSome_iff_exists.1 hfront
  have hget := (h.base.loop (by rw [hthread]; rfl)).linked.getElem? hv
  have hnext : machine.next s .read =
      if v = LKL_TIMER_SHUTDOWN then { s.pop with thread := .exited, stopRead := true }
      else { s.pop with thread := .poll (pollTimeout v), source := some s.consumed } := by
    show next s .read = _
    simp only [next, hv]
  rw [hnext] at hbase ⊢
  by_cases hstop : v = LKL_TIMER_SHUTDOWN
  · rw [if_pos hstop] at hbase ⊢
    refine h.move hbase rfl ?_ rfl rfl ?_
    · rintro _ ⟨⟩
    · rintro ⟨⟩
  · rw [if_neg hstop] at hbase ⊢
    refine ⟨hbase, h.calls.of_eq rfl rfl (le_refl _), fun t call ht _ hcall hdelta => ?_, ?_⟩
    swap
    · rintro ⟨⟩
    obtain rfl : pollTimeout v = t := Thread.poll.inj ht
    have hlt : s.consumed < c.calls.length :=
      h.calls.length ▸ (List.getElem?_eq_some_iff.1 hget).1
    obtain ⟨o, ho⟩ : ∃ o, c.calls[s.consumed]? = some o := ⟨_, List.getElem?_eq_getElem hlt⟩
    have hlast : (nextCall s c).or c.lastRead = o.or c.lastRead := by
      rw [nextCall, ho]
      rfl
    change (nextCall s c).or c.lastRead = some call at hcall
    rw [hlast] at hcall
    cases o with
    | some x =>
      obtain rfl : x = call := Option.some.inj hcall
      obtain ⟨hwritten, htime, hms⟩ := h.calls.call _ x ho
      rw [hget, some_inj] at hwritten
      exact ⟨htime, congrArg pollTimeout hwritten, hms⟩
    | none =>
      -- the value is `LKL_TIMER_INIT`
      have hinit : v = LKL_TIMER_INIT := by
        rcases h.calls.other _ ho with hw | hw
        · exact Option.some.inj (hget.symm.trans hw)
        · exact absurd (Option.some.inj (hget.symm.trans hw)) hstop
      exact absurd (hinit ▸ hv) (of_decide_eq_false hdelta)

end

/-! ### The law -/

lemma eventOf_eq_some (h : eventOf expires now = some clc) :
    clockeventsProgramEvent .oneshot expires now = .event clc := by
  rw [eventOf] at h
  split at h
  next clc' heq => rw [heq, Option.some.inj h]
  all_goals exact absurd h nofun

lemma TimedInv.programEvent (h : TimedInv (s, c))
    (ha : timed.guard (s, c) (.programEvent expires now)) (hexact : WholeMs (s64 (expires - now))) :
    TimedInv (timed.next (s, c) (.programEvent expires now)) := by
  obtain ⟨hkernel, hevent⟩ := ha
  obtain ⟨clc, hclc⟩ := Option.isSome_iff_exists.1 hevent
  have hmachine : (TimedAct.programEvent expires now).untimed = some (.program clc) := by
    rw [TimedAct.untimed, hclc]
    rfl
  have hvalue := event_eq_clamped (eventOf_eq_some hclc)
  simp only [timed, hmachine, elim_some, clockNext]
  refine h.write (inv_next h.base (.program clc) hkernel) rfl (h.calls.append rfl ?_ nofun)
  intro x hx
  obtain rfl := Option.some.inj hx
  refine ⟨?_, le_refl _, hexact⟩
  rw [← hvalue, Int.toNat_natCast]

lemma TimedInv.register (h : TimedInv (s, c)) (ha : machine.guard s (.register readings))
    (hexact : WholeMs (registerDelta readings)) :
    TimedInv (timed.next (s, c) (.act (.register readings))) := by
  have hbase := inv_next h.base (.register readings) ha
  obtain ⟨o, ho⟩ := Option.isSome_iff_exists.1 ha.2
  have hnext : machine.next s (.register readings) = next s (.register readings) := rfl
  simp only [timed, TimedAct.untimed, elim_some, clockNext, ho]
  rw [hnext] at hbase ⊢
  simp only [next, ho] at hbase ⊢
  cases o with
  | none => exact h.write hbase rfl (h.calls.of_eq rfl rfl (le_refl _))
  | some =>
    refine h.write hbase rfl (h.calls.append rfl ?_ (by rintro ⟨⟩))
    intro x hx
    obtain rfl := Option.some.inj hx
    refine ⟨?_, le_refl _, hexact⟩
    rw [← clockeventsRegisterDevice_eq_clamped ho, Int.toNat_natCast]

lemma TimedInv.next {p : State × Clock} (h : TimedInv p) {a : TimedAct} (ha : timed.guard p a)
    (hexact : Exact p a) : TimedInv (timed.next p a) := by
  obtain ⟨s, c⟩ := p
  cases a with
  | tick ns => exact h.tick ns
  | programEvent => exact h.programEvent ha hexact
  | act a =>
    cases a with
    | program => exact absurd ha id
    | register => exact h.register ha hexact
    | init =>
      refine h.write (inv_next h.base .init ha) rfl (h.calls.append rfl nofun ?_)
      exact fun _ => .inl rfl
    | shutdown =>
      refine h.write (inv_next h.base .shutdown ha) rfl (h.calls.append rfl nofun ?_)
      exact fun _ => .inr rfl
    | pipe ok =>
      refine h.move (inv_next h.base (.pipe ok) ha) ?_ ?_ rfl rfl ?_ <;> cases ok
      · rfl
      · rfl
      all_goals nofun
    | readInit =>
      refine h.move (inv_next h.base .readInit ha) rfl ?_ rfl rfl nofun
      intro t ht
      obtain rfl := Thread.poll.inj ht
      decide
    | pollin => exact h.move (inv_next h.base .pollin ha) rfl nofun rfl rfl nofun
    | timeout => exact h.timedOut ha.1 ha.2 hexact
    | error => exact h.move (inv_next h.base .error ha) rfl nofun rfl rfl fun _ => rfl
    | read => exact h.read ha
    | triggerIrq =>
      refine h.move (inv_next h.base .triggerIrq ha) rfl ?_ rfl rfl nofun
      intro t ht
      obtain rfl := Thread.poll.inj ht
      decide

lemma timedInv_init : TimedInv timed.init where
  base := inv_init
  calls := ⟨rfl, nofun, nofun⟩
  timeout := nofun
  notEarly := nofun

/-- In a run whose deltas are not rounded, an interrupt for the end of a time-out comes no earlier
than it was asked for by the call whose delta the thread has read last. -/
theorem timer_irq_not_early {p : State × Clock} (h : (timed.restrict Exact).Reachable p) :
    NotEarly p := by
  have h0 : TimedInv (timed.restrict Exact).init := timedInv_init
  exact (h.invariant h0 fun _ _ hp ha => hp.next ha.1 ha.2).notEarly

instance decidableTimedGuard (p : State × Clock) (a : TimedAct) : Decidable (timed.guard p a) := by
  rcases a with _ | _ | ⟨⟨⟩⟩ <;> dsimp only [timed, timedGuard] <;> infer_instance

instance decidableExact (p : State × Clock) (a : TimedAct) : Decidable (Exact p a) := by
  rcases a with _ | _ | ⟨⟨⟩⟩ <;> dsimp only [Exact] <;> infer_instance

/-- The thread swallows the first delta and reads `LKL_TIMER_INIT` in its loop. Then a delta of
`ns` is programmed and read, and after `elapsed` nanoseconds the time-out ends. -/
def pipeFirstRun (ns : ℤ) (elapsed : ℕ) : List TimedAct :=
  [.act (.pipe true), .act (.register [0, 0, 0]), .act .init, .act .readInit, .act .pollin,
    .act .read, .programEvent ns 0, .act .pollin, .act .read, .tick elapsed, .act .timeout]

theorem timer_irq_not_early_pipeFirstRun :
    NotEarly (timed.runFrom timed.init (pipeFirstRun 2000000 2000000)) :=
  timer_irq_not_early (Machine.reachable_of_admits (pipeFirstRun 2000000 2000000) (by decide))

/-- For a delta of almost two milliseconds the interrupt comes after one. -/
theorem timer_irq_early : ∃ p, timed.Reachable p ∧ p.1.thread = .irq ∧ p.2.timedOut = true ∧
      p.2.lastRead = some ⟨0, 1999999⟩ ∧ p.2.now = 1000000 :=
  ⟨_, Machine.reachable_of_admits (pipeFirstRun 1999999 1000000) (by decide), by decide,
    by decide, by decide, by decide⟩

end LklPort.Timer
