import LklPort.Ledger.Basic
import LklPort.TimerWheel.Wheel

/-!
# Timers are called when they are due

A run of the base is recorded in a ledger: arming a timer is a job for it, with the tick when it is
due; a call of its function ends the job and is noted with the tick that is being processed;
`del_timer` and a further change of the timer drop the job. Then the law of the timer wheel is that
every call ends a job and is made at the tick of this job, that no job is done twice, and that all
jobs for ticks that were processed were done, except those that were dropped.

The tick when a timer is due comes from the field `timer->expires`. `mod_timer` and `add_timer` set
it to what `apply_slack` makes of the time that was asked for.
-/

namespace LklPort.TimerWheel

open List Function Option

/-! ### The record of a run -/

/-- The record of a run: the number of the tick that comes next, and the jobs. -/
structure History (T : Type) where
  tick : ℕ
  ledger : Ledger T ℕ ℕ

variable {T : Type} [DecidableEq T]

/-- The timer is armed, after the end of what it was armed for before. -/
def History.arm (h : History T) (t : T) (d : ℕ) : History T :=
  { h with ledger := (h.ledger.drop t).add t d }

/-- What a step adds to the record. -/
def note (b : Base T) (a : Action T) (h : History T) : History T :=
  match a with
  | .addTimer t expires slack junk | .modTimer t expires slack junk =>
    if timerPending b t ∧ b.expires t = expires then h
    else h.arm t (dueTick h.tick b.timerJiffies (applySlack slack junk b.jiffies expires))
  | .modTimerPending t expires =>
    if timerPending b t then h.arm t (dueTick h.tick b.timerJiffies expires) else h
  | .delTimer t => { h with ledger := h.ledger.drop t }
  | .step =>
    match b.phase with
    | .loop => if timeAfterEq b.jiffies b.timerJiffies then { h with tick := h.tick + 1 } else h
    | .work =>
      match b.list .work with
      | [] => h
      -- `timer_jiffies` was already incremented
      | t :: _ => { h with ledger := h.ledger.finish t (h.tick - 1) }
    | _ => h
  | .advance _ | .runTimers | .ret | .getNextTimerInterrupt => h

/-- The base with the record of its run. -/
def recordedMachine (deferrable : T → Bool) (jiffies : Jiffies) :
    Machine (Base T × History T) (Action T) :=
  (timerMachine deferrable jiffies).record ⟨jiffies.toNat, .empty⟩ note

instance (deferrable : T → Bool) (jiffies : Jiffies) (p : Base T × History T) (a : Action T) :
    Decidable ((recordedMachine deferrable jiffies).guard p a) :=
  inferInstanceAs (Decidable (a.guard p.1))

/-- The law of the timer wheel. -/
structure TimerLaw (deferrable : T → Bool) (b : Base T) (h : History T) : Prop where
  /-- Only functions of timers that were armed are called, while the tick is processed when they
  are due. -/
  called : ∀ c ∈ h.ledger.done, ∃ i d, c.job = some i ∧ h.ledger.jobs[i]? = some (c.key, d) ∧
    c.note = d
  once : h.ledger.doneJobs.Nodup
  /-- A timer that was deleted or modified before is not called. -/
  dropped : ∀ i ∈ h.ledger.dropped, some i ∉ h.ledger.doneJobs
  /-- All other timers are called, at the latest when their tick is finished. -/
  not_late : ∀ (i : ℕ) t d, h.ledger.jobs[i]? = some (t, d) → i ∉ h.ledger.dropped →
    d + 1 < h.tick ∨ d + 1 = h.tick ∧ b.list .work = [] → some i ∈ h.ledger.doneJobs
  /-- `del_timer` returns 1 if the timer is armed and was not called yet. -/
  del : ∀ t, (delTimer deferrable b t).1 = 1 ↔
    ∃ (i : ℕ) (d : ℕ), h.ledger.jobs[i]? = some (t, d) ∧ i ∉ h.ledger.dropped ∧
      some i ∉ h.ledger.doneJobs

/-! ### The invariant -/

/-- The ticks of the jobs that have not ended. -/
def History.due (h : History T) (t : T) : Option ℕ := (h.ledger.current t).map Prod.snd

attribute [local simp] History.due

/-- What holds of the base and the record of its run. -/
structure Good (b : Base T) (h : History T) : Prop where
  wheel : Wheel (fun _ => False) b h.tick h.due []
  work : b.phase = .idle ∨ b.phase = .loop → b.list .work = []
  ledger : h.ledger.Valid
  called : ∀ c ∈ h.ledger.done, ∃ i d, c.job = some i ∧ h.ledger.jobs[i]? = some (c.key, d) ∧
    c.note = d

variable {b : Base T} {h : History T} {t : T}

lemma History.due_arm (h : History T) (t : T) (d : ℕ) :
    (h.arm t d).due = update h.due t (some d) := by
  funext t'
  by_cases ht : t' = t
  · subst ht
    simp [arm, Ledger.add]
  · simp [arm, Ledger.add, Ledger.drop, ht]

lemma History.due_drop (h : History T) (t : T) :
    ({ h with ledger := h.ledger.drop t } : History T).due = update h.due t none := by
  funext t'
  by_cases ht : t' = t
  · subst ht
    simp [Ledger.drop]
  · simp [Ledger.drop, ht]

lemma History.due_finish (h : History T) (t : T) (r : ℕ) :
    ({ h with ledger := h.ledger.finish t r } : History T).due = update h.due t none := by
  funext t'
  by_cases ht : t' = t
  · subst ht
    simp [Ledger.finish]
  · simp [Ledger.finish, ht]

omit [DecidableEq T] in
lemma Good.timerPending_iff (hg : Good b h) :
    timerPending b t = true ↔ ∃ i d, h.ledger.current t = some (i, d) := by
  have hp := hg.wheel.pending t
  rw [timerPending, isSome_iff_ne_none, ne_eq, hp, History.due, map_eq_none_iff,
    ← ne_eq, ne_none_iff_exists']
  simp

omit [DecidableEq T] in
lemma good_init (jiffies : Jiffies) : Good (initBase T jiffies) ⟨jiffies.toNat, .empty⟩ := by
  refine ⟨⟨?_, ?_, ?_, ?_, ?_, ?_, ?_, ?_⟩, fun _ => rfl, Ledger.valid_empty, ?_⟩
  · exact (BitVec.ofNat_toNat 64 jiffies).symm ▸ rfl
  all_goals simp [initBase, Ledger.empty]

/-! ### One step -/

lemma list_work_detachTimer (hb : b.list .work = []) (clear : Bool) :
    (detachTimer b t clear).list .work = [] := by
  simp [detachTimer, hb]

omit [DecidableEq T] in
lemma list_forgetNextTimer (df : T → Bool) (b : Base T) (t : T) :
    (forgetNextTimer df b t).list = b.list := by
  unfold forgetNextTimer
  split_ifs <;> rfl

omit [DecidableEq T] in
lemma phase_forgetNextTimer (df : T → Bool) (b : Base T) (t : T) :
    (forgetNextTimer df b t).phase = b.phase := by
  unfold forgetNextTimer
  split_ifs <;> rfl

lemma phase_modTimerCore (df : T → Bool) (b : Base T) (t : T) (e : Jiffies) (o : Bool) :
    (modTimerCore df b t e o).2.phase = b.phase := by
  unfold modTimerCore
  split_ifs
  · exact phase_forgetNextTimer df _ t
  · rfl
  · rfl

lemma list_work_modTimerCore (df : T → Bool) (hb : b.list .work = []) (e : Jiffies)
    (o : Bool) : (modTimerCore df b t e o).2.list .work = [] := by
  unfold modTimerCore
  split_ifs
  · rw [armTimer, list_work_internalAddTimer, list_forgetNextTimer]
    exact list_work_detachTimer hb false
  · exact hb
  · exact hb

variable {df : T → Bool} {l : Level} {i : ℕ}

section

variable (hg : Good b h)

include hg

lemma Good.modify {e : Jiffies} {o : Bool} (hactive : timerPending b t = true ∨ o = false) :
    Good (modTimerCore df b t e o).2 (h.arm t (dueTick h.tick b.timerJiffies e)) := by
  refine ⟨?_, fun hphase => ?_, ?_, fun c hc => ?_⟩
  · rw [History.due_arm]
    exact hg.wheel.modify id hactive
  · rw [phase_modTimerCore] at hphase
    exact list_work_modTimerCore df (hg.work hphase) e o
  · exact hg.ledger.drop.add (by simp [Ledger.drop])
  · obtain ⟨i, d, hjob, hget, hnote⟩ := hg.called c hc
    exact ⟨i, d, hjob, Ledger.jobs_add hget, hnote⟩

lemma Good.del : Good (delTimer df b t).2 { h with ledger := h.ledger.drop t } := by
  refine ⟨?_, fun hphase => ?_, hg.ledger.drop, hg.called⟩
  · rw [History.due_drop]
    exact hg.wheel.del
  · unfold delTimer at hphase ⊢
    split_ifs at hphase ⊢
    · rw [phase_forgetNextTimer] at hphase
      rw [list_forgetNextTimer]
      exact list_work_detachTimer (hg.work hphase) true
    · exact hg.work hphase

lemma Good.call {ts : List T} (hb : b.list .work = t :: ts) :
    Good { detachTimer b t true with phase := .callback t }
      { h with ledger := h.ledger.finish t (h.tick - 1) } := by
  have hentry : b.entry t = some .work := by
    exact hg.wheel.mem_iff.1 (hb ▸ mem_cons_self)
  have hpending : timerPending b t = true := by simp [timerPending, hentry]
  obtain ⟨i, d, hcurrent⟩ := hg.timerPending_iff.1 hpending
  have hd := hg.wheel.work t d hentry (by simp [hcurrent])
  refine ⟨?_, fun hphase => ?_, hg.ledger.finish hcurrent, fun c hc => ?_⟩
  · rw [History.due_finish]
    exact (hg.wheel.detach).congr rfl rfl rfl rfl
  · simp at hphase
  · obtain rfl | hc := List.mem_cons.1 hc
    · exact ⟨i, d, by simp [hcurrent], (hg.ledger.current t i d hcurrent).1, by simp only; omega⟩
    · exact hg.called c hc

lemma Good.step : Good (runStep b) (note b .step h) := by
  unfold runStep note
  cases hphase : b.phase with
  | idle | callback => simpa [hphase] using hg
  | loop =>
    have hwork := hg.work (.inr hphase)
    split_ifs with htime
    · exact ⟨hg.wheel.tick hwork, by simp [startTick, takeList], hg.ledger, hg.called⟩
    · exact ⟨hg.wheel.congr rfl rfl rfl rfl, fun _ => hwork, hg.ledger, hg.called⟩
  | work =>
    cases hlist : b.list .work with
    | nil => exact ⟨hg.wheel.congr rfl rfl rfl rfl, fun _ => hlist, hg.ledger, hg.called⟩
    | cons => exact hg.call hlist

lemma Good.next (a : Action T) (ha : a.guard b) : Good (a.next df b) (note b a h) := by
  cases a with
  | advance => exact ⟨hg.wheel.congr rfl rfl rfl rfl, hg.work, hg.ledger, hg.called⟩
  | addTimer t e slack junk | modTimer t e slack junk =>
    simp only [Action.next, note, modTimer]
    split_ifs
    · exact hg
    · exact hg.modify (.inr rfl)
  | modTimerPending =>
    simp only [Action.next, note, modTimerPending]
    split_ifs with hpending
    · exact hg.modify (.inl hpending)
    · simpa [modTimerCore, hpending] using hg
  | delTimer => exact hg.del
  | runTimers =>
    exact ⟨hg.wheel.congr rfl rfl rfl rfl, fun _ => hg.work (.inl ha), hg.ledger, hg.called⟩
  | step => exact hg.step
  | ret => exact ⟨hg.wheel.congr rfl rfl rfl rfl, by simp [Action.next], hg.ledger, hg.called⟩
  | getNextTimerInterrupt =>
    simp only [Action.next, getNextTimerInterrupt]
    split_ifs
    · exact ⟨hg.wheel.congr rfl rfl rfl rfl, hg.work, hg.ledger, hg.called⟩
    · exact hg

end

/-! ### Whole runs -/

lemma Good.law (df : T → Bool) (hg : Good b h) : TimerLaw df b h := by
  refine ⟨hg.called, hg.ledger.once, fun i hi => (hg.ledger.dropped i hi).2, ?_, fun t => ?_⟩
  · intro i t d hget hnot hlate
    obtain hi | hi | hcurrent := hg.ledger.ended i t d hget
    · exact absurd hi hnot
    · exact hi
    · -- the timer would be on a list
      exfalso
      have hdue : h.due t = some d := by simp [hcurrent]
      cases hentry : b.entry t with
      | none =>
        rw [(hg.wheel.pending t).1 hentry] at hdue
        cases hdue
      | some p =>
        cases p with
        | vec =>
          have hle := hg.wheel.le_due hentry hdue
          omega
        | work =>
          have hd := hg.wheel.work t d hentry hdue
          obtain hlate | ⟨-, hlist⟩ := hlate
          · omega
          · rw [← hg.wheel.mem_iff, hlist] at hentry
            exact not_mem_nil hentry
  · have hret : (delTimer df b t).1 = 1 ↔ timerPending b t = true := by
      unfold delTimer
      split_ifs with hpending <;> simp [hpending]
    rw [hret, hg.timerPending_iff]
    constructor
    · rintro ⟨i, d, hcurrent⟩
      exact ⟨i, d, hg.ledger.current t i d hcurrent⟩
    · rintro ⟨i, d, hget, hnot, hdone⟩
      exact ⟨i, d, ((hg.ledger.ended i t d hget).resolve_left hnot).resolve_left hdone⟩

lemma good_of_reachable {jiffies : Jiffies} {p : Base T × History T}
    (hp : (recordedMachine df jiffies).Reachable p) : Good p.1 p.2 := by
  refine hp.invariant (I := fun p => Good p.1 p.2) (good_init jiffies) fun p a hg ha => ?_
  exact hg.next a ha

/-! ### Ticks without timers -/

/-- No list has a timer, except for one. -/
structure Lone (b : Base T) (l : Level) (i : ℕ) : Prop where
  list : ∀ p, p ≠ .vec l i → b.list p = []
  entry : ∀ t p, b.entry t = some p → p = .vec l i

lemma cascade_of_nil (hb : b.list (.vec l i) = []) : cascade b l i = b := by
  have hlist : update b.list (.vec l i) [] = b.list := by
    rw [update_eq_self_iff, hb]
  rw [cascade, hb, hlist]
  rfl

lemma Lone.cascadeAll (hb : Lone b l i) (hi : index b.timerJiffies l ≠ i) (ls : List Level) :
    cascades b ls = b := by
  induction ls with
  | nil => rfl
  | cons k _ ih =>
    have hcascade : cascade b k (index b.timerJiffies k) = b := by
      refine cascade_of_nil (hb.list _ fun hp => ?_)
      cases hp
      exact hi rfl
    rw [cascades_cons, hcascade, ih, ite_self]

lemma Lone.tick (hb : Lone b l i) (hl : l ≠ 0) (hi : index b.timerJiffies l ≠ i) :
    startTick b = { b with timerJiffies := b.timerJiffies + 1, phase := .work } := by
  have hne : ∀ k, Place.vec 0 k ≠ .vec l i := by
    intro k hk
    cases hk
    exact hl rfl
  have hnil : ∀ k, b.list (.vec 0 k) = [] := fun k => hb.list _ (hne k)
  have hlist : ∀ k, update (update b.list .work []) (.vec 0 k) [] = b.list := by
    intro k
    have hwork : update b.list .work [] = b.list := by
      rw [update_eq_self_iff, hb.list _ (by simp)]
    rw [hwork, update_eq_self_iff, hnil]
  have hentry : ∀ k, (fun t => if b.entry t = some (.vec 0 k) then some Place.work
      else b.entry t) = b.entry := by
    intro k
    funext t
    rw [if_neg fun ht => hne k (hb.entry t _ ht)]
  unfold startTick
  simp only [hb.cascadeAll hi, ite_self, takeList, hnil, hlist, hentry]

lemma lone_modTimer (df : T → Bool) (jiffies : Jiffies) (t : T) (e : Jiffies) (slack : ℤ)
    (junk : Jiffies) : Lone (modTimer df (initBase T jiffies) t e slack junk).2
      (slotOf jiffies (applySlack slack junk jiffies e)).1
      (slotOf jiffies (applySlack slack junk jiffies e)).2 := by
  constructor
  · intro p hp
    simp [modTimer, modTimerCore, armTimer, internalAddTimer, timerPending, initBase, hp]
  · intro t' p hp
    by_cases ht : t' = t
    · subst ht
      simp only [modTimer, modTimerCore, armTimer, internalAddTimer, timerPending, initBase,
        isSome_none, Bool.false_eq_true, false_and, if_false, update_self,
        Option.some.injEq] at hp
      exact hp.symm
    · simp [modTimer, modTimerCore, armTimer, internalAddTimer, timerPending, initBase, ht] at hp

lemma timeAfterEq_ofNat {m n : ℕ} (hle : n ≤ m) (hlt : m < n + 2 ^ 63) :
    timeAfterEq (BitVec.ofNat 64 m) (BitVec.ofNat 64 n) = true := by
  have hfuture : Future (BitVec.ofNat 64 m) n m := ⟨rfl, hle, hlt⟩
  have := hfuture.not_neg
  unfold timeAfterEq
  rw [decide_eq_true_iff]
  omega

section

variable {df : T → Bool} {jiffies : Jiffies} {l : Level} {i : ℕ}

lemma reachable_quietTick (hp : (recordedMachine df jiffies).Reachable (b, h))
    (hphase : b.phase = .loop) (hb : Lone b l i) (hl : l ≠ 0) (hi : index b.timerJiffies l ≠ i)
    (htime : timeAfterEq b.jiffies b.timerJiffies = true) :
    (recordedMachine df jiffies).Reachable
      ({ b with timerJiffies := b.timerJiffies + 1 }, { h with tick := h.tick + 1 }) := by
  have hstart := hp.step .step (show b.phase.unlocked = false by rw [hphase]; rfl)
  have hnext : (recordedMachine df jiffies).next (b, h) .step =
      ({ b with timerJiffies := b.timerJiffies + 1, phase := .work },
        { h with tick := h.tick + 1 }) := by
    simp only [recordedMachine, Machine.record, timerMachine, Action.next, runStep, note, hphase,
      htime, if_true, hb.tick hl hi]
  rw [hnext] at hstart
  have hend := hstart.step .step rfl
  have hlist : b.list .work = [] := hb.list _ (by simp)
  have hnext' : (recordedMachine df jiffies).next
      ({ b with timerJiffies := b.timerJiffies + 1, phase := .work },
        { h with tick := h.tick + 1 }) .step =
      ({ b with timerJiffies := b.timerJiffies + 1 }, { h with tick := h.tick + 1 }) := by
    simp only [recordedMachine, Machine.record, timerMachine, Action.next, runStep, note, hlist,
      hphase]
  rwa [hnext'] at hend

lemma reachable_quietTicks (k : ℕ) (hp : (recordedMachine df jiffies).Reachable (b, h))
    (hphase : b.phase = .loop) (hb : Lone b l i) (hl : l ≠ 0)
    (hi : ∀ m < k, index (b.timerJiffies + BitVec.ofNat 64 m) l ≠ i)
    (htime : ∀ m < k, timeAfterEq b.jiffies (b.timerJiffies + BitVec.ofNat 64 m) = true) :
    (recordedMachine df jiffies).Reachable
      ({ b with timerJiffies := b.timerJiffies + BitVec.ofNat 64 k },
        { h with tick := h.tick + k }) := by
  induction k with
  | zero => simpa using hp
  | succ k ih =>
    have hk := ih (fun m hm => hi m (by omega)) fun m hm => htime m (by omega)
    have hnext := reachable_quietTick hk hphase ⟨hb.list, hb.entry⟩ hl (hi k (by omega))
      (htime k (by omega))
    have hsucc : BitVec.ofNat 64 (k + 1) = BitVec.ofNat 64 k + 1 := BitVec.ofNat_add k 1
    rw [hsucc, ← BitVec.add_assoc]
    exact hnext

/-- The base and its record `k` ticks after a first timer was added, if no list was touched
since. -/
def parked (deferrable : T → Bool) (jiffies : Jiffies) (t : T) (e : Jiffies) (slack : ℤ) (k : ℕ) :
    Base T × History T :=
  ({ (modTimer deferrable (initBase T jiffies) t e slack 0).2 with
      timerJiffies := jiffies + BitVec.ofNat 64 k
      jiffies := jiffies + BitVec.ofNat 64 k
      phase := .loop },
    { note (initBase T jiffies) (.addTimer t e slack 0) ⟨jiffies.toNat, .empty⟩ with
      tick := jiffies.toNat + k })

lemma reachable_parked {t : T} {e : Jiffies} {slack : ℤ} {k start : ℕ} (hk : k < 2 ^ 63)
    (hstart : jiffies = BitVec.ofNat 64 start)
    (hslot : slotOf jiffies (applySlack slack 0 jiffies e) = (l, i)) (hl : l ≠ 0)
    (hi : ∀ m < k, (start + m) / 2 ^ shift l % size l ≠ i) :
    (recordedMachine df jiffies).Reachable (parked df jiffies t e slack k) := by
  have hlone := lone_modTimer df jiffies t e slack 0
  rw [hslot] at hlone
  have hp := Machine.reachable_of_admits (M := recordedMachine df jiffies)
    [.addTimer t e slack 0, .advance k, .runTimers] ⟨⟨rfl, rfl⟩, trivial, rfl, trivial⟩
  refine reachable_quietTicks k hp rfl ⟨hlone.list, hlone.entry⟩ hl (fun m hm => ?_) fun m hm => ?_
  · change index (jiffies + BitVec.ofNat 64 m) l ≠ i
    rw [hstart, ← BitVec.ofNat_add, index_ofNat]
    exact hi m hm
  · change timeAfterEq (jiffies + BitVec.ofNat 64 k) (jiffies + BitVec.ofNat 64 m) = true
    rw [hstart, ← BitVec.ofNat_add, ← BitVec.ofNat_add]
    exact timeAfterEq_ofNat (by omega) (by omega)

end

/-! ### The law -/

/-- The function of every timer that is armed, and not deleted or modified again, is called exactly
once, while the tick is processed when it is due. -/
theorem timer_wheel_law (deferrable : T → Bool) (jiffies : Jiffies) (p : Base T × History T)
    (hp : (recordedMachine deferrable jiffies).Reachable p) : TimerLaw deferrable p.1 p.2 :=
  (good_of_reachable hp).law deferrable

/-- A timer that is due after 256 ticks is on a list of `tv2`, and is called when the last tick
has moved it to `tv1`. -/
def cascadedRun : Base Unit × History Unit :=
  (recordedMachine (fun _ => false) 0).runFrom (parked (fun _ => false) 0 () 256 0 256)
    [.step, .step, .ret, .step, .step]

theorem timer_wheel_law_cascadedRun : slotOf 0 256 = (1, 1) ∧
    cascadedRun.2.ledger.doneJobs = [some 0] ∧
    TimerLaw (fun _ => false) cascadedRun.1 cascadedRun.2 := by
  refine ⟨by decide, by decide, timer_wheel_law _ 0 _ ?_⟩
  have hslot : slotOf 0 (applySlack 0 0 0 256) = (1, 1) := by decide
  refine (reachable_parked (by decide) rfl hslot (by decide) fun m hm => ?_).runFrom (by decide)
  simp only [shift, size]
  omega

/-! ### Slack -/

/-- A timer that `add_timer` was asked to start 256 ticks from now, with the slack that `init_timer`
sets, after the tick was processed that comes after 256 others. -/
def slackState : Base Unit × History Unit :=
  (recordedMachine (fun _ : Unit => false) (2 ^ 32)).runFrom
    (parked (fun _ => false) (2 ^ 32) () (2 ^ 32 + 256) (-1) 256) [.step, .step]

/-- The function of the timer was not called, though the tick that was asked for was processed. -/
theorem not_called_slackState :
    (recordedMachine (fun _ : Unit => false) (2 ^ 32)).Reachable slackState ∧
      slackState.1.phase = .loop ∧ slackState.1.timerJiffies = 2 ^ 32 + 256 + 1 ∧
      slackState.1.expires () = 2 ^ 32 + 257 ∧ slackState.2.ledger.jobs.length = 1 ∧
      slackState.2.ledger.dropped = [] ∧ slackState.2.ledger.done.length = 0 := by
  have hp : (recordedMachine (fun _ : Unit => false) (2 ^ 32)).Reachable
      (parked (fun _ => false) (2 ^ 32) () (2 ^ 32 + 256) (-1) 256) := by
    refine reachable_parked (l := 1) (i := 1) (by decide)
      (show _ = BitVec.ofNat 64 (2 ^ 32) by decide) (by decide) (by decide) fun m hm => ?_
    simp only [shift, size]
    omega
  have hadm : (recordedMachine (fun _ : Unit => false) (2 ^ 32)).Admits
      (parked (fun _ => false) (2 ^ 32) () (2 ^ 32 + 256) (-1) 256) [.step, .step] := by decide
  exact ⟨hp.runFrom hadm, by decide⟩

end LklPort.TimerWheel
