import LklPort.TimerWheel.Search

/-!
# The tick is not stopped for too long

`get_next_timer_interrupt` keeps the time of the next timer in `base->next_timer` and searches for
it only if that time has come. So the value must stay right while timers are added and deleted. It
does, and the search is right too, unless a timer is parked in a list of `tv5` that does not fit its
time.
-/

namespace LklPort.TimerWheel

open List

variable {T : Type} [DecidableEq T]

/-- The tick when a pending timer is due: `max(expires, timer_jiffies)`. -/
def dueTime (b : Base T) (t : T) : Jiffies :=
  if timeBefore (b.expires t) b.timerJiffies then b.timerJiffies else b.expires t

/-- What `get_next_timer_interrupt` leaves in `base->next_timer` is not after a timer. -/
structure NextTimerLaw (deferrable : T → Bool) (b : Base T) : Prop where
  not_after : ∀ t, deferrable t = false → timerPending b t = true →
    timeAfter (dueTime b t) (b.timerJiffies + nextTimerMaxDelta) = false →
    timeAfter (getNextTimerInterrupt deferrable b).nextTimer (dueTime b t) = false
  /-- The value is computed now. -/
  bounded : timeBeforeEq b.nextTimer b.timerJiffies = true →
    timeAfter (getNextTimerInterrupt deferrable b).nextTimer
      (b.timerJiffies + nextTimerMaxDelta) = false

/-- The condition on the steps of a run. -/
def Tame (deferrable : T → Bool) (b : Base T) : Action T → Prop
  | .addTimer t expires slack junk | .modTimer t expires slack junk =>
    deferrable t = false → InRange b.timerJiffies (applySlack slack junk b.jiffies expires)
  | .modTimerPending t expires => deferrable t = false → InRange b.timerJiffies expires
  | .step => -2 ^ 62 < ahead b.timerJiffies b.nextTimer
  | .getNextTimerInterrupt =>
    timeBeforeEq b.nextTimer b.timerJiffies = true → Sorted deferrable b
  | .advance _ | .delTimer _ | .runTimers | .ret => True

/-! ### The invariant -/

/-- The timer is on a list of a vector. -/
def Waiting (b : Base T) (t : T) : Prop := ∃ l i, b.entry t = some (.vec l i)

/-- The value of `base->next_timer` has expired, or it is not after any timer. -/
structure NextGood (df : T → Bool) (b : Base T) : Prop where
  range : ∀ t, df t = false → Waiting b t → InRange b.timerJiffies (b.expires t)
  next_range : InRange b.timerJiffies b.nextTimer
  early : ahead b.timerJiffies b.nextTimer ≤ 0 ∨
    ∀ t, df t = false → Waiting b t →
      ahead b.timerJiffies b.nextTimer ≤ max (ahead b.timerJiffies (b.expires t)) 0

variable {df : T → Bool} {b : Base T} {t : T}

omit [DecidableEq T] in
lemma NextGood.anti {b' : Base T} (h : NextGood df b)
    (hnow : b'.timerJiffies = b.timerJiffies) (hnext : b'.nextTimer = b.nextTimer)
    (hwaiting : ∀ t, Waiting b' t → Waiting b t ∧ b'.expires t = b.expires t) :
    NextGood df b' := by
  refine ⟨fun t hdef ht => ?_, ?_, ?_⟩
  · obtain ⟨ht, hexp⟩ := hwaiting t ht
    rw [hnow, hexp]
    exact h.range t hdef ht
  · rw [hnow, hnext]
    exact h.next_range
  · rw [hnow, hnext]
    refine h.early.imp_right fun hearly t hdef ht => ?_
    obtain ⟨ht, hexp⟩ := hwaiting t ht
    rw [hexp]
    exact hearly t hdef ht

lemma waiting_detachTimer {t' : T} {clear : Bool} (h : Waiting (detachTimer b t clear) t') :
    Waiting b t' := by
  obtain ⟨l, i, hentry⟩ := h
  refine ⟨l, i, ?_⟩
  simp only [detachTimer] at hentry
  split_ifs at hentry
  · by_cases ht : t' = t
    · subst ht
      simp at hentry
    · rwa [Function.update_of_ne ht] at hentry
  · exact hentry

lemma NextGood.detach (h : NextGood df b) (clear : Bool) : NextGood df (detachTimer b t clear) :=
  h.anti rfl rfl fun _ ht => ⟨waiting_detachTimer ht, rfl⟩

omit [DecidableEq T] in
lemma NextGood.forget (h : NextGood df b) : NextGood df (forgetNextTimer df b t) := by
  unfold forgetNextTimer
  split_ifs
  · exact ⟨h.range, by simp [InRange], .inl (by simp)⟩
  · exact h

variable {e : Jiffies} {h : History T}

lemma NextGood.arm (h : NextGood df b) (he : df t = false → InRange b.timerJiffies e) :
    NextGood df (armTimer df b t e) := by
  have hwaiting : ∀ t' ≠ t, Waiting (armTimer df b t e) t' → Waiting b t' := by
    rintro t' ht ⟨l, i, hentry⟩
    exact ⟨l, i, by simpa [armTimer, internalAddTimer, ht] using hentry⟩
  have hother : ∀ t' ≠ t, (armTimer df b t e).expires t' = b.expires t' := by
    intro t' ht
    simp [armTimer, internalAddTimer, ht]
  have hself : (armTimer df b t e).expires t = e := by
    simp [armTimer, internalAddTimer]
  have hnow : (armTimer df b t e).timerJiffies = b.timerJiffies := rfl
  have hnext : (armTimer df b t e).nextTimer =
      if timeBefore e b.nextTimer ∧ df t = false then e else b.nextTimer := rfl
  have hrange := h.next_range
  have hle : ahead b.timerJiffies (armTimer df b t e).nextTimer ≤ ahead b.timerJiffies b.nextTimer ∧
      (df t = false → ahead b.timerJiffies (armTimer df b t e).nextTimer ≤ ahead b.timerJiffies e) ∧
      InRange b.timerJiffies (armTimer df b t e).nextTimer := by
    rw [hnext]
    by_cases hdef : df t = false
    · have hin := he hdef
      have hbefore := timeBefore_iff (j := b.timerJiffies) (x := e) (y := b.nextTimer)
        (by unfold InRange at hin hrange; omega) (by unfold InRange at hin hrange; omega)
      split_ifs with hlt
      · rw [hbefore] at hlt
        exact ⟨by omega, fun _ => le_refl _, hin⟩
      · rw [hbefore] at hlt
        simp only [hdef, and_true] at hlt
        exact ⟨le_refl _, fun _ => by omega, hrange⟩
    · rw [if_neg fun hlt => hdef hlt.2]
      exact ⟨le_refl _, fun h => absurd h hdef, hrange⟩
  refine ⟨fun t' hdef ht' => ?_, hle.2.2, ?_⟩
  · by_cases ht : t' = t
    · subst ht
      rw [hself]
      exact he hdef
    · rw [hother t' ht]
      exact h.range t' hdef (hwaiting t' ht ht')
  · rw [hnow]
    refine h.early.imp (fun hpast => by omega) fun hearly t' hdef ht' => ?_
    by_cases ht : t' = t
    · subst ht
      rw [hself]
      exact le_trans (hle.2.1 hdef) (le_max_left _ _)
    · rw [hother t' ht]
      exact le_trans hle.1 (hearly t' hdef (hwaiting t' ht ht'))

lemma NextGood.modify {o : Bool} (h : NextGood df b)
    (he : df t = false → InRange b.timerJiffies e) :
    NextGood df (modTimerCore df b t e o).2 := by
  unfold modTimerCore
  split_ifs
  · apply ((h.detach false).forget).arm
    have hnow : (forgetNextTimer df (detachTimer b t false) t).timerJiffies = b.timerJiffies := by
      unfold forgetNextTimer
      split_ifs <;> rfl
    rw [hnow]
    exact he
  · exact h
  · exact h.arm he

lemma NextGood.del (h : NextGood df b) : NextGood df (delTimer df b t).2 := by
  unfold delTimer
  split_ifs
  · exact (h.detach true).forget
  · exact h

lemma ahead_add_one {j : Jiffies} (h : -2 ^ 63 < ahead j e) : ahead (j + 1) e = ahead j e - 1 := by
  have hsub : e - (j + 1) = (e - j) - 1 := by bv_omega
  have hlt := (e - j).toInt_lt
  have hone : (1 : Jiffies).toInt = 1 := by decide
  unfold ahead at h ⊢
  rw [hsub, BitVec.toInt_sub, hone]
  exact Int.bmod_eq_of_le (by omega) (by omega)

lemma expires_startTick (b : Base T) : (startTick b).expires = b.expires := by
  unfold startTick takeList
  simp only
  split_ifs
  · exact cascades_frame (fun b => b.expires) (fun _ _ => rfl) (fun _ _ _ => rfl) b _
  · rfl

lemma nextTimer_startTick (b : Base T) : (startTick b).nextTimer = b.nextTimer := by
  unfold startTick takeList
  simp only
  split_ifs
  · exact cascades_frame (fun b => b.nextTimer) (fun _ _ => rfl) (fun _ _ _ => rfl) b _
  · rfl

variable {n : ℕ} {due : T → Option ℕ}

lemma ahead_of_waiting_startTick (hw : Wheel (fun _ => False) b n due [])
    (hwork : b.list .work = []) (ht : Waiting (startTick b) t) :
    Waiting b t ∧ 1 ≤ ahead b.timerJiffies (b.expires t) := by
  have hw' := hw.tick hwork
  obtain ⟨l, i, hentry⟩ := ht
  obtain ⟨d, hd⟩ := hw'.exists_due hentry
  have hle := hw'.le_due hentry hd
  cases hold : b.entry t with
  | none =>
    simp [(hw.pending t).1 hold] at hd
  | some p =>
    cases p with
    | work =>
      rw [← hw.mem_iff, hwork] at hold
      exact absurd hold not_mem_nil
    | vec k m =>
      refine ⟨⟨k, m, hold⟩, ?_⟩
      obtain ⟨-, hfuture | ⟨-, rfl, -⟩⟩ := hw.placed t k m d not_mem_nil hold hd
      · rw [hw.now, hfuture.ahead_eq]
        omega
      · omega

lemma NextGood.tick (h : NextGood df b) (hw : Wheel (fun _ => False) b n due [])
    (hwork : b.list .work = []) (hstale : -2 ^ 62 < ahead b.timerJiffies b.nextTimer) :
    NextGood df (startTick b) := by
  have hnow : (startTick b).timerJiffies = b.timerJiffies + 1 := by
    rw [(hw.tick hwork).now, hw.now]
    exact BitVec.ofNat_add n 1
  have hnext := h.next_range
  have hstep : ahead (b.timerJiffies + 1) b.nextTimer = ahead b.timerJiffies b.nextTimer - 1 :=
    ahead_add_one (by omega)
  have htimer : ∀ t, df t = false → Waiting (startTick b) t →
      Waiting b t ∧ 1 ≤ ahead b.timerJiffies (b.expires t) ∧
        ahead (b.timerJiffies + 1) (b.expires t) = ahead b.timerJiffies (b.expires t) - 1 := by
    intro t hdef ht
    obtain ⟨ht, hahead⟩ := ahead_of_waiting_startTick hw hwork ht
    exact ⟨ht, hahead, ahead_add_one (by omega)⟩
  refine ⟨fun t hdef ht => ?_, ?_, ?_⟩
  · obtain ⟨ht, hahead, heq⟩ := htimer t hdef ht
    have hrange := h.range t hdef ht
    rw [hnow, expires_startTick]
    unfold InRange at hrange ⊢
    omega
  · rw [hnow, nextTimer_startTick]
    unfold InRange at hnext ⊢
    omega
  · rw [hnow, nextTimer_startTick, expires_startTick]
    refine h.early.imp (fun hpast => by omega) fun hearly t hdef ht => ?_
    obtain ⟨ht, hahead, heq⟩ := htimer t hdef ht
    have := hearly t hdef ht
    omega

lemma NextGood.step (hg : Good b h) (hn : NextGood df b)
    (hstale : -2 ^ 62 < ahead b.timerJiffies b.nextTimer) : NextGood df (runStep b) := by
  unfold runStep
  cases hphase : b.phase with
  | idle | callback t => exact hn
  | loop =>
    split_ifs
    · exact hn.tick hg.wheel (hg.work (.inr hphase)) hstale
    · exact hn.anti rfl rfl fun _ ht => ⟨ht, rfl⟩
  | work =>
    cases b.list .work with
    | nil => exact hn.anti rfl rfl fun _ ht => ⟨ht, rfl⟩
    | cons => exact (hn.detach true).anti rfl rfl fun _ ht => ⟨ht, rfl⟩

omit [DecidableEq T] in
lemma Good.searchable (hg : Good b h) (hn : NextGood df b) (hsorted : Sorted df b) :
    Searchable df b h.tick h.due :=
  ⟨hg.wheel, hsorted, fun t l i hdef hentry => hn.range t hdef ⟨l, i, hentry⟩⟩

omit [DecidableEq T] in
lemma Good.max_ahead {l : Level} {i d : ℕ} (hg : Good b h) (hentry : b.entry t = some (.vec l i))
    (hd : h.due t = some d) : max (ahead b.timerJiffies (b.expires t)) 0 = d - h.tick := by
  have hle := hg.wheel.le_due hentry hd
  obtain ⟨-, hexp⟩ := hg.wheel.placed t l i d not_mem_nil hentry hd
  rw [hg.wheel.now] at hexp ⊢
  obtain hfuture | ⟨-, rfl, hpast⟩ := hexp
  · rw [hfuture.ahead_eq]
    omega
  · unfold ahead
    omega

omit [DecidableEq T] in
lemma NextGood.getNext (hg : Good b h) (hn : NextGood df b)
    (hsorted : timeBeforeEq b.nextTimer b.timerJiffies = true → Sorted df b) :
    NextGood df (getNextTimerInterrupt df b) := by
  unfold getNextTimerInterrupt
  split_ifs with htime
  · have hearly := nextTimerInterrupt_early (hg.searchable hn (hsorted htime))
    refine ⟨hn.range, hearly.range, .inr fun t hdef ht => ?_⟩
    obtain ⟨l, i, hentry⟩ := ht
    obtain ⟨d, hd⟩ := hg.wheel.exists_due hentry
    simp only
    rw [hg.max_ahead hentry hd]
    exact hearly.early t l i d hdef trivial hentry hd
  · exact hn

lemma NextGood.next (hg : Good b h) (hn : NextGood df b) (a : Action T)
    (htame : Tame df b a) : NextGood df (a.next df b) := by
  cases a with
  | advance ticks | runTimers | ret => exact hn.anti rfl rfl fun _ ht => ⟨ht, rfl⟩
  | addTimer t e slack junk | modTimer t e slack junk =>
    simp only [Action.next, modTimer]
    split_ifs
    · exact hn
    · exact hn.modify htame
  | modTimerPending => exact hn.modify htame
  | delTimer => exact hn.del
  | step => exact hn.step hg htame
  | getNextTimerInterrupt => exact hn.getNext hg htame

/-! ### Whole runs -/

omit [DecidableEq T] in
lemma nextGood_init (jiffies : Jiffies) : NextGood df (initBase T jiffies) := by
  refine ⟨fun t _ ht => ?_, by simp [initBase, InRange], .inl (by simp [initBase])⟩
  obtain ⟨l, i, hentry⟩ := ht
  simp [initBase] at hentry

omit [DecidableEq T] in
lemma ahead_dueTime (b : Base T) (t : T) :
    ahead b.timerJiffies (dueTime b t) = max (ahead b.timerJiffies (b.expires t)) 0 := by
  have hbefore : timeBefore (b.expires t) b.timerJiffies = true ↔
      ahead b.timerJiffies (b.expires t) < 0 := decide_eq_true_iff
  unfold dueTime
  split_ifs with hlt
  · rw [hbefore] at hlt
    rw [ahead_self]
    omega
  · rw [hbefore] at hlt
    omega

omit [DecidableEq T] in
lemma NextGood.law (hg : Good b h) (hn : NextGood df b) (hidle : b.phase = .idle)
    (hsorted : timeBeforeEq b.nextTimer b.timerJiffies = true → Sorted df b) :
    NextTimerLaw df b := by
  have hget := hn.getNext hg hsorted
  have hnow : (getNextTimerInterrupt df b).timerJiffies = b.timerJiffies := by
    unfold getNextTimerInterrupt
    split_ifs <;> rfl
  have hsame : (getNextTimerInterrupt df b).entry = b.entry ∧
      (getNextTimerInterrupt df b).expires = b.expires := by
    unfold getNextTimerInterrupt
    split_ifs <;> exact ⟨rfl, rfl⟩
  have hnext := hget.next_range
  have hearly := hget.early
  simp only [Waiting, hsame.1, hsame.2, hnow] at hnext hearly
  refine ⟨fun t hdef hpending _ => ?_, fun htime => ?_⟩
  · obtain ⟨l, i, hentry⟩ : Waiting b t := by
      cases hentry : b.entry t with
      | none => simp [timerPending, hentry] at hpending
      | some p =>
        cases p with
        | vec l i => exact ⟨l, i, hentry⟩
        | work =>
          rw [← hg.wheel.mem_iff, hg.work (.inl hidle)] at hentry
          exact absurd hentry not_mem_nil
    have hrange := hn.range t hdef ⟨l, i, hentry⟩
    have hdue := ahead_dueTime b t
    have hle : ahead b.timerJiffies (getNextTimerInterrupt df b).nextTimer ≤
        ahead b.timerJiffies (dueTime b t) := by
      rw [hdue]
      obtain hpast | hearly := hearly
      · exact le_trans hpast (le_max_right _ _)
      · exact hearly t hdef ⟨l, i, hentry⟩
    unfold InRange at hnext hrange
    exact timeAfter_eq_false (by omega) (by omega) hle
  · have hmax := ahead_add_maxDelta b.timerJiffies
    have hle := (nextTimerInterrupt_early (hg.searchable hn (hsorted htime))).le_max
    have heq : (getNextTimerInterrupt df b).nextTimer = nextTimerInterrupt df b := by
      unfold getNextTimerInterrupt
      rw [if_pos htime]
    rw [heq] at hnext ⊢
    unfold InRange at hnext
    exact timeAfter_eq_false (j := b.timerJiffies) (by omega) (by omega) (by omega)

/-- In every run whose steps meet the condition, `get_next_timer_interrupt` leaves a time that is
not after any timer. -/
theorem next_timer_law (deferrable : T → Bool) (jiffies : Jiffies) (b : Base T)
    (hb : ((timerMachine deferrable jiffies).restrict (Tame deferrable)).Reachable b)
    (hget : ((timerMachine deferrable jiffies).restrict (Tame deferrable)).guard b
      .getNextTimerInterrupt) : NextTimerLaw deferrable b := by
  obtain ⟨h, hr⟩ := hb.exists_record ⟨jiffies.toNat, .empty⟩ note
  have hinv : Good b h ∧ NextGood deferrable b := by
    refine hr.invariant (I := fun p => Good p.1 p.2 ∧ NextGood deferrable p.1)
      ⟨good_init jiffies, nextGood_init jiffies⟩ fun p a hp ha => ?_
    exact ⟨hp.1.next a ha.1, hp.2.next hp.1 a ha.2⟩
  exact hinv.2.law hinv.1 hget.1 hget.2

/-- A base with a timer that is due 100 ticks from the start. -/
def soonState : Base Unit := Action.next (fun _ => false) (initBase Unit 0) (.addTimer () 100 0 0)

theorem next_timer_law_soonState : NextTimerLaw (fun _ => false) soonState := by
  have hentry : soonState.entry () = some (.vec 0 100) := by decide
  refine next_timer_law _ 0 _ (Machine.Reachable.init.step (Action.addTimer () 100 0 0) ?_) ?_
  · exact ⟨⟨rfl, rfl⟩, fun _ => by decide⟩
  · refine ⟨rfl, fun _ t i _ ht => ?_⟩
    rw [hentry] at ht
    cases ht

/-! ### A timer that hides another one -/

/-- The timer `true` is `2 ^ 40` ticks away when it is added, and so on the last list of `tv5`. Then
`62 * 2 ^ 26` ticks later the timer `false` is added, which is due after the last list is
cascaded. -/
def hiddenState : Base Bool :=
  ((recordedMachine (fun _ : Bool => false) (2 ^ 32)).runFrom
    (parked (fun _ => false) (2 ^ 32) true (2 ^ 32 + 2 ^ 40) 0 (62 * 2 ^ 26))
    [.step, .step, .step, .addTimer false (2 ^ 33 + 5) 0 0]).1

theorem not_next_timer_law_hiddenState :
    (timerMachine (fun _ : Bool => false) (2 ^ 32)).Reachable hiddenState ∧
      hiddenState.phase = .idle ∧ ¬ NextTimerLaw (fun _ => false) hiddenState := by
  have hp : (recordedMachine (fun _ : Bool => false) (2 ^ 32)).Reachable
      (parked (fun _ => false) (2 ^ 32) true (2 ^ 32 + 2 ^ 40) 0 (62 * 2 ^ 26)) := by
    refine reachable_parked (l := 4) (i := 63) (by decide)
      (show _ = BitVec.ofNat 64 (2 ^ 32) by decide) (by decide) (by decide) fun m hm => ?_
    simp only [shift, size]
    omega
  have hadm : (recordedMachine (fun _ : Bool => false) (2 ^ 32)).Admits
      (parked (fun _ => false) (2 ^ 32) true (2 ^ 32 + 2 ^ 40) 0 (62 * 2 ^ 26))
      [.step, .step, .step, .addTimer false (2 ^ 33 + 5) 0 0] := by decide
  refine ⟨Machine.Reachable.of_record (hp.runFrom hadm), by decide, fun hlaw => ?_⟩
  have hafter : timeAfter (getNextTimerInterrupt (fun _ => false) hiddenState).nextTimer
      (dueTime hiddenState false) = true := by decide +kernel
  rw [hlaw.not_after false rfl (by decide) (by decide)] at hafter
  cases hafter

end LklPort.TimerWheel
