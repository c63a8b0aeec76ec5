import LklPort.Threads.Token

/-!
# The last task of a context switch

`switch_to(prev, next, last)` is meant to give `last` the task that ran before the caller was
resumed, and `finish_task_switch` relies on it to drop the `current` reference of a task in
`TASK_DEAD`. `thread_bootstrap` finds that task in `ti->prev_sched`. `__switch_to` returns its own
argument instead, so a task that is resumed there is handed itself.
-/

namespace LklPort.Threads

open List

attribute [local simp] State.goto State.init switchPost next

/-- The task has been released and its thread has not resumed yet. -/
def InTransit (s : State) (n : TaskId) : Prop :=
  (s.tasks n).HasToken ∧ (s.tasks n).pc.resuming

/-- The task that `d` has released has not resumed yet. -/
def Pending (s : State) (d : TaskId) : Prop :=
  ∃ n, InTransit s n ∧ s.releasedBy n = some d

/-- The calls of `finish_task_switch` that were handed `d` in `TASK_DEAD`. Each of them drops one
reference of `d`, as the one for its use as `current`. -/
def deadFinishes (s : State) (d : TaskId) : ℕ :=
  s.finishes.countP fun f => decide (f.prev = d) && f.prevDead

/-- The thread has left `__switch_to` behind its `sem_up`, to wait or to be torn down. -/
def Pc.switchedAway (pc : Pc) : Bool :=
  pc = .switchDown || pc = .switchCheck || pc.exiting

/-- Every `finish_task_switch` is handed the task that released its caller, and once a task has
entered `TASK_DEAD`, has switched away and the task it released has resumed, exactly one
`finish_task_switch` has been called for it and its `current` reference is gone. -/
def LastTaskLaw (s : State) : Prop :=
  (∀ f ∈ s.finishes, f.releaser = some f.prev) ∧
    ∀ d, (s.tasks d).state = .dead → (s.tasks d).pc.switchedAway → ¬ Pending s d →
      deadFinishes s d = 1 ∧ (s.tasks d).curRef = false

/-- The switch is to a task whose host thread is still in `thread_bootstrap`. -/
def SwitchToFresh (s : State) : Act → Prop
  | .switchTo _ n => (s.tasks n).pc = .bootFree ∨ (s.tasks n).pc = .bootDown
  | _ => True

instance decidableSwitchToFresh (s : State) (a : Act) : Decidable (SwitchToFresh s a) := by
  induction a using Act.casesOn <;> dsimp only [SwitchToFresh] <;> infer_instance

/-! ### The steps of a thread at `Pc.kernel` -/

/-- What the steps of a running thread have in common: it keeps the token, `finish_task_switch` is
not called, no `current` reference is dropped, and only the thread itself can enter `TASK_DEAD`. -/
structure KernelStep (s : State) (a : Act) (t : TaskId) (s' : State) : Prop where
  kernel : (s.tasks t).pc = .kernel
  token : (s'.tasks t).HasToken
  running : (s'.tasks t).pc.resuming = false
  finishes : s'.finishes = s.finishes
  dead : ∀ d, (s'.tasks d).state = .dead → d = t ∨ (s.tasks d).state = .dead
  ref : ∀ d, (s'.tasks d).state = .dead ∧ (s'.tasks d).curRef = false ↔
    (s.tasks d).state = .dead ∧ (s.tasks d).curRef = false
  up : ∀ n, (s'.tasks t).pc = .switchUp n →
    a = .switchTo t n ∧ (s'.tasks n).prevSched = some t ∧ (s'.tasks n).pc = (s.tasks n).pc

/-- The tasks do not differ in what is handed over. -/
structure Task.Alike (x y : Task) : Prop where
  state : x.state = y.state
  ref : x.curRef = y.curRef
  prev : x.prevSched = y.prevSched

variable {f : Task → Task} {s : State}

lemma alike_modify {t : TaskId} (h : (f (s.tasks t)).Alike (s.tasks t)) (i : TaskId) :
    ((s.modify t f).tasks i).Alike (s.tasks i) :=
  forall_modify (P := fun i x => x.Alike (s.tasks i)) h (fun _ _ => ⟨rfl, rfl, rfl⟩) i

lemma goto_alike (s : State) (t i : TaskId) (pc : Pc) :
    ((s.goto t pc).tasks i).Alike (s.tasks i) := alike_modify ⟨rfl, rfl, rfl⟩ i

section

variable {s s' : State} {t p : TaskId} {a : Act}

section

variable (h' : Inv s') (ht : (s.tasks t).pc = .kernel) (ht' : (s'.tasks t).pc = .kernel)

include h' ht ht'

lemma kernelStep_of_kernel (hfin : s'.finishes = s.finishes)
    (hdead : ∀ d, (s'.tasks d).state = .dead → d = t ∨ (s.tasks d).state = .dead)
    (href : ∀ d, (s'.tasks d).state = .dead ∧ (s'.tasks d).curRef = false ↔
      (s.tasks d).state = .dead ∧ (s.tasks d).curRef = false) : KernelStep s a t s' :=
  ⟨ht, h'.hasToken_of_kernel ht', by simp [ht'], hfin, hdead, href, by simp [ht']⟩

lemma kernelStep_of_alike (hfin : s'.finishes = s.finishes)
    (hsame : ∀ d, (s'.tasks d).Alike (s.tasks d)) : KernelStep s a t s' := by
  refine kernelStep_of_kernel h' ht ht' hfin (fun d hd => .inr ?_) fun d => ?_
  · rwa [← (hsame d).state]
  · rw [(hsame d).state, (hsame d).ref]

end

lemma kernelStep_modify (h' : Inv (s.modify p f)) (ht : (s.tasks t).pc = .kernel)
    (hpc : (f (s.tasks p)).pc = (s.tasks p).pc)
    (hdead : (f (s.tasks p)).state = .dead → p = t ∨ (s.tasks p).state = .dead)
    (href : (f (s.tasks p)).state = .dead ∧ (f (s.tasks p)).curRef = false ↔
      (s.tasks p).state = .dead ∧ (s.tasks p).curRef = false) :
    KernelStep s a t (s.modify p f) := by
  have hsame := forall_modify (P := fun i x => x.pc = (s.tasks i).pc) hpc fun _ _ => rfl
  refine kernelStep_of_kernel h' ht ((hsame t).trans ht) rfl ?_ ?_
  · exact forall_modify (P := fun d x => x.state = .dead → d = t ∨ (s.tasks d).state = .dead)
      hdead fun _ _ => .inr
  · exact forall_modify (P := fun d x => x.state = .dead ∧ x.curRef = false ↔
      (s.tasks d).state = .dead ∧ (s.tasks d).curRef = false) href fun _ _ => .rfl

lemma kernelStep_freeThreadInfo (h' : Inv (freeThreadInfo s p)) (ht : (s.tasks t).pc = .kernel) :
    KernelStep s a t (freeThreadInfo s p) :=
  kernelStep_modify h' ht rfl .inr .rfl

lemma kernelStep_crash (hinv : Inv s) (ht : (s.tasks t).pc = .kernel) {pc : Pc}
    (hpc : pc = .bug ∨ pc = .fault) : KernelStep s a t (s.goto t pc) := by
  have hlive := (hinv.ok t).kernel_live ht
  have hnew : pc.holding = true ∧ pc.resuming = false ∧ ∀ n, pc ≠ .switchUp n := by
    rcases hpc with rfl | rfl <;> simp
  have hself : ((s.goto t pc).tasks t) = { s.tasks t with pc := pc } := tasks_modify_self ..
  refine ⟨ht, ?_, ?_, rfl, ?_, ?_, ?_⟩
  · rw [hself]
    exact ⟨hlive, .inl hnew.1⟩
  · rw [hself]
    exact hnew.2.1
  · intro d hd
    rw [(goto_alike s t d pc).state] at hd
    exact .inr hd
  · intro d
    rw [(goto_alike s t d pc).state, (goto_alike s t d pc).ref]
  · intro n hn
    rw [hself] at hn
    exact absurd hn (hnew.2.2 n)

end

lemma kernelStep_next {a : Act} (hinv : Inv s) (ha : guard s a) (hhost : ∀ t, a ≠ .host t) :
    ∃ t, KernelStep s a t (next s a) := by
  have h' : Inv (next s a) := inv_step s a hinv ha
  cases a with
  | allocThreadInfo t p =>
    have hpt : t ≠ p := by
      rintro rfl
      exact (hinv.ok t).quiet (.inl ha.2) (hinv.hasToken_of_kernel ha.1)
    have ht' : ((next s (.allocThreadInfo t p)).tasks t).pc = .kernel := by
      simp [tasks_modify_of_ne s _ hpt, ha.1]
    refine ⟨t, kernelStep_of_kernel h' ha.1 ht' rfl ?_ ?_⟩ <;> intro d <;> by_cases hd : d = p
    · subst hd; simp [Task.dup]
    · simpa [tasks_modify_of_ne s _ hd] using .inr
    · subst hd; simp [Task.dup, ha.2]
    · simp [tasks_modify_of_ne s _ hd]
  | copyThread t p outcome =>
    cases outcome with
    | noTba => exact ⟨t, kernelStep_crash hinv ha.1 (.inr rfl)⟩
    | noThread => exact ⟨t, kernelStep_of_alike h' ha.1 ha.1 rfl fun _ => ⟨rfl, rfl, rfl⟩⟩
    | created =>
      have hpt : t ≠ p := by
        rintro rfl
        have := ha.1.symm.trans ha.2.2.1
        cases this
      have ht' : ((next s (.copyThread t p .created)).tasks t).pc = .kernel := by
        simp [copyThread, tasks_modify_of_ne s _ hpt, ha.1]
      exact ⟨t, kernelStep_of_alike h' ha.1 ht' rfl fun d => goto_alike s p d _⟩
  | wakeUpNewTask t =>
    exact ⟨t, kernelStep_modify (f := fun x => { x with state := .running }) h' ha.1 rfl
      (by simp) (by simp [ha.2.1])⟩
  | freeTask t => exact ⟨t, kernelStep_freeThreadInfo h' ha.1⟩
  | sleep t =>
    exact ⟨t, kernelStep_modify (f := fun x => { x with state := .blocked }) h' ha.1 rfl
      (by simp) (by simp [ha.2])⟩
  | wakeUp t =>
    exact ⟨t, kernelStep_modify (f := fun x => { x with state := .running }) h' ha.1 rfl
      (by simp) (by simp [ha.2])⟩
  | doExit t =>
    have hcur := (hinv.ok t).curRef (hinv.hasToken_of_kernel ha.1)
    exact ⟨t, kernelStep_modify (f := fun x => { x with state := .dead }) h' ha.1 rfl
      (by simp) (by simp [hcur])⟩
  | getTaskStruct t =>
    exact ⟨t, kernelStep_modify (f := fun x => { x with usage := x.usage + 1 }) h' ha.1 rfl
      .inr .rfl⟩
  | putTaskStruct t p =>
    have hframe := putTaskStruct_frame s p
    exact ⟨t, kernelStep_of_alike h' ha.1 ((hframe t).2.2.2.trans ha.1)
      (putTaskStruct_history s p).1 fun d => ⟨(hframe d).1, (hframe d).2.1, (hframe d).2.2.1⟩⟩
  | switchTo t n =>
    obtain ⟨ht, hne, -, -⟩ := ha
    have hlive := (hinv.ok t).kernel_live ht
    refine ⟨t, ht, ?_, ?_, rfl, ?_, ?_, ?_⟩
    · simp [switchTo, tasks_modify, hne.symm, Task.HasToken, hlive]
    · simp [switchTo, tasks_modify, hne.symm]
    · intro d
      simp only [next, switchTo, State.goto, tasks_modify]
      split_ifs <;> simp_all
    · intro d
      simp only [next, switchTo, State.goto, tasks_modify]
      split_ifs <;> simp_all
    · intro m hm
      have hnm : n = m := by
        simpa [switchTo, tasks_modify, hne.symm] using hm
      subst hnm
      simp [switchTo, tasks_modify, hne]
  | killThread t =>
    obtain ⟨-, ht, -, -⟩ := ha
    rw [next, killThread] at h' ⊢
    split_ifs at h' ⊢ with hrun
    · exact ⟨t, kernelStep_crash hinv ht (.inl rfl)⟩
    · exact ⟨t, kernelStep_freeThreadInfo h' ht⟩
  | host t => exact absurd rfl (hhost t)

/-! ### Handing over -/

/-- What every run keeps about the tasks handed over. -/
structure Handoff (s : State) : Prop where
  boot : ∀ f ∈ s.finishes, f.boot = true → f.releaser = some f.prev
  self : ∀ f ∈ s.finishes, f.boot = false → f.releaser ≠ some f.prev
  up : ∀ t n, (s.tasks t).pc = .switchUp n → (s.tasks n).prevSched = some t
  transit : ∀ n, InTransit s n → ∃ r, s.releasedBy n = some r ∧ (s.tasks n).prevSched = some r ∧
    r ≠ n ∧ (s.tasks r).curRef = true
  count : ∀ d, deadFinishes s d =
    if (s.tasks d).state = .dead ∧ (s.tasks d).curRef = false then 1 else 0

section

variable {s s' : State} {t : TaskId}

lemma Inv.not_inTransit (h : Inv s) (htok : (s.tasks t).HasToken)
    (hpc : (s.tasks t).pc.resuming = false) (n : TaskId) : ¬ InTransit s n := by
  rintro ⟨hn, hr⟩
  have hnt := h.unique n t hn htok
  subst hnt
  rw [hpc] at hr
  cases hr

lemma KernelStep.handoff {a : Act} (hk : KernelStep s a t s') (h' : Inv s') (h : Handoff s) :
    Handoff s' where
  boot := by rw [hk.finishes]; exact h.boot
  self := by rw [hk.finishes]; exact h.self
  up i n hi := by
    have hit := h'.unique i t (h'.hasToken_of_switchUp hi) hk.token
    subst hit
    exact (hk.up n hi).2.1
  transit n hn := absurd hn (h'.not_inTransit hk.token hk.running n)
  count d := by
    rw [show deadFinishes s' d = deadFinishes s d by simp only [deadFinishes, hk.finishes],
      h.count d]
    simp only [hk.ref d]

lemma Handoff.of_waiting (h : Handoff s) (hfin : s'.finishes = s.finishes)
    (hrel : s'.releasedBy = s.releasedBy)
    (hup : ∀ i n, (s'.tasks i).pc = .switchUp n → (s.tasks i).pc = .switchUp n)
    (htransit : ∀ n, InTransit s' n → InTransit s n)
    (hframe : ∀ i, (s'.tasks i).Alike (s.tasks i)) : Handoff s' where
  boot := by rw [hfin]; exact h.boot
  self := by rw [hfin]; exact h.self
  up i n hi := by rw [(hframe n).prev]; exact h.up i n (hup i n hi)
  transit n hn := by
    obtain ⟨r, hr, hprev, hne, href⟩ := h.transit n (htransit n hn)
    exact ⟨r, by rw [hrel, hr], by rw [(hframe n).prev, hprev], hne, by rw [(hframe r).ref, href]⟩
  count d := by
    rw [show deadFinishes s' d = deadFinishes s d by simp only [deadFinishes, hfin], h.count d,
      (hframe d).state, (hframe d).ref]

lemma Handoff.modify_waiting (h : Handoff s)
    (hup : ∀ n, (f (s.tasks t)).pc = .switchUp n → (s.tasks t).pc = .switchUp n)
    (htransit : (f (s.tasks t)).HasToken → (f (s.tasks t)).pc.resuming → InTransit s t)
    (hframe : (f (s.tasks t)).Alike (s.tasks t)) : Handoff (s.modify t f) := by
  refine h.of_waiting rfl rfl (fun i n => ?_) (fun n hn => ?_) (alike_modify hframe)
  · exact forall_modify (P := fun i x => x.pc = .switchUp n → (s.tasks i).pc = .switchUp n)
      (hup n) (fun _ _ => id) i
  · exact forall_modify (P := fun n x => x.HasToken → x.pc.resuming → InTransit s n) htransit
      (fun _ _ => .intro) n hn.1 hn.2

lemma switchPost_alike (s : State) (t n i : TaskId) :
    ((switchPost s t n).tasks i).Alike (s.tasks i) := by
  have hup := alike_modify (s := s.goto t .switchDown) (t := n)
    (f := fun x => { x with semCount := x.semCount + 1 }) ⟨rfl, rfl, rfl⟩ i
  have hgo := goto_alike s t i .switchDown
  exact ⟨hup.state.trans hgo.state, hup.ref.trans hgo.ref, hup.prev.trans hgo.prev⟩

lemma Handoff.of_switchPost (h : Handoff s) (hinv : Inv s) {n : TaskId}
    (ht : (s.tasks t).pc = .switchUp n) : Handoff (switchPost s t n) := by
  have h' : Inv (switchPost s t n) := hinv.switchPost ht
  obtain ⟨hne, hlive, hrun⟩ := hinv.up t n ht
  have htok := hinv.hasToken_of_switchUp ht
  have htasks := switchPost_alike s t n
  have hn' : ((switchPost s t n).tasks n).HasToken := by
    simp [tasks_modify, hne, Task.HasToken, hlive]
  refine ⟨h.boot, h.self, ?_, ?_, ?_⟩
  · intro i m hi
    -- the only token is now in a semaphore
    have hin := h'.unique i n (h'.hasToken_of_switchUp hi) hn'
    subst hin
    have hi' : (s.tasks i).pc = .switchUp m := by
      simpa [tasks_modify, hne] using hi
    exact absurd (hinv.unique i t (hinv.hasToken_of_switchUp hi') htok) hne
  · intro m hm
    have hmn : m = n := h'.unique m n hm.1 hn'
    subst hmn
    refine ⟨t, by simp, ?_, hne.symm, ?_⟩
    · rw [(htasks m).prev]; exact h.up t m ht
    · rw [(htasks t).ref]; exact (hinv.ok t).curRef htok
  · intro d
    rw [show deadFinishes (switchPost s t n) d = deadFinishes s d from rfl, h.count d,
      (htasks d).state, (htasks d).ref]

/-- The state `s'` after `t` has resumed and has called `finish_task_switch` with `p`. -/
structure Finished (s : State) (t p : TaskId) (boot : Bool) (s' : State) : Prop where
  finishes : s'.finishes = s.finishes ++ [⟨t, p, s.releasedBy t, (s.tasks p).state = .dead, boot⟩]
  up : ∀ i n, (s'.tasks i).pc ≠ .switchUp n
  transit : ∀ n, ¬ InTransit s' n
  state : ∀ d, (s'.tasks d).state = (s.tasks d).state
  ref : ∀ d, (s'.tasks d).curRef =
    if d = p ∧ (s.tasks p).state = .dead then false else (s.tasks d).curRef

lemma Finished.mem {p : TaskId} {boot : Bool} {f : Finish} (h : Finished s t p boot s')
    (hf : f ∈ s'.finishes) : f ∈ s.finishes ∨
      f = ⟨t, p, s.releasedBy t, (s.tasks p).state = .dead, boot⟩ := by
  rwa [h.finishes, mem_append, mem_singleton] at hf

lemma finished_of_inv {p : TaskId} {boot : Bool}
    (h' : Inv (finishTaskSwitch (s.goto t .kernel) t p boot)) :
    Finished s t p boot (finishTaskSwitch (s.goto t .kernel) t p boot) := by
  obtain ⟨hfin, -, hframe⟩ := finishTaskSwitch_spec (s.goto t .kernel) t p boot
  have ht' : ((finishTaskSwitch (s.goto t .kernel) t p boot).tasks t).pc = .kernel := by
    rw [(hframe t).2.2.1, State.goto, tasks_modify_self]
  rw [(goto_alike s t p .kernel).state] at hfin
  refine ⟨hfin, h'.not_switchUp ht', h'.not_inTransit (h'.hasToken_of_kernel ht')
    (by rw [ht']; rfl), fun d => ?_, fun d => ?_⟩
  · rw [(hframe d).1, (goto_alike s t d .kernel).state]
  · rw [(hframe d).2.2.2, (goto_alike s t d .kernel).ref, (goto_alike s t p .kernel).state]

lemma Handoff.of_finish (h : Handoff s) {p : TaskId} {boot : Bool} (hfin : Finished s t p boot s')
    (hrel : boot = true ↔ s.releasedBy t = some p)
    (hcur : (s.tasks p).state = .dead → (s.tasks p).curRef = true) : Handoff s' := by
  refine ⟨fun f hf hb => ?_, fun f hf hb => ?_, fun i n hi => absurd hi (hfin.up i n),
    fun n hn => absurd hn (hfin.transit n), fun d => ?_⟩
  · rcases hfin.mem hf with hf | rfl
    · exact h.boot f hf hb
    · exact hrel.mp hb
  · rcases hfin.mem hf with hf | rfl
    · exact h.self f hf hb
    · intro hr
      exact absurd (hb.symm.trans (hrel.mpr hr)) (by decide)
  · have hcount : deadFinishes s' d =
        deadFinishes s d + if d = p ∧ (s.tasks p).state = .dead then 1 else 0 := by
      unfold deadFinishes
      rw [hfin.finishes, countP_append, countP_singleton]
      simp only [Bool.and_eq_true, decide_eq_true_eq, eq_comm (a := p)]
    rw [hcount, h.count d, hfin.state, hfin.ref]
    by_cases hd : d = p ∧ (s.tasks p).state = .dead
    · obtain ⟨rfl, hdead⟩ := hd
      simp [hdead, hcur hdead]
    · simp [hd]

end

lemma not_inTransit_init (n : TaskId) : ¬ InTransit State.init n :=
  inv_init.not_inTransit (inv_init.hasToken_of_kernel (t := initTask) rfl) rfl n

lemma handoff_init : Handoff State.init where
  boot := by simp
  self := by simp
  up t n ht := absurd ht (inv_init.not_switchUp (t := initTask) rfl t n)
  transit n hn := absurd hn (not_inTransit_init n)
  count d := by
    by_cases h0 : d = initTask
    · simp [h0, Task.init, deadFinishes]
    · simp [h0, Task.unused, deadFinishes]

lemma handoff_hostStep {t : TaskId} (hinv : Inv s) (h : Handoff s) (ht : canStep s t) :
    Handoff (hostStep s t) := by
  have h' : Inv (hostStep s t) := hinv.hostStep ht
  unfold hostStep at h' ⊢
  cases hpc : (s.tasks t).pc with
  | noThread | kernel | exited | bug | fault => exact h
  | bootFree =>
    refine h.modify_waiting (by simp) ?_ ⟨rfl, rfl, rfl⟩
    rintro ⟨hlive, htok⟩ -
    exact ⟨⟨hlive, .inr (by simpa using htok)⟩, by simp [hpc]⟩
  | bootDown | switchDown =>
    have hsem : 0 < (s.tasks t).semCount := by simpa [canStep, hpc] using ht
    refine h.modify_waiting (by simp) ?_ ⟨rfl, rfl, rfl⟩
    rintro ⟨hlive, -⟩ -
    exact ⟨⟨hlive, .inr hsem⟩, by simp [hpc]⟩
  | bootCheck =>
    simp only [hpc] at h'
    by_cases hd : (s.tasks t).dead = true
    · rw [bootResume, if_pos hd]
      exact h.modify_waiting (by simp) (by simp) ⟨rfl, rfl, rfl⟩
    · have hlive : (s.tasks t).dead = false := by simpa using hd
      obtain ⟨r, hr, hprev, -, hcur⟩ :=
        h.transit t ⟨⟨hlive, .inl (by simp [hpc])⟩, by simp [hpc]⟩
      rw [bootResume, if_neg hd, hprev] at h' ⊢
      exact h.of_finish (finished_of_inv h') (by simp [hr]) fun _ => hcur
  | switchUp => exact h.of_switchPost hinv hpc
  | switchCheck =>
    simp only [hpc] at h'
    by_cases hd : (s.tasks t).dead = true
    · rw [switchResume, if_pos hd]
      exact h.modify_waiting (by simp) (by simp) ⟨rfl, rfl, rfl⟩
    · have hlive : (s.tasks t).dead = false := by simpa using hd
      have htok : (s.tasks t).HasToken := ⟨hlive, .inl (by simp [hpc])⟩
      obtain ⟨r, hr, -, hne, -⟩ := h.transit t ⟨htok, by simp [hpc]⟩
      rw [switchResume, if_neg hd] at h' ⊢
      apply h.of_finish (finished_of_inv h') (by simp [hr, hne])
      intro hdead
      have hrun := (hinv.ok t).resume htok (by simp [hpc])
      simp [hrun] at hdead
  | exitSemFree | exitKfree | exitThread =>
    exact h.modify_waiting (by simp) (by simp) ⟨rfl, rfl, rfl⟩
  | exitCounterDec =>
    have h'' : Handoff (s.goto t .exitThread) :=
      h.modify_waiting (by simp) (by simp) ⟨rfl, rfl, rfl⟩
    exact ⟨h''.boot, h''.self, h''.up, h''.transit, h''.count⟩

lemma handoff_step (s : State) (a : Act) (hinv : Inv s) (h : Handoff s) (ha : guard s a) :
    Handoff (next s a) := by
  by_cases hhost : ∃ t, a = .host t
  · obtain ⟨t, rfl⟩ := hhost
    exact handoff_hostStep hinv h ha
  · obtain ⟨t, hk⟩ := kernelStep_next hinv ha fun t ht => hhost ⟨t, ht⟩
    exact hk.handoff (inv_step s a hinv ha) h

lemma handoff_of_reachable (h : machine.Reachable s) : Handoff s :=
  h.invariant_of (fun _ => inv_of_reachable) handoff_init
    handoff_step

/-! ### Runs that switch to fresh tasks only -/

/-- What a run keeps in which no task is ever resumed in `__switch_to`. -/
structure FreshRun (s : State) : Prop where
  boot : ∀ f ∈ s.finishes, f.boot = true
  up : ∀ t n, (s.tasks t).pc = .switchUp n → (s.tasks n).pc = .bootFree ∨ (s.tasks n).pc = .bootDown
  transit : ∀ n, InTransit s n →
    (s.tasks n).pc = .bootFree ∨ (s.tasks n).pc = .bootDown ∨ (s.tasks n).pc = .bootCheck
  pend : ∀ d, (s.tasks d).state = .dead → (s.tasks d).curRef = true →
    (s.tasks d).HasToken ∨ Pending s d

section

variable {s s' : State} {t : TaskId} {a : Act}

lemma KernelStep.freshRun (hk : KernelStep s a t s') (hinv : Inv s) (h' : Inv s')
    (ha : SwitchToFresh s a) (h : FreshRun s) : FreshRun s' where
  boot := by rw [hk.finishes]; exact h.boot
  up i n hi := by
    have hit := h'.unique i t (h'.hasToken_of_switchUp hi) hk.token
    subst hit
    obtain ⟨rfl, -, hpc⟩ := hk.up n hi
    rw [hpc]
    exact ha
  transit n hn := absurd hn (h'.not_inTransit hk.token hk.running n)
  pend d hd hcur := by
    left
    -- a dead task that still has its reference is the one that runs
    have hdt : d = t := by
      rcases hk.dead d hd with hdt | hdead
      · exact hdt
      have hcur' : (s.tasks d).curRef = true := by
        by_contra hc
        have := ((hk.ref d).mpr ⟨hdead, by simpa using hc⟩).2
        simp [hcur] at this
      rcases h.pend d hdead hcur' with htok | ⟨n, hn, -⟩
      · exact hinv.unique d t htok (hinv.hasToken_of_kernel hk.kernel)
      · exact absurd hn (hinv.not_inTransit (hinv.hasToken_of_kernel hk.kernel)
          (by simp [hk.kernel]) n)
    subst hdt
    exact hk.token

lemma FreshRun.modify_waiting (h : FreshRun s) (hup : ∀ n, (f (s.tasks t)).pc ≠ .switchUp n)
    (hboot : ∀ i, (s.tasks i).pc = .switchUp t →
      (f (s.tasks t)).pc = .bootFree ∨ (f (s.tasks t)).pc = .bootDown)
    (htransit : (f (s.tasks t)).HasToken ∧ (f (s.tasks t)).pc.resuming ↔ InTransit s t)
    (hpc : (f (s.tasks t)).HasToken → (f (s.tasks t)).pc.resuming →
      (f (s.tasks t)).pc = .bootFree ∨ (f (s.tasks t)).pc = .bootDown ∨
        (f (s.tasks t)).pc = .bootCheck) (htok : (s.tasks t).HasToken → (f (s.tasks t)).HasToken)
    (hframe : (f (s.tasks t)).Alike (s.tasks t)) : FreshRun (s.modify t f) := by
  have hiff := forall_modify (P := fun n x => x.HasToken ∧ x.pc.resuming ↔ InTransit s n)
    htransit fun _ _ => .rfl
  have hup' := forall_modify (P := fun i x => ∀ n, x.pc = .switchUp n →
    (s.tasks i).pc = .switchUp n) (fun n hn => absurd hn (hup n)) fun _ _ _ => id
  have hsame := alike_modify hframe
  refine ⟨h.boot, fun i n hi => ?_, fun n hn => ?_, fun d hd hcur => ?_⟩
  · exact forall_modify (P := fun n x => (s.tasks i).pc = .switchUp n →
      x.pc = .bootFree ∨ x.pc = .bootDown) (hboot i) (fun n _ => h.up i n) n (hup' i n hi)
  · exact forall_modify (P := fun n x => x.HasToken → x.pc.resuming →
      x.pc = .bootFree ∨ x.pc = .bootDown ∨ x.pc = .bootCheck) hpc
      (fun n _ htok hr => h.transit n ⟨htok, hr⟩) n hn.1 hn.2
  · rcases h.pend d ((hsame d).state ▸ hd) ((hsame d).ref ▸ hcur) with hd' | ⟨n, hn, hrel⟩
    · exact .inl (forall_modify (P := fun d x => (s.tasks d).HasToken → x.HasToken) htok
        (fun _ _ => id) d hd')
    · exact .inr ⟨n, (hiff n).mpr hn, hrel⟩

lemma FreshRun.modify_dead (h : FreshRun s) (hinv : Inv s) (hd : (s.tasks t).dead = true)
    (hf : (f (s.tasks t)).dead = true) (hup : ∀ n, (f (s.tasks t)).pc ≠ .switchUp n)
    (hframe : (f (s.tasks t)).Alike (s.tasks t)) : FreshRun (s.modify t f) := by
  have hold : ¬ (s.tasks t).HasToken := by simp [Task.HasToken, hd]
  have hnew : ¬ (f (s.tasks t)).HasToken := by simp [Task.HasToken, hf]
  refine h.modify_waiting hup ?_ ?_ (fun hk => absurd hk hnew) (fun hk => absurd hk hold) hframe
  · intro i hi
    have := (hinv.up i t hi).2.1
    simp [hd] at this
  · exact ⟨fun hk => absurd hk.1 hnew, fun hk => absurd hk.1 hold⟩

end

lemma freshRun_init : FreshRun State.init where
  boot := by simp
  up t n ht := absurd ht (inv_init.not_switchUp (t := initTask) rfl t n)
  transit n hn := absurd hn (not_inTransit_init n)
  pend d hd := by
    by_cases h0 : d = initTask
    · simp [h0, Task.init] at hd
    · simp [h0, Task.unused] at hd

section

variable {s : State} {t : TaskId}

lemma FreshRun.of_finish {s' : State} (h : FreshRun s) (hinv : Inv s) {r : TaskId}
    (htransit : InTransit s t) (hr : s.releasedBy t = some r) (hfin : Finished s t r true s') :
    FreshRun s' := by
  refine ⟨fun f hf => ?_, fun i n hi => absurd hi (hfin.up i n),
    fun n hn => absurd hn (hfin.transit n), fun d hd hcur => ?_⟩
  · rcases hfin.mem hf with hf | rfl
    · exact h.boot f hf
    · rfl
  · rw [hfin.state] at hd
    rw [hfin.ref] at hcur
    split_ifs at hcur with hdr
    exfalso
    -- before the step `d` was the task in transit, or the one that had released it
    rcases h.pend d hd hcur with htok | ⟨n, hn, hrel⟩
    · have hdt := hinv.unique d t htok htransit.1
      subst hdt
      have hrun := (hinv.ok d).resume htok htransit.2
      simp [hrun] at hd
    · have hnt := hinv.unique n t hn.1 htransit.1
      subst hnt
      rw [hr] at hrel
      injection hrel with hrd
      subst hrd
      exact hdr ⟨rfl, hd⟩

lemma FreshRun.of_switchPost (h : FreshRun s) (hinv : Inv s) {n : TaskId}
    (ht : (s.tasks t).pc = .switchUp n) : FreshRun (switchPost s t n) := by
  have h' : Inv (switchPost s t n) := hinv.switchPost ht
  obtain ⟨hne, hlive, -⟩ := hinv.up t n ht
  have hboot := h.up t n ht
  have htok := hinv.hasToken_of_switchUp ht
  have hpc : ((switchPost s t n).tasks n).pc = (s.tasks n).pc := by
    simp [tasks_modify, hne]
  have hn' : InTransit (switchPost s t n) n := by
    constructor
    · simp [tasks_modify, hne, Task.HasToken, hlive]
    · rw [hpc]
      rcases hboot with hb | hb <;> simp [hb]
  refine ⟨h.boot, ?_, ?_, ?_⟩
  · intro i m hi
    have hin := h'.unique i n (h'.hasToken_of_switchUp hi) hn'.1
    subst hin
    rw [hpc] at hi
    rcases hboot with hb | hb <;> simp [hb] at hi
  · intro m hm
    have hmn := h'.unique m n hm.1 hn'.1
    subst hmn
    rw [hpc]
    rcases hboot with hb | hb
    · exact .inl hb
    · exact .inr (.inl hb)
  · intro d hd hcur
    right
    have hsame := switchPost_alike s t n d
    have hdt : d = t := by
      rcases h.pend d (hsame.state ▸ hd) (hsame.ref ▸ hcur) with hdtok | ⟨m, hm, -⟩
      · exact hinv.unique d t hdtok htok
      · exact absurd hm (hinv.not_inTransit htok (by simp [ht]) m)
    subst hdt
    exact ⟨n, hn', by simp⟩

lemma FreshRun.dead_of_switched (h : FreshRun s)
    (htok : (s.tasks t).dead = false → (s.tasks t).HasToken)
    (hpc : (s.tasks t).pc = .switchDown ∨ (s.tasks t).pc = .switchCheck) :
    (s.tasks t).dead = true := by
  by_contra hd
  have hr : (s.tasks t).pc.resuming := by rcases hpc with hpc | hpc <;> simp [hpc]
  have hboot := h.transit t ⟨htok (by simpa using hd), hr⟩
  rcases hpc with hpc | hpc <;> simp [hpc] at hboot

lemma freshRun_hostStep (hinv : Inv s) (hoff : Handoff s) (h : FreshRun s) (ht : canStep s t) :
    FreshRun (hostStep s t) := by
  have h' : Inv (hostStep s t) := hinv.hostStep ht
  unfold hostStep at h' ⊢
  cases hpc : (s.tasks t).pc with
  | noThread | kernel | exited | bug | fault => exact h
  | bootFree =>
    have htok : ({ s.tasks t with pc := .bootDown } : Task).HasToken ↔ (s.tasks t).HasToken := by
      simp [Task.HasToken, hpc]
    refine h.modify_waiting (by simp) (by simp) ?_ (by simp) htok.mpr ⟨rfl, rfl, rfl⟩
    simp only [InTransit, htok, hpc, Pc.resuming]
  | bootDown =>
    have hsem : 0 < (s.tasks t).semCount := by simpa [canStep, hpc] using ht
    by_cases hd : (s.tasks t).dead = true
    · exact h.modify_dead hinv hd hd (by simp) ⟨rfl, rfl, rfl⟩
    · have hlive : (s.tasks t).dead = false := by simpa using hd
      have htok : (s.tasks t).HasToken := ⟨hlive, .inr hsem⟩
      have htok' : ({ s.tasks t with semCount := (s.tasks t).semCount - 1, pc := .bootCheck } :
          Task).HasToken := by simp [Task.HasToken, hlive]
      refine h.modify_waiting (by simp) ?_ ?_ (by simp) (fun _ => htok') ⟨rfl, rfl, rfl⟩
      · intro i hi
        have hit := hinv.unique i t (hinv.hasToken_of_switchUp hi) htok
        subst hit
        simp [hpc] at hi
      · simp [InTransit, htok, htok', hpc]
  | bootCheck =>
    simp only [hpc] at h'
    by_cases hd : (s.tasks t).dead = true
    · rw [bootResume, if_pos hd]
      exact h.modify_dead hinv hd hd (by simp) ⟨rfl, rfl, rfl⟩
    · have hlive : (s.tasks t).dead = false := by simpa using hd
      have htransit : InTransit s t :=
        ⟨⟨hlive, .inl (by simp [hpc])⟩, by simp [hpc]⟩
      obtain ⟨r, hr, hprev, -, -⟩ := hoff.transit t htransit
      rw [bootResume, if_neg hd, hprev] at h' ⊢
      exact h.of_finish hinv htransit hr (finished_of_inv h')
  | switchUp => exact h.of_switchPost hinv hpc
  | switchDown =>
    have hsem : 0 < (s.tasks t).semCount := by simpa [canStep, hpc] using ht
    have hd := h.dead_of_switched (fun hlive => ⟨hlive, .inr hsem⟩) (.inl hpc)
    exact h.modify_dead hinv hd hd (by simp) ⟨rfl, rfl, rfl⟩
  | switchCheck =>
    have hd := h.dead_of_switched (fun hlive => ⟨hlive, .inl (by simp [hpc])⟩) (.inr hpc)
    rw [switchResume, if_pos hd]
    exact h.modify_dead hinv hd hd (by simp) ⟨rfl, rfl, rfl⟩
  | exitSemFree | exitKfree | exitThread =>
    have hd := (hinv.ok t).exit_dead (by simp [hpc])
    exact h.modify_dead hinv hd hd (by simp) ⟨rfl, rfl, rfl⟩
  | exitCounterDec =>
    have hd := (hinv.ok t).exit_dead (by simp [hpc])
    have h'' : FreshRun (s.goto t .exitThread) := h.modify_dead hinv hd hd (by simp) ⟨rfl, rfl, rfl⟩
    exact ⟨h''.boot, h''.up, h''.transit, h''.pend⟩

end

lemma freshRun_of_reachable (h : (machine.restrict SwitchToFresh).Reachable s) : FreshRun s := by
  refine h.invariant_of (J := fun s => Inv s ∧ Handoff s) ?_ freshRun_init ?_
  · intro s hs
    exact ⟨inv_of_reachable hs.of_restrict, handoff_of_reachable hs.of_restrict⟩
  · rintro s a ⟨hinv, hoff⟩ hs ⟨hguard, hfresh⟩
    by_cases hhost : ∃ t, a = .host t
    · obtain ⟨t, rfl⟩ := hhost
      exact freshRun_hostStep hinv hoff hs hguard
    · obtain ⟨t, hk⟩ := kernelStep_next hinv hguard fun t ht => hhost ⟨t, ht⟩
      exact hk.freshRun hinv (inv_step s a hinv hguard) hfresh hs

lemma Inv.not_hasToken_of_switchedAway (h : Inv s) {d : TaskId} (hd : (s.tasks d).state = .dead)
    (hpc : (s.tasks d).pc.switchedAway) : ¬ (s.tasks d).HasToken := by
  intro htok
  have hx := h.ok d
  have hr : (s.tasks d).pc.resuming := by
    have hexit : (s.tasks d).pc.exiting = false := by
      by_contra he
      have := hx.exit_dead (by simpa using he)
      simp [htok.1] at this
    simp only [Pc.switchedAway, hexit, Bool.or_false, Bool.or_eq_true, decide_eq_true_eq] at hpc
    rcases hpc with hpc | hpc <;> simp [hpc]
  have := hx.resume htok hr
  simp [hd] at this

/-- The law holds in every run that only switches to tasks whose thread is still in
`thread_bootstrap`. In any run it holds at those resumptions and at no other. -/
theorem last_task_law (s : State) (h : machine.Reachable s) :
    ((machine.restrict SwitchToFresh).Reachable s → LastTaskLaw s) ∧
      ∀ f ∈ s.finishes, f.releaser = some f.prev ↔ f.boot = true := by
  have hinv := inv_of_reachable h
  have hoff := handoff_of_reachable h
  refine ⟨?_, ?_⟩
  · intro hfresh
    have hrun := freshRun_of_reachable hfresh
    refine ⟨fun f hf => hoff.boot f hf (hrun.boot f hf), ?_⟩
    intro d hd hpc hpend
    have hcur : (s.tasks d).curRef = false := by
      by_contra hc
      rcases hrun.pend d hd (by simpa using hc) with htok | hp
      · exact hinv.not_hasToken_of_switchedAway hd hpc htok
      · exact hpend hp
    rw [hoff.count d, if_pos ⟨hd, hcur⟩]
    exact ⟨rfl, hcur⟩
  · intro f hf
    refine ⟨?_, hoff.boot f hf⟩
    intro hrel
    by_contra hb
    exact hoff.self f hf (by simpa using hb) hrel

/-- Task 1 dies in `exitRun` after it has switched to the fresh task 2, and is finished once. -/
theorem last_task_law_exitRun : LastTaskLaw (machine.runFrom .init exitRun) ∧
      deadFinishes (machine.runFrom .init exitRun) 1 = 1 := by
  have hfresh : (machine.restrict SwitchToFresh).Reachable (machine.runFrom .init exitRun) :=
    Machine.reachable_of_admits exitRun (by decide)
  exact ⟨(last_task_law _ exitRun_reachable).1 hfresh, by decide⟩

/-- `init_task` forks task 1 and switches to it; task 1 exits and switches back. -/
def returnRun : List Act :=
  [.allocThreadInfo 0 1, .copyThread 0 1 .created, .wakeUpNewTask 0 1, .host 1,
    .switchTo 0 1, .host 0, .host 1, .host 1, .doExit 1, .switchTo 1 0, .host 1, .host 0, .host 0]

/-- At the end of `returnRun`, `init_task` has been released by task 1 and was handed itself, and
nobody has dropped the reference of task 1. -/
theorem not_lastTaskLaw_returnRun : machine.Reachable (machine.runFrom .init returnRun) ∧
      ⟨0, 0, some 1, false, false⟩ ∈ (machine.runFrom .init returnRun).finishes ∧
      ((machine.runFrom .init returnRun).tasks 1).state = .dead ∧
      deadFinishes (machine.runFrom .init returnRun) 1 = 0 ∧
      ¬ ∀ s, machine.Reachable s → LastTaskLaw s := by
  have hr : machine.Reachable (machine.runFrom .init returnRun) :=
    Machine.reachable_of_admits returnRun (by decide)
  have hmem : ⟨0, 0, some 1, false, false⟩ ∈ (machine.runFrom .init returnRun).finishes := by
    decide
  refine ⟨hr, hmem, by decide, by decide, ?_⟩
  intro h
  have hlaw := (h _ hr).1 _ hmem
  cases hlaw

end LklPort.Threads
