import LklPort.Threads.Basic

/-!
# The CPU token

A task has the token when its thread runs kernel code past its first `sem_down`, or when its
semaphore is posted, as long as `free_thread_info` has not marked it dead. No step ever makes a
second token: a context switch takes it from one task before another can pick it up, and what
`free_thread_info` posts goes to a dead task.
-/

namespace LklPort.Threads

attribute [local simp] Task.unused State.init

/-! ### Running kernel code -/

/-- The thread is neither blocked in `sem_down` on its own semaphore nor past `thread_exit`. -/
def Pc.executing : Pc → Bool
  | .noThread | .bootDown | .switchDown | .exited => false
  | _ => true

/-- The thread is past its first `sem_down` and not in the teardown of a dead thread. -/
def Pc.holding : Pc → Bool
  | .bootCheck | .kernel | .switchUp _ | .switchCheck | .bug | .fault => true
  | _ => false

/-- The thread is in the teardown of a dead thread, or done with it. -/
def Pc.exiting : Pc → Bool
  | .exitSemFree | .exitKfree | .exitCounterDec | .exitThread | .exited => true
  | _ => false

/-- The thread waits to be switched to, or has just been. -/
def Pc.resuming : Pc → Bool
  | .noThread | .bootFree | .bootDown | .bootCheck | .switchDown | .switchCheck => true
  | _ => false

attribute [simp] Pc.holding Pc.exiting Pc.resuming

/-- At most one host thread is executing kernel code. -/
def CpuExclusion (s : State) : Prop :=
  ∀ i j, (s.tasks i).pc.executing → (s.tasks j).pc.executing → i = j

/-- The thread of `i` executes kernel code, has passed its first `sem_down`, and its task has not
been marked dead by `free_thread_info`. -/
def HoldsCpu (s : State) (i : TaskId) : Prop :=
  (s.tasks i).pc.executing ∧ (s.tasks i).pc ≠ .bootFree ∧ (s.tasks i).dead = false

/-- No thread executes beside one that frees its argument before its first `sem_down` or that
belongs to a task marked dead. -/
def TeardownAlone (s : State) : Prop :=
  ∀ i j, (s.tasks i).pc.executing → (s.tasks j).pc.executing →
    (s.tasks i).pc = .bootFree ∨ (s.tasks i).dead = true → i = j

/-- The task has the token, in its thread or in its semaphore. -/
def Task.HasToken (x : Task) : Prop :=
  x.dead = false ∧ (x.pc.holding ∨ 0 < x.semCount)

attribute [local simp] Task.HasToken

/-- What holds of every single task. -/
structure Task.Ok (x : Task) : Prop where
  sem_le : x.dead = false → x.semCount ≤ 1
  sem_zero : x.dead = false → x.pc.holding → x.semCount = 0
  exit_dead : x.pc.exiting → x.dead = true
  kernel_live : x.pc = .kernel → x.dead = false
  up_live : ∀ n, x.pc = .switchUp n → x.dead = false
  resume : x.HasToken → x.pc.resuming → x.state = .running
  ref : x.curRef = false → ¬ x.HasToken ∧ (x.state = .dead ∨ x.state = .unused)
  quiet : x.state = .unused ∨ x.state = .new → ¬ x.HasToken

/-- The invariant of the thread layer. -/
structure Inv (s : State) : Prop where
  ok : ∀ i, (s.tasks i).Ok
  unique : ∀ i j, (s.tasks i).HasToken → (s.tasks j).HasToken → i = j
  up : ∀ i n, (s.tasks i).pc = .switchUp n →
    n ≠ i ∧ (s.tasks n).dead = false ∧ (s.tasks n).state = .running

variable {n : TaskId} {f : Task → Task} {pc : Pc}

section

variable {s : State} {t p : TaskId}

lemma Task.Ok.curRef {x : Task} (h : x.Ok) (htok : x.HasToken) : x.curRef = true := by
  by_contra hc
  exact (h.ref (by simpa using hc)).1 htok

section

variable (h : Inv s)

include h

namespace Inv

lemma hasToken_of_kernel (ht : (s.tasks t).pc = .kernel) : (s.tasks t).HasToken :=
  ⟨(h.ok t).kernel_live ht, .inl (by simp [ht])⟩

lemma hasToken_of_switchUp (ht : (s.tasks t).pc = .switchUp n) : (s.tasks t).HasToken :=
  ⟨(h.ok t).up_live n ht, .inl (by simp [ht])⟩

lemma not_hasToken (ht : (s.tasks t).pc = .kernel) (hp : p ≠ t) : ¬ (s.tasks p).HasToken :=
  fun hp' => hp (h.unique p t hp' (h.hasToken_of_kernel ht))

lemma not_switchUp (ht : (s.tasks t).pc = .kernel) (i n : TaskId) :
    (s.tasks i).pc ≠ .switchUp n := by
  intro hi
  have hit : i = t := h.unique i t (h.hasToken_of_switchUp hi) (h.hasToken_of_kernel ht)
  subst hit
  simp [hi] at ht

/-- Changing one task keeps the invariant if the task gets no token, starts no switch, and stays
runnable in case some thread is switching to it. -/
lemma modify (hok : (f (s.tasks t)).Ok) (htok : (f (s.tasks t)).HasToken → (s.tasks t).HasToken)
    (hup : ∀ n, (f (s.tasks t)).pc = .switchUp n → (s.tasks t).pc = .switchUp n)
    (hto : ∀ i, (s.tasks i).pc = .switchUp t →
      (f (s.tasks t)).dead = false ∧ (f (s.tasks t)).state = .running) : Inv (s.modify t f) where
  ok := forall_modify hok fun i _ => h.ok i
  unique i j hi hj := by
    have lift := forall_modify (P := fun k x => x.HasToken → (s.tasks k).HasToken)
      htok fun _ _ => id
    exact h.unique i j (lift i hi) (lift j hj)
  up i n hi := by
    have hi' : (s.tasks i).pc = .switchUp n :=
      forall_modify (P := fun i x => x.pc = .switchUp n → (s.tasks i).pc = .switchUp n)
        (hup n) (fun _ _ => id) i hi
    obtain ⟨hne, hstays⟩ := h.up i n hi'
    refine ⟨hne, ?_⟩
    by_cases hnt : n = t
    · subst hnt
      simpa using hto i hi'
    · rwa [tasks_modify_of_ne s f hnt]

lemma modify_alone (hok : (f (s.tasks t)).Ok)
    (halone : ∀ i, i ≠ t → ¬ (s.tasks i).HasToken) (hup : ∀ n, (f (s.tasks t)).pc = .switchUp n →
      n ≠ t ∧ (s.tasks n).dead = false ∧ (s.tasks n).state = .running) : Inv (s.modify t f) := by
  have only := forall_modify (f := f) (P := fun i x => x.HasToken → i = t)
    (fun _ => rfl) fun i hi htok => absurd htok (halone i hi)
  refine ⟨forall_modify hok fun i _ => h.ok i, fun i j hi hj => ?_, fun i n hi => ?_⟩
  · rw [only i hi, only j hj]
  · have hit : i = t := by
      by_contra hit
      rw [tasks_modify_of_ne s f hit] at hi
      exact halone i hit (h.hasToken_of_switchUp hi)
    subst hit
    rw [tasks_modify_self] at hi
    rw [tasks_modify_of_ne s f (hup n hi).1]
    exact hup n hi

lemma modify_frame
    (hf : ∀ x, (f x).state = x.state ∧ (f x).curRef = x.curRef ∧ (f x).semCount = x.semCount ∧
      (f x).dead = x.dead ∧ (f x).pc = x.pc) : Inv (s.modify t f) := by
  obtain ⟨hstate, href, hsem, hdead, hpc⟩ := hf (s.tasks t)
  have htok : (f (s.tasks t)).HasToken ↔ (s.tasks t).HasToken := by
    simp only [Task.HasToken, hdead, hpc, hsem]
  have hx := h.ok t
  refine h.modify ⟨?_, ?_, ?_, ?_, ?_, ?_, ?_, ?_⟩ htok.mp ?_ ?_
  · rw [hdead, hsem]; exact hx.sem_le
  · rw [hdead, hpc, hsem]; exact hx.sem_zero
  · rw [hdead, hpc]; exact hx.exit_dead
  · rw [hdead, hpc]; exact hx.kernel_live
  · rw [hdead, hpc]; exact hx.up_live
  · rw [htok, hpc, hstate]; exact hx.resume
  · rw [htok, href, hstate]; exact hx.ref
  · rw [htok, hstate]; exact hx.quiet
  · rw [hpc]; exact fun n => id
  · rw [hdead, hstate]
    exact fun i hi => (h.up i t hi).2

/-! ### References and `free_thread_info` -/

lemma freeThreadInfo (hp : ¬ (s.tasks p).HasToken)
    (hup : ∀ i, (s.tasks i).pc ≠ .switchUp p) : Inv (freeThreadInfo s p) := by
  have hx := h.ok p
  refine h.modify ⟨by simp, by simp, by simp, ?_, ?_, ?_, ?_, ?_⟩ ?_ (fun n => id)
    (fun i hi => absurd hi (hup i))
  · intro hk
    exact absurd (h.hasToken_of_kernel hk) hp
  · intro n hn
    exact absurd (h.hasToken_of_switchUp hn) hp
  · intro htok
    simp at htok
  · intro hr
    exact ⟨by simp, (hx.ref hr).2⟩
  · simp
  · intro htok
    simp at htok

lemma putTaskStruct (hp : (s.tasks p).usage - 1 = 0 → ¬ (s.tasks p).HasToken)
    (hup : ∀ i, (s.tasks i).pc ≠ .switchUp p) : Inv (putTaskStruct s p) := by
  have h' : Inv (decUsage s p) := h.modify_frame (by simp)
  unfold Threads.putTaskStruct
  split_ifs with hz
  · refine h'.freeThreadInfo ?_ ?_
    · intro htok
      rw [decUsage, tasks_modify_self] at htok
      exact hp hz htok
    · intro i hi
      rw [decUsage, tasks_modify] at hi
      split_ifs at hi with hip
      · exact hup _ hi
      · exact hup i hi
  · exact h'

lemma finishTaskSwitch (ht : (s.tasks t).pc = .kernel) {boot : Bool}
    (hne : (s.tasks p).state = .dead → p ≠ t) : Inv (finishTaskSwitch s t p boot) := by
  unfold Threads.finishTaskSwitch
  -- recording the call leaves the tasks alone
  have h' : Inv (recordFinish s t p boot) := ⟨h.ok, h.unique, h.up⟩
  have hx := h.ok p
  split_ifs with hdead
  · have htok : ¬ (s.tasks p).HasToken := h.not_hasToken ht (hne hdead)
    have hc : Inv ((recordFinish s t p boot).modify p fun x => { x with curRef := false }) := by
      refine h'.modify ⟨hx.sem_le, hx.sem_zero, hx.exit_dead, hx.kernel_live, hx.up_live,
        hx.resume, fun _ => ⟨htok, .inl hdead⟩, hx.quiet⟩ id (fun n => id) ?_
      intro i hi
      exact (h'.up i p hi).2
    refine hc.putTaskStruct ?_ ?_
    · intro _
      rw [tasks_modify_self]
      exact htok
    · intro i hi
      rw [tasks_modify] at hi
      split_ifs at hi with hip
      · exact h.not_switchUp ht p p hi
      · exact h.not_switchUp ht i p hi
  · exact h'

/-! ### The steps of a host thread -/

/-- The thread moves on, and neither loses its token nor gets one. -/
lemma goto (hhold : pc.holding = (s.tasks t).pc.holding) (hexit : pc.exiting = false)
    (hlive : pc = .kernel → (s.tasks t).dead = false) (hup : ∀ n, pc ≠ .switchUp n)
    (hres : pc.resuming → (s.tasks t).pc.resuming) : Inv (s.goto t pc) := by
  have hx := h.ok t
  have htok : ({ s.tasks t with pc := pc } : Task).HasToken ↔ (s.tasks t).HasToken := by
    rw [Task.HasToken, hhold, Task.HasToken]
  refine h.modify ⟨hx.sem_le, ?_, fun hk => absurd (hexit ▸ hk) Bool.false_ne_true, hlive,
    fun n hn => absurd hn (hup n), fun hk hr => hx.resume (htok.mp hk) (hres hr), ?_, ?_⟩
    htok.mp (fun n hn => absurd hn (hup n)) (fun i hi => (h.up i t hi).2)
  · rw [hhold]; exact hx.sem_zero
  · rw [htok]; exact hx.ref
  · rw [htok]; exact hx.quiet

lemma semDown (hsem : 0 < (s.tasks t).semCount) (ht : (s.tasks t).pc.resuming)
    (hpc : pc = .bootCheck ∨ pc = .switchCheck) : Inv (semDown s t pc) := by
  have hx := h.ok t
  have hnew : ¬ pc.exiting ∧ pc ≠ .kernel ∧ ∀ n, pc ≠ .switchUp n := by
    rcases hpc with rfl | rfl <;> simp
  have hback : (s.tasks t).dead = false → (s.tasks t).HasToken :=
    fun hlive => ⟨hlive, .inr hsem⟩
  refine h.modify ⟨?_, ?_, fun hk => absurd hk hnew.1, fun hk => absurd hk hnew.2.1,
    fun n hn => absurd hn (hnew.2.2 n), fun hk _ => hx.resume (hback hk.1) ht, ?_, ?_⟩
    (fun hk => hback hk.1) (fun n hn => absurd hn (hnew.2.2 n)) (fun i hi => (h.up i t hi).2)
  · intro hlive
    have := hx.sem_le hlive
    simp only
    omega
  · intro hlive _
    have := hx.sem_le hlive
    simp only
    omega
  · intro hr
    exact ⟨fun hk => (hx.ref hr).1 (hback hk.1), (hx.ref hr).2⟩
  · intro hs hk
    exact hx.quiet hs (hback hk.1)

lemma goto_holding {pc : Pc} (ht : (s.tasks t).pc.holding)
    (hlive : pc = .kernel → (s.tasks t).dead = false)
    (hpc : pc = .kernel ∨ pc = .bug ∨ pc = .fault) : Inv (s.goto t pc) := by
  rcases hpc with rfl | rfl | rfl
  all_goals exact h.goto (by rw [ht]; rfl) rfl hlive (by simp) (by simp)

lemma modify_dead (hd : (s.tasks t).dead = true) (hf : (f (s.tasks t)).dead = true)
    (hpc : (f (s.tasks t)).pc.exiting) (hstate : (f (s.tasks t)).state = (s.tasks t).state)
    (href : (f (s.tasks t)).curRef = (s.tasks t).curRef) : Inv (s.modify t f) := by
  have hx := h.ok t
  have htok : ¬ (f (s.tasks t)).HasToken := by simp [hf]
  have hup : ∀ n, (f (s.tasks t)).pc ≠ .switchUp n := by
    intro n hn
    simp [hn] at hpc
  refine h.modify ⟨by simp [hf], by simp [hf], by simp [hf], ?_, fun n hn => absurd hn (hup n),
    fun hk => absurd hk htok, ?_, fun _ => htok⟩ (fun hk => absurd hk htok)
    (fun n hn => absurd hn (hup n)) ?_
  · intro hk
    simp [hk] at hpc
  · rw [href, hstate]
    exact fun hr => ⟨htok, (hx.ref hr).2⟩
  · intro i hi
    have := (h.up i t hi).2.1
    simp [hd] at this

lemma post (hnone : ∀ i, ¬ (s.tasks i).HasToken) (hlive : (s.tasks n).dead = false)
    (hrun : (s.tasks n).state = .running) :
    Inv (s.modify n fun x => { x with semCount := x.semCount + 1 }) := by
  have hx := h.ok n
  have hidle : ¬ (s.tasks n).pc.holding ∧ ¬ 0 < (s.tasks n).semCount :=
    not_or.mp fun hor => hnone n ⟨hlive, hor⟩
  refine h.modify_alone ⟨?_, ?_, hx.exit_dead, hx.kernel_live, hx.up_live, fun _ _ => hrun, ?_, ?_⟩
    (fun i _ => hnone i) fun m hm => absurd (h.hasToken_of_switchUp hm) (hnone n)
  · exact fun _ => Nat.succ_le_succ (Nat.le_of_not_lt hidle.2)
  · exact fun _ hh => absurd hh hidle.1
  · intro hr
    have := (hx.ref hr).2
    simp [hrun] at this
  · intro hs
    simp [hrun] at hs

lemma switchPost (ht : (s.tasks t).pc = .switchUp n) : Inv (switchPost s t n) := by
  obtain ⟨hne, hlive, hrun⟩ := h.up t n ht
  have hx := h.ok t
  have htd : (s.tasks t).dead = false := hx.up_live n ht
  have hsem : (s.tasks t).semCount = 0 := hx.sem_zero htd (by simp [ht])
  have htok := h.hasToken_of_switchUp ht
  have hlost : ¬ ({ s.tasks t with pc := .switchDown } : Task).HasToken := by
    simp [hsem]
  have h' : Inv (s.goto t .switchDown) := by
    refine h.modify ⟨hx.sem_le, by simp, by simp, by simp, by simp,
      fun hk => absurd hk hlost, fun hr => ⟨hlost, (hx.ref hr).2⟩, fun _ => hlost⟩
      (fun hk => absurd hk hlost) (by simp) (fun i hi => (h.up i t hi).2)
  have hn : (s.goto t .switchDown).tasks n = s.tasks n := tasks_modify_of_ne s _ hne
  have hpost := h'.post ?_ (by rw [hn]; exact hlive) (by rw [hn]; exact hrun)
  · exact ⟨hpost.ok, hpost.unique, hpost.up⟩
  · exact forall_modify (P := fun _ x => ¬ x.HasToken) hlost
      fun i hit hi => hit (h.unique i t hi htok)

lemma switchTo (ht : (s.tasks t).pc = .kernel) (hne : n ≠ t)
    (hrun : (s.tasks n).state = .running) (hlive : (s.tasks n).dead = false) :
    Inv (switchTo s t n) := by
  have hx := h.ok t
  have htok : (s.tasks t).HasToken := h.hasToken_of_kernel ht
  have h' : Inv (s.goto t (.switchUp n)) := by
    refine h.modify_alone ?_ (fun i => h.not_hasToken ht) ?_
    · exact ⟨hx.sem_le, fun hd _ => hx.sem_zero hd (by simp [ht]),
        by simp, by simp, fun _ _ => htok.1, by simp,
        fun hr => absurd htok (hx.ref hr).1, fun hs => absurd htok (hx.quiet hs)⟩
    · intro m hm
      cases hm
      exact ⟨hne, hlive, hrun⟩
  have h'' : Inv ((s.goto t (.switchUp n)).modify n fun x => { x with prevSched := some t }) :=
    h'.modify_frame (by simp)
  exact ⟨h''.ok, h''.unique, h''.up⟩

lemma bootResume (ht : (s.tasks t).pc = .bootCheck) : Inv (bootResume s t) := by
  have hold : (s.tasks t).pc.holding := by simp [ht]
  unfold Threads.bootResume
  split_ifs with hd
  · exact h.goto_holding hold (by simp) (by simp)
  · have hlive : (s.tasks t).dead = false := by simpa using hd
    have hk : Inv (s.goto t .kernel) := h.goto_holding hold (fun _ => hlive) (by simp)
    split
    · exact hk
    · rename_i prev _
      apply hk.finishTaskSwitch (by simp [State.goto])
      -- the task itself is runnable, since it has just been switched to
      rintro hdead rfl
      have hrun := (h.ok prev).resume ⟨hlive, .inl hold⟩ (by simp [ht])
      rw [State.goto, tasks_modify_self] at hdead
      simp [hrun] at hdead

lemma switchResume (ht : (s.tasks t).pc = .switchCheck) : Inv (switchResume s t) := by
  have hold : (s.tasks t).pc.holding := by simp [ht]
  unfold Threads.switchResume
  split_ifs with hd
  · exact h.modify_dead hd hd (by simp) rfl rfl
  · have hlive : (s.tasks t).dead = false := by simpa using hd
    have hk : Inv (s.goto t .kernel) := h.goto_holding hold (fun _ => hlive) (by simp)
    apply hk.finishTaskSwitch (by simp [State.goto])
    intro hdead
    have hrun := (h.ok t).resume ⟨hlive, .inl hold⟩ (by simp [ht])
    rw [State.goto, tasks_modify_self] at hdead
    simp [hrun] at hdead

lemma hostStep (ht : canStep s t) : Inv (hostStep s t) := by
  unfold Threads.hostStep
  have hx := h.ok t
  cases hpc : (s.tasks t).pc with
  | noThread | kernel | exited | bug | fault => exact h
  | bootFree => exact h.goto (by simp [hpc]) rfl (by simp) (by simp) (by simp [hpc])
  | bootDown =>
    refine h.semDown ?_ (by simp [hpc]) (.inl rfl)
    simpa [canStep, hpc] using ht
  | bootCheck => exact h.bootResume hpc
  | switchUp => exact h.switchPost hpc
  | switchDown =>
    refine h.semDown ?_ (by simp [hpc]) (.inr rfl)
    simpa [canStep, hpc] using ht
  | switchCheck => exact h.switchResume hpc
  | exitSemFree | exitKfree | exitThread =>
    have hd := hx.exit_dead (by simp [hpc])
    exact h.modify_dead hd hd (by simp) rfl rfl
  | exitCounterDec =>
    have hd := hx.exit_dead (by simp [hpc])
    have h' : Inv (s.goto t .exitThread) := h.modify_dead hd hd (by simp) rfl rfl
    exact ⟨h'.ok, h'.unique, h'.up⟩

/-! ### The steps of a thread at `Pc.kernel` -/

lemma setState (ht : (s.tasks t).pc = .kernel) {st : TaskState}
    (hst : st ≠ .unused ∧ st ≠ .new) : Inv (s.modify t fun x => { x with state := st }) := by
  have hx := h.ok t
  have htok := h.hasToken_of_kernel ht
  refine h.modify ⟨hx.sem_le, hx.sem_zero, hx.exit_dead, hx.kernel_live, hx.up_live, ?_, ?_, ?_⟩
    (fun _ => htok) (fun n => id) (fun i hi => absurd hi (h.not_switchUp ht i t))
  · intro _ hr
    simp [ht] at hr
  · exact fun hr => absurd htok (hx.ref hr).1
  · exact fun hs => absurd hs (not_or.mpr hst)

lemma setRunning (hp : (s.tasks p).state = .new ∨ (s.tasks p).state = .blocked) :
    Inv (s.modify p fun x => { x with state := .running }) := by
  have hx := h.ok p
  refine h.modify ⟨hx.sem_le, hx.sem_zero, hx.exit_dead, hx.kernel_live, hx.up_live,
    fun _ _ => rfl, ?_, by simp⟩ id (fun n => id) ?_
  · intro hr
    have := (hx.ref hr).2
    rcases hp with hp | hp <;> simp [hp] at this
  · exact fun i hi => ⟨(h.up i p hi).2.1, rfl⟩

lemma copyThread (ht : (s.tasks t).pc = .kernel)
    (hp : (s.tasks p).pc = .noThread) (outcome : CopyThread) : Inv (copyThread s t p outcome) := by
  cases outcome with
  | noTba => exact h.goto_holding (by simp [ht]) (by simp) (by simp)
  | noThread => exact h
  | created =>
    have h' : Inv (s.goto p .bootFree) :=
      h.goto (by simp [hp]) rfl (by simp) (by simp) (by simp [hp])
    exact ⟨h'.ok, h'.unique, h'.up⟩

lemma killThread (ht : (s.tasks t).pc = .kernel) (hne : p ≠ t) : Inv (killThread s t p) := by
  unfold Threads.killThread
  split_ifs with hrun
  · exact h.goto_holding (by simp [ht]) (by simp) (by simp)
  · exact h.freeThreadInfo (h.not_hasToken ht hne) fun i => h.not_switchUp ht i p

end Inv

end

end

/-! ### Every run -/

lemma inv_init : Inv State.init := by
  have htok : ∀ i, (State.init.tasks i).HasToken → i = initTask := by
    intro i hi
    by_contra hne
    simp [hne] at hi
  refine ⟨?_, ?_, ?_⟩
  · intro i
    by_cases hi : i = initTask
    · subst hi
      constructor <;> simp [Task.init]
    · constructor <;> simp [hi]
  · intro i j hi hj
    rw [htok i hi, htok j hj]
  · intro i n hi
    by_cases h0 : i = initTask
    · simp [h0, Task.init] at hi
    · simp [h0] at hi

lemma inv_step (s : State) (a : Act) (h : Inv s) (ha : guard s a) : Inv (next s a) := by
  cases a with
  | allocThreadInfo _ p =>
    show Inv (s.modify p fun _ => Task.dup)
    refine h.modify ?_ ?_ ?_ (fun i hi => absurd hi (h.not_switchUp ha.1 i p))
    · constructor <;> simp [Task.dup]
    · simp [Task.dup]
    · simp [Task.dup]
  | copyThread _ _ outcome => exact h.copyThread ha.1 ha.2.2.1 outcome
  | wakeUpNewTask => exact h.setRunning (.inl ha.2.1)
  | freeTask _ p =>
    exact h.freeThreadInfo ((h.ok p).quiet (.inr ha.2.1)) fun i => h.not_switchUp ha.1 i p
  | sleep | doExit => exact h.setState ha.1 (by simp)
  | wakeUp => exact h.setRunning (.inr ha.2)
  | getTaskStruct _ p =>
    show Inv (s.modify p fun x => { x with usage := x.usage + 1 })
    exact h.modify_frame (by simp)
  | putTaskStruct _ p =>
    refine h.putTaskStruct ?_ fun i => h.not_switchUp ha.1 i p
    -- the last reference cannot be the one for the use as `current`
    intro hz
    have hlt := ha.2
    cases hc : (s.tasks p).curRef with
    | true => simp [hc] at hlt; omega
    | false => exact ((h.ok p).ref hc).1
  | switchTo => exact h.switchTo ha.1 ha.2.1 ha.2.2.1 ha.2.2.2
  | killThread =>
    obtain ⟨rfl, ht, hne, -⟩ := ha
    exact h.killThread ht hne
  | host => exact h.hostStep ha

lemma inv_of_reachable {s : State} (h : machine.Reachable s) : Inv s :=
  h.invariant inv_init inv_step

lemma Inv.hasToken_of_holdsCpu {s : State} (h : Inv s) {i : TaskId} (hi : HoldsCpu s i) :
    (s.tasks i).HasToken := by
  obtain ⟨hexec, hboot, hlive⟩ := hi
  have hexit := (h.ok i).exit_dead
  refine ⟨hlive, .inl ?_⟩
  cases hpc : (s.tasks i).pc <;> simp_all [Pc.executing]

/-- `init_task` forks task 1, which forks task 2, exits and switches to it. Task 2 drops the last
references to task 1, whose thread wakes up and reaches its `kfree`. -/
def exitRun : List Act :=
  [.allocThreadInfo 0 1, .copyThread 0 1 .created, .wakeUpNewTask 0 1, .host 1,
    .switchTo 0 1, .host 0, .host 1, .host 1,
    .allocThreadInfo 1 2, .copyThread 1 2 .created, .wakeUpNewTask 1 2, .host 2,
    .doExit 1, .switchTo 1 2, .host 1, .host 2, .host 2, .putTaskStruct 2 1,
    .host 1, .host 1, .host 1]

lemma exitRun_reachable : machine.Reachable (machine.runFrom .init exitRun) :=
  Machine.reachable_of_admits exitRun (by decide)

end LklPort.Threads
