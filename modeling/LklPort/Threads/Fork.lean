import LklPort.Threads.Token
import Mathlib.Data.Set.Basic

/-!
# Failed forks

When `copy_process` fails after `alloc_thread_info`, its error path only calls `free_thread_info`,
which marks the task dead and posts the semaphore. Without a host thread nobody ever picks the
post up, and the block and the semaphore stay allocated. A host thread that exists already is in
`thread_bootstrap`, where a dead task is a `BUG`.
-/

namespace LklPort.Threads

/-! ### What a fork allocates -/

/-- The allocated `struct __thread_info` blocks. -/
def infoBlocks (s : State) : Set TaskId := {p | (s.tasks p).hasInfo = true}

/-- The tasks whose host semaphore is allocated. -/
def semaphores (s : State) : Set TaskId := {p | (s.tasks p).hasSem = true}

/-- The tasks whose host thread exists. -/
def hostThreads (s : State) : Set TaskId :=
  {p | (s.tasks p).pc ≠ .noThread ∧ (s.tasks p).pc ≠ .exited}

/-- The error path of the fork of `p` has called `free_thread_info`. -/
def ForkFailed (s : State) (p : TaskId) : Prop :=
  (s.tasks p).state = .new ∧ (s.tasks p).dead = true

/-- The thread layer at `s` is the one before the fork of `p` at `s₀`, and the `BUG_ON` of
`thread_bootstrap` has not fired. -/
def ForkUndone (s₀ s : State) (p : TaskId) : Prop :=
  infoBlocks s = infoBlocks s₀ ∧ semaphores s = semaphores s₀ ∧ hostThreads s = hostThreads s₀ ∧
    s.threadsCounter = s₀.threadsCounter ∧ (s.tasks p).pc ≠ .bug

/-- What holds of a task inside `copy_process`: its block and its semaphore are allocated, its
thread has at most been woken up to find the task dead, and then the post is still there. -/
structure Task.NewOk (x : Task) : Prop where
  unused : x.state = .unused → x.hasInfo = false
  alloc : x.state = .new → x.hasInfo = true ∧ x.hasSem = true
  pc : x.state = .new → x.pc = .noThread ∨ x.pc = .bootFree ∨ x.pc = .bootDown ∨
    x.dead = true ∧ (x.pc = .bootCheck ∨ x.pc = .bug)
  posted : x.state = .new → x.dead = true → x.pc = .bootFree ∨ x.pc = .bootDown → 0 < x.semCount

/-- All tasks are as a fork allows. -/
abbrev NewOk (s : State) : Prop := ∀ i, (s.tasks i).NewOk

section

variable {s : State} {t p : TaskId}

lemma newOk_modify (h : NewOk s) {f : Task → Task} (hf : (f (s.tasks p)).NewOk) :
    NewOk (s.modify p f) := forall_modify hf fun i _ => h i

/-- Nothing but the state, the allocations, the `dead` flag, the semaphore and the thread
matters. -/
lemma Task.NewOk.congr {x y : Task} (h : x.NewOk) (hstate : y.state = x.state)
    (hinfo : y.hasInfo = x.hasInfo) (hsem : y.hasSem = x.hasSem) (hcount : y.semCount = x.semCount)
    (hdead : y.dead = x.dead) (hpc : y.pc = x.pc) : y.NewOk where
  unused := by rw [hstate, hinfo]; exact h.unused
  alloc := by rw [hstate, hinfo, hsem]; exact h.alloc
  pc := by rw [hstate, hdead, hpc]; exact h.pc
  posted := by rw [hstate, hdead, hpc, hcount]; exact h.posted

lemma Task.NewOk.of_started {x : Task} (h : x.state ≠ .unused ∧ x.state ≠ .new) : x.NewOk where
  unused hx := absurd hx h.1
  alloc hx := absurd hx h.2
  pc hx := absurd hx h.2
  posted hx := absurd hx h.2

section

variable (h : NewOk s)

include h

lemma newOk_freeThreadInfo : NewOk (freeThreadInfo s p) := by
  refine newOk_modify h ⟨(h p).unused, (h p).alloc, ?_, by simp⟩
  intro hnew
  rcases (h p).pc hnew with hpc | hpc | hpc | ⟨-, hpc⟩
  · exact .inl hpc
  · exact .inr (.inl hpc)
  · exact .inr (.inr (.inl hpc))
  · exact .inr (.inr (.inr ⟨rfl, hpc⟩))

lemma newOk_putTaskStruct : NewOk (putTaskStruct s p) := by
  have hdec : NewOk (decUsage s p) :=
    newOk_modify h ((h p).congr rfl rfl rfl rfl rfl rfl)
  unfold putTaskStruct
  split_ifs
  · exact newOk_freeThreadInfo hdec
  · exact hdec

lemma newOk_finishTaskSwitch (boot : Bool) : NewOk (finishTaskSwitch s t p boot) := by
  unfold finishTaskSwitch
  split_ifs
  · exact newOk_putTaskStruct (newOk_modify (s := recordFinish s t p boot) h
      ((h p).congr rfl rfl rfl rfl rfl rfl))
  · exact h

end

lemma Inv.started_of_holding (hinv : Inv s) (hlive : (s.tasks t).dead = false)
    (hpc : (s.tasks t).pc.holding) : (s.tasks t).state ≠ .unused ∧ (s.tasks t).state ≠ .new := by
  have htok : (s.tasks t).HasToken := ⟨hlive, .inl hpc⟩
  exact ⟨fun hs => (hinv.ok t).quiet (.inl hs) htok, fun hs => (hinv.ok t).quiet (.inr hs) htok⟩

lemma Inv.started_of_kernel (hinv : Inv s) (ht : (s.tasks t).pc = .kernel) :
    (s.tasks t).state ≠ .unused ∧ (s.tasks t).state ≠ .new :=
  hinv.started_of_holding ((hinv.ok t).kernel_live ht) (by simp [ht])

lemma newOk_modify_old (h : NewOk s) {f : Task → Task}
    (hnew : (s.tasks t).state ≠ .new) (hstate : (f (s.tasks t)).state = (s.tasks t).state)
    (hinfo : (s.tasks t).hasInfo = false → (f (s.tasks t)).hasInfo = false) :
    NewOk (s.modify t f) := by
  have hnew' : (f (s.tasks t)).state ≠ .new := by rw [hstate]; exact hnew
  refine newOk_modify h ⟨?_, fun hx => absurd hx hnew', fun hx => absurd hx hnew',
    fun hx => absurd hx hnew'⟩
  intro hx
  exact hinfo ((h t).unused (hstate ▸ hx))

lemma newOk_hostStep (hinv : Inv s) (h : NewOk s) (ht : canStep s t) : NewOk (hostStep s t) := by
  -- past `thread_bootstrap` a task is not new any more
  have hold : (s.tasks t).pc.resuming = false ∨ (s.tasks t).pc = .switchDown ∨
      (s.tasks t).pc = .switchCheck → (s.tasks t).pc ≠ .bug → (s.tasks t).state ≠ .new := by
    intro hpc hbug hnew
    rcases (h t).pc hnew with hp | hp | hp | ⟨-, hp | hp⟩ <;> simp_all
  unfold hostStep
  cases hpc : (s.tasks t).pc with
  | noThread | kernel | exited | bug | fault => exact h
  | bootFree =>
    refine newOk_modify h ⟨(h t).unused, (h t).alloc, by simp, ?_⟩
    intro hnew hd _
    exact (h t).posted hnew hd (.inl hpc)
  | bootDown =>
    have hsem : 0 < (s.tasks t).semCount := by simpa [canStep, hpc] using ht
    refine newOk_modify h ⟨(h t).unused, (h t).alloc, ?_, by simp⟩
    intro hnew
    have hd : (s.tasks t).dead = true := by
      by_contra hd
      exact (hinv.ok t).quiet (.inr hnew) ⟨by simpa using hd, .inr hsem⟩
    simp [hd]
  | bootCheck =>
    simp only
    unfold bootResume
    split_ifs with hd
    · refine newOk_modify h ⟨(h t).unused, (h t).alloc, ?_, by simp⟩
      intro _
      simp [hd]
    · have hs := hinv.started_of_holding (by simpa using hd) (by simp [hpc])
      have hk : NewOk (s.goto t .kernel) := newOk_modify h (.of_started hs)
      split
      · exact hk
      · exact newOk_finishTaskSwitch hk true
  | switchUp n =>
    have hdown : NewOk (s.goto t .switchDown) :=
      newOk_modify_old h (hold (by simp [hpc]) (by simp [hpc])) rfl id
    obtain ⟨hne, -, hrun⟩ := hinv.up t n hpc
    show NewOk ((s.goto t .switchDown).modify n fun x => { x with semCount := x.semCount + 1 })
    refine newOk_modify hdown (.of_started ?_)
    simp [State.goto, tasks_modify_of_ne s _ hne, hrun]
  | switchDown => exact newOk_modify_old h (hold (by simp [hpc]) (by simp [hpc])) rfl id
  | switchCheck =>
    have hs := hold (by simp [hpc]) (by simp [hpc])
    unfold switchResume
    split_ifs with hd
    · exact newOk_modify_old h hs rfl id
    · exact newOk_finishTaskSwitch (newOk_modify_old h hs rfl id) false
  | exitSemFree | exitThread =>
    exact newOk_modify_old h (hold (by simp [hpc]) (by simp [hpc])) rfl id
  | exitKfree =>
    exact newOk_modify_old h (hold (by simp [hpc]) (by simp [hpc])) rfl (fun _ => rfl)
  | exitCounterDec =>
    show NewOk (s.goto t .exitThread)
    exact newOk_modify_old h (hold (by simp [hpc]) (by simp [hpc])) rfl id

end

lemma newOk_step (s : State) (a : Act) (hinv : Inv s) (h : NewOk s)
    (ha : guard s a) : NewOk (next s a) := by
  cases a <;> simp only [next]
  case allocThreadInfo t p =>
    apply newOk_modify h
    constructor <;> simp [Task.dup, Task.unused]
  case copyThread t p outcome =>
    cases outcome with
    | noTba =>
      show NewOk (s.goto t .fault)
      exact newOk_modify h (.of_started (hinv.started_of_kernel ha.1))
    | noThread => exact h
    | created =>
      show NewOk (s.goto p .bootFree)
      refine newOk_modify h ⟨(h p).unused, (h p).alloc, by simp, ?_⟩
      intro _ hd
      simp [ha.2.2.2] at hd
  case wakeUpNewTask | sleep | wakeUp | doExit => exact newOk_modify h (.of_started (by simp))
  case freeTask => exact newOk_freeThreadInfo h
  case getTaskStruct t p => exact newOk_modify h ((h p).congr rfl rfl rfl rfl rfl rfl)
  case putTaskStruct => exact newOk_putTaskStruct h
  case switchTo t n =>
    have ht : NewOk (s.goto t (.switchUp n)) :=
      newOk_modify h (.of_started (hinv.started_of_kernel ha.1))
    show NewOk ((s.goto t (.switchUp n)).modify n fun x => { x with prevSched := some t })
    exact newOk_modify ht ((ht n).congr rfl rfl rfl rfl rfl rfl)
  case killThread t p =>
    unfold killThread
    split_ifs
    · exact newOk_modify h (.of_started (hinv.started_of_kernel ha.2.1))
    · exact newOk_freeThreadInfo h
  case host t => exact newOk_hostStep hinv h ha

lemma newOk_of_reachable {s : State} (h : machine.Reachable s) : NewOk s := by
  refine h.invariant_of (fun _ => inv_of_reachable) ?_
    newOk_step
  intro i
  by_cases hi : i = initTask
  · constructor <;> simp [State.init, machine, hi, Task.init]
  · constructor <;> simp [machine, State.init, hi, Task.unused]

/-- Once a fork has failed and its thread, if any, has run as far as it can, the block and the
semaphore are still allocated, and the thread, if any, is inside `BUG()`. -/
lemma forkFailed_leaks {s : State} (h : machine.Reachable s) {p : TaskId} (hfail : ForkFailed s p)
    (hstop : canStep s p = false) : (s.tasks p).hasInfo = true ∧ (s.tasks p).hasSem = true ∧
      ((s.tasks p).pc = .noThread ∨ (s.tasks p).pc = .bug) := by
  obtain ⟨hnew, hdead⟩ := hfail
  have hx := newOk_of_reachable h p
  refine ⟨(hx.alloc hnew).1, (hx.alloc hnew).2, ?_⟩
  have hposted := hx.posted hnew hdead
  rcases hx.pc hnew with hpc | hpc | hpc | ⟨-, hpc | hpc⟩
  · exact .inl hpc
  · simp [canStep, hpc] at hstop
  · have := hposted (.inr hpc)
    simp [canStep, hpc] at hstop
    omega
  · simp [canStep, hpc] at hstop
  · exact .inr hpc

/-- Wherever a fork fails, and however its steps interleave with those of other threads, the thread
layer is never what it was before the fork. -/
theorem failed_fork_never_undone (s₀ : State) (h₀ : machine.Reachable s₀) (p : TaskId)
    (hp : (s₀.tasks p).state = .unused) (as : List Act) (has : machine.Admits s₀ as)
    (hfail : ForkFailed (machine.runFrom s₀ as) p)
    (hstop : canStep (machine.runFrom s₀ as) p = false) :
    ¬ ForkUndone s₀ (machine.runFrom s₀ as) p := by
  rintro ⟨hinfo, -⟩
  have hleak := forkFailed_leaks (h₀.runFrom has) hfail hstop
  have hp₀ : p ∈ infoBlocks s₀ := hinfo ▸ (show p ∈ infoBlocks (machine.runFrom s₀ as) from hleak.1)
  have := (newOk_of_reachable h₀ p).unused hp
  simp [infoBlocks, this] at hp₀

/-- A fork that fails in `dup_task_struct` or anywhere before `copy_thread`. -/
def forkBefore : List Act := [.allocThreadInfo 0 1, .freeTask 0 1]

/-- A fork for which `thread_create` fails. -/
def forkInside : List Act := [.allocThreadInfo 0 1, .copyThread 0 1 .noThread, .freeTask 0 1]

/-- A fork that fails after `copy_thread`. -/
def forkAfter : List Act :=
  [.allocThreadInfo 0 1, .copyThread 0 1 .created, .host 1, .freeTask 0 1, .host 1, .host 1]

theorem failed_fork_never_undone_examples :
    ¬ ForkUndone .init (machine.runFrom .init forkBefore) 1 ∧
      ¬ ForkUndone .init (machine.runFrom .init forkInside) 1 ∧
      ¬ ForkUndone .init (machine.runFrom .init forkAfter) 1 := by
  refine ⟨?_, ?_, ?_⟩
  · exact failed_fork_never_undone _ .init 1 (by decide) forkBefore (by decide)
      ⟨by decide, by decide⟩ (by decide)
  · exact failed_fork_never_undone _ .init 1 (by decide) forkInside (by decide)
      ⟨by decide, by decide⟩ (by decide)
  · exact failed_fork_never_undone _ .init 1 (by decide) forkAfter (by decide)
      ⟨by decide, by decide⟩ (by decide)

/-- The fork of `forkAfter` ends in the `BUG_ON` of `thread_bootstrap`, with the block, the
semaphore and the thread still there and the thread counted. -/
theorem forkAfter_bug :
    machine.Admits .init forkAfter ∧ ForkFailed (machine.runFrom .init forkAfter) 1 ∧
      canStep (machine.runFrom .init forkAfter) 1 = false ∧
      ((machine.runFrom .init forkAfter).tasks 1).pc = .bug ∧
      (machine.runFrom .init forkAfter).threadsCounter = 1 ∧
      ¬ ForkUndone .init (machine.runFrom .init forkAfter) 1 := by
  refine ⟨by decide, ⟨by decide, by decide⟩, by decide, by decide, by decide, ?_⟩
  rintro ⟨-, -, -, -, hbug⟩
  exact hbug (by decide)

end LklPort.Threads
