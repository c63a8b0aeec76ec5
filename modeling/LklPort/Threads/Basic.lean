import LklPort.Machine.Basic
import Mathlib.Data.Int.Notation

/-!
# The host threads behind kernel tasks

`arch/lkl/kernel/threads.c` gives every kernel task a host thread and a counting semaphore
`sched_sem`. A context switch posts the semaphore of the next task and then waits on the one of
the task that is switched out, so the right to run kernel code is handed over like a token.
`free_thread_info` posts the semaphore once more, after it has marked the task dead, to let the
host thread of the task tear itself down.

The machine below interleaves the host threads. A thread at `Pc.kernel` may fork, sleep, wake,
exit, drop references and call `__switch_to`, in the ways `kernel/fork.c`, `kernel/exit.c` and
`kernel/sched.c` allow; a thread anywhere else follows the text of `threads.c`.
-/

namespace LklPort.Threads

/-- The address of a `task_struct`. -/
abbrev TaskId := ℕ

/-- `init_task`, whose host thread is the one that called `lkl_start_kernel`. -/
def initTask : TaskId := 0

/-- `task_struct.state`, with two states for tasks that the scheduler does not know: nothing is
allocated at an `unused` address, and a `new` task is still inside `copy_process`. -/
inductive TaskState where
  | unused
  | new
  | running
  | blocked
  | dead
  deriving DecidableEq

/-- Where the host thread of a task is. -/
inductive Pc where
  /-- `thread_create` has not been called for this task, or has failed. -/
  | noThread
  /-- In `thread_bootstrap`, before `kfree(tba)`. -/
  | bootFree
  /-- In `thread_bootstrap`, at `sem_down(ti->sched_sem)`. -/
  | bootDown
  /-- In `thread_bootstrap`, at `BUG_ON(ti->dead)`. -/
  | bootCheck
  /-- Anywhere else in the kernel. -/
  | kernel
  /-- In `__switch_to`, at `sem_up(_next->sched_sem)`. -/
  | switchUp (next : TaskId)
  /-- In `__switch_to`, at `sem_down(_prev->sched_sem)`. -/
  | switchDown
  /-- In `__switch_to`, at `if (_prev->dead)`. -/
  | switchCheck
  /-- A dead thread, at `sem_free(_prev->sched_sem)`. -/
  | exitSemFree
  /-- A dead thread, at `kfree(_prev)`. -/
  | exitKfree
  /-- A dead thread, at `threads_counter_dec()`. -/
  | exitCounterDec
  /-- A dead thread, at `thread_exit(thread)`. -/
  | exitThread
  /-- Past `thread_exit`. -/
  | exited
  /-- Inside `BUG()`. -/
  | bug
  /-- `copy_thread` has written through the `tba` that `kmalloc` failed to give it. -/
  | fault
  deriving DecidableEq

/-- The parts of `task_struct` and `struct __thread_info` that the thread layer reads or writes. -/
structure Task where
  state : TaskState
  usage : ℕ
  /-- The reference for the use as `current` has not been dropped. -/
  curRef : Bool
  /-- The `struct __thread_info` is allocated. -/
  hasInfo : Bool
  /-- `sched_sem` is allocated. -/
  hasSem : Bool
  semCount : ℕ
  dead : Bool
  prevSched : Option TaskId
  pc : Pc

/-- Nothing is allocated at this address. -/
def Task.unused : Task where
  state := .unused
  usage := 0
  curRef := false
  hasInfo := false
  hasSem := false
  semCount := 0
  dead := false
  prevSched := none
  pc := .noThread

/-- `init_task` after `threads_init`. -/
def Task.init : Task :=
  { Task.unused with
    state := .running, usage := 2, curRef := true, hasInfo := true, hasSem := true, pc := .kernel }

/-- The task that `dup_task_struct` returns: `alloc_thread_info` has allocated the block and a
semaphore with count 0, and there are two references. -/
def Task.dup : Task :=
  { Task.unused with state := .new, usage := 2, curRef := true, hasInfo := true, hasSem := true }

/-- A call of `finish_task_switch`: the task that makes it, the `prev` it is handed, the task whose
`__switch_to` had released the caller, whether `prev` was in `TASK_DEAD`, and whether the call
comes from `thread_bootstrap`. -/
structure Finish where
  resumed : TaskId
  prev : TaskId
  releaser : Option TaskId
  prevDead : Bool
  boot : Bool
  deriving DecidableEq

/-- The state of the thread layer. The last two fields only record history: who posted the
semaphore of each task from `__switch_to` last, and the calls of `finish_task_switch` so far. -/
structure State where
  tasks : TaskId → Task
  /-- `_current_thread_info`. -/
  current : TaskId
  threadsCounter : ℤ
  releasedBy : TaskId → Option TaskId
  finishes : List Finish

/-- The state in which `start_kernel` runs on the thread of `init_task`. -/
def State.init : State where
  tasks := fun t => if t = initTask then Task.init else Task.unused
  current := initTask
  threadsCounter := 0
  releasedBy := fun _ => none
  finishes := []

/-- Change one task. -/
def State.modify (s : State) (t : TaskId) (f : Task → Task) : State :=
  { s with tasks := Function.update s.tasks t (f (s.tasks t)) }

/-- Move the host thread of a task. -/
def State.goto (s : State) (t : TaskId) (pc : Pc) : State :=
  s.modify t fun x => { x with pc := pc }

lemma tasks_modify (s : State) (t : TaskId) (f : Task → Task) (i : TaskId) :
    (s.modify t f).tasks i = if i = t then f (s.tasks t) else s.tasks i := by
  simp [State.modify, Function.update_apply]

@[simp] lemma tasks_modify_self (s : State) (t : TaskId) (f : Task → Task) :
    (s.modify t f).tasks t = f (s.tasks t) := by
  simp [State.modify]

lemma tasks_modify_of_ne (s : State) {t i : TaskId} (f : Task → Task) (h : i ≠ t) :
    (s.modify t f).tasks i = s.tasks i := by
  simp [State.modify, h]

lemma forall_modify {P : TaskId → Task → Prop} {s : State} {t : TaskId} {f : Task → Task}
    (hself : P t (f (s.tasks t))) (hother : ∀ i, i ≠ t → P i (s.tasks i)) (i : TaskId) :
    P i ((s.modify t f).tasks i) :=
  (Function.forall_update_iff s.tasks P).2 ⟨hself, hother⟩ i

/-! ### The functions of `threads.c` and what they call -/

/-- `free_thread_info`: mark the task dead and post its semaphore. -/
def freeThreadInfo (s : State) (p : TaskId) : State :=
  s.modify p fun x => { x with dead := true, semCount := x.semCount + 1 }

/-- `atomic_dec(&t->usage)`. -/
def decUsage (s : State) (p : TaskId) : State :=
  s.modify p fun x => { x with usage := x.usage - 1 }

/-- `put_task_struct`: the last reference frees the task. -/
def putTaskStruct (s : State) (p : TaskId) : State :=
  if (s.tasks p).usage - 1 = 0 then freeThreadInfo (decUsage s p) p else decUsage s p

/-- Record a call of `finish_task_switch` by `t` with `prev`. -/
def recordFinish (s : State) (t prev : TaskId) (boot : Bool) : State :=
  { s with
    finishes := s.finishes ++ [⟨t, prev, s.releasedBy t, (s.tasks prev).state = .dead, boot⟩] }

/-- `finish_task_switch`, called by `t` with `prev`. -/
def finishTaskSwitch (s : State) (t prev : TaskId) (boot : Bool) : State :=
  if (s.tasks prev).state = .dead then
    putTaskStruct
      ((recordFinish s t prev boot).modify prev fun x => { x with curRef := false }) prev
  else recordFinish s t prev boot

lemma State.counts_frame {f : Task → Task} (s : State) (p : TaskId)
    (hf : ∃ u c d, f (s.tasks p) = { s.tasks p with usage := u, semCount := c, dead := d })
    (i : TaskId) : ((s.modify p f).tasks i).state = (s.tasks i).state ∧
      ((s.modify p f).tasks i).curRef = (s.tasks i).curRef ∧
      ((s.modify p f).tasks i).prevSched = (s.tasks i).prevSched ∧
      ((s.modify p f).tasks i).pc = (s.tasks i).pc := by
  obtain ⟨u, c, d, hf⟩ := hf
  by_cases hi : i = p
  · subst hi; simp [hf]
  · simp [tasks_modify_of_ne s _ hi]

lemma putTaskStruct_frame (s : State) (p i : TaskId) :
    ((putTaskStruct s p).tasks i).state = (s.tasks i).state ∧
      ((putTaskStruct s p).tasks i).curRef = (s.tasks i).curRef ∧
      ((putTaskStruct s p).tasks i).prevSched = (s.tasks i).prevSched ∧
      ((putTaskStruct s p).tasks i).pc = (s.tasks i).pc := by
  have hdec := s.counts_frame (f := fun x => { x with usage := x.usage - 1 }) p ⟨_, _, _, rfl⟩ i
  unfold putTaskStruct
  split_ifs
  · obtain ⟨hstate, href, hprev, hpc⟩ := (decUsage s p).counts_frame
      (f := fun x => { x with dead := true, semCount := x.semCount + 1 }) p ⟨_, _, _, rfl⟩ i
    exact ⟨hstate.trans hdec.1, href.trans hdec.2.1, hprev.trans hdec.2.2.1, hpc.trans hdec.2.2.2⟩
  · exact hdec

lemma putTaskStruct_history (s : State) (p : TaskId) : (putTaskStruct s p).finishes = s.finishes ∧
      (putTaskStruct s p).releasedBy = s.releasedBy := by
  unfold putTaskStruct
  split_ifs <;> exact ⟨rfl, rfl⟩

lemma finishTaskSwitch_spec (s : State) (t prev : TaskId) (boot : Bool) :
    (finishTaskSwitch s t prev boot).finishes =
        s.finishes ++ [⟨t, prev, s.releasedBy t, (s.tasks prev).state = .dead, boot⟩] ∧
      (finishTaskSwitch s t prev boot).releasedBy = s.releasedBy ∧
      ∀ i, ((finishTaskSwitch s t prev boot).tasks i).state = (s.tasks i).state ∧
        ((finishTaskSwitch s t prev boot).tasks i).prevSched = (s.tasks i).prevSched ∧
        ((finishTaskSwitch s t prev boot).tasks i).pc = (s.tasks i).pc ∧
        ((finishTaskSwitch s t prev boot).tasks i).curRef =
          if i = prev ∧ (s.tasks prev).state = .dead then false else (s.tasks i).curRef := by
  unfold finishTaskSwitch
  split_ifs with hdead
  · simp only [putTaskStruct_history, putTaskStruct_frame]
    refine ⟨rfl, rfl, fun i => ?_⟩
    by_cases hi : i = prev
    · subst hi; simp [recordFinish, hdead]
    · simp [recordFinish, tasks_modify_of_ne _ _ hi, hi]
  · simp [recordFinish, hdead]

/-- The rest of `thread_bootstrap` once `sem_down` has returned, up to the call of `f(arg)`. -/
def bootResume (s : State) (t : TaskId) : State :=
  if (s.tasks t).dead then s.goto t .bug
  else
    match (s.tasks t).prevSched with
    | none => s.goto t .kernel
    | some prev => finishTaskSwitch (s.goto t .kernel) t prev true

/-- The rest of `__switch_to` once `sem_down` has returned. It returns its own argument `prev`,
which `context_switch` hands to `finish_task_switch`. -/
def switchResume (s : State) (prev : TaskId) : State :=
  if (s.tasks prev).dead then s.goto prev .exitSemFree
  else finishTaskSwitch (s.goto prev .kernel) prev prev false

/-- `sem_up(_next->sched_sem)` in `__switch_to`. -/
def switchPost (s : State) (prev next : TaskId) : State :=
  let s' := (s.goto prev .switchDown).modify next fun x => { x with semCount := x.semCount + 1 }
  { s' with releasedBy := Function.update s'.releasedBy next (some prev) }

/-- The first statements of `__switch_to`. -/
def switchTo (s : State) (prev next : TaskId) : State :=
  let s' := (s.goto prev (.switchUp next)).modify next fun x => { x with prevSched := some prev }
  { s' with current := next }

/-- A `sem_down` on the thread's own semaphore that finds it posted. -/
def semDown (s : State) (t : TaskId) (pc : Pc) : State :=
  s.modify t fun x => { x with semCount := x.semCount - 1, pc := pc }

/-- How `copy_thread` can go. -/
inductive CopyThread where
  /-- `kmalloc` gives no `tba`, and the next line writes through it. -/
  | noTba
  /-- `thread_create` returns `NULL`. -/
  | noThread
  /-- The host thread is created and counted. -/
  | created
  deriving DecidableEq

/-- `copy_thread` for the new task `p`, called by `t`. -/
def copyThread (s : State) (t p : TaskId) : CopyThread → State
  | .noTba => s.goto t .fault
  | .noThread => s
  | .created => { s.goto p .bootFree with threadsCounter := s.threadsCounter + 1 }

/-- One turn of the loop of `kill_all_threads`. -/
def killThread (s : State) (t p : TaskId) : State :=
  if (s.tasks p).state = .running then s.goto t .bug else freeThreadInfo s p

/-- The next step of a host thread that is not at `Pc.kernel`. -/
def hostStep (s : State) (t : TaskId) : State :=
  match (s.tasks t).pc with
  | .bootFree => s.goto t .bootDown
  | .bootDown => semDown s t .bootCheck
  | .bootCheck => bootResume s t
  | .switchUp next => switchPost s t next
  | .switchDown => semDown s t .switchCheck
  | .switchCheck => switchResume s t
  | .exitSemFree => s.modify t fun x => { x with hasSem := false, pc := .exitKfree }
  | .exitKfree => s.modify t fun x => { x with hasInfo := false, pc := .exitCounterDec }
  | .exitCounterDec => { s.goto t .exitThread with threadsCounter := s.threadsCounter - 1 }
  | .exitThread => s.goto t .exited
  | .noThread | .kernel | .exited | .bug | .fault => s

/-- The host thread of `t` has a next step of its own. -/
def canStep (s : State) (t : TaskId) : Bool :=
  match (s.tasks t).pc with
  | .bootDown | .switchDown => 0 < (s.tasks t).semCount
  | .noThread | .kernel | .exited | .bug | .fault => false
  | _ => true

/-! ### The machine -/

/-- The steps of the host threads. Where the first argument is called `t`, it is the task whose
thread takes the step. -/
inductive Act where
  /-- `alloc_thread_info` succeeds in `dup_task_struct`. -/
  | allocThreadInfo (t p : TaskId)
  | copyThread (t p : TaskId) (outcome : CopyThread)
  /-- `copy_process` has succeeded and `do_fork` makes the task runnable. -/
  | wakeUpNewTask (t p : TaskId)
  /-- The error path of `dup_task_struct` or `copy_process` frees the new task. -/
  | freeTask (t p : TaskId)
  /-- `t` leaves `TASK_RUNNING` before it calls `schedule`. -/
  | sleep (t : TaskId)
  | wakeUp (t p : TaskId)
  /-- `do_exit` sets `TASK_DEAD`. -/
  | doExit (t : TaskId)
  | getTaskStruct (t p : TaskId)
  /-- A reference other than the one for the use as `current` is dropped. -/
  | putTaskStruct (t p : TaskId)
  /-- `schedule` has picked `n` and `__switch_to` is entered. -/
  | switchTo (t n : TaskId)
  | killThread (t p : TaskId)
  | host (t : TaskId)
  deriving DecidableEq

/-- When a step can be taken. The scheduler picks runnable tasks only, and none that
`free_thread_info` has been called for. -/
def guard (s : State) : Act → Prop
  | .allocThreadInfo t p => (s.tasks t).pc = .kernel ∧ (s.tasks p).state = .unused
  | .copyThread t p _ =>
    (s.tasks t).pc = .kernel ∧ (s.tasks p).state = .new ∧ (s.tasks p).pc = .noThread ∧
      (s.tasks p).dead = false
  | .wakeUpNewTask t p =>
    (s.tasks t).pc = .kernel ∧ (s.tasks p).state = .new ∧ (s.tasks p).pc ≠ .noThread ∧
      (s.tasks p).dead = false
  | .freeTask t p =>
    (s.tasks t).pc = .kernel ∧ (s.tasks p).state = .new ∧ (s.tasks p).dead = false
  | .sleep t => (s.tasks t).pc = .kernel ∧ (s.tasks t).state = .running
  | .wakeUp t p => (s.tasks t).pc = .kernel ∧ (s.tasks p).state = .blocked
  | .doExit t => (s.tasks t).pc = .kernel ∧ (s.tasks t).state = .running ∧ t ≠ initTask
  | .getTaskStruct t p => (s.tasks t).pc = .kernel ∧ 0 < (s.tasks p).usage
  | .putTaskStruct t p =>
    (s.tasks t).pc = .kernel ∧ (s.tasks p).curRef.toNat < (s.tasks p).usage
  | .switchTo t n =>
    (s.tasks t).pc = .kernel ∧ n ≠ t ∧ (s.tasks n).state = .running ∧ (s.tasks n).dead = false
  | .killThread t p =>
    t = initTask ∧ (s.tasks t).pc = .kernel ∧ p ≠ initTask ∧ (s.tasks p).state ≠ .unused ∧
      (s.tasks p).state ≠ .new
  | .host t => canStep s t

/-- What a step does. -/
def next (s : State) : Act → State
  | .allocThreadInfo _ p => s.modify p fun _ => Task.dup
  | .copyThread t p outcome => copyThread s t p outcome
  | .wakeUpNewTask _ p => s.modify p fun x => { x with state := .running }
  | .freeTask _ p => freeThreadInfo s p
  | .sleep t => s.modify t fun x => { x with state := .blocked }
  | .wakeUp _ p => s.modify p fun x => { x with state := .running }
  | .doExit t => s.modify t fun x => { x with state := .dead }
  | .getTaskStruct _ p => s.modify p fun x => { x with usage := x.usage + 1 }
  | .putTaskStruct _ p => putTaskStruct s p
  | .switchTo t n => switchTo s t n
  | .killThread t p => killThread s t p
  | .host t => hostStep s t

/-- The thread layer, with the host threads interleaved in any order. -/
def machine : Machine State Act where
  init := .init
  guard := guard
  next := next

instance (s : State) (a : Act) : Decidable (machine.guard s a) := by
  cases a <;> dsimp only [machine, guard] <;> infer_instance

end LklPort.Threads
