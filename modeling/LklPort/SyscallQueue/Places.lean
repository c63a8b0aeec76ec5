import LklPort.SyscallQueue.Basic
import LklPort.Custody.Basic

/-!
# What a step can do

`Step` lists the transitions of the machine, each with what is known of the state it is taken in.
The proofs about the machine go by cases on it and do not unfold `next` again.
-/

namespace LklPort.SyscallQueue

variable {threadId : Bool} {s : State} {t : ThreadId}

lemma getSyscallQueue_cases {q : QueueId} (h : getSyscallQueue s t = q) :
    q = defaultQueue ∨ q ∈ s.buckets (syscallQueueHashHead t) ∧ (s.queues q).thread = t := by
  unfold getSyscallQueue at h
  cases hfind : (s.buckets (syscallQueueHashHead t)).find? fun q => (s.queues q).thread = t with
  | none => exact .inl (by simpa [hfind] using h.symm)
  | some q' =>
    obtain rfl : q' = q := by simpa [hfind] using h
    exact .inr ⟨List.mem_of_find?_eq_some hfind, by simpa using List.find?_some hfind⟩

lemma obtains_eq_some {api : Api} {q : QueueId} (h : obtains threadId s t api = some q) :
    q = defaultQueue ∨ q ∈ s.buckets (syscallQueueHashHead t) ∧ (s.queues q).thread = t := by
  cases api with
  | sys =>
    cases threadId with
    | false => exact .inl (by simpa [obtains] using h.symm)
    | true => exact getSyscallQueue_cases (by simpa [obtains] using h)
  | halt => exact .inl (by simpa [obtains] using h.symm)
  | init => simp [obtains] at h
  | cleanup =>
    simp only [obtains, Option.ite_none_left_eq_some, Option.some.injEq] at h
    exact getSyscallQueue_cases h.2

lemma startServer_cases (s : State) (k : Kind) (started : Bool) :
    (∃ q, k = .init q ∧ started = true ∧ startServer s k started =
      Function.update s.queues q { s.queues q with server := .waiting }) ∨
    startServer s k started = s.queues := by
  unfold startServer
  split
  next q => exact .inl ⟨q, rfl, rfl, rfl⟩
  next => exact .inr rfl

/-- The kind of a call that goes to a queue. -/
def Kind.ViaQueue (k : Kind) : Prop := ∀ q, k ≠ .init q

/-- The transitions of the machine. -/
inductive Step (threadId : Bool) (s : State) : Act → State → Prop
  /-- A call that returns `-EBUSY` or `-EINVAL`. -/
  | refuse {t : ThreadId} {api : Api} : Step threadId s (.enter t api) s
  | enter {t : ThreadId} {api : Api} {k : Kind} {q : QueueId} (ht : s.callers t = .outside)
      (hk : k.ViaQueue) (hq : obtains threadId s t api = some q) :
      Step threadId s (.enter t api) (s.setCaller t (.ready k (some q)))
  | enterInit {t : ThreadId} (ht : s.callers t = .outside) :
      Step threadId s (.enter t .init) (s.setCaller t .initNew)
  /-- `kmalloc` or `sem_alloc` fails. -/
  | abort {t : ThreadId}
      (ht : s.callers t = .initNew ∨ ∃ k q, s.callers t = .ready k q) :
      Step threadId s (.caller t false) (s.setCaller t .outside)
  | newQueue {t : ThreadId} (ht : s.callers t = .initNew) :
      Step threadId s (.caller t true) (newSyscallQueue s t)
  | link {t : ThreadId} {alloc : Bool} {q : QueueId} (ht : s.callers t = .initLink q) :
      Step threadId s (.caller t alloc) (linkSyscallQueue s t q)
  | newReq {t : ThreadId} {k : Kind} {q : Option QueueId} (ht : s.callers t = .ready k q) :
      Step threadId s (.caller t true) (newReq s t k q)
  | submit {t : ThreadId} {r : ReqId} (ht : s.callers t = .trigger r) :
      Step threadId s (.caller t true) (triggerIrqWithData s t r)
  | lose {t : ThreadId} {r : ReqId} (ht : s.callers t = .trigger r) :
      Step threadId s (.caller t false) (loseReq s t r)
  | ret {t : ThreadId} {alloc : Bool} {r : ReqId} (ht : s.callers t = .wait r)
      (hsem : 0 < (s.reqs r).sem) : Step threadId s (.caller t alloc) (returnReq s t r)
  | initUnlink {t : ThreadId} {alloc : Bool} {q : QueueId} (ht : s.callers t = .initUnlink q) :
      Step threadId s (.caller t alloc) ((unlinkSyscallQueue s q).setCaller t (.initFree q))
  | initFree {t : ThreadId} {alloc : Bool} {q : QueueId} (ht : s.callers t = .initFree q) :
      Step threadId s (.caller t alloc) ((freeSyscallQueue s q).setCaller t .outside)
  | dequeue {r : ReqId} {l : List ReqId} (hhand : s.hand = none) (hl : s.irq.dataList = r :: l) :
      Step threadId s .irq (dequeueData s r)
  | schedule {r : ReqId} (hhand : s.hand = some r) (hq : (s.reqs r).queue = none) :
      Step threadId s .irq (scheduleWork s r)
  | enqueue {r : ReqId} {q : QueueId} (hhand : s.hand = some r)
      (hq : (s.reqs r).queue = some q) : Step threadId s .irq (listAdd s q r)
  | take {q : QueueId} {r : ReqId} {l : List ReqId} (hserver : (s.queues q).server = .waiting)
      (hl : (s.queues q).lh = r :: l) (hk : (s.reqs r).kind.reboot = false) :
      Step threadId s (.server q) (dequeueSyscall s q r (.taken q) (.taken r))
  | stop {q : QueueId} {r : ReqId} {l : List ReqId} (hserver : (s.queues q).server = .waiting)
      (hl : (s.queues q).lh = r :: l) (hk : (s.reqs r).kind.reboot = true) :
      Step threadId s (.server q) (dequeueSyscall s q r (.ran q) (.unlink r))
  | run {q : QueueId} {r : ReqId} (hserver : (s.queues q).server = .taken r) :
      Step threadId s (.server q) ((runHandler s r (.ran q) false).setServer q (.invoked r))
  | post {q : QueueId} {r : ReqId} (hserver : (s.queues q).server = .invoked r) :
      Step threadId s (.server q) ((SyscallQueue.post s r).setServer q .waiting)
  | unlink {q : QueueId} {r : ReqId} (hserver : (s.queues q).server = .unlink r) :
      Step threadId s (.server q) ((unlinkSyscallQueue s q).setServer q (.free r))
  | free {q : QueueId} {r : ReqId} (hserver : (s.queues q).server = .free r) :
      Step threadId s (.server q) ((freeSyscallQueue s q).setServer q (.up r))
  | up {q : QueueId} {r : ReqId} (hserver : (s.queues q).server = .up r) :
      Step threadId s (.server q) ((SyscallQueue.post s r).setServer q .exited)
  | workTake {started : Bool} {r : ReqId} {l : List ReqId} (hworker : s.worker = .idle)
      (hl : s.work = r :: l) : Step threadId s (.worker started)
        { s.modifyReq r fun x => { x with place := .workTaken } with work := l, worker := .taken r }
  | workRun {started : Bool} {r : ReqId} (hworker : s.worker = .taken r) :
      Step threadId s (.worker started)
        { runHandler s r .workRan (!started) with
          queues := startServer s (s.reqs r).kind started, worker := .invoked r }
  | workPost {started : Bool} {r : ReqId} (hworker : s.worker = .invoked r) :
      Step threadId s (.worker started) { SyscallQueue.post s r with worker := .idle }

lemma step_enter {api : Api} (h : s.callers t = .outside) :
    Step threadId s (.enter t api) (enter threadId s t api) := by
  cases api with
  | sys | halt => exact .enter h (by simp [Kind.ViaQueue]) rfl
  | init =>
    unfold enter
    split_ifs
    · exact .refuse
    · exact .enterInit h
  | cleanup =>
    unfold enter
    cases hq : obtains threadId s t .cleanup with
    | none => exact .refuse
    | some => exact .enter h (by simp [Kind.ViaQueue]) hq

lemma step_caller {alloc : Bool} (h : s.canStep t = true) :
    Step threadId s (.caller t alloc) (callerStep s t alloc) := by
  unfold State.canStep at h
  unfold callerStep
  cases ht : s.callers t with
  | outside | halted => simp [ht] at h
  | initNew =>
    cases alloc with
    | false => exact .abort (.inl ht)
    | true => exact .newQueue ht
  | initLink => exact .link ht
  | ready k q =>
    cases alloc with
    | false => exact .abort (.inr ⟨k, q, ht⟩)
    | true => exact .newReq ht
  | trigger =>
    cases alloc with
    | false => exact .lose ht
    | true => exact .submit ht
  | wait => exact .ret ht (by simpa [ht] using h)
  | initUnlink => exact .initUnlink ht
  | initFree => exact .initFree ht

lemma step_irq (h : s.hand ≠ none ∨ s.irq.dataList ≠ []) : Step threadId s .irq (irqStep s) := by
  unfold irqStep
  cases hhand : s.hand with
  | some r =>
    simp only [syscallIrq]
    cases hq : (s.reqs r).queue with
    | none => exact .schedule hhand hq
    | some => exact .enqueue hhand hq
  | none =>
    cases hl : s.irq.dataList with
    | nil => simp [hhand, hl] at h
    | cons => exact .dequeue hhand hl

lemma step_server {q : QueueId} (h : guard threadId s (.server q)) :
    Step threadId s (.server q) (serverStep s q) := by
  obtain ⟨hnone, hexited, hwaiting⟩ := h
  unfold serverStep
  cases hserver : (s.queues q).server with
  | none => exact absurd hserver hnone
  | exited => exact absurd hserver hexited
  | waiting =>
    cases hl : (s.queues q).lh with
    | nil => exact absurd hl (hwaiting hserver)
    | cons =>
      simp only [takeSyscall]
      split_ifs with hk
      · exact .stop hserver hl hk
      · exact .take hserver hl (by simpa using hk)
  | taken => exact .run hserver
  | invoked => exact .post hserver
  | unlink => exact .unlink hserver
  | free => exact .free hserver
  | up => exact .up hserver

lemma step_worker {started : Bool} (h : s.worker = .idle → s.work ≠ []) :
    Step threadId s (.worker started) (workerStep s started) := by
  unfold workerStep
  cases hworker : s.worker with
  | idle =>
    cases hl : s.work with
    | nil => exact absurd hl (h hworker)
    | cons => exact .workTake hworker hl
  | taken => exact .workRun hworker
  | invoked => exact .workPost hworker

/-- Every step that the guard admits is one of the transitions. -/
theorem step_of_guard {a : Act} (h : guard threadId s a) :
    Step threadId s a (next threadId s a) := by
  cases a with
  | enter => exact step_enter h.1
  | caller => exact step_caller h
  | irq => exact step_irq h
  | server => exact step_server h
  | worker => exact step_worker h

/-!
## Where a request is

A `struct syscall` is handed from its caller to the idle thread, to a server or the worker, and
back. `Placed` says that the lists and the threads of the kernel hold exactly the requests whose
`place` names them.
-/

/-- The kernel holds a request that is in this place. -/
def Place.kernel : Place → Bool
  | .irq | .hand | .queue _ | .work | .taken _ | .ran _ | .workTaken | .workRan => true
  | .unborn | .caller | .lost | .done => false

attribute [local simp] Place.kernel

/-- The request whose handler the server is about to call. -/
def Server.takenReq : Server → List ReqId
  | .taken r => [r]
  | .none | .waiting | .invoked _ | .unlink _ | .free _ | .up _ | .exited => []

/-- The request whose semaphore the server is going to post. -/
def Server.ranReq : Server → List ReqId
  | .invoked r | .unlink r | .free r | .up r => [r]
  | .none | .waiting | .taken _ | .exited => []

def Worker.takenReq : Worker → List ReqId
  | .taken r => [r]
  | .idle | .invoked _ => []

def Worker.ranReq : Worker → List ReqId
  | .invoked r => [r]
  | .idle | .taken _ => []

/-- The requests that are found in a place of the kernel. -/
def State.contents (s : State) : Place → List ReqId
  | .irq => s.irq.dataList
  | .hand => s.hand.toList
  | .queue q => (s.queues q).lh
  | .work => s.work
  | .taken q => (s.queues q).server.takenReq
  | .ran q => (s.queues q).server.ranReq
  | .workTaken => s.worker.takenReq
  | .workRan => s.worker.ranReq
  | .unborn | .caller | .lost | .done => []

attribute [local simp] State.contents

/-- Every request is found in its place, once, and nowhere else. -/
def Placed (s : State) : Prop :=
  Custody.Held (fun p => p.kernel = true) s.contents fun r => (s.reqs r).place

variable {p : Place} {g : Queue → Queue} {k : Kind} {l : List ReqId} {x : Server} {started : Bool}

variable {s' : State} {r : ReqId} {q : QueueId}

section

variable (h : Placed s)

include h

namespace Placed

lemma mem_iff (hp : p.kernel = true) : r ∈ s.contents p ↔ (s.reqs r).place = p :=
  Custody.Held.mem_iff h hp

lemma place_eq (hp : p.kernel = true) (hr : r ∈ s.contents p) : (s.reqs r).place = p :=
  (h.mem_iff hp).1 hr

lemma place_dataList (hr : r ∈ s.irq.dataList) : (s.reqs r).place = .irq :=
  h.place_eq rfl hr

lemma place_hand (hr : s.hand = some r) : (s.reqs r).place = .hand :=
  h.place_eq rfl (by simp [hr])

lemma place_lh (hr : r ∈ (s.queues q).lh) : (s.reqs r).place = .queue q :=
  h.place_eq rfl hr

lemma place_work (hr : r ∈ s.work) : (s.reqs r).place = .work :=
  h.place_eq rfl hr

lemma place_taken (hr : (s.queues q).server = .taken r) : (s.reqs r).place = .taken q :=
  h.place_eq rfl (by simp [hr, Server.takenReq])

lemma place_ran (hr : (s.queues q).server.ranReq = [r]) : (s.reqs r).place = .ran q :=
  h.place_eq rfl (by simp [hr])

lemma place_workTaken (hr : s.worker = .taken r) : (s.reqs r).place = .workTaken :=
  h.place_eq rfl (by simp [hr, Worker.takenReq])

lemma place_workRan (hr : s.worker = .invoked r) : (s.reqs r).place = .workRan :=
  h.place_eq rfl (by simp [hr, Worker.ranReq])

/-! ### Steps that move nothing -/

lemma frame (hreqs : ∀ r, (s'.reqs r).place = (s.reqs r).place)
    (hirq : s'.irq.dataList = s.irq.dataList) (hhand : s'.hand = s.hand)
    (hlh : ∀ q, (s'.queues q).lh = (s.queues q).lh)
    (htaken : ∀ q, (s'.queues q).server.takenReq = (s.queues q).server.takenReq)
    (hran : ∀ q, (s'.queues q).server.ranReq = (s.queues q).server.ranReq)
    (hwork : s'.work = s.work) (hworker : s'.worker = s.worker) : Placed s' := by
  refine Custody.Held.congr h (fun p hp => ?_) hreqs
  cases p <;> simp_all

lemma modifyQueue (hlh : (g (s.queues q)).lh = (s.queues q).lh)
    (htaken : (g (s.queues q)).server.takenReq = (s.queues q).server.takenReq)
    (hran : (g (s.queues q)).server.ranReq = (s.queues q).server.ranReq) :
    Placed (s.modifyQueue q g) := by
  refine h.frame (fun _ => rfl) rfl rfl (fun q' => ?_) (fun q' => ?_) (fun q' => ?_) rfl rfl
  all_goals
    rcases eq_or_ne q' q with rfl | hq
    · simp [*]
    · simp [hq]

lemma freeSyscallQueue : Placed (freeSyscallQueue s q) :=
  h.modifyQueue rfl rfl rfl

lemma newSyscallQueue (hfresh : s.queues s.nextQueue = Queue.new 0) :
    Placed (newSyscallQueue s t) := by
  have hplaced : Placed (s.modifyQueue s.nextQueue fun _ => Queue.new t) := by
    apply h.modifyQueue
    all_goals
      rw [hfresh]
      rfl
  exact hplaced

lemma returnReq : Placed (returnReq s t r) := by
  refine h.frame (fun r' => ?_) rfl rfl (fun _ => rfl) (fun _ => rfl) (fun _ => rfl) rfl rfl
  rcases eq_or_ne r' r with rfl | hr
  · simp [SyscallQueue.returnReq]
  · simp [SyscallQueue.returnReq, hr]

/-! ### Steps that move a request -/

lemma move {x : Req} (hreqs : s'.reqs = Function.update s.reqs r x)
    (hne : (s.reqs r).place ≠ x.place) (hout : (s.reqs r).place.kernel = true →
      s.contents (s.reqs r).place = r :: s'.contents (s.reqs r).place)
    (hin : x.place.kernel = true → (s'.contents x.place).Perm (r :: s.contents x.place))
    (hc : ∀ p : Place, p ≠ (s.reqs r).place → p ≠ x.place → s'.contents p = s.contents p) :
    Placed s' := by
  refine Custody.Held.move h rfl ?_ hne (fun i hi => ?_) hout hin fun p _ => hc p
  · simp [hreqs]
  · simp [hreqs, hi]

lemma newReq {o : Option QueueId} (hr : (s.reqs s.nextReq).place = .unborn) :
    Placed (newReq s t k o) := by
  refine h.move rfl ?_ ?_ ?_ fun p _ _ => rfl
  all_goals simp [hr]

lemma triggerIrqWithData (hr : (s.reqs r).place = .caller) : Placed (triggerIrqWithData s t r) := by
  refine h.move rfl ?_ ?_ ?_ fun p h0 h1 => ?_
  · simp [hr]
  · simp [hr]
  · simp [SyscallQueue.triggerIrqWithData, Irq.IrqInfo.triggerWithData]
  · cases p <;> simp_all [SyscallQueue.triggerIrqWithData, recordSubmit]

lemma loseReq (hr : (s.reqs r).place = .caller) : Placed (loseReq s t r) := by
  refine h.move rfl ?_ ?_ ?_ fun p _ _ => rfl
  all_goals simp [hr]

lemma dequeueData (hhand : s.hand = none) (hl : s.irq.dataList = r :: l) :
    Placed (dequeueData s r) := by
  have hr := h.place_dataList (r := r) (by simp [hl])
  refine h.move rfl ?_ ?_ ?_ fun p h0 h1 => ?_
  · simp [hr]
  · simp [hr, SyscallQueue.dequeueData, Irq.IrqInfo.dequeueData, hl]
  · simp [SyscallQueue.dequeueData, hhand]
  · cases p <;> simp_all [SyscallQueue.dequeueData]

lemma scheduleWork (hhand : s.hand = some r) : Placed (scheduleWork s r) := by
  have hr := h.place_hand hhand
  refine h.move rfl ?_ ?_ ?_ fun p h0 h1 => ?_
  · simp [hr]
  · simp [hr, SyscallQueue.scheduleWork, hhand]
  · simp [SyscallQueue.scheduleWork]
  · cases p <;> simp_all [SyscallQueue.scheduleWork]

lemma listAdd (hhand : s.hand = some r) : Placed (listAdd s q r) := by
  have hr := h.place_hand hhand
  refine h.move rfl ?_ ?_ ?_ fun p h0 h1 => ?_
  · simp [hr]
  · simp [hr, SyscallQueue.listAdd, hhand]
  · simp [SyscallQueue.listAdd]
  · cases p <;> simp_all [SyscallQueue.listAdd, Function.update_apply]
    all_goals grind

lemma server_move {f : Req → Req} (hne : (s.reqs r).place ≠ (f (s.reqs r)).place)
    (hout : (s.reqs r).place.kernel = true → s.contents (s.reqs r).place =
      r :: ((s.modifyReq r f).modifyQueue q g).contents (s.reqs r).place)
    (hin : (f (s.reqs r)).place.kernel = true →
      (((s.modifyReq r f).modifyQueue q g).contents (f (s.reqs r)).place).Perm
        (r :: s.contents (f (s.reqs r)).place))
    (hq : ∀ p ∈ [Place.queue q, .taken q, .ran q], p ≠ (s.reqs r).place → p ≠ (f (s.reqs r)).place →
      ((s.modifyReq r f).modifyQueue q g).contents p = s.contents p) :
    Placed ((s.modifyReq r f).modifyQueue q g) := by
  refine h.move rfl hne hout hin fun p h0 h1 => ?_
  by_cases hp : p ∈ [Place.queue q, .taken q, .ran q]
  · exact hq p hp h0 h1
  · cases p <;> simp_all

lemma dequeueSyscall {l : List ReqId} {p : Place} {x : Server}
    (hserver : (s.queues q).server = .waiting) (hl : (s.queues q).lh = r :: l)
    (hp : p = .taken q ∧ x = .taken r ∨ p = .ran q ∧ x = .unlink r) :
    Placed (dequeueSyscall s q r p x) := by
  have hr := h.place_lh (q := q) (r := r) (by simp [hl])
  rcases hp with ⟨rfl, rfl⟩ | ⟨rfl, rfl⟩
  all_goals
    refine h.server_move ?_ ?_ ?_ ?_
    all_goals simp [hr, hl, hserver, Server.ranReq, Server.takenReq]

lemma run (hserver : (s.queues q).server = .taken r) {err : Bool} :
    Placed ((runHandler s r (.ran q) err).setServer q (.invoked r)) := by
  have hr := h.place_taken hserver
  refine h.server_move ?_ ?_ ?_ ?_
  all_goals simp [hr, hserver, Server.ranReq, Server.takenReq]

lemma post (hserver : (s.queues q).server = .invoked r ∨ (s.queues q).server = .up r)
    (hx : x = .waiting ∨ x = .exited) : Placed ((post s r).setServer q x) := by
  have hr : (s.reqs r).place = .ran q := by
    apply h.place_ran
    rcases hserver with hserver | hserver <;> rw [hserver] <;> rfl
  refine h.server_move ?_ ?_ ?_ ?_
  all_goals
    rcases hserver with hserver | hserver <;> rcases hx with rfl | rfl
    all_goals simp [hr, hserver, Server.ranReq, Server.takenReq]

lemma workTake (hworker : s.worker = .idle) (hl : s.work = r :: l) : Placed
      { s.modifyReq r fun x => { x with place := .workTaken } with
        work := l, worker := .taken r } := by
  have hr := h.place_work (r := r) (by simp [hl])
  refine h.move rfl ?_ ?_ ?_ fun p h0 h1 => ?_
  · simp [hr]
  · simp [hr, hl]
  · simp [hworker, Worker.takenReq]
  · cases p <;> simp_all [Worker.ranReq]

end Placed

end

lemma startServer_contents (hk : ∀ q, k = .init q → (s.queues q).server = .none) :
    (startServer s k started q).lh = (s.queues q).lh ∧
    (startServer s k started q).server.takenReq = (s.queues q).server.takenReq ∧
    (startServer s k started q).server.ranReq = (s.queues q).server.ranReq := by
  rcases startServer_cases s k started with ⟨q', hkind, -, heq⟩ | heq
  · rcases eq_or_ne q q' with rfl | hq
    · simp [heq, hk q hkind, Server.takenReq, Server.ranReq]
    · simp [heq, hq]
  · simp [heq]

lemma Placed.workRun (h : Placed s) (hworker : s.worker = .taken r)
    (hk : ∀ q, (s.reqs r).kind = .init q → (s.queues q).server = .none) : Placed
      { runHandler s r .workRan (!started) with
        queues := startServer s (s.reqs r).kind started, worker := .invoked r } := by
  have hr := h.place_workTaken hworker
  refine h.move rfl ?_ ?_ ?_ fun p h0 h1 => ?_
  · simp [hr]
  · simp [hr, hworker, Worker.takenReq]
  · simp [hworker, Worker.ranReq]
  · cases p <;> simp_all [runHandler, startServer_contents hk]

lemma Placed.workPost (h : Placed s) (hworker : s.worker = .invoked r) :
    Placed { SyscallQueue.post s r with worker := .idle } := by
  have hr := h.place_workRan hworker
  refine h.move rfl ?_ ?_ ?_ fun p h0 h1 => ?_
  · simp [hr]
  · simp [hr, hworker, Worker.ranReq]
  · simp
  · cases p <;> simp_all [SyscallQueue.post, Worker.takenReq]

end LklPort.SyscallQueue
