import LklPort.Irq.Basic

/-!
# The way of a system call through the kernel

A host thread that makes a system call puts a `struct syscall` on its stack, enqueues it for
`SYSCALL_IRQ` and waits on a semaphore of its own. The idle thread moves it to the list of a
`struct syscall_queue`, or schedules it as work if it has none, and a kernel thread that runs
`run_syscalls`, or the worker, executes it and posts the semaphore. A system call `reboot` ends
`run_syscalls` and deletes the queue.

The machine below has the callers, the idle thread, the servers and the worker as its threads. A
section under a lock is one step, and so is what a kernel thread does between two calls that may
block, as kernel threads do not preempt each other. The deletion of a queue is several steps, since
host threads can come in between. The steps of all threads may be taken in any order.
-/

namespace LklPort.SyscallQueue

open Function

/-! ### The hash of a thread id -/

/-- What `thread_id` returns, a `void *`. -/
abbrev ThreadId := BitVec 64

/-- A third of `__jhash_mix`, with its three shifts. -/
def jhashRound (i j k : ℕ) (a b c : BitVec 32) : BitVec 32 × BitVec 32 × BitVec 32 :=
  let a := (a - b - c) ^^^ (c >>> i)
  let b := (b - c - a) ^^^ (a <<< j)
  let c := (c - a - b) ^^^ (b >>> k)
  (a, b, c)

def jhash3words (a b c initval : BitVec 32) : BitVec 32 :=
  let (a, b, c) := jhashRound 13 8 13 (a + 0x9e3779b9) (b + 0x9e3779b9) (c + initval)
  let (a, b, c) := jhashRound 12 16 5 a b c
  let (_, _, c) := jhashRound 3 10 15 a b c
  c

def jhash2words (a b initval : BitVec 32) : BitVec 32 := jhash3words a b 0 initval

/-- `SYSCALL_QUEUE_HASH_SIZE`. -/
def hashSize : ℕ := 113

/-- The bucket of a thread. The `(u32)` in the source comes before the shift. -/
def syscallQueueHashHead (thread : ThreadId) : Fin hashSize :=
  let low : BitVec 64 := (thread.setWidth 32).setWidth 64
  ⟨(jhash2words ((low >>> 32).setWidth 32) ((low &&& 0xffffffff).setWidth 32) 0).toNat % hashSize,
    Nat.mod_lt _ (by decide)⟩

/-! ### The state -/

/-- A `struct syscall`. Every call has its own. -/
abbrev ReqId := ℕ

/-- A `struct syscall_queue`. -/
abbrev QueueId := ℕ

/-- The value of `default_queue` after `syscall_init`; nothing changes it. -/
def defaultQueue : QueueId := 0

/-- The function that makes a call. -/
inductive Kind where
  /-- A `lkl_sys_*`, through the macro `SYSCALL`. -/
  | sys
  /-- `lkl_sys_halt`. -/
  | halt
  /-- `lkl_syscall_thread_init`, which asks the worker for a server of the queue `q`. -/
  | init (q : QueueId)
  /-- `lkl_syscall_thread_cleanup`. -/
  | cleanup
  deriving DecidableEq

/-- The number of the system call is `__NR_reboot`. -/
def Kind.reboot : Kind → Bool
  | .halt | .cleanup => true
  | .sys | .init _ => false

/-- Where a `struct syscall` is. The code does not record this. -/
inductive Place where
  | unborn
  /-- Its caller has not enqueued it. -/
  | caller
  /-- `mem_alloc` has failed in `lkl_trigger_irq_with_data`. -/
  | lost
  /-- In the data list of `SYSCALL_IRQ`. -/
  | irq
  /-- Between `dequeue_data` and the end of `syscall_irq`. -/
  | hand
  | queue (q : QueueId)
  | work
  /-- `run_syscalls` for `q` has dequeued it. -/
  | taken (q : QueueId)
  /-- Its handler has returned, or it is a `reboot` on which `run_syscalls` ends. -/
  | ran (q : QueueId)
  | workTaken
  | workRan
  /-- Its semaphore has been posted. -/
  | done
  deriving DecidableEq

/-- A `struct syscall`, with its place and with counts of what has happened to it. -/
structure Req where
  /-- The thread on whose stack it is. -/
  thread : ThreadId
  kind : Kind
  /-- `s.queue`, where `NULL` asks for the worker. -/
  queue : Option QueueId
  /-- The count of `s.sem`. -/
  sem : ℕ
  /-- `s.ret` is negative because `kernel_thread` has failed. -/
  err : Bool
  place : Place
  /-- How many times a handler was called for it. -/
  invoked : ℕ
  /-- How many times its semaphore was posted. -/
  ups : ℕ

/-- What is at an address that no call has used. -/
def Req.unborn : Req := ⟨0, .sys, none, 0, false, .unborn, 0, 0⟩

/-- What `SYSCALL_VIA_QUEUE` puts on the stack of `thread`. -/
@[simp] def Req.new (thread : ThreadId) (kind : Kind) (queue : Option QueueId) : Req :=
  ⟨thread, kind, queue, 0, false, .caller, 0, 0⟩

/-- Where the kernel thread that runs `run_syscalls` for a queue is. -/
inductive Server where
  | none
  /-- In `wait_event`. -/
  | waiting
  /-- In `run_syscall`, before the handler. -/
  | taken (r : ReqId)
  /-- In `run_syscall`, after the handler. -/
  | invoked (r : ReqId)
  /-- In `del_syscall_queue`, before `hlist_del`. -/
  | unlink (r : ReqId)
  /-- In `del_syscall_queue`, at `kfree(sq)`. -/
  | free (r : ReqId)
  /-- At the last `sem_up(s->sem)`. -/
  | up (r : ReqId)
  | exited
  deriving DecidableEq

/-- A `struct syscall_queue`, with its server and with the requests that were enqueued for it and
those its server has dequeued. -/
structure Queue where
  lh : List ReqId
  thread : ThreadId
  freed : Bool
  server : Server
  submitted : List ReqId
  executed : List ReqId

/-- The queue that `new_syscall_queue` allocates. -/
@[simp] def Queue.new (thread : ThreadId) : Queue := ⟨[], thread, false, .none, [], []⟩

/-- Where the worker of the shared workqueue is. -/
inductive Worker where
  | idle
  | taken (r : ReqId)
  | invoked (r : ReqId)
  deriving DecidableEq

/-- Where a host thread is. -/
inductive Caller where
  | outside
  /-- In `lkl_syscall_thread_init`, at the `kmalloc` of `new_syscall_queue`. -/
  | initNew
  /-- At the `hlist_add_head` of `new_syscall_queue`. -/
  | initLink (q : QueueId)
  /-- In `SYSCALL_VIA_QUEUE`, at `sem_alloc`. -/
  | ready (k : Kind) (q : Option QueueId)
  /-- At `lkl_trigger_irq_with_data`. -/
  | trigger (r : ReqId)
  /-- At `sem_down(s.sem)`. -/
  | wait (r : ReqId)
  /-- In `lkl_syscall_thread_init` after an error, in `del_syscall_queue`. -/
  | initUnlink (q : QueueId)
  | initFree (q : QueueId)
  /-- At `sem_down(halt_sem)`. -/
  | halted
  deriving DecidableEq

structure State where
  callers : ThreadId → Caller
  reqs : ReqId → Req
  /-- The first address that no call has used. -/
  nextReq : ReqId
  /-- The queues of `SYSCALL_IRQ`. -/
  irq : Irq.IrqInfo ReqId
  /-- The argument of `syscall_irq`. -/
  hand : Option ReqId
  queues : QueueId → Queue
  nextQueue : QueueId
  /-- `syscall_queue_hash`. -/
  buckets : Fin hashSize → List QueueId
  /-- The work that waits for the worker. -/
  work : List ReqId
  worker : Worker

/-- The state after `syscall_init`, with `run_syscalls` running for `default_queue`. -/
def State.init : State where
  callers := fun _ => .outside
  reqs := fun _ => Req.unborn
  nextReq := 0
  irq := .empty
  hand := none
  queues := fun q => { Queue.new 0 with server := if q = defaultQueue then .waiting else .none }
  nextQueue := 1
  buckets := fun b => if b = syscallQueueHashHead 0 then [defaultQueue] else []
  work := []
  worker := .idle

@[simp] def State.setCaller (s : State) (t : ThreadId) (c : Caller) : State :=
  { s with callers := update s.callers t c }

@[simp] def State.modifyReq (s : State) (r : ReqId) (f : Req → Req) : State :=
  { s with reqs := update s.reqs r (f (s.reqs r)) }

@[simp] def State.modifyQueue (s : State) (q : QueueId) (f : Queue → Queue) : State :=
  { s with queues := update s.queues q (f (s.queues q)) }

/-! ### The callers -/

def getSyscallQueue (s : State) (t : ThreadId) : QueueId :=
  ((s.buckets (syscallQueueHashHead t)).find? fun q => (s.queues q).thread = t).getD defaultQueue

/-- The functions that a host thread can call. -/
inductive Api where
  | sys
  | halt
  | init
  | cleanup
  deriving DecidableEq

/-- The queue that a call by `t` obtains for its request. `threadId` says whether
`lkl_nops->thread_id` is set. -/
def obtains (threadId : Bool) (s : State) (t : ThreadId) : Api → Option QueueId
  | .sys => some (if threadId then getSyscallQueue s t else defaultQueue)
  | .halt => some defaultQueue
  | .init => none
  | .cleanup =>
    if getSyscallQueue s t = defaultQueue then none else some (getSyscallQueue s t)

/-- The start of a call by `t`, up to the point where the queue is known. -/
def enter (threadId : Bool) (s : State) (t : ThreadId) : Api → State
  | .sys => s.setCaller t (.ready .sys (obtains threadId s t .sys))
  | .halt => s.setCaller t (.ready .halt (obtains threadId s t .halt))
  | .init => if getSyscallQueue s t ≠ defaultQueue then s else s.setCaller t .initNew
  | .cleanup =>
    match obtains threadId s t .cleanup with
    | none => s
    | some q => s.setCaller t (.ready .cleanup (some q))

/-- `new_syscall_queue`, up to the lock. -/
def newSyscallQueue (s : State) (t : ThreadId) : State :=
  { (s.modifyQueue s.nextQueue fun _ => Queue.new t).setCaller t (.initLink s.nextQueue) with
    nextQueue := s.nextQueue + 1 }

/-- The section of `new_syscall_queue` under the lock. -/
def linkSyscallQueue (s : State) (t : ThreadId) (q : QueueId) : State :=
  { s.setCaller t (.ready (.init q) none) with
    buckets := update s.buckets (syscallQueueHashHead t) (q :: s.buckets (syscallQueueHashHead t)) }

/-- The section of `del_syscall_queue` under the lock. -/
def unlinkSyscallQueue (s : State) (q : QueueId) : State :=
  { s with buckets := fun b => (s.buckets b).filter (· ≠ q) }

/-- `kfree(sq)`. -/
def freeSyscallQueue (s : State) (q : QueueId) : State :=
  s.modifyQueue q fun x => { x with freed := true }

/-- `s.sem` is allocated: there is a request from here on. -/
def newReq (s : State) (t : ThreadId) (k : Kind) (q : Option QueueId) : State :=
  { (s.modifyReq s.nextReq fun _ => Req.new t k q).setCaller t (.trigger s.nextReq) with
    nextReq := s.nextReq + 1 }

/-- Record that `r` was enqueued for its queue. -/
def recordSubmit (s : State) (r : ReqId) : State :=
  { s with
    queues := fun q =>
      { s.queues q with
        submitted := (s.queues q).submitted ++ if (s.reqs r).queue = some q then [r] else [] } }

/-- `lkl_trigger_irq_with_data` succeeds. -/
def triggerIrqWithData (s : State) (t : ThreadId) (r : ReqId) : State :=
  { ((recordSubmit s r).modifyReq r fun x => { x with place := .irq }).setCaller t (.wait r) with
    irq := s.irq.triggerWithData r }

/-- `lkl_trigger_irq_with_data` fails, and the caller goes on to wait all the same. -/
def loseReq (s : State) (t : ThreadId) (r : ReqId) : State :=
  (s.modifyReq r fun x => { x with place := .lost }).setCaller t (.wait r)

/-- Where a caller goes when its request is done. -/
def Req.returnTo (x : Req) : Caller :=
  match x.kind with
  | .sys | .cleanup => .outside
  | .halt => .halted
  | .init q => if x.err then .initUnlink q else .outside

/-- `sem_down(s.sem)` returns. -/
def returnReq (s : State) (t : ThreadId) (r : ReqId) : State :=
  (s.modifyReq r fun x => { x with sem := x.sem - 1 }).setCaller t (s.reqs r).returnTo

/-- The next step of a caller, where `alloc` is the outcome of the allocation it makes, if any. -/
def callerStep (s : State) (t : ThreadId) (alloc : Bool) : State :=
  match s.callers t with
  | .outside | .halted => s
  | .initNew => if alloc then newSyscallQueue s t else s.setCaller t .outside
  | .initLink q => linkSyscallQueue s t q
  | .ready k q => if alloc then newReq s t k q else s.setCaller t .outside
  | .trigger r => if alloc then triggerIrqWithData s t r else loseReq s t r
  | .wait r => returnReq s t r
  | .initUnlink q => (unlinkSyscallQueue s q).setCaller t (.initFree q)
  | .initFree q => (freeSyscallQueue s q).setCaller t .outside

/-! ### The kernel threads -/

/-- `dequeue_data(SYSCALL_IRQ)` in `run_irqs`. -/
def dequeueData (s : State) (r : ReqId) : State :=
  { s.modifyReq r fun x => { x with place := .hand } with
    irq := s.irq.dequeueData, hand := some r }

/-- `schedule_work` in `syscall_irq`. -/
def scheduleWork (s : State) (r : ReqId) : State :=
  { s.modifyReq r fun x => { x with place := .work } with
    work := s.work ++ [r], hand := none }

/-- `list_add` in `syscall_irq`. The new entry goes to the head of the list. -/
def listAdd (s : State) (q : QueueId) (r : ReqId) : State :=
  { (s.modifyReq r fun x => { x with place := .queue q }).modifyQueue q fun x =>
      { x with lh := r :: x.lh } with
    hand := none }

def syscallIrq (s : State) (r : ReqId) : State :=
  match (s.reqs r).queue with
  | none => scheduleWork s r
  | some q => listAdd s q r

/-- The next step of the idle thread. -/
def irqStep (s : State) : State :=
  match s.hand, s.irq.dataList with
  | some r, _ => syscallIrq s r
  | none, r :: _ => dequeueData s r
  | none, [] => s

/-- `s->ret` is set and `s->sem` is posted. -/
def post (s : State) (r : ReqId) : State :=
  s.modifyReq r fun x => { x with sem := x.sem + 1, ups := x.ups + 1, place := .done }

/-- A handler is called for `r`, which is in the place `p` when it returns. -/
def runHandler (s : State) (r : ReqId) (p : Place) (err : Bool) : State :=
  s.modifyReq r fun x => { x with invoked := x.invoked + 1, place := p, err := err }

/-- `dequeue_syscall` takes `r` from the list of `q`, and the server goes on to `server`. -/
def dequeueSyscall (s : State) (q : QueueId) (r : ReqId) (p : Place) (server : Server) : State :=
  (s.modifyReq r fun x => { x with place := p }).modifyQueue q fun x =>
    { x with lh := x.lh.tail, server := server, executed := x.executed ++ [r] }

/-- `wait_event` in `run_syscalls` finds the request `r`. -/
def takeSyscall (s : State) (q : QueueId) (r : ReqId) : State :=
  if (s.reqs r).kind.reboot then dequeueSyscall s q r (.ran q) (.unlink r)
  else dequeueSyscall s q r (.taken q) (.taken r)

@[simp] def State.setServer (s : State) (q : QueueId) (server : Server) : State :=
  s.modifyQueue q fun x => { x with server := server }

/-- The next step of `run_syscalls` for `q`. -/
def serverStep (s : State) (q : QueueId) : State :=
  match (s.queues q).server with
  | .none | .exited => s
  | .waiting =>
    match (s.queues q).lh with
    | r :: _ => takeSyscall s q r
    | [] => s
  | .taken r => (runHandler s r (.ran q) false).setServer q (.invoked r)
  | .invoked r => (post s r).setServer q .waiting
  | .unlink r => (unlinkSyscallQueue s q).setServer q (.free r)
  | .free r => (freeSyscallQueue s q).setServer q (.up r)
  | .up r => (post s r).setServer q .exited

/-- The queues after `kernel_thread(run_syscalls, q)`, the call that `lkl_syscall_thread_init` asks
for. -/
def startServer (s : State) (k : Kind) (started : Bool) : QueueId → Queue :=
  match k, started with
  | .init q, true => update s.queues q { s.queues q with server := .waiting }
  | _, _ => s.queues

/-- The next step of the worker, where `started` is the outcome of `kernel_thread`. -/
def workerStep (s : State) (started : Bool) : State :=
  match s.worker with
  | .idle =>
    match s.work with
    | r :: rest =>
      { s.modifyReq r fun x => { x with place := .workTaken } with
        work := rest, worker := .taken r }
    | [] => s
  | .taken r =>
    { runHandler s r .workRan (!started) with
      queues := startServer s (s.reqs r).kind started, worker := .invoked r }
  | .invoked r => { post s r with worker := .idle }

/-! ### The machine -/

/-- The steps of the threads. -/
inductive Act where
  | enter (t : ThreadId) (api : Api)
  | caller (t : ThreadId) (alloc : Bool)
  | irq
  | server (q : QueueId)
  | worker (started : Bool)
  deriving DecidableEq

/-- The thread has a next step of its own. -/
def State.canStep (s : State) (t : ThreadId) : Bool :=
  match s.callers t with
  | .outside | .halted => false
  | .wait r => 0 < (s.reqs r).sem
  | _ => true

/-- When a step can be taken. -/
def guard (threadId : Bool) (s : State) : Act → Prop
  | .enter t api =>
    s.callers t = .outside ∧ (api = .init ∨ api = .cleanup → threadId = true)
  | .caller t _ => s.canStep t = true
  | .irq => s.hand ≠ none ∨ s.irq.dataList ≠ []
  | .server q =>
    (s.queues q).server ≠ .none ∧ (s.queues q).server ≠ .exited ∧
      ((s.queues q).server = .waiting → (s.queues q).lh ≠ [])
  | .worker _ => s.worker = .idle → s.work ≠ []

/-- What a step does. -/
def next (threadId : Bool) (s : State) : Act → State
  | .enter t api => enter threadId s t api
  | .caller t alloc => callerStep s t alloc
  | .irq => irqStep s
  | .server q => serverStep s q
  | .worker started => workerStep s started

/-- The system call layer, with all threads interleaved in any order. -/
def machine (threadId : Bool) : Machine State Act where
  init := .init
  guard := guard threadId
  next := next threadId

instance (threadId : Bool) (s : State) (a : Act) : Decidable ((machine threadId).guard s a) := by
  cases a <;> dsimp only [machine, guard] <;> infer_instance

/-! ### What a step touches -/

/-- The requests that a step of the kernel reads or writes, neighbours in a list included. -/
def touches (s : State) : Act → List ReqId
  | .enter _ _ | .caller _ _ => []
  | .irq =>
    match s.hand with
    | none => []
    | some r =>
      match (s.reqs r).queue with
      | none => r :: s.work.getLast?.toList
      | some q => r :: (s.queues q).lh.head?.toList
  | .server q =>
    match (s.queues q).server with
    | .waiting => (s.queues q).lh.take 2
    | .taken r | .invoked r | .up r => [r]
    | .none | .unlink _ | .free _ | .exited => []
  | .worker _ =>
    match s.worker with
    | .idle => s.work.take 2
    | .taken r | .invoked r => [r]

/-- The queues that a step reads, writes or frees, neighbours in the hash table included. -/
def accesses (threadId : Bool) (s : State) : Act → List QueueId
  | .enter t api =>
    match api with
    | .sys => if threadId then s.buckets (syscallQueueHashHead t) else []
    | .halt => []
    | .init | .cleanup => s.buckets (syscallQueueHashHead t)
  | .caller t _ =>
    match s.callers t with
    | .initLink q => q :: s.buckets (syscallQueueHashHead t)
    | .initUnlink q => q :: s.buckets (syscallQueueHashHead t)
    | .initFree q => [q]
    | _ => []
  | .irq =>
    match s.hand with
    | none => []
    | some r => (s.reqs r).queue.toList
  | .server q =>
    match (s.queues q).server with
    | .waiting | .free _ => [q]
    | .unlink _ => q :: s.buckets (syscallQueueHashHead (s.queues q).thread)
    | .none | .taken _ | .invoked _ | .up _ | .exited => []
  | .worker _ => []

end LklPort.SyscallQueue
