import LklPort.SyscallQueue.Calls

/-!
# Who is responsible for a queue

A queue belongs to the caller of `lkl_syscall_thread_init` that has allocated it until a server is
started for it, and to the server afterwards. The one to whom it belongs frees it.
-/

namespace LklPort.SyscallQueue

open Function

attribute [local simp] newSyscallQueue unlinkSyscallQueue freeSyscallQueue

/-- The call of `lkl_syscall_thread_init` has got its server. -/
def Req.Started (x : Req) : Prop := (x.place = .workRan ∨ x.place = .done) ∧ x.err = false

/-- The caller is in `lkl_syscall_thread_init` and `q` still belongs to it. -/
def Caller.SetsUp (s : State) (q : QueueId) : Caller → Prop
  | .initLink q' | .initUnlink q' | .initFree q' => q' = q
  | .ready k _ => k = .init q
  | .trigger r | .wait r => (s.reqs r).kind = .init q ∧ ¬ (s.reqs r).Started
  | .outside | .initNew | .halted => False

/-! ### What a step does to the queues -/

/-- The server runs its loop. -/
def Server.live : Server → Bool
  | .waiting | .taken _ | .invoked _ => true
  | .none | .unlink _ | .free _ | .up _ | .exited => false

attribute [local simp] Server.live

/-- What a step does to the queue `q`, apart from its lists. -/
inductive QueueStep (s : State) (a : Act) (s' : State) (q : QueueId) : Prop
  | keep (hthread : (s'.queues q).thread = (s.queues q).thread)
      (hfreed : (s'.queues q).freed = (s.queues q).freed)
      (hserver : (s'.queues q).server = (s.queues q).server)
  | new (t : ThreadId) (ht : s.callers t = .initNew) (hq : q = s.nextQueue)
      (hqueue : s'.queues q = Queue.new t) (hnext : s'.nextQueue = s.nextQueue + 1)
  | drop (t : ThreadId) (ht : s.callers t = .initFree q) (ht' : s'.callers t = .outside)
      (hthread : (s'.queues q).thread = (s.queues q).thread)
      (hserver : (s'.queues q).server = (s.queues q).server)
  | start (r : ReqId) (hworker : s.worker = .taken r) (hkind : (s.reqs r).kind = .init q)
      (hstarted : (s'.reqs r).Started) (hcallers : s'.callers = s.callers)
      (hthread : (s'.queues q).thread = (s.queues q).thread)
      (hfreed : (s'.queues q).freed = (s.queues q).freed)
      (hserver' : (s'.queues q).server = .waiting)
  | serve (hthread : (s'.queues q).thread = (s.queues q).thread)
      (hfreed : (s'.queues q).freed = (s.queues q).freed)
      (hserver : (s.queues q).server.live = true) (hserver' : (s'.queues q).server.live = true)
  | stop (r : ReqId) (l : List ReqId) (ha : a = .server q) (hl : (s.queues q).lh = r :: l)
      (hl' : (s'.queues q).lh = l) (hreboot : (s.reqs r).kind.reboot = true)
      (hthread : (s'.queues q).thread = (s.queues q).thread)
      (hfreed : (s'.queues q).freed = (s.queues q).freed)
      (hserver : (s.queues q).server = .waiting) (hserver' : (s'.queues q).server = .unlink r)
  | unlink (r : ReqId) (hbuckets : ∀ b, q ∉ s'.buckets b)
      (hthread : (s'.queues q).thread = (s.queues q).thread)
      (hfreed : (s'.queues q).freed = (s.queues q).freed)
      (hserver : (s.queues q).server = .unlink r) (hserver' : (s'.queues q).server = .free r)
  | kfree (r : ReqId) (hthread : (s'.queues q).thread = (s.queues q).thread)
      (hserver : (s.queues q).server = .free r) (hserver' : (s'.queues q).server = .up r)
  | exit (r : ReqId) (hthread : (s'.queues q).thread = (s.queues q).thread)
      (hfreed : (s'.queues q).freed = (s.queues q).freed)
      (hserver : (s.queues q).server = .up r) (hserver' : (s'.queues q).server = .exited)

/-- What a step does to the caller `t`. -/
inductive CallerStep (threadId : Bool) (s : State) (a : Act) (s' : State) (t : ThreadId) : Prop
  | keep (h : s'.callers t = s.callers t)
  | enter (api : Api) (k : Kind) (q : QueueId) (ha : a = .enter t api) (hk : k.ViaQueue)
      (hq : obtains threadId s t api = some q) (ht : s.callers t = .outside)
      (ht' : s'.callers t = .ready k (some q))
  | enterInit (ht' : s'.callers t = .initNew)
  | outside (ht' : s'.callers t = .outside)
  | newQueue (ht : s.callers t = .initNew) (hs : s' = newSyscallQueue s t)
  | link (q : QueueId) (ht : s.callers t = .initLink q) (ht' : s'.callers t = .ready (.init q) none)
  | newReq (k : Kind) (o : Option QueueId) (ht : s.callers t = .ready k o)
      (ht' : s'.callers t = .trigger s.nextReq) (hr : s'.reqs s.nextReq = Req.new t k o)
  | submit (r : ReqId) (ht : s.callers t = .trigger r) (ht' : s'.callers t = .wait r)
      (hkind : (s'.reqs r).kind = (s.reqs r).kind)
  | ret (r : ReqId) (ht : s.callers t = .wait r) (ht' : s'.callers t = (s.reqs r).returnTo)
  | unlink (q : QueueId) (ht : s.callers t = .initUnlink q) (ht' : s'.callers t = .initFree q)
      (hbuckets : ∀ b, q ∉ s'.buckets b)

section

variable {threadId : Bool} {s s' : State} {a : Act} {q : QueueId} {t : ThreadId}
variable {b : Fin hashSize}

lemma QueueStep.of_update {q0 : QueueId} {y : Queue} (h : s'.queues = update s.queues q0 y)
    (hq : QueueStep s a s' q0) : QueueStep s a s' q := by
  by_cases heq : q = q0
  · exact heq ▸ hq
  · have hsame : s'.queues q = s.queues q := by simp [h, heq]
    exact .keep (by rw [hsame]) (by rw [hsame]) (by rw [hsame])

section

variable (h : Step threadId s a s')

include h

lemma Step.queueStep (q : QueueId) : QueueStep s a s' q := by
  cases h with
  | newQueue ht => exact .of_update rfl (.new _ ht rfl (by simp) rfl)
  | initFree ht => refine .of_update rfl (.drop _ ht ?_ ?_ ?_) <;> simp
  | enqueue => refine .of_update rfl (.keep ?_ ?_ ?_) <;> simp [listAdd]
  | take hserver =>
    refine .of_update rfl (.serve ?_ ?_ ?_ ?_) <;> simp [dequeueSyscall, hserver]
  | @stop _ r l hserver hl hk =>
    refine .of_update rfl (.stop r l rfl hl ?_ hk ?_ ?_ hserver ?_) <;> simp [dequeueSyscall, hl]
  | run hserver =>
    refine .of_update rfl (.serve ?_ ?_ ?_ ?_) <;> simp [runHandler, hserver]
  | post hserver =>
    refine .of_update rfl (.serve ?_ ?_ ?_ ?_) <;> simp [SyscallQueue.post, hserver]
  | @unlink _ r hserver =>
    refine .of_update rfl (.unlink r (fun b => ?_) ?_ ?_ hserver ?_) <;> simp
  | @free _ r hserver =>
    refine .of_update (update_idem _ _ _) (.kfree r ?_ hserver ?_) <;> simp
  | @up _ r hserver =>
    refine .of_update rfl (.exit r ?_ ?_ hserver ?_) <;> simp [SyscallQueue.post]
  | @workRun started r hworker =>
    rcases startServer_cases s (s.reqs r).kind started with ⟨q0, hkind, rfl, heq⟩ | heq
    · refine .of_update heq (.start r hworker hkind ?_ rfl ?_ ?_ ?_) <;>
        simp [heq, runHandler, Req.Started]
    · exact .keep (by rw [heq]) (by rw [heq]) (by rw [heq])
  | _ => exact .keep rfl rfl rfl

lemma Step.nextQueue_le : s.nextQueue ≤ s'.nextQueue := by
  cases h with
  | newQueue => exact Nat.le_succ _
  | _ => exact Nat.le_refl _

lemma Step.mem_buckets (hq : q ∈ s'.buckets b) :
    q ∈ s.buckets b ∨ ∃ t, s.callers t = .initLink q := by
  cases h with
  | @link t _ _ ht =>
    rcases eq_or_ne b (syscallQueueHashHead t) with rfl | hb
    · simp only [linkSyscallQueue, update_self, List.mem_cons] at hq
      rcases hq with rfl | hq
      · exact .inr ⟨t, ht⟩
      · exact .inl hq
    · exact .inl (by simpa [linkSyscallQueue, hb] using hq)
  | initUnlink | unlink => exact .inl (List.mem_filter.1 hq).1
  | _ => exact .inl hq

end

lemma CallerStep.of_update {t0 : ThreadId} {c : Caller}
    (h : s'.callers = update s.callers t0 c) (ht : CallerStep threadId s a s' t0) :
    CallerStep threadId s a s' t := by
  by_cases heq : t = t0
  · exact heq ▸ ht
  · exact .keep (by simp [h, heq])

section

variable (h : Step threadId s a s')

include h

lemma Step.callerStep (t : ThreadId) : CallerStep threadId s a s' t := by
  cases h with
  | enter ht hk hq => exact .of_update rfl (.enter _ _ _ rfl hk hq ht (by simp))
  | enterInit => exact .of_update rfl (.enterInit (by simp))
  | abort _ | initFree _ => exact .of_update rfl (.outside (by simp))
  | newQueue ht => exact .of_update rfl (.newQueue ht rfl)
  | link ht => exact .of_update rfl (.link _ ht (by simp [linkSyscallQueue]))
  | newReq ht => refine .of_update rfl (.newReq _ _ ht ?_ ?_) <;> simp [SyscallQueue.newReq]
  | submit ht =>
    refine .of_update rfl (.submit _ ht ?_ ?_) <;> simp [triggerIrqWithData, recordSubmit]
  | lose ht => refine .of_update rfl (.submit _ ht ?_ ?_) <;> simp [loseReq]
  | ret ht => exact .of_update rfl (.ret _ ht (by simp [returnReq]))
  | @initUnlink _ _ q ht =>
    exact .of_update rfl (.unlink q ht (by simp) (by simp))
  | _ => exact .keep rfl

lemma Step.initFree_cases (ht : s'.callers t = .initFree q) :
    s.callers t = .initFree q ∨ s.callers t = .initUnlink q ∧ ∀ b, q ∉ s'.buckets b := by
  cases h.callerStep t with
  | keep heq => exact .inl (heq ▸ ht)
  | newQueue _ hs => simp [hs] at ht
  | ret r => rcases (s.reqs r).returnTo_cases with h | h | ⟨q', -, -, h⟩ <;> simp_all
  | unlink q' ht0 ht' hbuckets =>
    obtain rfl : q' = q := by simpa [ht'] using ht
    exact .inr ⟨ht0, hbuckets⟩
  | _ => simp_all

lemma Step.ready_cases {k : Kind}
    (ht : s'.callers t = .ready k (some q)) : s.callers t = .ready k (some q) ∨
      ∃ api, a = .enter t api ∧ obtains threadId s t api = some q := by
  cases h.callerStep t with
  | keep heq => exact .inl (heq ▸ ht)
  | enter api k' q' ha _ hq _ ht' =>
    obtain ⟨-, rfl⟩ : k' = k ∧ q' = q := by simpa [ht'] using ht
    exact .inr ⟨api, ha, hq⟩
  | newQueue _ hs => simp [hs] at ht
  | ret r => rcases (s.reqs r).returnTo_cases with h | h | ⟨q', -, -, h⟩ <;> simp_all
  | _ => simp_all

end

lemma Req.Step.started {x y : Req} (h : x.Step y) (hx : x.Started) : y.Started := by
  obtain ⟨hplace, herr⟩ := hx
  cases h <;> simp_all [Req.Started]

lemma Linked.setsUp_of_keep (hl : Linked s) (hs : CallStep s a s')
    (h : (s.callers t).SetsUp s' q) : (s.callers t).SetsUp s q := by
  have hreq : ∀ r, (s.reqs r).place ≠ .unborn → (s'.reqs r).kind = .init q ∧ ¬ (s'.reqs r).Started →
      (s.reqs r).kind = .init q ∧ ¬ (s.reqs r).Started := by
    rintro r hr ⟨hkind, hstarted⟩
    rcases hs.req_cases r with heq | hstep | ⟨rfl, -⟩
    · exact heq ▸ ⟨hkind, hstarted⟩
    · exact ⟨hstep.kind_eq ▸ hkind, fun hx => hstarted (hstep.started hx)⟩
    · exact absurd ((hl.unborn _).1 (Nat.le_refl _)) hr
  cases hc : s.callers t with
  | trigger r =>
    rw [hc] at h
    refine hreq r ?_ h
    rw [((hl.trigger t r).1 hc).2]
    simp
  | wait r =>
    rw [hc] at h
    refine hreq r ?_ h
    intro hr
    simpa [hr, Place.pending] using (hl.wait t r hc).2.2
  | _ =>
    rwa [hc] at h

lemma Step.setsUp (h : Step threadId s a s') (hp : Placed s) (hl : Linked s)
    (hsets : (s'.callers t).SetsUp s' q) : (s.callers t).SetsUp s q ∨
      s.callers t = .initNew ∧ q = s.nextQueue ∧ s' = newSyscallQueue s t := by
  have hs := h.callStep hp hl
  cases h.callerStep t with
  | keep heq => exact .inl (hl.setsUp_of_keep hs (heq ▸ hsets))
  | enter _ _ _ _ hk _ _ ht' =>
    rw [ht'] at hsets
    exact absurd hsets (hk q)
  | enterInit ht' | outside ht' =>
    rw [ht'] at hsets
    exact hsets.elim
  | newQueue ht hs' =>
    subst hs'
    refine .inr ⟨ht, ?_, rfl⟩
    simpa [Caller.SetsUp, eq_comm] using hsets
  | link _ ht ht' =>
    rw [ht'] at hsets
    rw [ht]
    exact .inl (by simpa [Caller.SetsUp] using hsets)
  | newReq _ _ ht ht' hr =>
    rw [ht'] at hsets
    rw [ht]
    exact .inl (by simpa [hr, Caller.SetsUp] using hsets.1)
  | submit r ht ht' hkind =>
    rw [ht'] at hsets
    rw [ht]
    refine .inl ⟨hkind ▸ hsets.1, fun hstarted => ?_⟩
    simpa [((hl.trigger t r).1 ht).2] using hstarted.1
  | ret r ht ht' =>
    rw [ht'] at hsets
    rw [ht]
    rcases (s.reqs r).returnTo_cases with heq | heq | ⟨q', hkind, herr, heq⟩
    · exact (heq ▸ hsets : Caller.SetsUp s' q .outside).elim
    · exact (heq ▸ hsets : Caller.SetsUp s' q .halted).elim
    · obtain rfl : q' = q := (heq ▸ hsets : Caller.SetsUp s' q (.initUnlink q'))
      exact .inl ⟨hkind, fun hstarted => by simp [hstarted.2] at herr⟩
  | unlink _ ht ht' =>
    rw [ht'] at hsets
    rw [ht]
    exact .inl hsets

end

/-! ### The invariant -/

/-- Queues are known under their own thread, or as `default_queue`, and not before they exist. -/
structure Named (s : State) : Prop where
  default_lt : defaultQueue < s.nextQueue
  fresh : ∀ q, s.nextQueue ≤ q → s.queues q = Queue.new 0
  bucket : ∀ b q, q ∈ s.buckets b → q < s.nextQueue
  req : ∀ r q, (s.reqs r).queue = some q →
    q < s.nextQueue ∧ (q = defaultQueue ∨ (s.queues q).thread = (s.reqs r).thread)
  ready : ∀ t k q, s.callers t = .ready k (some q) →
    q < s.nextQueue ∧ (q = defaultQueue ∨ (s.queues q).thread = t)

/-- A queue that is being set up belongs to one thread, and it has no server. -/
structure Owned (s : State) (t : ThreadId) (q : QueueId) : Prop where
  lt : q < s.nextQueue
  thread : (s.queues q).thread = t
  ne_default : q ≠ defaultQueue
  server : (s.queues q).server = .none
  freed : (s.queues q).freed = false

/-- The queue has a server that has not freed it. -/
def Server.holds : Server → Bool
  | .waiting | .taken _ | .invoked _ | .unlink _ | .free _ => true
  | .none | .up _ | .exited => false

/-- The server has taken its queue from the hash table. -/
def Server.unlinked : Server → Bool
  | .free _ | .up _ | .exited => true
  | .none | .waiting | .taken _ | .invoked _ | .unlink _ => false

attribute [local simp] Server.unlinked

/-- A queue is freed after it was taken from the hash table, by the one to whom it belongs. -/
structure Alive (s : State) : Prop where
  bucket : ∀ b q, q ∈ s.buckets b → (s.queues q).freed = false
  server : ∀ q, (s.queues q).server.holds = true → (s.queues q).freed = false
  unlinked : ∀ b q, (s.queues q).server.unlinked = true → q ∉ s.buckets b
  initFree : ∀ b t q, s.callers t = .initFree q → q ∉ s.buckets b

/-- What holds in every reachable state. -/
structure Inv (s : State) : Prop where
  placed : Placed s
  ok : ∀ r, (s.reqs r).Ok
  linked : Linked s
  named : Named s
  owned : ∀ t q, (s.callers t).SetsUp s q → Owned s t q
  alive : Alive s
  default_server : (s.queues defaultQueue).server ≠ .none

variable {t' : ThreadId} {b : Fin hashSize}

section

variable {threadId : Bool} {s s' : State} {a : Act} {r : ReqId} {q : QueueId} {t : ThreadId}

lemma Inv.owned_of_worker (h : Inv s) (hworker : s.worker = .taken r)
    (hkind : (s.reqs r).kind = .init q) : Owned s (s.reqs r).thread q := by
  have hr := h.placed.place_workTaken hworker
  apply h.owned _ _
  rw [h.linked.pending r (by rw [hr]; rfl)]
  exact ⟨hkind, fun hstarted => by simpa [hr] using hstarted.1⟩

lemma Inv.placed_next (h : Inv s) (hs : Step threadId s a s') : Placed s' := by
  cases hs with
  | newQueue => exact h.placed.newSyscallQueue (h.named.fresh _ (Nat.le_refl _))
  | newReq => exact h.placed.newReq ((h.linked.unborn _).1 (Nat.le_refl _))
  | submit ht => exact h.placed.triggerIrqWithData ((h.linked.trigger _ _).1 ht).2
  | lose ht => exact h.placed.loseReq ((h.linked.trigger _ _).1 ht).2
  | ret => exact h.placed.returnReq
  | initFree => exact h.placed.freeSyscallQueue
  | dequeue hhand hl => exact h.placed.dequeueData hhand hl
  | schedule hhand => exact h.placed.scheduleWork hhand
  | enqueue hhand => exact h.placed.listAdd hhand
  | take hserver hl => exact h.placed.dequeueSyscall hserver hl (.inl ⟨rfl, rfl⟩)
  | stop hserver hl => exact h.placed.dequeueSyscall hserver hl (.inr ⟨rfl, rfl⟩)
  | run hserver => exact h.placed.run hserver
  | post hserver => exact h.placed.post (.inl hserver) (.inl rfl)
  | @unlink q _ hserver =>
    have hplaced : Placed (unlinkSyscallQueue s q) := h.placed
    exact hplaced.modifyQueue rfl (by simp [hserver, Server.takenReq])
      (by simp [hserver, Server.ranReq])
  | @free q _ hserver =>
    have hplaced : Placed (freeSyscallQueue s q) := h.placed.freeSyscallQueue
    exact hplaced.modifyQueue rfl
      (by simp [hserver, Server.takenReq])
      (by simp [hserver, Server.ranReq])
  | up hserver => exact h.placed.post (.inr hserver) (.inr rfl)
  | workTake hworker hl => exact h.placed.workTake hworker hl
  | workRun hworker =>
    exact h.placed.workRun hworker fun q hq => (h.owned_of_worker hworker hq).server
  | workPost hworker => exact h.placed.workPost hworker
  | _ => exact h.placed

lemma Inv.lt_of_server (h : Inv s) (hserver : (s.queues q).server ≠ .none) : q < s.nextQueue := by
  by_contra hq
  rw [h.named.fresh q (Nat.le_of_not_lt hq)] at hserver
  exact hserver rfl

lemma Inv.queues_eq (h : Inv s) (hs : Step threadId s a s') (hq : s'.nextQueue ≤ q) :
    s'.queues q = s.queues q := by
  have hle : s.nextQueue ≤ q := Nat.le_trans hs.nextQueue_le hq
  have hother : ∀ {q0 : QueueId} {y : Queue}, q0 < s.nextQueue →
      s'.queues = update s.queues q0 y → s'.queues q = s.queues q := by
    intro q0 y hq0 heq
    rw [heq, update_of_ne (Nat.ne_of_gt (Nat.lt_of_lt_of_le hq0 hle))]
  have hserver : ∀ {q0 : QueueId} {x : Server} {y : Queue}, (s.queues q0).server = x → x ≠ .none →
      s'.queues = update s.queues q0 y → s'.queues q = s.queues q :=
    fun hx hne => hother (h.lt_of_server (hx ▸ hne))
  cases hs with
  | newQueue =>
    have hne : q ≠ s.nextQueue := by
      rintro rfl
      exact absurd hq (by simp)
    simp [hne]
  | @submit _ r =>
    have hr : (s.reqs r).queue ≠ some q := fun hr =>
      Nat.not_lt_of_le hle (h.named.req r q hr).1
    simp [triggerIrqWithData, recordSubmit, hr]
  | @initFree t _ q0 ht => exact hother (h.owned t q0 (by rw [ht]; rfl)).lt rfl
  | enqueue _ hq0 => exact hother (h.named.req _ _ hq0).1 rfl
  | take hx | stop hx | run hx | post hx | unlink hx | up hx => exact hserver hx (by simp) rfl
  | free hx => exact hserver hx (by simp) (update_idem _ _ _)
  | @workRun started r hworker =>
    rcases startServer_cases s (s.reqs r).kind started with ⟨q0, hkind, -, heq⟩ | heq
    · exact hother (h.owned_of_worker hworker hkind).lt heq
    · exact congrFun heq q
  | _ => rfl

lemma Step.thread_eq (hs : Step threadId s a s') (hq : q < s.nextQueue) :
    (s'.queues q).thread = (s.queues q).thread := by
  cases hs.queueStep q with
  | new _ _ hq' => exact absurd hq' (Nat.ne_of_lt hq)
  | _ => assumption

lemma Inv.req_eq (h : Inv s) (hs : Step threadId s a s') (hr : (s.reqs r).place ≠ .unborn) :
    (s'.reqs r).kind = (s.reqs r).kind ∧ (s'.reqs r).queue = (s.reqs r).queue := by
  rcases (hs.callStep h.placed h.linked).req_cases r with heq | hstep | ⟨rfl, -⟩
  · rw [heq]
    exact ⟨rfl, rfl⟩
  · exact ⟨hstep.kind_eq, hstep.queue_eq⟩
  · exact absurd ((h.linked.unborn _).1 (Nat.le_refl _)) hr

lemma Inv.obtains_lt {api : Api} (h : Inv s) (hq : obtains threadId s t api = some q) :
    q < s.nextQueue ∧ (q = defaultQueue ∨ (s.queues q).thread = t) := by
  rcases obtains_eq_some hq with rfl | ⟨hmem, hthread⟩
  · exact ⟨h.named.default_lt, .inl rfl⟩
  · exact ⟨h.named.bucket _ _ hmem, .inr hthread⟩

lemma Step.name_next (hs : Step threadId s a s')
    (hq : q < s.nextQueue ∧ (q = defaultQueue ∨ (s.queues q).thread = t)) :
    q < s'.nextQueue ∧ (q = defaultQueue ∨ (s'.queues q).thread = t) := by
  rw [hs.thread_eq hq.1]
  exact ⟨Nat.lt_of_lt_of_le hq.1 hs.nextQueue_le, hq.2⟩

section

variable (h : Inv s)

include h

lemma Inv.named_next (hs : Step threadId s a s') : Named s' := by
  refine ⟨?_, fun q hq => ?_, fun b q hq => ?_, fun r q hr => ?_, fun t k q ht => ?_⟩
  · exact Nat.lt_of_lt_of_le h.named.default_lt hs.nextQueue_le
  · rw [h.queues_eq hs hq]
    exact h.named.fresh q (Nat.le_trans hs.nextQueue_le hq)
  · refine Nat.lt_of_lt_of_le ?_ hs.nextQueue_le
    rcases hs.mem_buckets hq with hq | ⟨t, ht⟩
    · exact h.named.bucket b q hq
    · exact (h.owned t q (by rw [ht]; rfl)).lt
  · rcases (hs.callStep h.placed h.linked).req_cases r with heq | hstep | ⟨-, t, k, o, ht, heq⟩
    · rw [heq] at hr ⊢
      exact hs.name_next (h.named.req r q hr)
    · rw [hstep.queue_eq] at hr
      rw [hstep.thread_eq]
      exact hs.name_next (h.named.req r q hr)
    · obtain rfl : o = some q := by simpa [heq] using hr
      rw [heq]
      exact hs.name_next (h.named.ready t k q ht)
  · rcases hs.ready_cases ht with ht | ⟨api, -, hq⟩
    · exact hs.name_next (h.named.ready t k q ht)
    · exact hs.name_next (h.obtains_lt hq)

lemma Inv.setsUp_unique (ht : (s.callers t).SetsUp s q)
    (ht' : (s.callers t').SetsUp s q) : t = t' :=
  (h.owned t q ht).thread.symm.trans (h.owned t' q ht').thread

lemma Inv.owned_next (hs : Step threadId s a s')
    (hsets : (s'.callers t).SetsUp s' q) : Owned s' t q := by
  rcases hs.setsUp h.placed h.linked hsets with hsets0 | ⟨ht, rfl, rfl⟩
  · have hq := h.owned t q hsets0
    refine ⟨Nat.lt_of_lt_of_le hq.lt hs.nextQueue_le, (hs.thread_eq hq.lt).trans hq.thread,
      hq.ne_default, ?_, ?_⟩
    · cases hs.queueStep q with
      | keep _ _ hserver | drop _ _ _ _ hserver => exact hserver.trans hq.server
      | new _ _ _ hqueue => rw [hqueue]; rfl
      | start r hworker hkind hstarted hcallers =>
        -- The worker has just taken the queue over from this very thread.
        have hr : t = (s.reqs r).thread :=
          hq.thread.symm.trans (h.owned_of_worker hworker hkind).thread
        have hwait : s.callers t = .wait r := by
          rw [hr]
          exact h.linked.pending r (by rw [h.placed.place_workTaken hworker]; rfl)
        rw [hcallers, hwait] at hsets
        exact absurd hstarted hsets.2
      | _ => simp_all [hq.server]
    · cases hs.queueStep q with
      | new _ _ _ hqueue => rw [hqueue]; rfl
      | drop t' ht' ht'' =>
        obtain rfl : t' = t := h.setsUp_unique (by rw [ht']; rfl) hsets0
        rw [ht''] at hsets
        exact hsets.elim
      | kfree _ _ hserver => simp [hq.server] at hserver
      | _ => simp_all [hq.freed]
  · refine ⟨Nat.lt_succ_self _, ?_, Nat.ne_of_gt h.named.default_lt, ?_, ?_⟩ <;> simp

lemma Inv.owned_of_initLink (ht : s.callers t = .initLink q) : Owned s t q :=
  h.owned t q (by rw [ht]; rfl)

lemma Inv.owned_of_initFree (ht : s.callers t = .initFree q) : Owned s t q :=
  h.owned t q (by rw [ht]; rfl)

lemma Inv.ne_initFree_of_initLink (ht : s.callers t = .initLink q) :
    s.callers t' ≠ .initFree q := by
  intro ht'
  have hthread := (h.owned_of_initLink ht).thread.symm.trans (h.owned_of_initFree ht').thread
  simp [← hthread, ht] at ht'

end

lemma QueueStep.freed_eq (h : QueueStep s a s' q) (hfreed : (s.queues q).freed = false)
    (hinit : ∀ t, s.callers t ≠ .initFree q) (hserver : ∀ r, (s.queues q).server ≠ .free r) :
    (s'.queues q).freed = false := by
  cases h with
  | new _ _ _ hqueue => rw [hqueue]; rfl
  | drop t ht => exact absurd ht (hinit t)
  | kfree r _ hfree => exact absurd hfree (hserver r)
  | _ => simp_all

section

variable (h : Inv s) (hs : Step threadId s a s')

include h hs

lemma Inv.bucket_alive_next (hq : q ∈ s'.buckets b) : (s'.queues q).freed = false := by
  rcases hs.mem_buckets hq with hq | ⟨t, ht⟩
  · refine (hs.queueStep q).freed_eq (h.alive.bucket b q hq) (fun t ht => ?_) fun r hr => ?_
    · exact h.alive.initFree b t q ht hq
    · exact h.alive.unlinked b q (by rw [hr]; rfl) hq
  · have howned := h.owned_of_initLink ht
    refine (hs.queueStep q).freed_eq howned.freed (fun t' => h.ne_initFree_of_initLink ht) ?_
    simp [howned.server]

lemma Inv.server_alive_next
    (hserver : (s'.queues q).server.holds = true) : (s'.queues q).freed = false := by
  have halive := h.alive.server q
  cases hs.queueStep q with
  | keep _ hfreed heq => rw [hfreed, halive (heq ▸ hserver)]
  | new _ _ _ hqueue => rw [hqueue]; rfl
  | drop _ ht _ _ heq =>
    rw [heq, (h.owned_of_initFree ht).server] at hserver
    cases hserver
  | start _ hworker hkind _ _ _ hfreed =>
    rw [hfreed, (h.owned_of_worker hworker hkind).freed]
  | serve _ hfreed =>
    cases hx : (s.queues q).server <;> simp_all [Server.holds]
  | stop _ _ _ _ _ _ _ hfreed hx | unlink _ _ _ hfreed hx => rw [hfreed, halive (by rw [hx]; rfl)]
  | kfree _ _ _ hx' | exit _ _ _ _ hx' => simp [hx', Server.holds] at hserver

lemma Inv.unlinked_next (hserver : (s'.queues q).server.unlinked = true) : q ∉ s'.buckets b := by
  intro hq
  have hserver0 : (s.queues q).server.unlinked = true := by
    cases hs.queueStep q with
    | keep _ _ heq | drop _ _ _ _ heq => exact heq ▸ hserver
    | new _ _ _ hqueue => simp [hqueue] at hserver
    | start _ _ _ _ _ _ _ hx' | stop _ _ _ _ _ _ _ _ _ hx' => simp [hx'] at hserver
    | serve =>
      cases hx : (s'.queues q).server <;> simp_all
    | unlink _ hbuckets => exact absurd hq (hbuckets b)
    | kfree _ _ hx | exit _ _ _ hx => rw [hx]; rfl
  rcases hs.mem_buckets hq with hq | ⟨t, ht⟩
  · exact h.alive.unlinked b q hserver0 hq
  · simp [(h.owned_of_initLink ht).server] at hserver0

lemma Inv.alive_next : Alive s' := by
  refine ⟨fun b q => h.bucket_alive_next hs, fun q => h.server_alive_next hs,
    fun b q => h.unlinked_next hs, fun b t q ht hq => ?_⟩
  rcases hs.initFree_cases ht with ht0 | ⟨-, hbuckets⟩
  · rcases hs.mem_buckets hq with hq | ⟨t', ht'⟩
    · exact h.alive.initFree b t q ht0 hq
    · exact h.ne_initFree_of_initLink ht' ht0
  · exact hbuckets b hq

lemma Inv.default_server_next : (s'.queues defaultQueue).server ≠ .none := by
  have hne := h.default_server
  cases hs.queueStep defaultQueue with
  | keep _ _ heq | drop _ _ _ _ heq => exact heq ▸ hne
  | new _ _ hq => exact absurd hq (Nat.ne_of_lt h.named.default_lt)
  | serve _ _ _ hlive' =>
    intro hx
    simp [hx] at hlive'
  | _ => simp_all

end

lemma init_server (q : QueueId) :
    (State.init.queues q).server = if q = defaultQueue then .waiting else .none := rfl

lemma Inv.init : Inv State.init where
  placed := by
    intro p hp r
    have hcontents : State.init.contents p = [] := by
      cases p with
      | taken | ran => simp only [State.contents, init_server]; split_ifs <;> rfl
      | _ => rfl
    have hplace : (State.init.reqs r).place ≠ p := by
      rintro rfl
      cases hp
    simp [hcontents, hplace]
  ok r := by constructor <;> simp [State.init, Req.unborn, Place.afterHandler, Place.Serves]
  linked := by constructor <;> simp [State.init, Req.unborn, Place.pending]
  named := by
    refine ⟨Nat.zero_lt_one, fun q hq => ?_, fun b q hq => ?_, ?_, ?_⟩
    · have hne : q ≠ defaultQueue := Nat.ne_of_gt hq
      simp [State.init, hne]
    · have hq : q = defaultQueue := by
        simp only [State.init] at hq
        split_ifs at hq <;> simp_all
      exact hq ▸ Nat.zero_lt_one
    · simp [State.init, Req.unborn]
    · simp [State.init]
  owned t q hsets := hsets.elim
  alive := by
    refine ⟨fun _ _ _ => rfl, fun _ _ => rfl, fun b q hserver => ?_, ?_⟩
    · rw [init_server] at hserver
      split_ifs at hserver <;> cases hserver
    · simp [State.init]
  default_server := by simp [init_server]

lemma Inv.next (h : Inv s) (hs : Step threadId s a s') : Inv s' := by
  have hcall := hs.callStep h.placed h.linked
  exact ⟨h.placed_next hs, hcall.ok h.ok, h.linked.next h.ok hcall, h.named_next hs,
    fun t q => h.owned_next hs, h.alive_next hs, h.default_server_next hs⟩

theorem inv_of_reachable (h : (machine threadId).Reachable s) : Inv s :=
  h.invariant Inv.init fun _ _ h ha => h.next (step_of_guard ha)

end
end LklPort.SyscallQueue
