import LklPort.SyscallQueue.Queues

/-!
# Access to a deleted queue

A call looks its queue up first and has its request put on the list of the queue later, in
`syscall_irq`. In between the queue may be deleted. For a queue of a thread this cannot happen: it
is deleted by a call of the same thread, which has no other call under way. `default_queue` is
shared, and it is deleted when a `reboot` is dequeued from it, whoever else has looked it up.
-/

namespace LklPort.SyscallQueue

open Function

attribute [local simp] accesses

/-- Some call has obtained `q`, and its request, if it exists already, is in a place where `A`
holds. -/
def Aimed (A : Place → Bool) (s : State) (q : QueueId) : Prop :=
  (∃ t k, s.callers t = .ready k (some q)) ∨
    ∃ r, (s.reqs r).queue = some q ∧ A (s.reqs r).place = true

/-- The request has not reached the list of its queue. -/
def Place.inFlight : Place → Bool
  | .caller | .irq | .hand => true
  | .unborn | .lost | .queue _ | .work | .taken _ | .ran _ | .workTaken | .workRan | .done => false

/-- The places of a request from its start up to some point. -/
structure Early (A : Place → Bool) : Prop where
  step : ∀ {x y : Req}, x.Step y → A y.place = true → A x.place = true
  caller_or_pending : ∀ {p : Place}, A p = true → p = .caller ∨ p.pending = true
  ran : ∀ q, A (.ran q) = false

lemma early_inFlight : Early Place.inFlight where
  step h hy := by
    cases h with
    | ret => exact hy
    | _ => simp_all [Place.inFlight]
  caller_or_pending {p} hp := by cases p <;> simp_all [Place.inFlight, Place.pending]
  ran q := rfl

variable {threadId : Bool} {s s' : State} {a : Act} {r : ReqId} {q : QueueId} {t : ThreadId}
  {A : Place → Bool}

section

variable (h : Inv s) (hA : Early A)

include h hA

lemma Inv.aimed_of_next (hs : Step threadId s a s') (haimed : Aimed A s' q) :
    Aimed A s q ∨ ∃ t api, a = .enter t api ∧ obtains threadId s t api = some q := by
  rcases haimed with ⟨t, k, ht⟩ | ⟨r, hr, hplace⟩
  · rcases hs.ready_cases ht with ht | ⟨api, ha, hq⟩
    · exact .inl (.inl ⟨t, k, ht⟩)
    · exact .inr ⟨t, api, ha, hq⟩
  · rcases (hs.callStep h.placed h.linked).req_cases r with heq | hstep | ⟨-, t, k, o, ht, heq⟩
    · rw [heq] at hr hplace
      exact .inl (.inr ⟨r, hr, hplace⟩)
    · exact .inl (.inr ⟨r, hstep.queue_eq ▸ hr, hA.step hstep hplace⟩)
    · obtain rfl : o = some q := by simpa [heq] using hr
      exact .inl (.inl ⟨t, k, ht⟩)

lemma Inv.caller_of_aimed (hq : q ≠ defaultQueue)
    (haimed : Aimed A s q) : (∃ k, s.callers (s.queues q).thread = .ready k (some q)) ∨
      ∃ r, A (s.reqs r).place = true ∧ (s.callers (s.queues q).thread = .trigger r ∨
        s.callers (s.queues q).thread = .wait r) := by
  rcases haimed with ⟨t, k, ht⟩ | ⟨r, hr, hplace⟩
  · have hthread := (h.named.ready t k q ht).2.resolve_left hq
    exact .inl ⟨k, hthread ▸ ht⟩
  · have hthread := (h.named.req r q hr).2.resolve_left hq
    refine .inr ⟨r, hplace, ?_⟩
    rw [hthread]
    rcases hA.caller_or_pending hplace with hcaller | hpending
    · exact .inl ((h.linked.trigger _ r).2 ⟨rfl, hcaller⟩)
    · exact .inr (h.linked.pending r hpending)

lemma Inv.not_aimed_of_ran (hq : q ≠ defaultQueue)
    (hr : (s.reqs r).place = .ran q) : ¬ Aimed A s q := by
  have hqueue : (s.reqs r).queue = some q := by simpa [hr, Place.Serves] using (h.ok r).serves
  have hthread := (h.named.req r q hqueue).2.resolve_left hq
  have hwait := h.linked.pending r (by rw [hr]; rfl)
  rw [← hthread] at hwait
  intro haimed
  rcases h.caller_of_aimed hA hq haimed with ⟨k, ht⟩ | ⟨r', hplace, ht | ht⟩
  · simp [hwait] at ht
  · simp [hwait] at ht
  · obtain rfl : r = r' := by simpa [hwait] using ht
    simp [hr, hA.ran q] at hplace

lemma Inv.not_aimed_of_initFree (ht : s.callers t = .initFree q) : ¬ Aimed A s q := by
  have howned := h.owned_of_initFree ht
  intro haimed
  rcases h.caller_of_aimed hA howned.ne_default haimed with ⟨k, ht'⟩ | ⟨r', -, ht' | ht'⟩
  all_goals simp [howned.thread, ht] at ht'

end

/-! ### The queue of a thread -/

/-- Nothing aims at a queue that is freed, apart from `default_queue`. -/
def Dropped (A : Place → Bool) (s : State) : Prop :=
  ∀ q, q ≠ defaultQueue → (s.queues q).freed = true → ¬ Aimed A s q

lemma Inv.dropped_next (h : Inv s) (hA : Early A) (hs : Step threadId s a s')
    (hdropped : Dropped A s) : Dropped A s' := by
  intro q hq hfreed haimed
  -- A queue that is not in the hash table is not obtained any more.
  have hbefore : (∀ b, q ∉ s.buckets b) → Aimed A s q := by
    intro hbuckets
    rcases h.aimed_of_next hA hs haimed with haimed | ⟨t, api, -, hobtains⟩
    · exact haimed
    · obtain ⟨hmem, -⟩ := (obtains_eq_some hobtains).resolve_left hq
      exact absurd hmem (hbuckets _)
  have hkeep : (s'.queues q).freed = (s.queues q).freed → False := by
    intro heq
    rw [heq] at hfreed
    refine hdropped q hq hfreed (hbefore fun b hmem => ?_)
    simp [h.alive.bucket b q hmem] at hfreed
  cases hs.queueStep q with
  | new _ _ _ hqueue => simp [hqueue] at hfreed
  | drop t ht =>
    exact h.not_aimed_of_initFree hA ht (hbefore fun b => h.alive.initFree b t q ht)
  | kfree r _ hserver =>
    have hr : (s.reqs r).place = .ran q := h.placed.place_ran (by rw [hserver]; rfl)
    exact h.not_aimed_of_ran hA hq hr (hbefore fun b => h.alive.unlinked b q (by rw [hserver]; rfl))
  | _ => exact hkeep (by assumption)

lemma dropped_of_reachable (hA : Early A) (h : (machine threadId).Reachable s) : Dropped A s := by
  refine h.invariant_of (fun _ => inv_of_reachable) (fun q _ hfreed => ?_)
    fun s a hinv hdropped ha => hinv.dropped_next hA (step_of_guard ha) hdropped
  simp [machine, State.init] at hfreed

/-! ### The default queue -/

/-- `run_syscalls` has dequeued a `reboot`. -/
def Server.stopped : Server → Bool
  | .unlink _ | .free _ | .up _ | .exited => true
  | .none | .waiting | .taken _ | .invoked _ => false

/-- The next step of the server of `q` dequeues a `reboot`. -/
def stops (s : State) (q : QueueId) : Bool :=
  match (s.queues q).server, (s.queues q).lh with
  | .waiting, r :: _ => (s.reqs r).kind.reboot
  | _, _ => false

lemma stops_eq_true {l : List ReqId} (hserver : (s.queues q).server = .waiting)
    (hl : (s.queues q).lh = r :: l) (hk : (s.reqs r).kind.reboot = true) : stops s q = true := by
  simp [stops, hserver, hl, hk]

/-- The steps of a run in which `default_queue` is not deleted under a call: when its server
dequeues a `reboot`, no call that has obtained `default_queue` has its request still on the way to
the list, and no call obtains it afterwards. -/
def Settled (threadId : Bool) (s : State) : Act → Prop
  | .server q => q = defaultQueue → stops s q = true → ¬ Aimed Place.inFlight s q
  | .enter t api => obtains threadId s t api = some defaultQueue →
      (s.queues defaultQueue).server.stopped = false
  | .caller _ _ | .irq | .worker _ => True

/-- Nothing aims at `default_queue` once its server has stopped. -/
def DefaultSettled (s : State) : Prop :=
  (s.queues defaultQueue).server.stopped = true → ¬ Aimed Place.inFlight s defaultQueue

section

variable (h : Inv s)

include h

lemma Inv.defaultSettled_next (hs : Step threadId s a s') (ha : Settled threadId s a)
    (hsettled : DefaultSettled s) : DefaultSettled s' := by
  intro hstopped haimed
  have hbefore : (s.queues defaultQueue).server.stopped = true → False := by
    intro hstopped0
    rcases h.aimed_of_next early_inFlight hs haimed with haimed | ⟨t, api, rfl, hobtains⟩
    · exact hsettled hstopped0 haimed
    · simp [ha hobtains] at hstopped0
  cases hs.queueStep defaultQueue with
  | keep _ _ heq => exact hbefore (heq ▸ hstopped)
  | new _ _ hq => exact absurd hq (Nat.ne_of_lt h.named.default_lt)
  | drop _ ht => exact (h.owned_of_initFree ht).ne_default rfl
  | start _ hworker hkind => exact (h.owned_of_worker hworker hkind).ne_default rfl
  | serve =>
    cases hx : (s'.queues defaultQueue).server <;> simp_all [Server.live, Server.stopped]
  | stop _ _ hact hl _ hk _ _ hserver =>
    subst hact
    rcases h.aimed_of_next early_inFlight hs haimed with haimed | ⟨t, api, heq, -⟩
    · exact ha rfl (stops_eq_true hserver hl hk) haimed
    · cases heq
  | unlink _ _ _ _ hserver | kfree _ _ hserver | exit _ _ _ hserver =>
    exact hbefore (by rw [hserver]; rfl)

lemma Inv.stopped_of_freed (hfreed : (s.queues defaultQueue).freed = true) :
    (s.queues defaultQueue).server.stopped = true := by
  have hne := h.default_server
  have hholds := h.alive.server defaultQueue
  cases hserver : (s.queues defaultQueue).server <;> simp_all [Server.holds, Server.stopped]

/-! ### Access -/

/-- Whatever step is taken next, it does not access a queue that is freed. -/
def QueueSafe (threadId : Bool) (s : State) : Prop :=
  ∀ a, guard threadId s a → ∀ q ∈ accesses threadId s a, (s.queues q).freed = false

lemma Inv.enter_accesses_alive {api : Api}
    (hq : q ∈ accesses threadId s (.enter t api)) : (s.queues q).freed = false := by
  apply h.alive.bucket (syscallQueueHashHead t) q
  cases api with
  | sys =>
    cases threadId with
    | false => simp at hq
    | true => exact hq
  | halt => simp at hq
  | init | cleanup => exact hq

lemma Inv.caller_accesses_alive {alloc : Bool}
    (hq : q ∈ accesses threadId s (.caller t alloc)) : (s.queues q).freed = false := by
  have hbucket := h.alive.bucket (syscallQueueHashHead t) q
  have howned : (s.callers t).SetsUp s q → (s.queues q).freed = false :=
    fun hsets => (h.owned t q hsets).freed
  cases ht : s.callers t with
  | initLink q0 | initUnlink q0 =>
    simp only [accesses, ht, List.mem_cons] at hq
    exact hq.elim (fun hq => howned (by rw [ht]; exact hq.symm)) hbucket
  | initFree =>
    simp only [accesses, ht, List.mem_singleton] at hq
    exact howned (by rw [ht]; exact hq.symm)
  | _ => simp [ht] at hq

lemma Inv.server_accesses_alive {q0 : QueueId}
    (hq : q ∈ accesses threadId s (.server q0)) : (s.queues q).freed = false := by
  have hserver := h.alive.server q0
  cases hx : (s.queues q0).server with
  | waiting | free r =>
    obtain rfl : q = q0 := by simpa [hx] using hq
    exact hserver (by rw [hx]; rfl)
  | unlink =>
    simp only [accesses, hx, List.mem_cons] at hq
    rcases hq with rfl | hq
    · exact hserver (by rw [hx]; rfl)
    · exact h.alive.bucket _ q hq
  | _ => simp [hx] at hq

lemma Inv.accesses_alive (ha : a ≠ .irq) (hq : q ∈ accesses threadId s a) :
    (s.queues q).freed = false := by
  cases a with
  | enter => exact h.enter_accesses_alive hq
  | caller => exact h.caller_accesses_alive hq
  | irq => exact absurd rfl ha
  | server => exact h.server_accesses_alive hq
  | worker => simp at hq

lemma Inv.aimed_of_irq (hq : q ∈ accesses threadId s .irq) : Aimed Place.inFlight s q := by
  cases hhand : s.hand with
  | none => simp [hhand] at hq
  | some r =>
    refine .inr ⟨r, by simpa [hhand] using hq, ?_⟩
    rw [h.placed.place_hand hhand]
    rfl

end

/-- In every run, the queue of a thread is not accessed after it was freed, and `default_queue` only
by `syscall_irq`. -/
theorem freed_access (h : (machine threadId).Reachable s) (hq : q ∈ accesses threadId s a)
    (hfreed : (s.queues q).freed = true) : a = .irq ∧ q = defaultQueue := by
  have hinv := inv_of_reachable h
  obtain rfl : a = .irq := by
    by_contra ha
    simp [hinv.accesses_alive ha hq] at hfreed
  refine ⟨rfl, ?_⟩
  by_contra hne
  exact dropped_of_reachable early_inFlight h q hne hfreed (hinv.aimed_of_irq hq)

lemma defaultSettled_of_reachable
    (h : ((machine threadId).restrict (Settled threadId)).Reachable s) : DefaultSettled s := by
  refine h.invariant_of (fun _ h => inv_of_reachable h.of_restrict) ?_
    fun s a hinv hsettled ha => hinv.defaultSettled_next (step_of_guard ha.1) ha.2 hsettled
  intro hstopped
  simp [Machine.restrict, machine, init_server, Server.stopped] at hstopped

/-- A deleted queue is not accessed in a run where the calls on `default_queue` are settled when a
`reboot` is dequeued from it. -/
theorem no_access_after_free
    (h : ((machine threadId).restrict (Settled threadId)).Reachable s) : QueueSafe threadId s := by
  intro a ha q hq
  by_contra hfreed
  simp only [Bool.not_eq_false] at hfreed
  obtain ⟨rfl, rfl⟩ := freed_access h.of_restrict hq hfreed
  have hinv := inv_of_reachable h.of_restrict
  exact defaultSettled_of_reachable h (hinv.stopped_of_freed hfreed) (hinv.aimed_of_irq hq)

/-! ### Two runs -/

/-- The thread 1 has obtained `default_queue`, and its request reaches `syscall_irq` after the
server has ended on the `reboot` of the thread 2. -/
def lateRun : List Act :=
  [.enter 1 .sys, .enter 2 .halt, .caller 2 true, .caller 2 true, .irq, .irq, .server 0, .server 0,
    .server 0, .server 0, .caller 1 true, .caller 1 true, .irq]

/-- The run reaches a state in which `syscall_irq` is about to add to a list that is freed. -/
theorem not_queueSafe_lateRun : ¬ ∀ s, (machine false).Reachable s → QueueSafe false s := by
  intro h
  have hsafe := h _ (Machine.reachable_of_admits lateRun (by decide)) .irq
    (show (machine false).guard _ .irq by decide) defaultQueue (by decide)
  exact absurd hsafe (by decide)

/-- The thread 1 makes a system call, and the thread 2 halts the kernel after it. The server has not
dequeued the `reboot` yet. -/
def haltRun : List Act :=
  [.enter 1 .sys, .caller 1 true, .caller 1 true, .irq, .irq, .server 0, .server 0, .server 0,
    .caller 1 true, .enter 2 .halt, .caller 2 true, .caller 2 true, .irq, .irq]

def haltState : State := (machine false).runFrom .init haltRun

lemma haltState_callers : haltState.callers =
    update (update (fun _ => .outside) 1 .outside) 2 (.wait 1) := by
  have h : haltState.callers = update (update (update (update
      (update (update (update (fun _ => .outside) 1
        (.ready .sys (some 0))) 1 (.trigger 0)) 1 (.wait 0)) 1 .outside) 2
        (.ready .halt (some 0))) 2 (.trigger 1)) 2 (.wait 1) := rfl
  simpa only [update_idem] using h

lemma not_aimed_haltState : ¬ Aimed Place.inFlight haltState defaultQueue := by
  have hlinked := (inv_of_reachable (Machine.reachable_of_admits (M := machine false) haltRun
    (by decide))).linked
  rintro (⟨t, k, ht⟩ | ⟨r, -, hr⟩)
  · simp only [haltState_callers, update_apply] at ht
    split_ifs at ht
  · rcases r with _ | _ | r
    · exact absurd hr (by decide)
    · exact absurd hr (by decide)
    · cases hr

lemma settled_haltState : ((machine false).restrict (Settled false)).Reachable haltState := by
  apply Machine.reachable_of_admits haltRun
  repeat' apply And.intro
  all_goals first
    | decide
    | exact trivial
    | exact fun _ => by decide
    | exact fun _ hstops => absurd hstops (by decide)

/-- The server has dequeued the `reboot` and deleted `default_queue`. -/
def haltedState : State := (machine false).runFrom haltState [.server 0, .server 0, .server 0]

/-- After the halt `default_queue` is freed, and nothing accesses it. -/
theorem no_access_after_free_haltRun :
    (haltedState.queues defaultQueue).freed = true ∧ QueueSafe false haltedState := by
  refine ⟨by decide, no_access_after_free (settled_haltState.runFrom ?_)⟩
  refine ⟨⟨by decide, fun _ _ => not_aimed_haltState⟩, ⟨by decide, ?_⟩, ⟨by decide, ?_⟩, trivial⟩
  all_goals exact fun _ hstops => absurd hstops (by decide)

/-!
## Every request is served once

Whatever the interleaving, a handler is called at most once for a request, its semaphore is posted
at most once, and the kernel does not touch the request afterwards. That it is served at all needs
more: `lkl_trigger_irq_with_data` must not fail, since its caller waits all the same, and the queue
of the request must not lose its server.
-/

open List

attribute [local simp] State.contents touches

/-! ### Where a caller's request is found -/

/-- On its way from `lkl_trigger_irq_with_data` to the end of `syscall_irq`. -/
def InIrq (s : State) (r : ReqId) : Prop := r ∈ s.irq.dataList ∨ s.hand = some r

/-- On a list that a server or the worker is going to drain. -/
def InQueue (s : State) (r : ReqId) : Prop :=
  (∃ q, r ∈ (s.queues q).lh ∧ (s.queues q).server.live = true) ∨ r ∈ s.work

/-- A server or the worker has it and has not posted its semaphore. -/
def Executing (s : State) (r : ReqId) : Prop :=
  (∃ q, r ∈ (s.queues q).server.takenReq ∨ r ∈ (s.queues q).server.ranReq) ∨
    r ∈ s.worker.takenReq ∨ r ∈ s.worker.ranReq

/-- In exactly one of the three. -/
def Found (s : State) (r : ReqId) : Prop :=
  InIrq s r ∧ ¬ InQueue s r ∧ ¬ Executing s r ∨
    ¬ InIrq s r ∧ InQueue s r ∧ ¬ Executing s r ∨ ¬ InIrq s r ∧ ¬ InQueue s r ∧ Executing s r

/-- What a caller may expect of the system call layer. -/
structure CallLaw (threadId : Bool) (s : State) : Prop where
  found : ∀ t r, s.callers t = .wait r → (s.reqs r).sem = 0 → Found s r
  invoked : ∀ r, (s.reqs r).invoked ≤ 1
  ups : ∀ r, (s.reqs r).ups ≤ 1
  returned : ∀ r, r < s.nextReq → s.callers (s.reqs r).thread ≠ .trigger r →
    s.callers (s.reqs r).thread ≠ .wait r →
    (s.reqs r).ups = 1 ∧ ((s.reqs r).kind.reboot = false → (s.reqs r).invoked = 1)
  untouched : ∀ a, guard threadId s a → ∀ r ∈ touches s a, (s.reqs r).ups = 0

lemma Placed.inIrq_iff (h : Placed s) :
    InIrq s r ↔ (s.reqs r).place = .irq ∨ (s.reqs r).place = .hand := by
  rw [← h.mem_iff rfl, ← h.mem_iff rfl]
  simp [InIrq]

lemma Placed.inQueue_iff (h : Placed s) :
    InQueue s r ↔ (∃ q, (s.reqs r).place = .queue q ∧ (s.queues q).server.live = true) ∨
      (s.reqs r).place = .work := by
  simp only [← h.mem_iff (p := .queue _) rfl, ← h.mem_iff (p := .work) rfl]
  rfl

lemma Placed.executing_iff (h : Placed s) :
    Executing s r ↔ (∃ q, (s.reqs r).place = .taken q ∨ (s.reqs r).place = .ran q) ∨
      (s.reqs r).place = .workTaken ∨ (s.reqs r).place = .workRan := by
  simp only [← h.mem_iff (p := .taken _) rfl, ← h.mem_iff (p := .ran _) rfl,
    ← h.mem_iff (p := .workTaken) rfl, ← h.mem_iff (p := .workRan) rfl]
  rfl

section

variable (h : Inv s)

include h

lemma Inv.found_iff (hr : (s.reqs r).place.pending = true) : Found s r ↔ (s.reqs r).place ≠ .lost ∧
      ∀ q, (s.reqs r).place = .queue q → (s.queues q).server.live = true := by
  unfold Found
  rw [h.placed.inIrq_iff, h.placed.inQueue_iff, h.placed.executing_iff]
  cases hp : (s.reqs r).place <;> simp_all [Place.pending]

lemma Inv.pending_of_blocked (ht : s.callers t = .wait r)
    (hsem : (s.reqs r).sem = 0) : (s.reqs r).place.pending = true := by
  obtain ⟨-, hups, hplace⟩ := h.linked.wait t r ht
  rcases hplace with hpending | hdone
  · exact hpending
  · have hone := (h.ok r).ups
    rw [if_pos hdone] at hone
    omega

/-! ### In every run -/

lemma Inv.ups_le_one (r : ReqId) : (s.reqs r).ups ≤ 1 := by
  rw [(h.ok r).ups]
  split_ifs <;> decide

lemma Inv.invoked_le_one (r : ReqId) : (s.reqs r).invoked ≤ 1 := by
  apply Nat.le_trans (h.ok r).invoked
  split_ifs <;> decide

/-- A call that has returned has had its semaphore posted, and its handler was called unless it is a
`reboot`. -/
lemma Inv.counts_of_returned (hr : r < s.nextReq)
    (htrigger : s.callers (s.reqs r).thread ≠ .trigger r)
    (hwait : s.callers (s.reqs r).thread ≠ .wait r) :
    (s.reqs r).ups = 1 ∧ ((s.reqs r).kind.reboot = false → (s.reqs r).invoked = 1) := by
  have hdone : (s.reqs r).place = .done := by
    rcases (s.reqs r).place.phases with hp | hp | hp | hp
    · exact absurd ((h.linked.unborn r).2 hp) (Nat.not_le_of_lt hr)
    · exact absurd ((h.linked.trigger _ r).2 ⟨rfl, hp⟩) htrigger
    · exact absurd (h.linked.pending r hp) hwait
    · exact hp
  have hups := (h.ok r).ups
  rw [if_pos hdone] at hups
  exact ⟨hups, (h.ok r).invoked_of_afterHandler (by rw [hdone]; rfl)⟩

lemma Inv.ups_of_mem_contents {p : Place} (hp : p.kernel = true)
    (hr : r ∈ s.contents p) : (s.reqs r).ups = 0 := by
  have hplace := (h.placed.mem_iff hp).1 hr
  exact ((h.ok r).counts_of_pending (Place.pending_of_kernel (by rw [hplace]; exact hp))).2

lemma Inv.ups_of_irq_touched (hr : r ∈ touches s .irq) : (s.reqs r).ups = 0 := by
  cases hhand : s.hand with
  | none => simp [hhand] at hr
  | some r0 =>
    have hr0 : r = r0 → (s.reqs r).ups = 0 := by
      rintro rfl
      exact h.ups_of_mem_contents (p := .hand) rfl (by simp [hhand])
    cases hq : (s.reqs r0).queue with
    | none =>
      simp only [touches, hhand, hq, mem_cons, Option.mem_toList] at hr
      exact hr.elim hr0 fun hr =>
        h.ups_of_mem_contents (p := .work) rfl (mem_of_mem_getLast? hr)
    | some q =>
      simp only [touches, hhand, hq, mem_cons, Option.mem_toList] at hr
      exact hr.elim hr0 fun hr =>
        h.ups_of_mem_contents (p := .queue q) rfl (mem_of_mem_head? hr)

lemma Inv.ups_of_server_touched (hr : r ∈ touches s (.server q)) : (s.reqs r).ups = 0 := by
  cases hserver : (s.queues q).server with
  | waiting =>
    simp only [touches, hserver] at hr
    exact h.ups_of_mem_contents (p := .queue q) rfl (mem_of_mem_take hr)
  | taken r0 =>
    obtain rfl : r = r0 := by simpa [hserver] using hr
    exact h.ups_of_mem_contents (p := .taken q) rfl (by simp [hserver, Server.takenReq])
  | invoked r0 | up r0 =>
    obtain rfl : r = r0 := by simpa [hserver] using hr
    exact h.ups_of_mem_contents (p := .ran q) rfl (by simp [hserver, Server.ranReq])
  | _ => simp [hserver] at hr

lemma Inv.ups_of_worker_touched {started : Bool}
    (hr : r ∈ touches s (.worker started)) : (s.reqs r).ups = 0 := by
  cases hworker : s.worker with
  | idle =>
    simp only [touches, hworker] at hr
    exact h.ups_of_mem_contents (p := .work) rfl (mem_of_mem_take hr)
  | taken r0 =>
    obtain rfl : r = r0 := by simpa [hworker] using hr
    exact h.ups_of_mem_contents (p := .workTaken) rfl (by simp [hworker, Worker.takenReq])
  | invoked r0 =>
    obtain rfl : r = r0 := by simpa [hworker] using hr
    exact h.ups_of_mem_contents (p := .workRan) rfl (by simp [hworker, Worker.ranReq])

lemma Inv.ups_of_touched (hr : r ∈ touches s a) : (s.reqs r).ups = 0 := by
  cases a with
  | enter | caller => simp at hr
  | irq => exact h.ups_of_irq_touched hr
  | server => exact h.ups_of_server_touched hr
  | worker => exact h.ups_of_worker_touched hr

lemma Inv.callLaw (hfound : ∀ t r, s.callers t = .wait r → (s.reqs r).sem = 0 → Found s r) :
    CallLaw threadId s where
  found := hfound
  invoked := h.invoked_le_one
  ups := h.ups_le_one
  returned _ := h.counts_of_returned
  untouched _ _ _ := h.ups_of_touched

end

/-! ### The service -/

/-- The request is not in the hands of a server. -/
def Place.unserved : Place → Bool
  | .caller | .irq | .hand | .queue _ => true
  | .unborn | .lost | .work | .taken _ | .ran _ | .workTaken | .workRan | .done => false

lemma early_unserved : Early Place.unserved where
  step h hy := by
    cases h with
    | ret => exact hy
    | _ => simp_all [Place.unserved]
  caller_or_pending {p} hp := by cases p <;> simp_all [Place.unserved, Place.pending]
  ran q := rfl

/-- The steps of a run in which no request is stranded: the allocation in
`lkl_trigger_irq_with_data` does not fail, a call obtains a queue whose server runs its loop, and
the server of `default_queue` dequeues a `reboot` only as the last request that aims at the
queue. -/
def Attended (threadId : Bool) (s : State) : Act → Prop
  | .caller t alloc => ∀ r, s.callers t = .trigger r → alloc = true
  | .enter t api => ∀ q, obtains threadId s t api = some q → (s.queues q).server.live = true
  | .server q => q = defaultQueue → stops s q = true →
      ¬ Aimed Place.inFlight s q ∧ (s.queues q).lh.tail = []
  | .irq | .worker _ => True

/-- Nothing is lost, and what aims at a queue will be served. -/
structure Served (s : State) : Prop where
  not_lost : ∀ r, (s.reqs r).place ≠ .lost
  live : ∀ q, Aimed Place.unserved s q → (s.queues q).server.live = true

lemma Req.Step.ne_lost {x y : Req} (h : x.Step y) (hx : x.place.kernel = true) :
    y.place ≠ .lost := by
  intro hy
  cases h <;> simp_all [Place.kernel]

lemma Inv.not_lost_next (h : Inv s) (hs : Step threadId s a s') (ha : Attended threadId s a)
    (hserved : Served s) (r : ReqId) : (s'.reqs r).place ≠ .lost := by
  have hkeep : s'.reqs r = s.reqs r → (s'.reqs r).place ≠ .lost :=
    fun heq => heq ▸ hserved.not_lost r
  cases hs.callStep h.placed h.linked with
  | quiet _ hreqs => exact hkeep (hreqs r)
  | born _ _ _ _ _ _ hr hreqs =>
    rcases eq_or_ne r s.nextReq with rfl | hne
    · simp [hr]
    · exact hkeep (hreqs r hne)
  | submit _ r0 hbefore _ _ _ hplace hreqs =>
    rcases eq_or_ne r r0 with rfl | hne
    · rcases hplace with hplace | ⟨-, rfl⟩
      · simp [hplace]
      · exact absurd (ha r hbefore) (by simp)
    · exact hkeep (hreqs r hne)
  | kernel r0 _ hkernel hr hreqs =>
    rcases eq_or_ne r r0 with rfl | hne
    · exact hr.ne_lost hkernel
    · exact hkeep (hreqs r hne)
  | ret _ r0 _ _ _ _ hr hreqs =>
    rcases eq_or_ne r r0 with rfl | hne
    · rw [hr]
      exact hserved.not_lost r
    · exact hkeep (hreqs r hne)

lemma Inv.inFlight_or_lh (h : Inv s) (haimed : Aimed Place.unserved s q) :
    Aimed Place.inFlight s q ∨ (s.queues q).lh ≠ [] := by
  rcases haimed with hready | ⟨r, hr, hplace⟩
  · exact .inl (.inl hready)
  · cases hp : (s.reqs r).place with
    | queue q' =>
      have hq : q' = q := by simpa [hp, hr, Place.Serves, eq_comm] using (h.ok r).serves
      have hmem : r ∈ (s.queues q).lh := (h.placed.mem_iff rfl).2 (hq ▸ hp)
      exact .inr (ne_nil_of_mem hmem)
    | caller | irq | hand => exact .inl (.inr ⟨r, hr, by rw [hp]; rfl⟩)
    | _ => simp [hp, Place.unserved] at hplace

lemma Inv.not_aimed_of_stop (h : Inv s) (hs : Step threadId s (.server q) s')
    (ha : Attended threadId s (.server q)) (hstops : stops s q = true)
    (hlh : (s'.queues q).lh = (s.queues q).lh.tail)
    (hserver : (s'.queues q).server = .unlink r) : ¬ Aimed Place.unserved s' q := by
  have h' := h.next hs
  have hr : (s'.reqs r).place = .ran q := h'.placed.place_ran (by rw [hserver]; rfl)
  by_cases hq : q = defaultQueue
  · obtain ⟨hsettled, htail⟩ := ha hq hstops
    intro haimed
    rcases h'.inFlight_or_lh haimed with haimed | hne
    · rcases h.aimed_of_next early_inFlight hs haimed with haimed | ⟨t, api, heq, -⟩
      · exact hsettled haimed
      · cases heq
    · exact hne (hlh.trans htail)
  · exact h'.not_aimed_of_ran early_unserved hq hr

section

variable (h : Inv s) (hs : Step threadId s a s') (ha : Attended threadId s a)

include h hs ha

lemma Inv.live_next (hserved : Served s) (haimed : Aimed Place.unserved s' q) :
    (s'.queues q).server.live = true := by
  have hlive : (s.queues q).server.live = true := by
    rcases h.aimed_of_next early_unserved hs haimed with haimed | ⟨t, api, rfl, hobtains⟩
    · exact hserved.live q haimed
    · exact ha q hobtains
  cases hs.queueStep q with
  | keep _ _ heq | drop _ _ _ _ heq => exact heq ▸ hlive
  | new _ _ hq =>
    rw [h.named.fresh q (Nat.le_of_eq hq.symm)] at hlive
    cases hlive
  | start _ _ _ _ _ _ _ hserver' => rw [hserver']; rfl
  | serve _ _ _ hlive' => exact hlive'
  | stop _ _ hact hl hl' hk _ _ hserver hserver' =>
    subst hact
    exact absurd haimed (h.not_aimed_of_stop hs ha (stops_eq_true hserver hl hk)
      (by rw [hl, hl', tail_cons]) hserver')
  | unlink _ _ _ _ hserver | kfree _ _ hserver | exit _ _ _ hserver =>
    simp [hserver, Server.live] at hlive

lemma Inv.served_next (hserved : Served s) : Served s' :=
  ⟨h.not_lost_next hs ha hserved, fun _ => h.live_next hs ha hserved⟩

end

lemma served_of_reachable (h : ((machine threadId).restrict (Attended threadId)).Reachable s) :
    Served s := by
  refine h.invariant_of (fun _ h => inv_of_reachable h.of_restrict) ?_
    fun s a hinv hserved ha => hinv.served_next (step_of_guard ha.1) ha.2 hserved
  refine ⟨fun r => ?_, ?_⟩
  · simp [Machine.restrict, machine, State.init, Req.unborn]
  · rintro q (⟨t, k, ht⟩ | ⟨r, hr, -⟩)
    · simp [Machine.restrict, machine, State.init] at ht
    · simp [Machine.restrict, machine, State.init, Req.unborn] at hr

/-- In a run where the steps meet `Attended`, no system call is lost and each runs once. -/
theorem calls_served_once (h : ((machine threadId).restrict (Attended threadId)).Reachable s) :
    CallLaw threadId s := by
  have hinv := inv_of_reachable h.of_restrict
  have hserved := served_of_reachable h
  refine hinv.callLaw fun t r ht hsem => ?_
  refine (hinv.found_iff (hinv.pending_of_blocked ht hsem)).2 ⟨hserved.not_lost r, fun q hq => ?_⟩
  have hqueue : (s.reqs r).queue = some q := by simpa [hq, Place.Serves] using (hinv.ok r).serves
  exact hserved.live q (.inr ⟨r, hqueue, by rw [hq]; rfl⟩)

lemma attended_haltState : ((machine false).restrict (Attended false)).Reachable haltState := by
  apply Machine.reachable_of_admits haltRun
  repeat' apply And.intro
  all_goals first
    | decide
    | exact trivial
    | exact fun _ _ => rfl
    | exact fun _ hstops => absurd hstops (by decide)
    | exact fun q hq => Option.some.inj hq ▸ by decide

/-- While the server deletes `default_queue`, the thread 2 waits for its `reboot`. -/
theorem calls_served_once_haltRun :
    haltedState.callers 2 = .wait 1 ∧ (haltedState.reqs 1).sem = 0 ∧ CallLaw false haltedState := by
  refine ⟨by decide, by decide, calls_served_once (attended_haltState.runFrom ?_)⟩
  refine ⟨⟨by decide, fun _ _ => ⟨not_aimed_haltState, by decide⟩⟩, ⟨by decide, ?_⟩,
    ⟨by decide, ?_⟩, trivial⟩
  all_goals exact fun _ hstops => absurd hstops (by decide)

/-- `mem_alloc` fails in `lkl_trigger_irq_with_data`. -/
def lostRun : List Act := [.enter 1 .sys, .caller 1 true, .caller 1 false]

def lostState : State := (machine false).runFrom .init lostRun

/-- The idle thread puts a `reboot` in front of a request that it has found earlier. -/
def strandedRun : List Act :=
  [.enter 1 .sys, .enter 2 .halt, .caller 1 true, .caller 1 true, .caller 2 true, .caller 2 true,
    .irq, .irq, .irq, .irq, .server 0]

def strandedState : State := (machine false).runFrom .init strandedRun

/-- The thread 1 waits for ever, with its request in no list at all, or in the list of a queue whose
server is about to delete it. -/
theorem not_callLaw_lost_stranded :
    (machine false).Reachable lostState ∧ ¬ CallLaw false lostState ∧
      (machine false).Reachable strandedState ∧ ¬ CallLaw false strandedState := by
  have hlost : (machine false).Reachable lostState :=
    Machine.reachable_of_admits lostRun (by decide)
  have hstranded : (machine false).Reachable strandedState :=
    Machine.reachable_of_admits strandedRun (by decide)
  refine ⟨hlost, fun hlaw => ?_, hstranded, fun hlaw => ?_⟩
  · have hfound := hlaw.found 1 0 (by decide) (by decide)
    exact (((inv_of_reachable hlost).found_iff (by decide)).1 hfound).1 (by decide)
  · have hfound := hlaw.found 1 0 (by decide) (by decide)
    have hlive := (((inv_of_reachable hstranded).found_iff (by decide)).1 hfound).2 0 (by decide)
    exact absurd hlive (by decide)

end LklPort.SyscallQueue
