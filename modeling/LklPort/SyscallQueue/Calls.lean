import LklPort.SyscallQueue.Places

/-!
# The life of a request

For a request and its caller the machine does little: the caller makes the request, enqueues it and
waits, the kernel handles it, and the caller returns. `CallStep` is this view of a step. What it
keeps is that a request which is not done has its caller waiting for it.
-/

namespace LklPort.SyscallQueue

open List

attribute [local simp] triggerIrqWithData

/-! ### The kernel and one request -/

/-- What happens to a request in one step, after it was made. -/
inductive Req.Step (x : Req) : Req → Prop
  | submit (h : x.place = .caller) : Step x { x with place := .irq }
  | lose (h : x.place = .caller) : Step x { x with place := .lost }
  | dequeue (h : x.place = .irq) : Step x { x with place := .hand }
  | schedule (h : x.place = .hand) (hq : x.queue = none) : Step x { x with place := .work }
  | enqueue {q : QueueId} (h : x.place = .hand) (hq : x.queue = some q) :
      Step x { x with place := .queue q }
  | take {q : QueueId} (h : x.place = .queue q) : Step x { x with place := .taken q }
  | stop {q : QueueId} (h : x.place = .queue q) (hk : x.kind.reboot = true) :
      Step x { x with place := .ran q }
  | run {q : QueueId} (h : x.place = .taken q) :
      Step x { x with invoked := x.invoked + 1, place := .ran q, err := false }
  | workTake (h : x.place = .work) : Step x { x with place := .workTaken }
  | workRun {err : Bool} (h : x.place = .workTaken) :
      Step x { x with invoked := x.invoked + 1, place := .workRan, err := err }
  | post (h : (∃ q, x.place = .ran q) ∨ x.place = .workRan) :
      Step x { x with sem := x.sem + 1, ups := x.ups + 1, place := .done }
  | ret (h : 0 < x.sem) : Step x { x with sem := x.sem - 1 }

/-- Its handler may have been called. -/
def Place.afterHandler : Place → Bool
  | .ran _ | .workRan | .done => true
  | .unborn | .caller | .lost | .irq | .hand | .queue _ | .work | .taken _ | .workTaken => false

attribute [local simp] Place.afterHandler

/-- A request for `o` may be in this place. -/
def Place.Serves (o : Option QueueId) : Place → Prop
  | .queue q | .taken q | .ran q => o = some q
  | .work | .workTaken | .workRan => o = none
  | .unborn | .caller | .lost | .irq | .hand | .done => True

/-- What holds of every request by itself. -/
structure Req.Ok (x : Req) : Prop where
  ups : x.ups = if x.place = .done then 1 else 0
  sem : x.sem ≤ x.ups
  invoked : x.invoked ≤ if x.place.afterHandler then 1 else 0
  invoked_of_afterHandler : x.place.afterHandler = true → x.kind.reboot = false → x.invoked = 1
  serves : x.place.Serves x.queue

/-- Made, but not done yet. -/
def Place.pending : Place → Bool
  | .lost | .irq | .hand | .queue _ | .work | .taken _ | .ran _ | .workTaken | .workRan => true
  | .unborn | .caller | .done => false

lemma Place.phases (p : Place) : p = .unborn ∨ p = .caller ∨ p.pending = true ∨ p = .done := by
  cases p <;> simp [Place.pending]

lemma Place.pending_of_kernel {p : Place} (h : p.kernel = true) : p.pending = true := by
  cases p <;> first | rfl | cases h

section

variable {x y : Req}

lemma Req.new_ok {t : ThreadId} {k : Kind} {o : Option QueueId} : (Req.new t k o).Ok := by
  constructor <;> simp [Place.Serves]

lemma Req.Step.ok (h : x.Step y) (hx : x.Ok) : y.Ok := by
  obtain ⟨hups, hsem, hinvoked, hafter, hserves⟩ := hx
  cases h with
  | post h =>
    rcases h with ⟨q, h⟩ | h
    all_goals
      constructor <;> simp_all [Place.Serves]
  | ret => exact ⟨hups, Nat.le_trans (Nat.sub_le _ _) hsem, hinvoked, hafter, hserves⟩
  | _ => constructor <;> simp_all [Place.Serves]

lemma Req.Step.thread_eq (h : x.Step y) : y.thread = x.thread := by
  cases h <;> rfl

lemma Req.Step.kind_eq (h : x.Step y) : y.kind = x.kind := by
  cases h <;> rfl

lemma Req.Step.queue_eq (h : x.Step y) : y.queue = x.queue := by
  cases h <;> rfl

lemma Req.Ok.done_of_sem_pos (h : x.Ok) (hsem : 0 < x.sem) : x.place = .done := by
  by_contra hdone
  have hups := h.ups
  rw [if_neg hdone] at hups
  exact absurd h.sem (by omega)

lemma Req.Ok.counts_of_pending (h : x.Ok) (hp : x.place.pending = true) :
    x.sem = 0 ∧ x.ups = 0 := by
  have hups := h.ups
  have hsem := h.sem
  rw [if_neg (by rintro hdone; simp [hdone, Place.pending] at hp)] at hups
  omega

lemma Req.Step.of_kernel (h : x.Step y) (hx : x.place.kernel = true) :
    y.place.pending = true ∨ y.place = .done ∧ y.sem = x.sem + 1 ∧ y.ups = x.ups + 1 := by
  cases h with
  | ret => exact .inl (Place.pending_of_kernel hx)
  | _ => simp [Place.pending]

end

/-! ### A request and its caller -/

/-- The thread has no request. -/
def Caller.Free (c : Caller) : Prop := ∀ r, c ≠ .trigger r ∧ c ≠ .wait r

attribute [local simp] Caller.Free

lemma Req.returnTo_cases (x : Req) : x.returnTo = .outside ∨ x.returnTo = .halted ∨
      ∃ q, x.kind = .init q ∧ x.err = true ∧ x.returnTo = .initUnlink q := by
  unfold Req.returnTo
  cases hkind : x.kind with
  | init => cases herr : x.err <;> simp
  | _ => simp

lemma Req.returnTo_free (x : Req) : x.returnTo.Free := by
  rcases x.returnTo_cases with h | h | ⟨q, -, -, h⟩ <;> simp [h]

/-- A step, seen from the requests and their callers. -/
inductive CallStep (s : State) (a : Act) (s' : State) : Prop
  | quiet (hcallers : ∀ t, s'.callers t = s.callers t ∨ (s.callers t).Free ∧ (s'.callers t).Free)
      (hreqs : ∀ r, s'.reqs r = s.reqs r) (hnext : s'.nextReq = s.nextReq)
  | born (t : ThreadId) (k : Kind) (o : Option QueueId) (hbefore : s.callers t = .ready k o)
      (hafter : s'.callers t = .trigger s.nextReq)
      (hcallers : ∀ t', t' ≠ t → s'.callers t' = s.callers t')
      (hr : s'.reqs s.nextReq = Req.new t k o)
      (hreqs : ∀ r', r' ≠ s.nextReq → s'.reqs r' = s.reqs r') (hnext : s'.nextReq = s.nextReq + 1)
  | submit (t : ThreadId) (r : ReqId) (hbefore : s.callers t = .trigger r)
      (hafter : s'.callers t = .wait r)
      (hcallers : ∀ t', t' ≠ t → s'.callers t' = s.callers t') (hr : (s.reqs r).Step (s'.reqs r))
      (hplace : (s'.reqs r).place = .irq ∨ (s'.reqs r).place = .lost ∧ a = .caller t false)
      (hreqs : ∀ r', r' ≠ r → s'.reqs r' = s.reqs r') (hnext : s'.nextReq = s.nextReq)
  | kernel (r : ReqId) (hcallers : ∀ t, s'.callers t = s.callers t)
      (hkernel : (s.reqs r).place.kernel = true) (hr : (s.reqs r).Step (s'.reqs r))
      (hreqs : ∀ r', r' ≠ r → s'.reqs r' = s.reqs r') (hnext : s'.nextReq = s.nextReq)
  | ret (t : ThreadId) (r : ReqId) (hbefore : s.callers t = .wait r)
      (hafter : s'.callers t = (s.reqs r).returnTo)
      (hcallers : ∀ t', t' ≠ t → s'.callers t' = s.callers t') (hsem : 0 < (s.reqs r).sem)
      (hr : s'.reqs r = { s.reqs r with sem := (s.reqs r).sem - 1 })
      (hreqs : ∀ r', r' ≠ r → s'.reqs r' = s.reqs r') (hnext : s'.nextReq = s.nextReq)

/-- The requests and their callers know of each other. -/
structure Linked (s : State) : Prop where
  unborn : ∀ r, s.nextReq ≤ r ↔ (s.reqs r).place = .unborn
  trigger : ∀ t r, s.callers t = .trigger r ↔ (s.reqs r).thread = t ∧ (s.reqs r).place = .caller
  wait : ∀ t r, s.callers t = .wait r → (s.reqs r).thread = t ∧
    (s.reqs r).sem = (s.reqs r).ups ∧ ((s.reqs r).place.pending = true ∨ (s.reqs r).place = .done)
  pending : ∀ r, (s.reqs r).place.pending = true → s.callers (s.reqs r).thread = .wait r

section

variable {threadId : Bool} {s s' : State} {a : Act} {r : ReqId} {t : ThreadId}

lemma CallStep.of_setCaller {c : Caller} (hbefore : (s.callers t).Free) (hafter : c.Free)
    (hcallers : s'.callers = Function.update s.callers t c) (hreqs : s'.reqs = s.reqs)
    (hnext : s'.nextReq = s.nextReq) : CallStep s a s' := by
  refine .quiet (fun t' => ?_) (congrFun hreqs) hnext
  rcases eq_or_ne t' t with rfl | ht
  · exact .inr ⟨hbefore, by simpa [hcallers] using hafter⟩
  · exact .inl (by simp [hcallers, ht])

lemma CallStep.of_modifyReq {p : Place} {x : Req} (hr : (s.reqs r).place = p)
    (hp : p.kernel = true) (hx : (s.reqs r).Step x) (hcallers : s'.callers = s.callers)
    (hreqs : s'.reqs = Function.update s.reqs r x) (hnext : s'.nextReq = s.nextReq) :
    CallStep s a s' := by
  refine .kernel r (congrFun hcallers) (hr ▸ hp) ?_ (fun r' hr' => ?_) hnext
  · simpa [hreqs] using hx
  · simp [hreqs, hr']

lemma Step.callStep (h : Step threadId s a s') (hp : Placed s) (hl : Linked s) :
    CallStep s a s' := by
  cases h with
  | refuse | unlink _ | free _ => exact .quiet (fun _ => .inl rfl) (fun _ => rfl) rfl
  | enter ht _ _ | enterInit ht | newQueue ht | link ht | initUnlink ht | initFree ht =>
    exact .of_setCaller (by simp [ht]) (by simp) rfl rfl rfl
  | abort ht =>
    refine .of_setCaller ?_ (by simp) rfl rfl rfl
    rcases ht with ht | ⟨k, q, ht⟩ <;> simp [ht]
  | newReq ht =>
    refine .born _ _ _ ht ?_ (fun t' ht' => ?_) ?_ (fun r' hr' => ?_) rfl
    all_goals simp [SyscallQueue.newReq, *]
  | submit ht =>
    have hr := ((hl.trigger _ _).1 ht).2
    refine .submit _ _ ht ?_ (fun t' ht' => ?_) ?_ ?_ (fun r' hr' => ?_) rfl
    · simp
    · simp [recordSubmit, ht']
    · simpa [recordSubmit] using Req.Step.submit hr
    · exact .inl (by simp)
    · simp [recordSubmit, hr']
  | lose ht =>
    have hr := ((hl.trigger _ _).1 ht).2
    refine .submit _ _ ht ?_ (fun t' ht' => ?_) ?_ ?_ (fun r' hr' => ?_) rfl
    · simp [loseReq]
    · simp [loseReq, ht']
    · simpa [loseReq] using Req.Step.lose hr
    · exact .inr ⟨by simp [loseReq], rfl⟩
    · simp [loseReq, hr']
  | ret ht hsem =>
    refine .ret _ _ ht ?_ (fun t' ht' => ?_) hsem ?_ (fun r' hr' => ?_) rfl
    all_goals simp [returnReq, *]
  | dequeue _ hl =>
    have hr := hp.place_dataList (hl ▸ mem_cons_self)
    exact .of_modifyReq hr rfl (.dequeue hr) rfl rfl rfl
  | schedule hhand hq =>
    have hr := hp.place_hand hhand
    exact .of_modifyReq hr rfl (.schedule hr hq) rfl rfl rfl
  | enqueue hhand hq =>
    have hr := hp.place_hand hhand
    exact .of_modifyReq hr rfl (.enqueue hr hq) rfl rfl rfl
  | take _ hl =>
    have hr := hp.place_lh (hl ▸ mem_cons_self)
    exact .of_modifyReq hr rfl (.take hr) rfl rfl rfl
  | stop _ hl hk =>
    have hr := hp.place_lh (hl ▸ mem_cons_self)
    exact .of_modifyReq hr rfl (.stop hr hk) rfl rfl rfl
  | run hserver =>
    have hr := hp.place_taken hserver
    exact .of_modifyReq hr rfl (.run hr) rfl rfl rfl
  | @post q r hserver | @up q r hserver =>
    have hr : (s.reqs r).place = .ran q := hp.place_ran (by rw [hserver]; rfl)
    exact .of_modifyReq hr rfl (.post (.inl ⟨q, hr⟩)) rfl rfl rfl
  | workTake _ hl =>
    have hr := hp.place_work (hl ▸ mem_cons_self)
    exact .of_modifyReq hr rfl (.workTake hr) rfl rfl rfl
  | workRun hworker =>
    have hr := hp.place_workTaken hworker
    exact .of_modifyReq hr rfl (.workRun hr) rfl rfl rfl
  | workPost hworker =>
    have hr := hp.place_workRan hworker
    exact .of_modifyReq hr rfl (.post (.inr hr)) rfl rfl rfl

lemma Linked.next (h : Linked s) (hok : ∀ r, (s.reqs r).Ok) (hs : CallStep s a s') : Linked s' := by
  obtain ⟨hunborn, htrigger, hwait, hpending⟩ := h
  cases hs with
  | quiet =>
    -- A thread that moves has no request, so no request is waited for by it.
    refine ⟨?_, ?_, ?_, ?_⟩ <;> grind [Caller.Free]
  | born =>
    refine ⟨?_, ?_, ?_, ?_⟩ <;> grind [Place.pending, Req.new]
  | submit _ r _ _ _ hr hplace =>
    have hthread := hr.thread_eq
    have hpend : (s'.reqs r).place.pending = true := by
      rcases hplace with hplace | ⟨hplace, -⟩ <;> rw [hplace] <;> rfl
    have hcounts := (hr.ok (hok r)).counts_of_pending hpend
    refine ⟨?_, ?_, ?_, ?_⟩ <;> grind [Place.pending]
  | kernel r _ hkernel hr =>
    have hthread := hr.thread_eq
    -- The caller waits for `r`, since the kernel has it, and goes on waiting for it.
    have hbefore := Place.pending_of_kernel hkernel
    have hcounts' := (hr.ok (hok r)).counts_of_pending
    have hplace := hr.of_kernel hkernel
    refine ⟨?_, ?_, ?_, ?_⟩ <;> grind [Place.pending]
  | ret _ r _ _ _ hsem =>
    -- Only a request that is done has its semaphore posted, so none is left behind.
    have hfree := (s.reqs r).returnTo_free
    have hdone := (hok r).done_of_sem_pos hsem
    refine ⟨?_, ?_, ?_, ?_⟩ <;> grind [Place.pending, Caller.Free]

lemma CallStep.req_cases (h : CallStep s a s') (r : ReqId) :
    s'.reqs r = s.reqs r ∨ (s.reqs r).Step (s'.reqs r) ∨
      r = s.nextReq ∧ ∃ t k o, s.callers t = .ready k o ∧ s'.reqs r = Req.new t k o := by
  cases h with
  | quiet _ hreqs => exact .inl (hreqs r)
  | born t k o hbefore _ _ hr hreqs =>
    rcases eq_or_ne r s.nextReq with rfl | hne
    · exact .inr (.inr ⟨rfl, t, k, o, hbefore, hr⟩)
    · exact .inl (hreqs r hne)
  | submit _ r0 _ _ _ hr _ hreqs _ | kernel r0 _ _ hr hreqs _ =>
    rcases eq_or_ne r r0 with rfl | hne
    · exact .inr (.inl hr)
    · exact .inl (hreqs r hne)
  | ret _ r0 _ _ _ hsem hr hreqs =>
    rcases eq_or_ne r r0 with rfl | hne
    · exact .inr (.inl (hr ▸ .ret hsem))
    · exact .inl (hreqs r hne)

lemma CallStep.ok (h : CallStep s a s') (hok : ∀ r, (s.reqs r).Ok) (r : ReqId) :
    (s'.reqs r).Ok := by
  rcases h.req_cases r with heq | hstep | ⟨-, t, k, o, -, heq⟩
  · exact heq ▸ hok r
  · exact hstep.ok (hok r)
  · exact heq ▸ Req.new_ok

end
end LklPort.SyscallQueue
