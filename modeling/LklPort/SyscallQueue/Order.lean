import LklPort.SyscallQueue.Queues
import Mathlib.Data.List.Nodup

/-!
# The order of execution

`lkl_trigger_irq_with_data` adds at the tail of the data list, and `run_irqs` takes from its head.
`syscall_irq` then adds at the head of the list of the queue, from which `run_syscalls` takes, so
the list works as a stack. Requests are executed in the order of their submission as long as none
is put on a list that is not empty.
-/

namespace LklPort.SyscallQueue

open List

/-- `i` comes before `j`. -/
def Before (l : List ReqId) (i j : ReqId) : Prop := [i, j].Sublist l
  deriving Decidable

/-- A request that was submitted to a queue before another one is executed before it. -/
def OrderLaw (s : State) : Prop :=
  ∀ q i j, Before (s.queues q).submitted i j → j ∈ (s.queues q).executed →
    Before (s.queues q).executed i j

/-- The steps of a run in which `syscall_irq` finds the list of the queue empty. -/
def Drained (s : State) : Act → Prop
  | .irq => ∀ r ∈ s.hand, ∀ q ∈ (s.reqs r).queue, (s.queues q).lh = []
  | .enter _ _ | .caller _ _ | .server _ | .worker _ => True

instance decidableDrained (s : State) (a : Act) : Decidable (Drained s a) := by
  induction a using Act.casesOn <;> dsimp only [Drained] <;> infer_instance

/-! ### What a step does to the lists -/

/-- The requests between `lkl_trigger_irq_with_data` and `syscall_irq`, in their order. -/
def State.way (s : State) : List ReqId := s.hand.toList ++ s.irq.dataList

/-- Two queues with the same lists. -/
structure Queue.SameLists (x y : Queue) : Prop where
  lh : x.lh = y.lh
  submitted : x.submitted = y.submitted
  executed : x.executed = y.executed

/-- What a step does to the lists of the queue `q`. -/
inductive ListStep (s : State) (a : Act) (s' : State) (q : QueueId) : Prop
  | keep (hlists : (s'.queues q).SameLists (s.queues q)) (hway : s'.way = s.way)
  | submit (t : ThreadId) (r : ReqId) (ht : s.callers t = .trigger r)
      (hr : (s'.reqs r).place = .irq) (hway : s'.way = s.way ++ [r])
      (hlh : (s'.queues q).lh = (s.queues q).lh)
      (hexecuted : (s'.queues q).executed = (s.queues q).executed)
      (hsubmitted : (s'.queues q).submitted =
        (s.queues q).submitted ++ if (s.reqs r).queue = some q then [r] else [])
  | pass (r : ReqId) (hr : (s.reqs r).queue ≠ some q) (hway : s.way = r :: s'.way)
      (hlists : (s'.queues q).SameLists (s.queues q))
  | deliver (r : ReqId) (ha : a = .irq) (hhand : s.hand = some r)
      (hr : (s.reqs r).queue = some q) (hway : s.way = r :: s'.way)
      (hlh : (s'.queues q).lh = r :: (s.queues q).lh)
      (hexecuted : (s'.queues q).executed = (s.queues q).executed)
      (hsubmitted : (s'.queues q).submitted = (s.queues q).submitted)
  | take (r : ReqId) (hway : s'.way = s.way) (hlh : (s.queues q).lh = r :: (s'.queues q).lh)
      (hexecuted : (s'.queues q).executed = (s.queues q).executed ++ [r])
      (hsubmitted : (s'.queues q).submitted = (s.queues q).submitted)

section

variable {threadId : Bool} {s s' : State} {a : Act} {r : ReqId} {q : QueueId}

lemma ListStep.of_update {q0 : QueueId} {y : Queue} (h : s'.queues = Function.update s.queues q0 y)
    (hway : s'.way = s.way) (hy : y.SameLists (s.queues q0)) : ListStep s a s' q := by
  refine .keep ?_ hway
  rcases eq_or_ne q q0 with rfl | hq
  · simpa [h] using hy
  · simpa [h, hq] using ⟨rfl, rfl, rfl⟩

lemma ListStep.take_of_update {q0 : QueueId} {p : Place} {x : Server} {l : List ReqId}
    (hl : (s.queues q0).lh = r :: l) : ListStep s a (dequeueSyscall s q0 r p x) q := by
  rcases eq_or_ne q q0 with rfl | hq
  · refine .take r rfl ?_ ?_ ?_ <;> simp [dequeueSyscall, hl]
  · refine .keep ?_ rfl
    constructor <;> simp [dequeueSyscall, hq]

lemma Inv.listStep (h : Inv s) (hs : Step threadId s a s') (q : QueueId) : ListStep s a s' q := by
  cases hs with
  | newQueue =>
    refine .of_update rfl rfl ?_
    rw [h.named.fresh _ (Nat.le_refl _)]
    exact ⟨rfl, rfl, rfl⟩
  | @submit t r ht =>
    refine .submit t r ht ?_ ?_ rfl rfl rfl
    · simp [triggerIrqWithData]
    · simp [State.way, triggerIrqWithData, recordSubmit, Irq.IrqInfo.triggerWithData]
  | initFree _ | run _ | post _ | unlink _ | up _ => exact .of_update rfl rfl ⟨rfl, rfl, rfl⟩
  | dequeue hhand hl =>
    refine .keep ⟨rfl, rfl, rfl⟩ ?_
    simp [State.way, dequeueData, Irq.IrqInfo.dequeueData, hhand, hl]
  | @schedule r hhand hr =>
    refine .pass r (by simp [hr]) ?_ ⟨rfl, rfl, rfl⟩
    simp [State.way, scheduleWork, hhand]
  | @enqueue r q0 hhand hr =>
    have hway : s.way = r :: (listAdd s q0 r).way := by
      simp [State.way, listAdd, hhand]
    rcases eq_or_ne q q0 with rfl | hq
    · refine .deliver r rfl hhand hr hway ?_ ?_ ?_ <;> simp [listAdd]
    · refine .pass r (by simp [hr, hq.symm]) hway ?_
      constructor <;> simp [listAdd, hq]
  | take _ hl _ | stop _ hl _ => exact .take_of_update hl
  | free => exact .of_update (Function.update_idem _ _ _) rfl (by
      constructor <;> simp [freeSyscallQueue])
  | @workRun started r =>
    rcases startServer_cases s (s.reqs r).kind started with ⟨q0, -, -, heq⟩ | heq
    · exact .of_update heq rfl ⟨rfl, rfl, rfl⟩
    · exact .keep (by rw [heq]; exact ⟨rfl, rfl, rfl⟩) rfl
  | _ => exact .keep ⟨rfl, rfl, rfl⟩ rfl

/-! ### Submitted requests -/

/-- A request is submitted once, when its caller enqueues it. -/
structure Recorded (s : State) : Prop where
  nodup : ∀ q, (s.queues q).submitted.Nodup
  late : ∀ q, ∀ r ∈ (s.queues q).submitted, (s.reqs r).place ≠ .unborn ∧ (s.reqs r).place ≠ .caller

lemma Req.Step.late {x y : Req} (h : x.Step y)
    (hx : x.place ≠ .unborn ∧ x.place ≠ .caller) : y.place ≠ .unborn ∧ y.place ≠ .caller := by
  cases h with
  | ret => exact hx
  | _ => simp

lemma Inv.late_next (h : Inv s) (hs : Step threadId s a s')
    (hr : (s.reqs r).place ≠ .unborn ∧ (s.reqs r).place ≠ .caller) :
    (s'.reqs r).place ≠ .unborn ∧ (s'.reqs r).place ≠ .caller := by
  rcases (hs.callStep h.placed h.linked).req_cases r with heq | hstep | ⟨rfl, -⟩
  · exact heq ▸ hr
  · exact hstep.late hr
  · exact absurd ((h.linked.unborn _).1 (Nat.le_refl _)) hr.1

lemma Inv.recorded_next (h : Inv s) (hs : Step threadId s a s') (hrec : Recorded s) :
    Recorded s' := by
  have hkeep : ∀ q, (s'.queues q).submitted = (s.queues q).submitted →
      (s'.queues q).submitted.Nodup ∧ ∀ r ∈ (s'.queues q).submitted,
        (s'.reqs r).place ≠ .unborn ∧ (s'.reqs r).place ≠ .caller := by
    intro q heq
    rw [heq]
    exact ⟨hrec.nodup q, fun r hr => h.late_next hs (hrec.late q r hr)⟩
  suffices hall : ∀ q, (s'.queues q).submitted.Nodup ∧ ∀ r ∈ (s'.queues q).submitted,
      (s'.reqs r).place ≠ .unborn ∧ (s'.reqs r).place ≠ .caller from
    ⟨fun q => (hall q).1, fun q => (hall q).2⟩
  intro q
  cases h.listStep hs q with
  | keep hlists | pass _ _ _ hlists => exact hkeep q hlists.submitted
  | submit t r ht hr _ _ _ hsubmitted =>
    have hcaller := ((h.linked.trigger t r).1 ht).2
    have hnew : r ∉ (s.queues q).submitted := fun hmem => (hrec.late q r hmem).2 hcaller
    split_ifs at hsubmitted
    · rw [hsubmitted]
      refine ⟨?_, fun i hi => ?_⟩
      · exact concat_eq_append ▸ (hrec.nodup q).concat hnew
      · rcases List.mem_append.1 hi with hi | hi
        · exact h.late_next hs (hrec.late q i hi)
        · obtain rfl := List.mem_singleton.1 hi
          simp [hr]
    · exact hkeep q (by simpa using hsubmitted)
  | deliver _ _ _ _ _ _ _ hsubmitted | take _ _ _ _ hsubmitted => exact hkeep q hsubmitted

lemma recorded_of_reachable (h : (machine threadId).Reachable s) : Recorded s := by
  refine h.invariant_of (fun _ => inv_of_reachable) ?_
    fun s a hinv hrec ha => hinv.recorded_next (step_of_guard ha) hrec
  constructor <;> simp [machine, State.init]

/-! ### Executed requests -/

/-- The requests on their way to `q`. -/
def State.flight (s : State) (q : QueueId) : List ReqId :=
  s.way.filter fun r => (s.reqs r).queue = some q

/-- What was submitted to `q` was executed, or is on the list, or is on its way, in this order. -/
def InOrder (s : State) (q : QueueId) : Prop :=
  (s.queues q).executed ++ (s.queues q).lh ++ s.flight q = (s.queues q).submitted

lemma Inv.pending_of_way (h : Inv s) (hr : r ∈ s.way) : (s.reqs r).place.pending = true := by
  rcases List.mem_append.1 hr with hr | hr
  · rw [h.placed.place_hand (by simpa using hr)]
    rfl
  · rw [h.placed.place_dataList hr]
    rfl

section

variable (h : Inv s) (hs : Step threadId s a s')

include h hs

lemma Inv.queue_eq_of_way (hr : r ∈ s.way) : (s'.reqs r).queue = (s.reqs r).queue := by
  have hplace := h.pending_of_way hr
  exact (h.req_eq hs (by rintro heq; simp [heq, Place.pending] at hplace)).2

lemma Inv.filter_way (q : QueueId) :
    (s.way.filter fun r => (s'.reqs r).queue = some q) = s.flight q := by
  refine filter_congr fun r hr => ?_
  rw [h.queue_eq_of_way hs hr]

lemma Inv.inOrder_next (ha : Drained s a) (horder : InOrder s q) : InOrder s' q := by
  have hfilter := h.filter_way hs q
  unfold InOrder at horder ⊢
  cases h.listStep hs q with
  | keep hlists hway =>
    rw [hlists.executed, hlists.lh, hlists.submitted, State.flight, hway, hfilter, horder]
  | submit t r ht _ hway hlh hexecuted hsubmitted =>
    have hr' : (s'.reqs r).queue = (s.reqs r).queue :=
      (h.req_eq hs (by simp [((h.linked.trigger t r).1 ht).2])).2
    rw [hexecuted, hlh, hsubmitted, State.flight, hway, filter_append, hfilter, ← horder]
    by_cases hq : (s.reqs r).queue = some q <;> simp [hr', hq]
  | pass r hr hway hlists =>
    have hr' : (s'.reqs r).queue = (s.reqs r).queue :=
      h.queue_eq_of_way hs (by simp [hway])
    rw [hway, filter_cons_of_neg (by simpa [hr'] using hr)] at hfilter
    rw [hlists.executed, hlists.lh, hlists.submitted, State.flight, hfilter, horder]
  | deliver r hact hhand hr hway hlh hexecuted hsubmitted =>
    subst hact
    have hr' : (s'.reqs r).queue = (s.reqs r).queue :=
      h.queue_eq_of_way hs (by simp [hway])
    have hempty : (s.queues q).lh = [] := ha r hhand q hr
    rw [hway, filter_cons_of_pos (by simp [hr', hr])] at hfilter
    rw [hexecuted, hsubmitted, hlh, ← horder, ← hfilter, hempty, State.flight]
    simp
  | take _ hway hlh hexecuted hsubmitted =>
    rw [hexecuted, hsubmitted, State.flight, hway, hfilter, ← horder, hlh]
    simp

end

lemma inOrder_of_reachable (h : ((machine threadId).restrict Drained).Reachable s)
    (q : QueueId) : InOrder s q := by
  refine h.invariant_of (fun _ h => inv_of_reachable h.of_restrict) ?_
    (fun s a hinv horder ha => hinv.inOrder_next (step_of_guard ha.1) ha.2 horder)
  rfl

lemma Before.of_append {l l' : List ReqId} {i j : ReqId} (hnodup : (l ++ l').Nodup)
    (h : Before (l ++ l') i j) (hj : j ∈ l) : Before l i j := by
  obtain ⟨l1, l2, heq, h1, h2⟩ := List.sublist_append_iff.1 h
  have hj' : j ∉ l2 := fun hmem => disjoint_of_nodup_append hnodup hj (h2.subset hmem)
  rcases l1 with _ | ⟨a, _ | ⟨b, l1⟩⟩
  · obtain rfl : [i, j] = l2 := heq
    simp at hj'
  · obtain ⟨-, rfl⟩ : i = a ∧ [j] = l2 := by simpa using heq
    simp at hj'
  · simp only [cons_append, List.cons.injEq, nil_eq, append_eq_nil_iff] at heq
    obtain ⟨rfl, rfl, rfl, -⟩ := heq
    exact h1

/-- Requests are executed in the order of their submission in a run where `syscall_irq` finds the
list of the queue empty each time. -/
theorem executed_in_order (h : ((machine threadId).restrict Drained).Reachable s) : OrderLaw s := by
  intro q i j hij hj
  have horder : InOrder s q := inOrder_of_reachable h q
  have hnodup := (recorded_of_reachable h.of_restrict).nodup q
  rw [← horder, append_assoc] at hij hnodup
  exact hij.of_append hnodup hj

end

/-- The threads 1 and 2 make a system call each, one after the other. -/
def turnRun : List Act :=
  [.enter 1 .sys, .caller 1 true, .caller 1 true, .irq, .irq, .server 0, .server 0, .server 0,
    .enter 2 .sys, .caller 2 true, .caller 2 true, .irq, .irq, .server 0]

def turnState : State := (machine false).runFrom .init turnRun

theorem executed_in_order_turnRun :
    (turnState.queues defaultQueue).executed = [0, 1] ∧ OrderLaw turnState :=
  ⟨by decide, executed_in_order (Machine.reachable_of_admits turnRun (by decide))⟩

/-- The idle thread moves both requests before the server runs. -/
def overtakeRun : List Act :=
  [.enter 1 .sys, .enter 2 .sys, .caller 1 true, .caller 1 true, .caller 2 true, .caller 2 true,
    .irq, .irq, .irq, .irq, .server 0]

/-- The request of the thread 2 is executed, and that of the thread 1, which was submitted before
it, is not. -/
theorem not_orderLaw_overtakeRun : ¬ ∀ s, (machine false).Reachable s → OrderLaw s := by
  intro h
  have hlaw := h _ (Machine.reachable_of_admits overtakeRun (by decide)) defaultQueue 0 1
    (by decide) (by decide)
  exact absurd hlaw (by decide)

end LklPort.SyscallQueue
