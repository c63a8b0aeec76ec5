import LklPort.SyscallQueue.HashTable

/-!
# Which queue a thread is routed to

`lkl_syscall_thread_init` registers a queue for the calling thread and
`lkl_syscall_thread_cleanup` has it deleted. The history below records what the two calls have
returned to each thread, and what the hash table would be if the last `lkl_syscall_thread_init` of
a thread had not touched it. A thread is routed to a queue of its own as long as it is registered,
unless `sem_alloc` fails inside `lkl_syscall_thread_init`: the macro `SYSCALL_VIA_QUEUE` then
returns from the function with the queue left in the hash table.
-/

namespace LklPort.SyscallQueue

attribute [local simp] callerStep Req.returnTo

/-! ### What the calls return -/

/-- The results of `lkl_syscall_thread_init` and `lkl_syscall_thread_cleanup`. -/
inductive Ret where
  | zero
  | ebusy
  | einval
  | enomem
  /-- The error of `kernel_thread`. -/
  | kernelThread
  deriving DecidableEq

/-- The call that returns in this step, with its thread and its result. -/
def returns (s : State) : Act → Option (ThreadId × Api × Ret)
  | .enter t .init =>
    if getSyscallQueue s t ≠ defaultQueue then some (t, .init, .ebusy) else none
  | .enter t .cleanup =>
    if getSyscallQueue s t = defaultQueue then some (t, .cleanup, .einval) else none
  | .caller t alloc =>
    match s.callers t, alloc with
    | .initNew, false | .ready (.init _) _, false => some (t, .init, .enomem)
    | .ready .cleanup _, false => some (t, .cleanup, .enomem)
    | .initFree _, _ => some (t, .init, .kernelThread)
    | .wait r, _ =>
      match (s.reqs r).kind with
      | .init _ => if (s.reqs r).err then none else some (t, .init, .zero)
      | .cleanup => some (t, .cleanup, .zero)
      | .sys | .halt => none
    | _, _ => none
  | .enter _ _ | .irq | .server _ | .worker _ => none

/-- From the results of a thread, the latest first: its last `lkl_syscall_thread_init` returned 0,
or `-EBUSY` as the one before it did, and no `lkl_syscall_thread_cleanup` has returned 0 since. -/
def Registered : List (Api × Ret) → Prop
  | [] => False
  | (.init, e) :: _ => e = .zero ∨ e = .ebusy
  | (.cleanup, e) :: log => e ≠ .zero ∧ Registered log
  | (_, _) :: log => Registered log

/-! ### The history of a run -/

/-- What has happened in a run. -/
structure History where
  /-- The results of each thread, the latest first. -/
  log : ThreadId → List (Api × Ret)
  /-- The hash table that the last `lkl_syscall_thread_init` of a thread has found, with what was
  done since for other threads. -/
  before : ThreadId → Table

def History.init : History where
  log := fun _ => []
  before := fun _ => State.init.buckets

/-- What a step adds to the history. -/
def note (s : State) (a : Act) (h : History) : History where
  log := fun t =>
    match returns s a with
    | some (t', x) => if t' = t then x :: h.log t else h.log t
    | none => h.log t
  before := fun t =>
    if a = .enter t .init then s.buckets
    else
      match tableStep s a with
      | some (t', f) => if t' = t then h.before t else f (h.before t)
      | none => h.before t

/-! ### The law -/

/-- `q` is a queue of the thread `t` that is in use. -/
def OwnQueue (s : State) (t : ThreadId) (q : QueueId) : Prop :=
  q ≠ defaultQueue ∧ (s.queues q).thread = t ∧ (s.queues q).freed = false

/-- The last call of a thread was an `lkl_syscall_thread_init` that has returned an error. -/
def InitFailed : List (Api × Ret) → Prop
  | (.init, e) :: _ => e ≠ .zero
  | _ => False

/-- `get_syscall_queue` finds the queue of a thread exactly as long as it is registered, and an
`lkl_syscall_thread_init` that fails leaves the hash table as it was. -/
structure RoutingLaw (s : State) (h : History) (t : ThreadId) : Prop where
  own : s.callers t = .outside → Registered (h.log t) → OwnQueue s t (getSyscallQueue s t)
  default : s.callers t = .outside → ¬ Registered (h.log t) → getSyscallQueue s t = defaultQueue
  restored : s.callers t = .outside → InitFailed (h.log t) → s.buckets = h.before t

/-- The step is a `sem_alloc` that fails in `lkl_syscall_thread_init`, after the queue was put into
the hash table. -/
def semFails (s : State) : Act → Bool
  | .caller t false =>
    match s.callers t with
    | .ready (.init _) _ => true
    | _ => false
  | _ => false

/-! ### The stages of a thread -/

/-- How far a thread is with a call that concerns its registration. -/
inductive Stage where
  /-- No such call is under way. -/
  | idle
  /-- In `lkl_syscall_thread_init`, with no queue in the hash table. -/
  | bare
  /-- In `lkl_syscall_thread_init`, with the queue `q` in the hash table. -/
  | held (q : QueueId)
  /-- In `lkl_syscall_thread_cleanup` for the queue `q`. -/
  | leaving (q : QueueId)

def Kind.stage : Kind → Option QueueId → Stage
  | .init q, _ => .held q
  | .cleanup, some q => .leaving q
  | .cleanup, none | .sys, _ | .halt, _ => .idle

attribute [local simp] Kind.stage

def State.stage (s : State) (t : ThreadId) : Stage :=
  match s.callers t with
  | .outside | .halted => .idle
  | .initNew | .initLink _ | .initFree _ => .bare
  | .initUnlink q => .held q
  | .ready k o => k.stage o
  | .trigger r | .wait r => (s.reqs r).kind.stage (s.reqs r).queue

/-- What is known at a stage of the results of the thread, of its queues in the hash table, and of
the table that its `lkl_syscall_thread_init` has found. -/
def Stage.Routed (s : State) (h : History) (t : ThreadId) : Stage → Prop
  | .idle => (Registered (h.log t) ↔ ∃ q, Entry s t q) ∧
      (InitFailed (h.log t) → h.before t = s.buckets)
  | .bare => ¬ Registered (h.log t) ∧ (∀ q, ¬ Entry s t q) ∧ h.before t = s.buckets
  | .held q => ¬ Registered (h.log t) ∧ Entry s t q ∧ h.before t = Table.unlink q s.buckets
  | .leaving q => Registered (h.log t) ∧ (∀ q', Entry s t q' → q' = q) ∧
      (Entry s t q ∨ (∃ r, s.callers t = .wait r) ∧ (s.queues q).server.unlinked = true)

structure Routed (s : State) (h : History) (t : ThreadId) : Prop where
  unique : ∀ q q', Entry s t q → Entry s t q' → q = q'
  stage : (s.stage t).Routed s h t

/-- The thread that takes the step. -/
def Act.thread : Act → Option ThreadId
  | .enter t _ | .caller t _ => some t
  | .irq | .server _ | .worker _ => none

variable {alloc : Bool}

section

variable {threadId : Bool} {s s' : State} {h : History} {a : Act} {r : ReqId} {q : QueueId}
variable {t : ThreadId}

lemma Step.callers_eq (hs : Step threadId s a s') (ha : a.thread ≠ some t) :
    s'.callers t = s.callers t := by
  have hset : ∀ {t' : ThreadId} {c : Caller}, t' ≠ t → s'.callers = Function.update s.callers t' c →
      s'.callers t = s.callers t := fun hne heq => by rw [heq, Function.update_of_ne hne.symm]
  cases hs <;> first | rfl | exact hset (by rintro rfl; exact ha rfl) rfl

lemma returns_thread {x : Api × Ret} (hret : returns s a = some (t, x)) : a.thread = some t := by
  unfold returns at hret
  split at hret <;> grind [Act.thread]

lemma note_log (ha : a.thread ≠ some t) : (note s a h).log t = h.log t := by
  simp only [note]
  split
  next t' x hret =>
    have hne : t' ≠ t := by
      rintro rfl
      exact ha (returns_thread hret)
    rw [if_neg hne]
  next => rfl

lemma Inv.stage_eq (hinv : Inv s) (hs : Step threadId s a s')
    (hcaller : s'.callers t = s.callers t) : s'.stage t = s.stage t := by
  unfold State.stage
  rw [hcaller]
  cases hc : s.callers t with
  | trigger r =>
    have hplace := ((hinv.linked.trigger t r).1 hc).2
    obtain ⟨hkind, hqueue⟩ := hinv.req_eq hs (r := r) (by simp [hplace])
    simp only [hkind, hqueue]
  | wait r =>
    have hplace : (s.reqs r).place ≠ .unborn := by
      intro hplace
      simpa [hplace, Place.pending] using (hinv.linked.wait t r hc).2.2
    obtain ⟨hkind, hqueue⟩ := hinv.req_eq hs hplace
    simp only [hkind, hqueue]
  | _ => rfl

lemma Table.unlink_comm {q q' : QueueId} {tab : Table} :
    Table.unlink q (Table.unlink q' tab) = Table.unlink q' (Table.unlink q tab) := by
  funext b
  simp only [Table.unlink, List.filter_filter, Bool.and_comm]

lemma Table.unlink_link_of_ne {t : ThreadId} {q q' : QueueId} {tab : Table} (hq : q ≠ q') :
    Table.unlink q (Table.link t q' tab) = Table.link t q' (Table.unlink q tab) := by
  funext b
  rcases eq_or_ne b (syscallQueueHashHead t) with rfl | hb
  · simp [Table.unlink, Table.link, hq.symm]
  · simp [Table.unlink, Table.link, hb]

lemma Inv.before_next (hinv : Inv s) (hs : Step threadId s a s') (ha : a.thread ≠ some t)
    (htable : ∀ f, tableStep s a ≠ some (t, f)) :
    (h.before t = s.buckets → (note s a h).before t = s'.buckets) ∧
      (Entry s t q → h.before t = Table.unlink q s.buckets →
        (note s a h).before t = Table.unlink q s'.buckets) := by
  have henter : a ≠ .enter t .init := by
    rintro rfl
    exact ha rfl
  simp only [note, if_neg henter]
  cases hs.tableStep with
  | quiet hstep hbuckets =>
    rw [hstep, hbuckets]
    exact ⟨id, fun _ => id⟩
  | link t' q' ht' hstep hbuckets =>
    have hne : t' ≠ t := by
      rintro rfl
      exact htable _ hstep
    simp only [hstep, if_neg hne, hbuckets]
    refine ⟨fun hb => by rw [hb], fun hq hb => ?_⟩
    have hq' : q ≠ q' := by
      rintro rfl
      exact hne ((hinv.owned_of_initLink ht').thread.symm.trans hq.2)
    rw [hb, Table.unlink_link_of_ne hq']
  | unlink t' _ _ hstep hbuckets =>
    have hne : t' ≠ t := by
      rintro rfl
      exact htable _ hstep
    simp only [hstep, if_neg hne, hbuckets]
    exact ⟨fun hb => by rw [hb], fun hq hb => by rw [hb, Table.unlink_comm]⟩

lemma Routed.frame (hr : Routed s h t) (hinv : Inv s) (hs : Step threadId s a s')
    (ha : a.thread ≠ some t) (htable : ∀ f, tableStep s a ≠ some (t, f)) :
    Routed s' (note s a h) t := by
  have hentry : ∀ q, Entry s' t q ↔ Entry s t q := fun q => hinv.entry_iff hs htable
  have hcaller := hs.callers_eq ha
  have hstage := hr.stage
  refine ⟨fun q q' hq hq' => hr.unique q q' ((hentry q).1 hq) ((hentry q').1 hq'), ?_⟩
  rw [hinv.stage_eq hs hcaller]
  generalize s.stage t = stage at hstage ⊢
  cases stage <;> simp only [Stage.Routed, note_log ha, hentry, hcaller]
  · exact ⟨hstage.1, fun hfail => (hinv.before_next (q := 0) hs ha htable).1 (hstage.2 hfail)⟩
  · exact ⟨hstage.1, hstage.2.1, (hinv.before_next (q := 0) hs ha htable).1 hstage.2.2⟩
  · exact ⟨hstage.1, hstage.2.1, (hinv.before_next hs ha htable).2 hstage.2.1 hstage.2.2⟩
  · refine ⟨hstage.1, hstage.2.1, hstage.2.2.imp_right fun hleft => ?_⟩
    exact ⟨hleft.1, hinv.unlinked_mono hs hleft.2⟩

/-! ### The calls of a thread -/

/-- The thread is routed after the step. -/
abbrev RoutedNext (s : State) (h : History) (t : ThreadId) (a : Act) : Prop :=
  Routed (next true s a) (note s a h) t

lemma Inv.quiet (hinv : Inv s) (hs : Step threadId s a s') (htable : tableStep s a = none) :
    (∀ q, Entry s' t q ↔ Entry s t q) ∧ s'.buckets = s.buckets := by
  refine ⟨fun q => hinv.entry_iff hs (by simp [htable]), ?_⟩
  cases hs.tableStep with
  | quiet _ hbuckets => exact hbuckets
  | link _ _ _ hstep | unlink _ _ _ hstep => simp [htable] at hstep

section

variable (hr : Routed s h t)

include hr

namespace Routed

lemma stage_of {stage : Stage} (hst : s.stage t = stage) : stage.Routed s h t := hst ▸ hr.stage

lemma keep (hinv : Inv s) (hs : Step threadId s a s')
    (ha : a ≠ .enter t .init) (htable : tableStep s a = none) (hlog : (note s a h).log t = h.log t)
    (hstage : s'.stage t = s.stage t)
    (hwait : ∀ q r, s.stage t = .leaving q → s.callers t ≠ .wait r) : Routed s' (note s a h) t := by
  obtain ⟨hentry, hbuckets⟩ := hinv.quiet (t := t) hs htable
  have hbefore : (note s a h).before t = h.before t := by simp [note, ha, htable]
  have hrouted := hr.stage
  refine ⟨by simpa only [hentry] using hr.unique, ?_⟩
  rw [hstage]
  cases hst : s.stage t with
  | leaving q =>
    obtain ⟨hreg, hle, hq | ⟨⟨r, hr⟩, -⟩⟩ : Stage.Routed s h t (.leaving q) := hst ▸ hrouted
    · simp only [Stage.Routed, hentry, hlog]
      exact ⟨hreg, hle, .inl hq⟩
    · exact absurd hr (hwait q r hst)
  | _ => simpa [hst, Stage.Routed, hentry, hlog, hbefore, hbuckets] using hrouted

lemma finish (api : Api) (e : Ret) (hinv : Inv s)
    (hs : Step threadId s a s') (htable : tableStep s a = none) (hstage : s'.stage t = .idle)
    (hret : returns s a = some (t, api, e))
    (hreg : Registered ((api, e) :: h.log t) ↔ ∃ q, Entry s t q)
    (hfail : api = .init → e ≠ .zero → a = .enter t .init ∨ h.before t = s.buckets) :
    Routed s' (note s a h) t := by
  obtain ⟨hentry, hbuckets⟩ := hinv.quiet (t := t) hs htable
  have hlog : (note s a h).log t = (api, e) :: h.log t := by simp [note, hret]
  refine ⟨by simpa only [hentry] using hr.unique, ?_⟩
  rw [hstage]
  simp only [Stage.Routed, hlog, hentry, hbuckets]
  refine ⟨hreg, fun hinit => ?_⟩
  obtain ⟨rfl, he⟩ : api = .init ∧ e ≠ .zero := by
    cases api <;> simp_all [InitFailed]
  by_cases ha : a = .enter t .init
  · simp [note, ha]
  · simpa [note, ha, htable] using (hfail rfl he).resolve_left ha

section

variable (hinv : Inv s)

include hinv

lemma enter {api : Api} (hsuited : Suited s) (ht : t ≠ 0) (ha : guard true s (.enter t api)) :
    RoutedNext s h t (.enter t api) := by
  have hs := step_of_guard ha
  have hstage : s.stage t = .idle := by rw [State.stage, ha.1]
  have hidle : Registered (h.log t) ↔ ∃ q, Entry s t q := (hr.stage_of hstage).1
  obtain ⟨hentry, hbuckets⟩ := hinv.quiet (t := t) hs rfl
  have hget := hsuited.getSyscallQueue_eq_default ht
  cases api with
  | sys | halt =>
    refine hr.keep hinv hs (by simp) rfl rfl ?_ (by simp [hstage])
    simp [next, SyscallQueue.enter, State.stage, ha.1]
  | init =>
    by_cases hq : getSyscallQueue s t = defaultQueue
    · -- The call goes on, and it has found the hash table without a queue of its thread.
      have hnone := hget.1 hq
      have hstage' : (next true s (.enter t .init)).stage t = .bare := by
        simp [next, SyscallQueue.enter, hq, State.stage]
      refine ⟨by simpa only [hentry] using hr.unique, ?_⟩
      rw [hstage']
      refine ⟨?_, fun q => by rw [hentry]; exact hnone q, ?_⟩
      · simpa [note, returns, hq, hnone] using hidle
      · simp [note, hbuckets]
    · refine hr.finish .init .ebusy hinv hs rfl (by simp [next, SyscallQueue.enter, hq, hstage])
        (by simp [returns, hq]) ?_ fun _ _ => .inl rfl
      exact ⟨fun _ => ⟨_, entry_of_getSyscallQueue hq⟩, fun _ => .inr rfl⟩
  | cleanup =>
    by_cases hq : getSyscallQueue s t = defaultQueue
    · refine hr.finish .cleanup .einval hinv hs rfl
        (by simp [next, SyscallQueue.enter, obtains, hq, hstage]) (by simp [returns, hq]) ?_
        (by simp)
      simpa [Registered] using hidle
    · have hown := (hentry _).2 (entry_of_getSyscallQueue hq)
      have hunique := hr.unique
      simp only [← hentry] at hunique
      have hstage' : (next true s (.enter t .cleanup)).stage t =
          .leaving (getSyscallQueue s t) := by
        simp [next, SyscallQueue.enter, obtains, hq, State.stage]
      refine ⟨hunique, ?_⟩
      rw [hstage']
      refine ⟨?_, fun q' hq' => hunique q' _ hq' hown, .inl hown⟩
      simpa [note, returns, hq] using hidle.2 ⟨_, entry_of_getSyscallQueue hq⟩

section

variable (ha : guard true s (.caller t alloc))

include ha

lemma initNew (hc : s.callers t = .initNew) : RoutedNext s h t (.caller t alloc) := by
  have htable : tableStep s (.caller t alloc) = none := by simp [tableStep, hc]
  have hbare : s.stage t = .bare := by rw [State.stage, hc]
  have hstage := hr.stage_of hbare
  cases alloc with
  | false =>
    refine hr.finish .init .enomem hinv (step_of_guard ha) htable ?_ (by simp [returns, hc]) ?_
      fun _ _ => .inr hstage.2.2
    · simp [next, hc, State.stage]
    · simp [Registered, hstage.2.1]
  | true =>
    refine hr.keep hinv (step_of_guard ha) (by simp) htable (by simp [note, returns, hc]) ?_
      (by simp [hbare])
    simp [next, hc, newSyscallQueue, State.stage]

lemma initLink (hc : s.callers t = .initLink q) : RoutedNext s h t (.caller t alloc) := by
  obtain ⟨hlog, hnone, htab⟩ := hr.stage_of (show s.stage t = .bare by rw [State.stage, hc])
  have howned := hinv.owned_of_initLink hc
  have hout : ∀ b, q ∉ s.buckets b := fun b hb => hnone q ⟨⟨b, hb⟩, howned.thread⟩
  have hbuckets : (next true s (.caller t alloc)).buckets = Table.link t q s.buckets := by
    simp only [next, callerStep, hc]
    rfl
  have hthread : ((next true s (.caller t alloc)).queues q).thread = t :=
    ((step_of_guard ha).thread_eq howned.lt).trans howned.thread
  have hentry : ∀ q', Entry (next true s (.caller t alloc)) t q' → q' = q := by
    rintro q' ⟨⟨b, hb⟩, ht'⟩
    rcases Table.mem_link.1 (hbuckets ▸ hb) with ⟨-, hq⟩ | hb
    · exact hq
    · exact absurd ⟨⟨b, hb⟩, (hinv.thread_next (step_of_guard ha) hb).symm.trans ht'⟩ (hnone q')
  refine ⟨fun q1 q2 h₁ h2 => (hentry q1 h₁).trans (hentry q2 h2).symm, ?_⟩
  rw [show (next true s (.caller t alloc)).stage t = .held q by
    simp [next, hc, linkSyscallQueue, State.stage]]
  refine ⟨by simpa [note, returns, hc] using hlog, ⟨⟨syscallQueueHashHead t, ?_⟩, hthread⟩, ?_⟩
  · rw [hbuckets]
    exact Table.mem_link.2 (.inl ⟨rfl, rfl⟩)
  · rw [hbuckets, Table.unlink_link hout, ← htab]
    simp [note, tableStep, hc]

lemma ready {k : Kind} {o : Option QueueId} (hsuited : Suited s) (hc : s.callers t = .ready k o)
    (hsem : semFails s (.caller t alloc) = false) : RoutedNext s h t (.caller t alloc) := by
  have htable : tableStep s (.caller t alloc) = none := by simp [tableStep, hc]
  have hst : s.stage t = k.stage o := by rw [State.stage, hc]
  cases alloc with
  | true =>
    refine hr.keep hinv (step_of_guard ha) (by simp) htable (by simp [note, returns, hc]) ?_
      (by simp [hc])
    simp [next, hc, newReq, State.stage]
  | false =>
    have hidle : (next true s (.caller t false)).stage t = .idle := by
      simp [next, hc, State.stage]
    cases k with
    | init => simp [semFails, hc] at hsem
    | cleanup =>
      -- The `lkl_syscall_thread_cleanup` fails, and its queue is still there.
      obtain ⟨q, rfl, -⟩ := hsuited.ready t _ o hc
      obtain ⟨hlog, -, hq | ⟨⟨r, hwait⟩, -⟩⟩ := hr.stage_of hst
      · refine hr.finish .cleanup .enomem hinv (step_of_guard ha) htable hidle
          (by simp [returns, hc]) ?_ (by simp)
        exact ⟨fun _ => ⟨q, hq⟩, fun _ => ⟨by simp, hlog⟩⟩
      · simp [hc] at hwait
    | sys | halt =>
      exact hr.keep hinv (step_of_guard ha) (by simp) htable (by simp [note, returns, hc])
        (by rw [hidle, hst]; rfl) (by simp [hc])

lemma trigger (hc : s.callers t = .trigger r) : RoutedNext s h t (.caller t alloc) := by
  refine hr.keep hinv (step_of_guard ha) (by simp) (by simp [tableStep, hc])
    (by simp [note, returns, hc]) ?_ (by simp [hc])
  have hreq := hinv.req_eq (step_of_guard ha) (r := r)
    (by simp [((hinv.linked.trigger t r).1 hc).2])
  have hc' : (next true s (.caller t alloc)).callers t = .wait r := by
    cases alloc <;> simp [next, hc, triggerIrqWithData, loseReq]
  simp only [State.stage, hc, hc', hreq]

lemma wait (hsuited : Suited s) (hc : s.callers t = .wait r) :
    RoutedNext s h t (.caller t alloc) := by
  have hs := step_of_guard ha
  have htable : tableStep s (.caller t alloc) = none := by simp [tableStep, hc]
  have hst : s.stage t = (s.reqs r).kind.stage (s.reqs r).queue := by rw [State.stage, hc]
  have hcaller : (next true s (.caller t alloc)).callers t = (s.reqs r).returnTo := by
    simp [next, hc, returnReq]
  cases hkind : (s.reqs r).kind with
  | sys | halt =>
    exact hr.keep hinv hs (by simp) htable (by simp [note, returns, hc, hkind])
      (by rw [hst]; simp [State.stage, hcaller, hkind])
      (by simp [hst, hkind])
  | init q =>
    cases herr : (s.reqs r).err with
    | true =>
      exact hr.keep hinv hs (by simp) htable (by simp [note, returns, hc, hkind, herr])
        (by rw [hst]; simp [State.stage, hcaller, hkind, herr])
        (by simp [hst, hkind])
    | false =>
      have hstage := hr.stage_of (hkind ▸ hst)
      refine hr.finish .init .zero hinv hs htable
        (by simp [State.stage, hcaller, hkind, herr])
        (by simp [returns, hc, hkind, herr]) ?_ (by simp)
      exact ⟨fun _ => ⟨q, hstage.2.1⟩, fun _ => .inl rfl⟩
  | cleanup =>
    obtain ⟨q, hqueue, -⟩ : Kind.cleanup.Suits (s.reqs r).queue := hkind ▸ hsuited.req r
    rw [hkind, hqueue] at hst
    have hstage := hr.stage_of hst
    have hsem : 0 < (s.reqs r).sem := by simpa [guard, State.canStep, hc] using ha
    -- The server has posted the semaphore after it had deleted the queue.
    have hunlinked := hsuited.left r q hkind hqueue ((hinv.ok r).done_of_sem_pos hsem)
    have hnone : ∀ q', ¬ Entry s t q' := by
      intro q' hq'
      obtain rfl := hstage.2.1 q' hq'
      obtain ⟨b, hb⟩ := hq'.1
      exact hinv.alive.unlinked b q' hunlinked hb
    refine hr.finish .cleanup .zero hinv hs htable
      (by simp [State.stage, hcaller, hkind]) (by simp [returns, hc, hkind]) ?_
      (by simp)
    simp [Registered, hnone]

lemma initUnlink (hc : s.callers t = .initUnlink q) : RoutedNext s h t (.caller t alloc) := by
  obtain ⟨hlog, hq, htab⟩ := hr.stage_of (show s.stage t = .held q by rw [State.stage, hc])
  have hbuckets : (next true s (.caller t alloc)).buckets = Table.unlink q s.buckets := by
    simp only [next, callerStep, hc]
    rfl
  have hnone : ∀ q', ¬ Entry (next true s (.caller t alloc)) t q' := by
    rintro q' ⟨⟨b, hb⟩, ht'⟩
    obtain ⟨hb, hne⟩ := Table.mem_unlink.1 (hbuckets ▸ hb)
    have hthread := (hinv.thread_next (step_of_guard ha) hb).symm.trans ht'
    exact hne (hr.unique q' q ⟨⟨b, hb⟩, hthread⟩ hq)
  refine ⟨fun q1 q2 h₁ => absurd h₁ (hnone q1), ?_⟩
  rw [show (next true s (.caller t alloc)).stage t = .bare by
    simp [next, hc, State.stage]]
  refine ⟨by simpa [note, returns, hc] using hlog, hnone, ?_⟩
  rw [hbuckets, ← htab]
  simp [note, tableStep, hc]

lemma initFree (hc : s.callers t = .initFree q) : RoutedNext s h t (.caller t alloc) := by
  have hstage := hr.stage_of (show s.stage t = .bare by rw [State.stage, hc])
  refine hr.finish .init .kernelThread hinv (step_of_guard ha) (by simp [tableStep, hc]) ?_
    (by simp [returns, hc]) ?_ fun _ _ => .inr hstage.2.2
  · simp [next, hc, State.stage]
  · simp [Registered, hstage.2.1]

lemma caller (hsuited : Suited s) (hsem : semFails s (.caller t alloc) = false) :
    RoutedNext s h t (.caller t alloc) := by
  cases hc : s.callers t with
  | outside | halted => simp [guard, State.canStep, hc] at ha
  | initNew => exact hr.initNew hinv ha hc
  | initLink => exact hr.initLink hinv ha hc
  | ready => exact hr.ready hinv ha hsuited hc hsem
  | trigger => exact hr.trigger hinv ha hc
  | wait => exact hr.wait hinv ha hsuited hc
  | initUnlink => exact hr.initUnlink hinv ha hc
  | initFree => exact hr.initFree hinv ha hc

end

lemma serverUnlink (hsuited : Suited s) (ht : t ≠ 0)
    (ha : guard true s (.server q)) (hserver : (s.queues q).server = .unlink r)
    (hthread : (s.queues q).thread = t) : RoutedNext s h t (.server q) := by
  have hs := step_of_guard ha
  have hq : q ≠ defaultQueue := by
    rintro rfl
    exact ht (hthread.symm.trans hsuited.default_thread)
  have hran : (s.reqs r).place = .ran q := hinv.placed.place_ran (by rw [hserver]; rfl)
  have hqueue : (s.reqs r).queue = some q := by
    simpa [hran, Place.Serves] using (hinv.ok r).serves
  have hwait : s.callers t = .wait r := by
    rw [← hthread, (hinv.named.req r q hqueue).2.resolve_left hq]
    exact hinv.linked.pending r (by rw [hran]; rfl)
  have hkind : (s.reqs r).kind = .cleanup := by
    have hreboot := hsuited.stopping q r hserver
    have hsuits := hsuited.req r
    cases hk : (s.reqs r).kind <;> simp_all [Kind.reboot, Kind.Suits]
  have hleaving : s.stage t = .leaving q := by
    simp [State.stage, hwait, hkind, hqueue]
  have hstage := hr.stage_of hleaving
  have hnone : ∀ q', ¬ Entry (next true s (.server q)) t q' := by
    rintro q' ⟨⟨b, hb⟩, ht'⟩
    have hbuckets : (next true s (.server q)).buckets = Table.unlink q s.buckets := by
      simp only [next, serverStep, hserver]
      rfl
    obtain ⟨hb, hne⟩ := Table.mem_unlink.1 (hbuckets ▸ hb)
    exact hne (hstage.2.1 q' ⟨⟨b, hb⟩, (hinv.thread_next hs hb).symm.trans ht'⟩)
  have hcaller := hs.callers_eq (t := t) (by simp [Act.thread])
  refine ⟨fun q1 q2 h₁ => absurd h₁ (hnone q1), ?_⟩
  rw [hinv.stage_eq hs hcaller, hleaving]
  refine ⟨by exact hstage.1, fun q' hq' =>
    absurd hq' (hnone q'), .inr ⟨⟨r, hcaller.trans hwait⟩, ?_⟩⟩
  simp [next, serverStep, hserver, Server.unlinked]

theorem next (hsuited : Suited s) (ht : t ≠ 0) (ha : guard true s a) (hsem : semFails s a = false) :
    RoutedNext s h t a := by
  by_cases hthread : a.thread = some t
  · cases a with
    | enter t' =>
      obtain rfl : t' = t := by simpa [Act.thread] using hthread
      exact hr.enter hinv hsuited ht ha
    | caller t' =>
      obtain rfl : t' = t := by simpa [Act.thread] using hthread
      exact hr.caller hinv ha hsuited hsem
    | _ => cases hthread
  · by_cases htable : ∃ f, tableStep s a = some (t, f)
    · obtain ⟨f, hf⟩ := htable
      cases a with
      | server q =>
        cases hserver : (s.queues q).server with
        | unlink =>
          have hq : (s.queues q).thread = t := by
            have := by simpa [tableStep, hserver] using hf
            exact this.1
          exact hr.serverUnlink hinv hsuited ht ha hserver hq
        | _ => simp [tableStep, hserver] at hf
      | caller t' =>
        have hne : t' ≠ t := by
          rintro rfl
          exact hthread rfl
        cases hc : s.callers t' <;> simp_all [tableStep]
      | _ => simp [tableStep] at hf
    · exact hr.frame hinv (step_of_guard ha) hthread fun f hf => htable ⟨f, hf⟩

end

end Routed

end

lemma Routed.init (ht : t ≠ 0) : Routed State.init History.init t where
  unique _ _ hq := absurd hq.2.symm ht
  stage := ⟨⟨False.elim, fun ⟨_, hq⟩ => ht hq.2.symm⟩, False.elim⟩

/-- The system call layer with its history, in runs where `sem_alloc` does not fail in
`lkl_syscall_thread_init`. -/
abbrev routingMachine : Machine (State × History) Act :=
  ((machine true).restrict fun s a => semFails s a = false).record .init note

theorem routed_of_reachable {p : State × History} (hreach : routingMachine.Reachable p)
    (ht : t ≠ 0) : Routed p.1 p.2 t := by
  refine hreach.invariant_of (I := fun p => Routed p.1 p.2 t) (J := fun p => Inv p.1 ∧ Suited p.1)
    ?_ (.init ht) ?_
  · intro p hp
    have hmachine := hp.of_record.of_restrict
    exact ⟨inv_of_reachable hmachine, suited_of_reachable hmachine⟩
  · rintro p a ⟨hinv, hsuited⟩ hr ⟨ha, hsem⟩
    exact hr.next hinv hsuited ht ha hsem

/-- In a run where `sem_alloc` does not fail in `lkl_syscall_thread_init`, every thread is routed to
its own queue exactly as long as it is registered, and a failed `lkl_syscall_thread_init` leaves
the hash table as it was. -/
theorem thread_routing (p : State × History) (hreach : routingMachine.Reachable p) (t : ThreadId)
    (ht : t ≠ 0) : RoutingLaw p.1 p.2 t := by
  have hmachine := hreach.of_record.of_restrict
  have hget := (suited_of_reachable hmachine).getSyscallQueue_eq_default ht
  have hidle (hout : p.1.callers t = .outside) : Stage.Routed p.1 p.2 t .idle :=
    (routed_of_reachable hreach ht).stage_of (by rw [State.stage, hout])
  refine ⟨fun hout hreg => ?_, fun hout hreg => ?_, fun hout hfail => ((hidle hout).2 hfail).symm⟩
  · obtain ⟨q, hq⟩ := (hidle hout).1.1 hreg
    have hne : getSyscallQueue p.1 t ≠ defaultQueue := fun heq => hget.1 heq q hq
    obtain ⟨⟨b, hb⟩, hthread⟩ := entry_of_getSyscallQueue hne
    exact ⟨hne, hthread, (inv_of_reachable hmachine).alive.bucket b _ hb⟩
  · exact hget.2 fun q hq => hreg ((hidle hout).1.2 ⟨q, hq⟩)

end

/-! ### Two runs -/

/-- The steps of an `lkl_syscall_thread_init` of the thread `t` up to its return, where `started` is
the outcome of `kernel_thread`. -/
def initCall (t : ThreadId) (started : Bool) : List Act :=
  [.enter t .init, .caller t true, .caller t true, .caller t true, .caller t true, .irq, .irq,
    .worker started, .worker started, .worker started, .caller t true]

/-- A thread that has the low 32 bits of its id in common with the thread 1. -/
def twin : ThreadId := 0x100000001

/-- The thread 1 registers. The registration of `twin` fails in `kernel_thread`, and it takes its
queue out again. -/
def twinRun : List Act :=
  initCall 1 true ++ initCall twin false ++ [.caller twin true, .caller twin true]

theorem thread_routing_twinRun : syscallQueueHashHead 1 = syscallQueueHashHead twin ∧
      getSyscallQueue (routingMachine.runFrom routingMachine.init twinRun).1 1 = 1 ∧
      OwnQueue (routingMachine.runFrom routingMachine.init twinRun).1 1 1 ∧
      getSyscallQueue (routingMachine.runFrom routingMachine.init twinRun).1 twin =
        defaultQueue := by
  have h := Machine.reachable_of_admits (M := routingMachine) twinRun (by decide)
  have h1 : getSyscallQueue (routingMachine.runFrom routingMachine.init twinRun).1 1 = 1 := by
    decide
  refine ⟨by decide, h1, ?_, (thread_routing _ h twin (by decide)).default (by decide) ?_⟩
  · have hown := (thread_routing _ h 1 (by decide)).own (by decide) (.inl rfl)
    rwa [h1] at hown
  · rintro (hret | hret) <;> cases hret

/-- `sem_alloc` fails in the `lkl_syscall_thread_init` of the thread 1. -/
def leakRun : List Act := [.enter 1 .init, .caller 1 true, .caller 1 true, .caller 1 false]

/-- The machine with its history, in all runs. -/
abbrev historyMachine : Machine (State × History) Act := (machine true).record .init note

/-- The call has returned `-ENOMEM`, and its queue is still in the hash table. -/
theorem not_routingLaw_leakRun :
    ((historyMachine.runFrom historyMachine.init leakRun).2.log 1 = [(.init, .enomem)] ∧
      getSyscallQueue (historyMachine.runFrom historyMachine.init leakRun).1 1 = 1) ∧
    ¬ ∀ p, historyMachine.Reachable p → ∀ t, t ≠ 0 → RoutingLaw p.1 p.2 t := by
  refine ⟨by decide, fun h => ?_⟩
  have hlaw := h _ (Machine.reachable_of_admits leakRun (by decide)) 1 (by decide)
  have hdefault := hlaw.default (by decide) (by rintro (hret | hret) <;> cases hret)
  exact absurd hdefault (by decide)

end LklPort.SyscallQueue
