import LklPort.SyscallQueue.Queues

/-!
# The hash table of the queues

`new_syscall_queue` puts a queue at the head of the bucket of its thread, and `del_syscall_queue`
takes it out. Threads whose ids agree in the low 32 bits share a bucket, and so do others. A queue
of a thread is found by `get_syscall_queue` all the same, and only the thread itself and the server
of its queue put it in and take it out.
-/

namespace LklPort.SyscallQueue

open List

attribute [local simp] dequeueSyscall

/-! ### What happens to the hash table -/

abbrev Table := Fin hashSize → List QueueId

/-- `hlist_add_head`. -/
def Table.link (t : ThreadId) (q : QueueId) (tab : Table) : Table :=
  Function.update tab (syscallQueueHashHead t) (q :: tab (syscallQueueHashHead t))

/-- `hlist_del`. -/
def Table.unlink (q : QueueId) (tab : Table) : Table := fun b => (tab b).filter (· ≠ q)

/-- What a step does to the hash table, with the thread whose queue it concerns. -/
def tableStep (s : State) : Act → Option (ThreadId × (Table → Table))
  | .caller t _ =>
    match s.callers t with
    | .initLink q => some (t, Table.link t q)
    | .initUnlink q => some (t, Table.unlink q)
    | _ => none
  | .server q =>
    match (s.queues q).server with
    | .unlink _ => some ((s.queues q).thread, Table.unlink q)
    | _ => none
  | .enter _ _ | .irq | .worker _ => none

attribute [local simp] SyscallQueue.tableStep

/-! ### Requests and the queues they are for -/

/-- A call of this kind may ask for the queue `o`. -/
def Kind.Suits : Kind → Option QueueId → Prop
  | .sys, _ => True
  | .halt, o => o = some defaultQueue
  | .init _, o => o = none
  | .cleanup, o => ∃ q, o = some q ∧ q ≠ defaultQueue

/-- The server is about to call the handler of `r`, or has called it. -/
def Server.Serving (r : ReqId) (x : Server) : Prop := x = .taken r ∨ x = .invoked r

attribute [local simp] Server.Serving

/-- What the routing of a thread rests on: every call asks for the queue that its kind tells, a
server runs no `reboot` and stops on one, and a thread whose `lkl_syscall_thread_cleanup` is done
has no queue. -/
structure Suited (s : State) : Prop where
  ready : ∀ t k o, s.callers t = .ready k o → k.Suits o
  req : ∀ r, (s.reqs r).kind.Suits (s.reqs r).queue
  serving : ∀ q r, (s.queues q).server.Serving r → (s.reqs r).kind.reboot = false
  stopping : ∀ q r, (s.queues q).server = .unlink r → (s.reqs r).kind.reboot = true
  left : ∀ r q, (s.reqs r).kind = .cleanup → (s.reqs r).queue = some q →
    (s.reqs r).place = .done → (s.queues q).server.unlinked = true
  default_thread : (s.queues defaultQueue).thread = 0
  hashed : ∀ b q, q ∈ s.buckets b → b = syscallQueueHashHead (s.queues q).thread

variable {tab : Table} {b : Fin hashSize}

section

variable {threadId : Bool} {s s' : State} {a : Act} {r : ReqId} {q : QueueId} {t : ThreadId}

lemma enter_suits {api : Api} {k : Kind} {o : Option QueueId} (hout : s.callers t = .outside)
    (h : (enter threadId s t api).callers t = .ready k o) : k.Suits o := by
  cases api with
  | sys =>
    obtain ⟨rfl, -⟩ : Kind.sys = k ∧ _ := by simpa [enter] using h
    trivial
  | halt =>
    obtain ⟨rfl, rfl⟩ : Kind.halt = k ∧ obtains threadId s t .halt = o := by
      simpa [enter] using h
    rfl
  | init =>
    unfold enter at h
    split_ifs at h
    · simp [hout] at h
    · simp at h
  | cleanup =>
    unfold enter at h
    cases hq : obtains threadId s t .cleanup with
    | none => simp [hq, hout] at h
    | some q =>
      obtain ⟨rfl, rfl⟩ : Kind.cleanup = k ∧ some q = o := by
        simpa [hq] using h
      refine ⟨q, rfl, ?_⟩
      rintro rfl
      simp [obtains] at hq

lemma Step.serving_cases (h : Step threadId s a s') (hserver : (s'.queues q).server.Serving r) :
    (s.queues q).server.Serving r ∨ r ∈ (s.queues q).lh ∧ (s.reqs r).kind.reboot = false := by
  -- The server of another queue stays.
  have hupdate : ∀ {q0 : QueueId} {y : Queue}, s'.queues = Function.update s.queues q0 y →
      (y.server.Serving r → (s.queues q0).server.Serving r ∨
        r ∈ (s.queues q0).lh ∧ (s.reqs r).kind.reboot = false) →
      (s.queues q).server.Serving r ∨ r ∈ (s.queues q).lh ∧ (s.reqs r).kind.reboot = false := by
    intro q0 y heq hy
    rw [heq] at hserver
    rcases eq_or_ne q q0 with rfl | hq
    · exact hy (by simpa using hserver)
    · exact .inl (by simpa [hq] using hserver)
  cases h with
  | newQueue => exact hupdate rfl (by simp)
  | @take _ r0 _ _ hl hk =>
    refine hupdate rfl fun hy => ?_
    obtain rfl : r0 = r := by simpa using hy
    exact .inr ⟨hl ▸ mem_cons_self, hk⟩
  | @run _ r0 hserver0 =>
    refine hupdate rfl fun hy => ?_
    obtain rfl : r0 = r := by simpa using hy
    exact .inl (.inl hserver0)
  | @workRun started r0 =>
    rcases startServer_cases s (s.reqs r0).kind started with ⟨q0, -, -, heq⟩ | heq
    · exact hupdate heq (by simp)
    · exact .inl (by simpa [heq] using hserver)
  | enqueue | initFree => exact hupdate rfl .inl
  | stop _ | post _ | unlink _ | up _ => exact hupdate rfl (by simp)
  | free => exact hupdate (Function.update_idem _ _ _) (by simp)
  | _ => exact .inl hserver

lemma Inv.unlinked_mono (h : Inv s) (hs : Step threadId s a s')
    (hq : (s.queues q).server.unlinked = true) : (s'.queues q).server.unlinked = true := by
  cases hs.queueStep q with
  | keep _ _ hserver | drop _ _ _ _ hserver => rwa [hserver]
  | new _ _ hnew =>
    rw [h.named.fresh q (Nat.le_of_eq hnew.symm)] at hq
    cases hq
  | start _ hworker hkind =>
    rw [(h.owned_of_worker hworker hkind).server] at hq
    cases hq
  | serve =>
    cases hserver : (s.queues q).server <;> simp_all [Server.live, Server.unlinked]
  | kfree _ _ _ hserver' | exit _ _ _ _ hserver' => rw [hserver']; rfl
  | _ => simp_all [Server.unlinked]

lemma Req.Step.done_cases {x y : Req} (h : x.Step y) (hy : y.place = .done) :
    x.place = .done ∨ (∃ q, x.place = .ran q) ∨ x.place = .workRan := by
  cases h with
  | post h => exact .inr h
  | ret => exact .inl hy
  | _ => cases hy

section

variable (h : Suited s) (hinv : Inv s) (hs : Step threadId s a s')

include h hinv hs

lemma Suited.unlinked_of_posted
    (hkind : (s.reqs r).kind.reboot = true) (hr : (s.reqs r).place = .ran q)
    (hr' : (s'.reqs r).place = .done) : (s'.queues q).server.unlinked = true := by
  have hmem : r ∈ (s.queues q).server.ranReq := (hinv.placed.mem_iff rfl).2 hr
  have hmem' : r ∉ (s'.queues q).server.ranReq := by
    intro hmem'
    have := ((hinv.placed_next hs).mem_iff (p := .ran q) rfl).1 hmem'
    simp [hr'] at this
  cases hs.queueStep q with
  | keep _ _ hserver | drop _ _ _ _ hserver => exact absurd (hserver ▸ hmem) hmem'
  | new _ _ hnew =>
    rw [hinv.named.fresh q (Nat.le_of_eq hnew.symm)] at hmem
    cases hmem
  | start _ hworker hkind0 =>
    rw [(hinv.owned_of_worker hworker hkind0).server] at hmem
    cases hmem
  | serve =>
    -- The server has called a handler for `r`, so `r` is not a `reboot`.
    have hserving : (s.queues q).server.Serving r := by
      cases hserver : (s.queues q).server <;> simp_all [Server.live, Server.ranReq]
    simp [h.serving q r hserving] at hkind
  | stop _ _ _ _ _ _ _ _ hserver => simp [hserver, Server.ranReq] at hmem
  | unlink _ _ _ _ hserver hserver' | kfree _ _ hserver hserver' =>
    rw [hserver] at hmem
    rw [hserver'] at hmem'
    exact absurd hmem hmem'
  | exit _ _ _ _ hserver' => rw [hserver']; rfl

lemma Suited.stopping_next
    (hserver : (s'.queues q).server = .unlink r) : (s'.reqs r).kind.reboot = true := by
  have hold : (s.queues q).server = .unlink r → (s'.reqs r).kind.reboot = true := by
    intro hserver
    have hran : (s.reqs r).place = .ran q := hinv.placed.place_ran (by rw [hserver]; rfl)
    rw [(hinv.req_eq hs (by simp [hran])).1]
    exact h.stopping q r hserver
  cases hs.queueStep q with
  | keep _ _ heq | drop _ _ _ _ heq => exact hold (heq ▸ hserver)
  | new _ _ _ hqueue => simp [hqueue] at hserver
  | serve _ _ _ hlive' => simp [hserver, Server.live] at hlive'
  | stop r0 _ _ hl _ hk _ _ _ hx' =>
    obtain rfl : r0 = r := by simpa [hx'] using hserver
    rw [(hinv.req_eq hs (by simp [hinv.placed.place_lh (hl ▸ mem_cons_self)])).1]
    exact hk
  | _ => simp_all

lemma Suited.left_next (hkind : (s'.reqs r).kind = .cleanup) (hqueue : (s'.reqs r).queue = some q)
    (hdone : (s'.reqs r).place = .done) : (s'.queues q).server.unlinked = true := by
  rcases (hs.callStep hinv.placed hinv.linked).req_cases r with heq | hstep | ⟨-, t, k, o, -, heq⟩
  · rw [heq] at hkind hqueue hdone
    exact hinv.unlinked_mono hs (h.left r q hkind hqueue hdone)
  · rw [hstep.kind_eq] at hkind
    rw [hstep.queue_eq] at hqueue
    have hserves := (hinv.ok r).serves
    rcases hstep.done_cases hdone with hdone0 | ⟨q0, hran⟩ | hran
    · exact hinv.unlinked_mono hs (h.left r q hkind hqueue hdone0)
    · obtain rfl : q = q0 := by simpa [hran, Place.Serves, hqueue] using hserves
      exact h.unlinked_of_posted hinv hs (by rw [hkind]; rfl) hran hdone
    · simp [hran, Place.Serves, hqueue] at hserves
  · simp [heq] at hdone

end

/-! ### The hash table -/

lemma Table.mem_link {q' : QueueId} :
    q' ∈ tab.link t q b ↔ b = syscallQueueHashHead t ∧ q' = q ∨ q' ∈ tab b := by
  unfold Table.link
  rcases eq_or_ne b (syscallQueueHashHead t) with rfl | hb <;> simp [*]

lemma Table.mem_unlink {q' : QueueId} : q' ∈ tab.unlink q b ↔ q' ∈ tab b ∧ q' ≠ q := by
  simp [Table.unlink]

lemma Table.unlink_link (h : ∀ b, q ∉ tab b) : Table.unlink q (Table.link t q tab) = tab := by
  funext b
  have hfilter : (tab b).filter (· ≠ q) = tab b := by
    refine List.filter_eq_self.2 fun q' hq' => decide_eq_true ?_
    rintro rfl
    exact h b hq'
  rcases eq_or_ne b (syscallQueueHashHead t) with rfl | hb
  · rw [Table.unlink, Table.link, Function.update_self, filter_cons_of_neg (by simp), hfilter]
  · rw [Table.unlink, Table.link, Function.update_of_ne hb, hfilter]

/-- What a step does to the hash table. -/
inductive TableStep (s : State) (a : Act) (s' : State) : Prop
  | quiet (hstep : tableStep s a = none) (hbuckets : s'.buckets = s.buckets)
  | link (t : ThreadId) (q : QueueId) (ht : s.callers t = .initLink q)
      (hstep : tableStep s a = some (t, Table.link t q))
      (hbuckets : s'.buckets = Table.link t q s.buckets)
  | unlink (t : ThreadId) (q : QueueId) (ht : s.callers t = .initUnlink q ∨
        ∃ r, (s.queues q).server = .unlink r ∧ (s.queues q).thread = t)
      (hstep : tableStep s a = some (t, Table.unlink q))
      (hbuckets : s'.buckets = Table.unlink q s.buckets)

lemma Step.tableStep (h : Step threadId s a s') : TableStep s a s' := by
  cases h with
  | abort ht =>
    rcases ht with ht | ⟨k, o, ht⟩ <;> exact .quiet (by simp [ht]) rfl
  | newQueue ht | newReq ht | submit ht | lose ht | ret ht hsem | initFree ht =>
    exact .quiet (by simp [ht]) rfl
  | @link t _ q ht => exact .link t q ht (by simp [ht]) rfl
  | @initUnlink t _ q ht =>
    exact .unlink t q (.inl ht) (by simp [ht]) rfl
  | @unlink q r hserver =>
    exact .unlink _ q (.inr ⟨r, hserver, rfl⟩) (by simp [hserver]) rfl
  | take hserver hl hk | stop hserver hl hk
  | run hserver | post hserver | free hserver | up hserver =>
    exact .quiet (by simp [hserver]) rfl
  | _ => exact .quiet rfl rfl

lemma Inv.thread_next (h : Inv s) (hs : Step threadId s a s') (hq : q ∈ s.buckets b) :
    (s'.queues q).thread = (s.queues q).thread :=
  hs.thread_eq (h.named.bucket b q hq)

lemma Suited.hashed_next (h : Suited s) (hinv : Inv s) (hs : Step threadId s a s')
    (hq : q ∈ s'.buckets b) : b = syscallQueueHashHead (s'.queues q).thread := by
  have hold : q ∈ s.buckets b → b = syscallQueueHashHead (s'.queues q).thread := by
    intro hq
    rw [hinv.thread_next hs hq]
    exact h.hashed b q hq
  cases hs.tableStep with
  | quiet _ hbuckets => exact hold (hbuckets ▸ hq)
  | link _ _ ht _ hbuckets =>
    rcases Table.mem_link.1 (hbuckets ▸ hq) with ⟨rfl, rfl⟩ | hq
    · have howned := hinv.owned_of_initLink ht
      rw [hs.thread_eq howned.lt, howned.thread]
    · exact hold hq
  | unlink _ _ _ _ hbuckets => exact hold (Table.mem_unlink.1 (hbuckets ▸ hq)).1

lemma Suited.next (h : Suited s) (hinv : Inv s) (ha : guard threadId s a) :
    Suited (next threadId s a) := by
  have hs := step_of_guard ha
  refine ⟨fun t k o ht => ?_, fun r => ?_, fun q r hserver => ?_,
    fun q r => h.stopping_next hinv hs, fun r q => h.left_next hinv hs,
    (hs.thread_eq hinv.named.default_lt).trans h.default_thread,
    fun b q => h.hashed_next hinv hs⟩
  · cases hs.callerStep t with
    | keep heq => exact h.ready t k o (heq ▸ ht)
    | enter _ _ _ ha' =>
      subst ha'
      exact enter_suits ha.1 ht
    | newQueue _ hs' => simp [hs', newSyscallQueue] at ht
    | link q _ ht' =>
      obtain ⟨rfl, rfl⟩ : Kind.init q = k ∧ none = o := by simpa [ht'] using ht
      rfl
    | ret r => rcases (s.reqs r).returnTo_cases with h | h | ⟨q', -, -, h⟩ <;> simp_all
    | _ => simp_all
  · rcases (hs.callStep hinv.placed hinv.linked).req_cases r with
      heq | hstep | ⟨-, t, k, o, ht, heq⟩
    · rw [heq]
      exact h.req r
    · rw [hstep.kind_eq, hstep.queue_eq]
      exact h.req r
    · rw [heq]
      exact h.ready t k o ht
  · rcases hs.serving_cases hserver with hserving | ⟨hmem, hkind⟩
    · have hplace : (s.reqs r).place ≠ .unborn := by
        rcases hserving with hx | hx
        · simp [hinv.placed.place_taken hx]
        · simp [hinv.placed.place_ran (by rw [hx]; rfl)]
      rw [(hinv.req_eq hs hplace).1]
      exact h.serving q r hserving
    · rw [(hinv.req_eq hs (by simp [hinv.placed.place_lh hmem])).1]
      exact hkind

lemma Suited.init : Suited State.init where
  ready := by simp [State.init]
  req r := trivial
  serving q r hserver := by
    rw [init_server] at hserver
    split_ifs at hserver <;> simp at hserver
  stopping q r hserver := by
    rw [init_server] at hserver
    split_ifs at hserver
  left r q hkind := by cases hkind
  default_thread := rfl
  hashed b q hq := by
    simp only [State.init] at hq
    split_ifs at hq with hb
    · exact hb
    · cases hq

lemma suited_of_reachable (h : (machine threadId).Reachable s) : Suited s :=
  h.invariant_of (fun _ => inv_of_reachable) Suited.init
    fun _ _ hinv hsuited => hsuited.next hinv

/-! ### The queues of a thread -/

/-- The hash table has the queue `q` for the thread `t`. -/
def Entry (s : State) (t : ThreadId) (q : QueueId) : Prop :=
  (∃ b, q ∈ s.buckets b) ∧ (s.queues q).thread = t

lemma Suited.mem_of_entry (h : Suited s) (hq : Entry s t q) :
    q ∈ s.buckets (syscallQueueHashHead t) := by
  obtain ⟨⟨b, hb⟩, rfl⟩ := hq
  rwa [← h.hashed b q hb]

lemma entry_of_getSyscallQueue (hq : getSyscallQueue s t ≠ defaultQueue) :
    Entry s t (getSyscallQueue s t) := by
  obtain ⟨hmem, hthread⟩ := (getSyscallQueue_cases rfl).resolve_left hq
  exact ⟨⟨_, hmem⟩, hthread⟩

lemma Suited.getSyscallQueue_eq_default (h : Suited s) (ht : t ≠ 0) :
    getSyscallQueue s t = defaultQueue ↔ ∀ q, ¬ Entry s t q := by
  constructor
  · intro hget q hq
    cases hfind : (s.buckets (syscallQueueHashHead t)).find? fun q => (s.queues q).thread = t with
    | none => exact List.find?_eq_none.1 hfind q (h.mem_of_entry hq) (by simpa using hq.2)
    | some q' =>
      obtain rfl : q' = defaultQueue := by simpa [getSyscallQueue, hfind] using hget
      have hthread : (s.queues defaultQueue).thread = t := by simpa using List.find?_some hfind
      exact ht (hthread.symm.trans h.default_thread)
  · intro hnone
    by_contra hget
    exact hnone _ (entry_of_getSyscallQueue hget)

lemma Inv.entry_of_buckets (h : Inv s) (hs : Step threadId s a s')
    (hmem : ∀ b, q ∈ s'.buckets b ↔ q ∈ s.buckets b) : Entry s' t q ↔ Entry s t q := by
  refine ⟨fun ⟨⟨b, hb⟩, ht⟩ => ?_, fun ⟨⟨b, hb⟩, ht⟩ => ⟨⟨b, (hmem b).2 hb⟩, ?_⟩⟩
  · have hb := (hmem b).1 hb
    exact ⟨⟨b, hb⟩, (h.thread_next hs hb).symm.trans ht⟩
  · exact (h.thread_next hs hb).trans ht

lemma Inv.entry_iff (h : Inv s) (hs : Step threadId s a s')
    (htable : ∀ f, SyscallQueue.tableStep s a ≠ some (t, f)) : Entry s' t q ↔ Entry s t q := by
  cases hs.tableStep with
  | quiet _ hbuckets => exact h.entry_of_buckets hs fun b => by rw [hbuckets]
  | link t' q' ht' hstep hbuckets =>
    have hne : t' ≠ t := by
      rintro rfl
      exact htable _ hstep
    have howned := h.owned_of_initLink ht'
    rcases eq_or_ne q q' with rfl | hq
    · have hthread : (s.queues q).thread ≠ t := howned.thread.trans_ne hne
      have hthread' : (s'.queues q).thread ≠ t := (hs.thread_eq howned.lt).trans_ne hthread
      exact ⟨fun hq => absurd hq.2 hthread', fun hq => absurd hq.2 hthread⟩
    · exact h.entry_of_buckets hs fun b => by simp [hbuckets, Table.mem_link, hq]
  | unlink t' q' ht' hstep hbuckets =>
    have hne : t' ≠ t := by
      rintro rfl
      exact htable _ hstep
    have hthread : (s.queues q').thread = t' := by
      rcases ht' with ht' | ⟨r, -, hthread⟩
      · exact (h.owned t' q' (by rw [ht']; rfl)).thread
      · exact hthread
    rcases eq_or_ne q q' with rfl | hq
    · refine ⟨fun ⟨⟨b, hb⟩, _⟩ => ?_, fun hq => absurd (hthread.symm.trans hq.2) hne⟩
      exact absurd rfl (Table.mem_unlink.1 (hbuckets ▸ hb)).2
    · exact h.entry_of_buckets hs fun b => by simp [hbuckets, Table.mem_unlink, hq]

end

end LklPort.SyscallQueue
