import LklPort.BlkMerge.Merging
import LklPort.Machine.Basic
import Mathlib.Data.List.TakeWhile

/-!
# The law of merging

Submissions and dispatches are the actions of a machine. A submission is two steps: the bio joins a
request if it can, and otherwise gets one of its own later, since the lock is dropped while the
request is allocated.

`attempt_merge` does not look at whether the requests are discards, so a bio that joins a request
may lead to one that is both. In a run in which no bio is next to a request of the other kind when
it is submitted, all requests are as they should be.
-/

namespace LklPort.BlkMerge

open Program List

/-! ### Adding and dispatching requests -/

section

variable (hashFn : ℕ → Fin 64) {q q' : Queue} {W B : List Bio} {D : List ℕ} {b : Bio} {i : ℕ}

lemma Inv.not_onHash (h : Inv q W D B) (hi : i ∉ q.sorted) : ¬ q.OnHash i := by
  rintro ⟨k, hk⟩
  exact hi (h.hashed k i hk)

lemma Inv.addRequest_runs (h : Inv q W D B) (hb : b ∈ W) (hi : i ∉ q.all D) :
    Ends (addRequest hashFn i b) q fun _ q' => Inv q' (W.erase b) D B := by
  have hhashed : ¬ Queue.OnHash (q.setRq i fun _ => initRequestFromBio b) i :=
    h.not_onHash fun hmem => hi (mem_all D hmem)
  refine .write _ ((elvRqhashAdd_runs hashFn hhashed).bind ?_)
  rintro _ _ ⟨hash, rfl, hhash⟩
  refine ⟨(), _, .write _ _, ?_⟩
  have hall : ((q.sorted ++ [i]) ++ q.dispatch ++ D).Perm (i :: q.all D) := by
    rw [append_assoc, append_assoc, Queue.all, append_assoc]
    exact perm_middle
  have hrq : ∀ j ∈ q.all D, (q.setRq i fun _ => initRequestFromBio b).rq j = q.rq j :=
    fun j hj => setRq_of_ne q (ne_of_mem_of_not_mem hj hi) _
  refine ⟨fun j hj => ?_, ?_, fun k j hj => ?_, fun j hj => ?_, ?_,
    fun c hc => h.fit c (mem_of_mem_erase hc)⟩
  · rcases List.mem_cons.mp (hall.mem_iff.mp hj) with rfl | hj
    · rw [setRq_self]
      exact ok_initRequest (h.fit b hb) _
    · rw [hrq j hj]
      exact h.ok j hj
  · exact hall.nodup_iff.mpr (List.nodup_cons.mpr ⟨hi, h.nodup⟩)
  · rcases hhash k j hj with rfl | hj
    · exact mem_append_right _ (mem_singleton_self j)
    · exact mem_append_left _ (h.hashed k j hj)
  · split_ifs at hj with hnone
    · cases hj
      exact mem_append_right _ (mem_singleton_self _)
    · exact mem_append_left _ (h.cached j hj)
  · refine List.Perm.trans ?_ h.bios
    have hbios := hall.flatMap_right fun j => ((q.setRq i fun _ => initRequestFromBio b).rq j).bios
    apply (hbios.append_left _).trans
    rw [flatMap_cons, flatMap_congr fun j hj => by rw [hrq j hj], setRq_self]
    exact (perm_middle).trans ((perm_cons_erase hb).symm.append_right _)

lemma dispatchSort_perm (q : Queue) (i : ℕ) : (dispatchSort q i).Perm (i :: q.dispatch) := by
  refine List.perm_middle.trans (List.Perm.cons i ?_)
  rw [← reverse_append, takeWhile_append_dropWhile, reverse_reverse]

section

variable (h : Inv q W D B)

include h

lemma Inv.relist {D' : List ℕ} (hrq : q'.rq = q.rq)
    (hmax : q'.maxSectors = q.maxSectors) (hall : (q'.all D').Perm (q.all D))
    (hhash : ∀ k, ∀ i ∈ q'.hash k, i ∈ q'.sorted)
    (hcache : ∀ i, q'.lastMerge = some i → i ∈ q'.sorted) : Inv q' W D' B := by
  refine ⟨fun i hi => ?_, hall.nodup_iff.mpr h.nodup, hhash, hcache, ?_, h.fit⟩
  · rw [hrq, hmax]
    exact h.ok i (hall.mem_iff.mp hi)
  · rw [hrq]
    exact ((hall.flatMap_right _).append_left W).trans h.bios

lemma Inv.noopDispatch_runs : Ends noopDispatch q fun _ q' => Inv q' W D B := by
  refine .read ?_
  split
  next => exact .pure h
  next i rest hsorted =>
    refine .write _ (.write _ ⟨(), _, .write _ _, h.relist rfl rfl ?_ ?_ ?_⟩)
    · rw [Queue.all, Queue.all, hsorted]
      exact ((((dispatchSort_perm _ i).append_left rest).trans perm_middle).append_right D)
    · intro k j hj
      obtain ⟨hmem, hne⟩ := List.mem_filter.mp hj
      have hsort := h.hashed k j hmem
      rw [hsorted, mem_cons] at hsort
      exact hsort.resolve_left (by simpa using hne)
    · intro j hj
      split_ifs at hj with hlast
      have hsort := h.cached j hj
      rw [hsorted, mem_cons] at hsort
      apply hsort.resolve_left
      rintro rfl
      exact hlast hj

lemma Inv.blkPeekRequest_runs (i : ℕ) : Ends (blkPeekRequest i) q fun _ q' => Inv q' W D B := by
  have hcalm := calm_setRq q i (f := fun r => { r with started := true }) fun _ => rfl
  exact ⟨(), _, .write _ q, h.calm ⟨rfl, rfl, rfl, hcalm.transfer, fun _ _ h => h, fun _ h => h⟩⟩

lemma Inv.blkStartRequest_runs (hi : i ∈ q.dispatch) :
    Ends (blkStartRequest i) q fun _ q' => Inv q' W (i :: D) B := by
  have hnodup := h.nodup
  rw [Queue.all, append_assoc, nodup_append] at hnodup
  refine .read (.ite ?_ fun _ => ⟨(), _, .write _ q, h.relist rfl rfl ?_ h.hashed h.cached⟩)
  · rintro (hnot | hhash)
    · exact absurd hi hnot
    · refine absurd hhash (h.not_onHash fun hmem => ?_)
      exact hnodup.2.2 i hmem i (mem_append_left _ hi) rfl
  · rw [Queue.all, Queue.all, append_assoc, append_assoc]
    refine List.Perm.append_left _ (List.perm_middle.trans ?_)
    exact ((perm_cons_erase hi).append_right D).symm

end

end

/-! ### Runs -/

/-- A queue, the bios that wait for a request, the requests that the driver has, and the bios that
have been submitted. -/
structure Run where
  queue : Queue
  waiting : List Bio
  driver : List ℕ
  submitted : List Bio

inductive Action where
  | submit (env : Env) (b : Bio)
  | add (i : ℕ) (b : Bio)
  | dispatch
  | peek (i : ℕ)
  | start (i : ℕ)

/-- A bio is submitted once, a new request is one that is not in use, and the driver looks at the
requests that are to be dispatched. -/
def Allowed (r : Run) : Action → Prop
  | .submit _ b => b ∉ r.submitted
  | .add i b => b ∈ r.waiting ∧ i ∉ r.queue.all r.driver
  | .dispatch => True
  | .peek i => i ∈ r.queue.dispatch
  | .start i => i ∈ r.queue.dispatch

/-- The call of an action, and whether the bio has joined a request. -/
def Action.program (hashFn : ℕ → Fin 64) : Action → Program Queue Bool
  | .submit env b => makeRequest hashFn env b
  | .add i b => do
    addRequest hashFn i b
    return true
  | .dispatch => do
    noopDispatch
    return true
  | .peek i => do
    blkPeekRequest i
    return true
  | .start i => do
    blkStartRequest i
    return true

def note (r : Run) (joined : Bool) (q : Queue) : Action → Run
  | .submit _ b =>
    { r with queue := q, waiting := Submitted b r.waiting joined, submitted := b :: r.submitted }
  | .add _ b => { r with queue := q, waiting := r.waiting.erase b }
  | .dispatch => { r with queue := q }
  | .peek _ => { r with queue := q }
  | .start i => { r with queue := q, driver := i :: r.driver }

/-- A queue without requests. -/
structure Limits where
  rq : ℕ → Request
  endSector : ℕ
  maxSectors : ℕ
  maxSegments : ℕ

def Limits.queue (L : Limits) : Queue :=
  ⟨L.rq, [], [], fun _ => [], none, L.endSector, L.maxSectors, L.maxSegments⟩

def queueMachine (hashFn : ℕ → Fin 64) (L : Limits) : Machine Run Action where
  init := ⟨L.queue, [], [], []⟩
  guard := Allowed
  next r a :=
    match (a.program hashFn).run r.queue with
    | some (joined, q) => note r joined q a
    | none => r

instance (hashFn : ℕ → Fin 64) (L : Limits) (r : Run) (a : Action) :
    Decidable ((queueMachine hashFn L).guard r a) := by
  cases a <;> dsimp only [queueMachine, Allowed] <;> infer_instance

/-- A bio that is submitted is not next to a request of the other kind. -/
def Kept (r : Run) : Action → Prop
  | .submit _ b => Separate r.queue b
  | _ => True

instance (r : Run) (a : Action) : Decidable (Kept r a) := by
  cases a <;> dsimp only [Kept] <;> infer_instance

/-! ### The law -/

/-- All requests are as they should be, each bio waits or is in exactly one of them, and the next
call runs into no `BUG`. -/
structure MergeLaw (hashFn : ℕ → Fin 64) (r : Run) : Prop where
  requests : ∀ i ∈ r.queue.all r.driver, (r.queue.rq i).toTransfer.Ok r.queue.maxSectors
  once : r.submitted.Nodup ∧
    (r.waiting ++ (r.queue.all r.driver).flatMap fun i => (r.queue.rq i).bios).Perm r.submitted
  runs : ∀ a, Allowed r a → Kept r a → ∃ joined q, Runs (a.program hashFn) r.queue joined q

/-- The invariant of a run. -/
structure Good (r : Run) : Prop where
  inv : Inv r.queue r.waiting r.driver r.submitted
  nodup : r.submitted.Nodup

variable {hashFn : ℕ → Fin 64} {L : Limits} {r : Run}

lemma Good.program_runs (h : Good r) (hashFn : ℕ → Fin 64) : ∀ {a : Action}, Allowed r a →
    Kept r a → Ends (a.program hashFn) r.queue fun joined q => Good (note r joined q a)
  | .submit env b, ha, hk => by
    have hinv : Inv r.queue (b :: r.waiting) r.driver (b :: r.submitted) := by
      refine { h.inv with bios := h.inv.bios.cons b, fit := fun c hc => ?_ }
      rcases List.mem_cons.mp hc with rfl | hc
      · exact hk.fit
      · exact h.inv.fit c hc
    obtain ⟨joined, q, hrun, hq⟩ := hinv.makeRequest_runs hashFn hk env
    exact ⟨joined, q, hrun, hq, List.nodup_cons.mpr ⟨ha, h.nodup⟩⟩
  | .add _ _, ha, _ =>
    (h.inv.addRequest_runs hashFn ha.1 ha.2).bind fun _ _ hq => .pure ⟨hq, h.nodup⟩
  | .dispatch, _, _ => h.inv.noopDispatch_runs.bind fun _ _ hq => .pure ⟨hq, h.nodup⟩
  | .peek i, _, _ => (h.inv.blkPeekRequest_runs i).bind fun _ _ hq => .pure ⟨hq, h.nodup⟩
  | .start _, ha, _ => (h.inv.blkStartRequest_runs ha).bind fun _ _ hq => .pure ⟨hq, h.nodup⟩

lemma Good.init (L : Limits) : Good ⟨L.queue, [], [], []⟩ where
  inv := ⟨nofun, nodup_nil, nofun, nofun, .refl _, nofun⟩
  nodup := nodup_nil

lemma Good.reachable (h : ((queueMachine hashFn L).restrict Kept).Reachable r) : Good r := by
  refine h.invariant (Good.init L) fun r a hr ha => ?_
  obtain ⟨joined, q, hrun, hgood⟩ := hr.program_runs hashFn ha.1 ha.2
  have hnext : ((queueMachine hashFn L).restrict Kept).next r a = note r joined q a := by
    simp only [Machine.restrict, queueMachine]
    rw [show (a.program hashFn).run r.queue = some (joined, q) from hrun]
  rwa [hnext]

/-- In every run in which no bio is next to a request of the other kind when it is submitted. -/
theorem merge_law (hashFn : ℕ → Fin 64) (L : Limits)
    (h : ((queueMachine hashFn L).restrict Kept).Reachable r) : MergeLaw hashFn r := by
  have hgood := Good.reachable h
  refine ⟨hgood.inv.ok, ⟨hgood.nodup, hgood.inv.bios⟩, fun a ha hk => ?_⟩
  obtain ⟨joined, q, hrun, -⟩ := hgood.program_runs hashFn ha hk
  exact ⟨joined, q, hrun⟩

/-- A queue in which no request is in use. -/
def sampleLimits : Limits where
  rq _ := ⟨⟨0, 0, [], false, false, 0⟩, false, false, false, false, 0⟩
  endSector := 0
  maxSectors := 1024
  maxSegments := 128

/-- Eight sectors to be written. -/
def sampleBio (n : Fin 1024) (discard : Bool) : Bio where
  ptr := n
  sector := 8 * n
  size := 4096
  write := true
  discard := discard
  disk := 0
  physSegments := 1
  sector_lt := by omega
  size_lt := by decide
  size_pos := by decide
  dvd_size := ⟨8, rfl⟩

/-- The third bio fills the gap between the requests of the first two. -/
def fillGap (discard : Bool) : List Action :=
  [.submit ⟨false, false, false⟩ (sampleBio 0 false), .add 0 (sampleBio 0 false),
    .submit ⟨false, false, false⟩ (sampleBio 2 discard), .add 1 (sampleBio 2 discard),
    .submit ⟨false, false, false⟩ (sampleBio 1 false)]

theorem merge_law_fillGap : MergeLaw (fun _ => 0) ((queueMachine (fun _ => 0) sampleLimits).runFrom
      (queueMachine (fun _ => 0) sampleLimits).init (fillGap false)) := by
  have hadm : ((queueMachine (fun _ => 0) sampleLimits).restrict Kept).Admits
      (queueMachine (fun _ => 0) sampleLimits).init (fillGap false) := by decide +kernel
  exact merge_law _ sampleLimits (Machine.Reachable.init.runFrom hadm)

def discardRun (hashFn : ℕ → Fin 64) : Run := (queueMachine hashFn sampleLimits).runFrom
  (queueMachine hashFn sampleLimits).init (fillGap true)

/-- The request of a discard becomes a part of the one before it, which is none. -/
theorem merge_mixes_discard :
    ∃ r, (queueMachine (fun _ => 0) sampleLimits).Reachable r ∧ ¬ MergeLaw (fun _ => 0) r := by
  have hadm : (queueMachine (fun _ => 0) sampleLimits).Admits
      (queueMachine (fun _ => 0) sampleLimits).init (fillGap true) := by decide +kernel
  refine ⟨discardRun fun _ => 0, Machine.Reachable.init.runFrom hadm, fun hlaw => ?_⟩
  have hall : 0 ∈ (discardRun fun _ => 0).queue.sorted := by decide +kernel
  have hmixed : ((discardRun fun _ => 0).queue.rq 0).bios =
      [sampleBio 0 false, sampleBio 1 false, sampleBio 2 true] := by decide +kernel
  have hsame := (hlaw.requests 0 (mem_append_left _ (mem_append_left _ hall))).same
  rw [hmixed] at hsame
  have hfirst := (hsame (sampleBio 0 false) (by decide)).2.2
  have hlast := (hsame (sampleBio 2 true) (by decide)).2.2
  rw [← hfirst] at hlast
  exact absurd hlast (by decide)

/-!
## The order of the dispatch list

`elv_dispatch_sort` goes back over the requests of the same direction and kind that may still be
passed, and keeps them in the order of a one-way elevator.
-/

/-- The flags at which `elv_dispatch_sort` stops. -/
def Request.stops (r : Request) : Bool := r.started || r.barrier

def passable (r pos : Request) : Bool :=
  decide (r.discard = pos.discard) && decide (r.write = pos.write) && !pos.stops

/-- The longest tail of a list whose requests `i` may pass, and what is before it. -/
def openPart (q : Queue) (i : ℕ) (l : List ℕ) : List ℕ :=
  (l.reverse.takeWhile fun j => passable (q.rq i) (q.rq j)).reverse

def closedPart (q : Queue) (i : ℕ) (l : List ℕ) : List ℕ :=
  (l.reverse.dropWhile fun j => passable (q.rq i) (q.rq j)).reverse

/-- The elevator comes to the sector `a` before it comes to `b`, or they are the same. -/
def Ahead (endSector a b : ℕ) : Prop :=
  (endSector ≤ a ∧ b < endSector) ∨ ((endSector ≤ a ↔ endSector ≤ b) ∧ a ≤ b)
  deriving Decidable

/-- The requests are in the order of a one-way elevator. -/
def InOrder (q : Queue) (l : List ℕ) : Prop :=
  l.Pairwise fun i j => Ahead q.endSector (q.rq i).pos (q.rq j).pos

/-- The request `i` comes into the open part behind the requests `l₁`. -/
structure Placed (q : Queue) (i : ℕ) (l₁ l₂ : List ℕ) : Prop where
  parts : openPart q i q.dispatch = l₁ ++ l₂
  list : dispatchSort q i = closedPart q i q.dispatch ++ (l₁ ++ i :: l₂)
  order : InOrder q (l₁ ++ i :: l₂)
  behind : ∀ j ∈ l₂, (q.rq j).pos ≠ (q.rq i).pos

variable {q : Queue} {i e a b c : ℕ}

lemma Ahead.trans (h : Ahead e a b) (h' : Ahead e b c) : Ahead e a c := by
  unfold Ahead at *
  omega

lemma ahead_of_not (h : ¬ Ahead e a b) : Ahead e b a ∧ a ≠ b := by
  unfold Ahead at *
  omega

lemma goesBefore_eq (e : ℕ) (r pos : Request) :
    goesBefore e r pos = (decide (¬ Ahead e pos.pos r.pos) && passable r pos) := by
  unfold goesBefore passable Request.stops Ahead
  grind

lemma exists_takeWhile_and (pass late : ℕ → Bool) (l : List ℕ) : ∃ T D,
    l.takeWhile pass = T ++ D ∧ l.takeWhile (fun x => late x && pass x) = T ∧
    l.dropWhile (fun x => late x && pass x) = D ++ l.dropWhile pass ∧
    (∀ x ∈ T, late x = true) ∧ ∀ x ∈ D.head?, late x = false := by
  induction l with
  | nil => exact ⟨[], [], by simp⟩
  | cons x l ih =>
    obtain ⟨T, D, hpass, htake, hdrop, hT, hD⟩ := ih
    cases hp : pass x with
    | false => exact ⟨[], [], by simp [hp]⟩
    | true =>
      cases hl : late x with
      | false => exact ⟨[], x :: l.takeWhile pass, by simp [hp, hl, takeWhile_append_dropWhile]⟩
      | true => exact ⟨x :: T, D, by simpa [hp, hl, hpass, htake, hdrop] using ⟨hT, hD⟩⟩

lemma InOrder.insert {l₁ l₂ : List ℕ} (h : InOrder q (l₁ ++ l₂))
    (h1 : ∀ j ∈ l₁.getLast?, Ahead q.endSector (q.rq j).pos (q.rq i).pos)
    (h2 : ∀ j ∈ l₂, Ahead q.endSector (q.rq i).pos (q.rq j).pos) : InOrder q (l₁ ++ i :: l₂) := by
  obtain ⟨hl1, hl2, hcross⟩ := pairwise_append.1 h
  have hlast : ∀ j ∈ l₁, Ahead q.endSector (q.rq j).pos (q.rq i).pos := by
    rcases eq_nil_or_concat l₁ with rfl | ⟨l, d, rfl⟩
    · nofun
    · rw [concat_eq_append] at *
      have hd := h1 d (by simp)
      intro j hj
      rcases mem_append.1 hj with hj | hj
      · exact ((pairwise_append.1 hl1).2.2 j hj d (by simp)).trans hd
      · rwa [mem_singleton.1 hj]
  refine pairwise_append.2 ⟨hl1, pairwise_cons.2 ⟨h2, hl2⟩, fun j hj k hk => ?_⟩
  rcases mem_cons.1 hk with rfl | hk
  · exact hlast j hj
  · exact hcross j hj k hk

/-- The open part stays in order, and `i` is in it if it has no stop flag itself. -/
theorem dispatch_order (q : Queue) (i : ℕ) (h : InOrder q (openPart q i q.dispatch)) :
    ∃ l₁ l₂, Placed q i l₁ l₂ ∧
      ((q.rq i).stops = false → openPart q i (dispatchSort q i) = l₁ ++ i :: l₂) := by
  obtain ⟨T, D, hopen, htake, hdrop, hT, hD⟩ :=
    exists_takeWhile_and (fun j => passable (q.rq i) (q.rq j))
      (fun j => decide (¬ Ahead q.endSector (q.rq j).pos (q.rq i).pos)) q.dispatch.reverse
  have hlist : dispatchSort q i = closedPart q i q.dispatch ++ (D.reverse ++ i :: T.reverse) := by
    simp only [dispatchSort, goesBefore_eq, htake, hdrop, closedPart, reverse_append, append_assoc]
  have hparts : openPart q i q.dispatch = D.reverse ++ T.reverse := by
    rw [openPart, hopen, reverse_append]
  rw [hparts] at h
  have hlate : ∀ j ∈ T.reverse, _ := fun j hj =>
    ahead_of_not (of_decide_eq_true (hT j (mem_reverse.1 hj)))
  refine ⟨D.reverse, T.reverse, ⟨hparts, hlist, h.insert ?_ fun j hj => (hlate j hj).1,
    fun j hj => (hlate j hj).2⟩, fun hstop => ?_⟩
  · rw [getLast?_reverse]
    exact fun j hj => not_not.1 (of_decide_eq_false (hD j hj))
  · have hpass : ∀ j ∈ T ++ i :: D, passable (q.rq i) (q.rq j) = true := by
      intro j hj
      rw [mem_append, mem_cons, or_left_comm, ← mem_append, ← hopen] at hj
      rcases hj with rfl | hj
      · simp [passable, hstop]
      · exact mem_takeWhile_imp (p := fun j => passable (q.rq i) (q.rq j)) hj
    rw [hlist, openPart, closedPart]
    simp only [reverse_append, reverse_cons, reverse_reverse, append_assoc, singleton_append]
    rw [← append_assoc, takeWhile_append_of_pos hpass,
      takeWhile_eq_nil_iff.2 (dropWhile_get_zero_not _ _)]
    simp

/-- Two requests from the end sector 8 on, and one before it. -/
def elevatorQueue : Queue :=
  { sampleLimits.queue with
    rq := fun i => { sampleLimits.rq i with pos := 4 * i }
    dispatch := [2, 3, 1]
    endSector := 8 }

theorem dispatch_order_elevatorQueue : ∃ l₁ l₂, Placed elevatorQueue 0 l₁ l₂ ∧
    ((elevatorQueue.rq 0).stops = false →
      openPart elevatorQueue 0 (dispatchSort elevatorQueue 0) = l₁ ++ 0 :: l₂) :=
  dispatch_order elevatorQueue 0 (by unfold InOrder; decide)

/-- A request with a stop flag is not in the open part afterwards. -/
theorem dispatch_order_stops :
    let q := elevatorQueue.setRq 0 fun r => { r with started := true }
    InOrder q (openPart q 0 q.dispatch) ∧ dispatchSort q 0 = [2, 3, 0, 1] ∧
      openPart q 0 (dispatchSort q 0) = [1] := by
  unfold InOrder
  decide

end LklPort.BlkMerge
