import LklPort.Irq.Basic
import Mathlib.Order.Fin.Basic

/-!
# No wake-up is lost

A caller posts the semaphore only after it has queued its event, and the idle thread takes one
count from the semaphore only before it looks at every irq. So whenever the semaphore is at zero,
an event that the idle thread has already gone past in its present pass belongs to a call that has
yet to post. It does not matter that one pass may serve many posts, nor that a semaphore of NT
drops the posts above its maximum: all that counts is that a post leaves it positive.
-/

namespace LklPort.Irq

open List

attribute [local simp] IrqInfo.empty

/-! ### Events and the calls they belong to -/

/-- How many of the calls in flight have added one to the count of `i`. -/
def nodataCalls (calls : List Call) (i : IrqNo) : ℕ :=
  calls.countP fun c => c.irq = i ∧ c.event = .nodata

/-- The count of `i` does not exceed the number of calls in flight that have added to it. -/
def NodataOwned (q : IrqInfo Entry) (calls : List Call) (i : IrqNo) : Prop :=
  q.noDataCount.toInt ≤ nodataCalls calls i

/-- Each entry in the data list of `i` belongs to a call in flight. -/
def DataOwned (q : IrqInfo Entry) (calls : List Call) (i : IrqNo) : Prop :=
  ∀ e ∈ q.dataList, ∃ c ∈ calls, c.irq = i ∧ c.event = .data e

/-- The pass through the irqs that the idle thread is in, if any, looks no more at the count of
`i`. -/
def Pc.PastNodata (pc : Pc) (i : IrqNo) : Prop :=
  match pc with
  | .nodata j | .handleNodata j => i < j
  | .data j | .handleData j _ => i ≤ j
  | .outside | .top | .down | .cond => True

attribute [local simp] Pc.PastNodata

/-- The pass looks no more at the data list of `i`. -/
def Pc.PastData (pc : Pc) (i : IrqNo) : Prop :=
  match pc with
  | .nodata j | .handleNodata j | .data j | .handleData j _ => i < j
  | .outside | .top | .down | .cond => True

/-- With the semaphore at zero, what the idle thread has gone past belongs to calls in flight. -/
structure Covered (s : State) (i : IrqNo) : Prop where
  nodata : s.sem = 0 → s.pc.PastNodata i → NodataOwned (s.irqs i) s.calls i
  data : s.sem = 0 → s.pc.PastData i → DataOwned (s.irqs i) s.calls i

variable {calls : List Call} {q : IrqInfo Entry}

section

variable {s : State} {i : IrqNo} {pc : Pc}

lemma covered_of_pos (hsem : 0 < s.sem) (i : IrqNo) : Covered s i where
  nodata h := absurd h (Nat.pos_iff_ne_zero.1 hsem)
  data h := absurd h (Nat.pos_iff_ne_zero.1 hsem)

lemma covered_goto (h : ∀ i, Covered s i)
    (hn : ∀ i, pc.PastNodata i → s.pc.PastNodata i ∨ NodataOwned (s.irqs i) s.calls i)
    (hd : ∀ i, pc.PastData i → s.pc.PastData i ∨ DataOwned (s.irqs i) s.calls i) (i : IrqNo) :
    Covered { s with pc := pc } i where
  nodata hsem hpc := (hn i hpc).elim ((h i).nodata hsem) id
  data hsem hpc := (hd i hpc).elim ((h i).data hsem) id

lemma covered_modify {f : IrqInfo Entry → IrqInfo Entry} {g : History → History}
    (hself : s.sem = 0 →
      (pc.PastNodata i → NodataOwned (f (s.irqs i)) calls i) ∧
      (pc.PastData i → DataOwned (f (s.irqs i)) calls i)) (hother : ∀ j, j ≠ i → s.sem = 0 →
      (pc.PastNodata j → NodataOwned (s.irqs j) calls j) ∧
      (pc.PastData j → DataOwned (s.irqs j) calls j)) (j : IrqNo) :
    Covered { s.modify i f g with pc := pc, calls := calls } j := by
  by_cases hj : j = i
  · subst hj
    exact ⟨fun hsem => by simpa using (hself hsem).1, fun hsem => by simpa using (hself hsem).2⟩
  · have hirqs := irqs_modify_of_ne s f g hj
    refine ⟨fun hsem => ?_, fun hsem => ?_⟩
    · simpa [hirqs] using (hother j hj hsem).1
    · simpa [hirqs] using (hother j hj hsem).2

/-! ### The idle thread -/

lemma scanFrom_past (k : ℕ) (i : IrqNo) :
    ((scanFrom k).PastNodata i ↔ i < k) ∧ ((scanFrom k).PastData i ↔ i < k) := by
  unfold scanFrom
  split_ifs with hk
  · simp [Pc.PastData, Fin.lt_def]
  · simp only [Pc.PastNodata, Pc.PastData, true_iff, and_self]
    omega

lemma covered_runIrqs (h : ∀ i, Covered s i) (resched : Bool) (i : IrqNo) :
    Covered (runIrqs s resched) i := by
  unfold runIrqs
  cases hpc : s.pc with simp only
  | outside => exact h i
  | top | cond =>
    refine covered_goto h (fun _ _ => Or.inl ?_) (fun _ _ => Or.inl ?_) i <;>
      simp [hpc, Pc.PastData]
  | down =>
    -- a new pass begins, and it is past nothing
    refine ⟨fun _ hp => ?_, fun _ hp => ?_⟩
    · exact absurd ((scanFrom_past 0 i).1.1 hp) (Nat.not_lt_zero _)
    · exact absurd ((scanFrom_past 0 i).2.1 hp) (Nat.not_lt_zero _)
  | nodata j =>
    split_ifs with hpos
    · refine covered_modify (fun _ => ?_) (fun k hk hsem => ?_) i
      · simp [Pc.PastData]
      · exact ⟨fun hp => (h k).nodata hsem (hpc ▸ hp), fun hp => (h k).data hsem (hpc ▸ hp)⟩
    · refine covered_goto h (fun k hk => ?_) (fun k hk => ?_) i
      · rcases lt_or_eq_of_le (show k ≤ j from hk) with hlt | rfl
        · exact Or.inl (hpc ▸ hlt)
        · -- the count of `k` was not positive
          exact Or.inr (by unfold NodataOwned; omega)
      · exact Or.inl (hpc ▸ hk)
  | handleNodata j | handleData j _ =>
    refine covered_modify (fun hsem => ?_) (fun k _ hsem => ?_) i
    · exact ⟨fun hp => (h j).nodata hsem (hpc ▸ hp), fun hp => (h j).data hsem (hpc ▸ hp)⟩
    · exact ⟨fun hp => (h k).nodata hsem (hpc ▸ hp), fun hp => (h k).data hsem (hpc ▸ hp)⟩
  | data j =>
    split
    · refine covered_modify (fun hsem => ⟨fun hp => ?_, fun hp => ?_⟩) (fun k _ hsem => ?_) i
      · exact (h j).nodata hsem (hpc ▸ hp)
      · exact absurd hp (lt_irrefl j)
      · exact ⟨fun hp => (h k).nodata hsem (hpc ▸ hp), fun hp => (h k).data hsem (hpc ▸ hp)⟩
    · rename_i hl
      refine covered_goto h (fun k hk => ?_) (fun k hk => ?_) i
      · exact Or.inl (hpc ▸ Nat.lt_succ_iff.1 ((scanFrom_past _ k).1.1 hk))
      · rcases lt_or_eq_of_le (Nat.lt_succ_iff.1 ((scanFrom_past _ k).2.1 hk)) with hlt | heq
        · exact Or.inl (hpc ▸ hlt)
        · -- the list of `j` was empty
          rw [Fin.ext heq]
          exact Or.inr (by simp [DataOwned, hl])


/-! ### The callers -/

lemma toInt_add_one_le (x : BitVec 32) : (x + 1).toInt ≤ x.toInt + 1 := by
  have hle := BitVec.le_toInt (x := x)
  rw [BitVec.toInt_add, show (1 : BitVec 32).toInt = 1 from by decide]
  by_cases hmax : x.toInt + 1 < 2 ^ 31
  · exact (Int.bmod_eq_of_le (by omega) (by omega)).le
  · -- the count wraps to a negative number
    have := Int.bmod_lt (x := x.toInt + 1) (m := 2 ^ 32) (by decide)
    omega

lemma NodataOwned.mono (h : NodataOwned q calls i) (c : Call) : NodataOwned q (c :: calls) i := by
  have hle : nodataCalls calls i ≤ nodataCalls (c :: calls) i := by
    simp only [nodataCalls, countP_cons]
    omega
  exact le_trans h (by exact_mod_cast hle)

lemma DataOwned.mono (h : DataOwned q calls i) (c : Call) : DataOwned q (c :: calls) i := by
  intro e he
  obtain ⟨c', hc', hown⟩ := h e he
  exact ⟨c', mem_cons_of_mem c hc', hown⟩

lemma NodataOwned.trigger (h : NodataOwned q calls i) (t : ThreadId) :
    NodataOwned q.trigger (⟨t, i, .nodata⟩ :: calls) i := by
  have hadd := toInt_add_one_le q.noDataCount
  unfold NodataOwned nodataCalls at h ⊢
  simp only [IrqInfo.trigger, countP_cons, and_self, decide_true, if_true]
  omega

lemma DataOwned.triggerWithData (h : DataOwned q calls i) (t : ThreadId) (e : Entry) :
    DataOwned (q.triggerWithData e) (⟨t, i, .data e⟩ :: calls) i := by
  intro e' he'
  rcases List.mem_append.1 he' with he' | he'
  · exact h.mono _ e' he'
  · rw [List.mem_singleton.1 he']
    exact ⟨_, mem_cons_self, rfl, rfl⟩

end

lemma covered_next (kind : SemKind) (s : State) (a : Act) (h : ∀ i, Covered s i)
    (ha : guard s a) (i : IrqNo) : Covered (next kind s a) i := by
  cases a with
  | triggerIrq t j =>
    refine covered_modify (fun hsem => ?_) (fun k _ hsem => ?_) i
    · exact ⟨fun hp => ((h j).nodata hsem hp).trigger t, fun hp => ((h j).data hsem hp).mono _⟩
    · exact ⟨fun hp => ((h k).nodata hsem hp).mono _, fun hp => ((h k).data hsem hp).mono _⟩
  | triggerIrqWithData t j _ alloc =>
    cases alloc with
    | false => exact h i
    | true =>
      refine covered_modify (fun hsem => ?_) (fun k _ hsem => ?_) i
      · exact ⟨fun hp => ((h j).nodata hsem hp).mono _,
          fun hp => ((h j).data hsem hp).triggerWithData t _⟩
      · exact ⟨fun hp => ((h k).nodata hsem hp).mono _, fun hp => ((h k).data hsem hp).mono _⟩
  | semUp => exact covered_of_pos (semUp_pos kind s.sem) i
  | purgeIrqQueue _ j =>
    have hmodify : ∀ g, Covered (s.modify j IrqInfo.purge g) i := by
      intro g
      refine covered_modify (fun _ => ⟨fun _ => ?_, fun _ => ?_⟩)
        (fun k _ hsem => ⟨(h k).nodata hsem, (h k).data hsem⟩) i
      · simp [NodataOwned, IrqInfo.purge]
      · simp [DataOwned, IrqInfo.purge]
    unfold next purgeIrqQueue
    exact hmodify _
  | machineHalt => exact ⟨(h i).nodata, (h i).data⟩
  | enter =>
    have hpc : s.pc = .outside := ha
    exact covered_goto h (fun _ _ => Or.inl (by simp [hpc]))
      (fun _ _ => Or.inl (by simp [hpc, Pc.PastData])) i
  | runIrqs resched => exact covered_runIrqs h resched i

lemma covered_of_reachable {kind : SemKind} {s : State} (h : (machine kind).Reachable s) :
    ∀ i, Covered s i := by
  refine h.invariant (fun i => ⟨fun _ _ => ?_, fun _ _ => ?_⟩) (covered_next kind)
  · simp [machine, State.init, NodataOwned]
  · simp [machine, State.init, DataOwned]

/-- When the idle thread is blocked in `run_irqs`, every event still queued belongs to a call that
has not posted the semaphore yet. -/
theorem no_lost_wakeup (kind : SemKind) (s : State) (h : (machine kind).Reachable s)
    (hpc : s.pc = .down) (hsem : s.sem = 0) (i : IrqNo) :
    (∀ e ∈ (s.irqs i).dataList, ∃ c ∈ s.calls, c.irq = i ∧ c.event = .data e) ∧
      (s.irqs i).noDataCount.toInt ≤ nodataCalls s.calls i := by
  have hi := covered_of_reachable h i
  have hdown : s.pc.PastNodata i ∧ s.pc.PastData i := by
    rw [hpc]
    exact ⟨trivial, trivial⟩
  exact ⟨hi.data hsem hdown.2, hi.nodata hsem hdown.1⟩

/-- The idle thread has served a packet and is blocked again while a packet and a timer interrupt
are queued and not announced yet. -/
def blockedRun : List Act :=
  [.triggerIrqWithData 1 ethIrq 10 true, .semUp 1, .enter] ++ List.replicate 14 (.runIrqs false) ++
  [.triggerIrqWithData 1 ethIrq 11 true, .triggerIrq 2 timerIrq]

def blockedState : State := (machine .nt).runFrom .init blockedRun

theorem no_lost_wakeup_blockedState : blockedState.pc = .down ∧ blockedState.sem = 0 ∧
      (blockedState.irqs ethIrq).dataList = [⟨1, 11⟩] ∧
      (∃ c ∈ blockedState.calls, c.irq = ethIrq ∧ c.event = .data ⟨1, 11⟩) ∧
      (blockedState.irqs timerIrq).noDataCount.toInt ≤ nodataCalls blockedState.calls timerIrq := by
  have h := Machine.reachable_of_admits (M := machine .nt) blockedRun (by decide)
  refine ⟨by decide, by decide, by decide, ?_, ?_⟩
  · exact (no_lost_wakeup .nt _ h (by decide) (by decide) ethIrq).1 ⟨1, 11⟩ (by decide)
  · exact (no_lost_wakeup .nt _ h (by decide) (by decide) timerIrq).2

end LklPort.Irq
