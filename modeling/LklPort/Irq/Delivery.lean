import LklPort.Irq.Basic
import Mathlib.Data.List.Nodup
import Mathlib.Data.List.Range
import Mathlib.Tactic.Ring

/-!
# Every interrupt is delivered once and in order

What happens to one irq is an account of three things: its queues, what the idle thread has taken
out of them and not yet passed to `do_IRQ`, and its history. Data never get lost or reordered. The
count of the interrupts without data is an `int`, and the account balances up to `2 ^ 32` for each
time it overflows.
-/

namespace LklPort.Irq

open List

/-! ### The account of one irq -/

/-- The data of `i` that the idle thread has in hand. -/
def Pc.hand (pc : Pc) (i : IrqNo) : List Entry :=
  match pc with
  | .handleData j e => if j = i then [e] else []
  | _ => []

attribute [local simp] Pc.hand

/-- The interrupts of `i` without data that the idle thread has in hand. -/
def Pc.handNodata (pc : Pc) (i : IrqNo) : ℕ :=
  match pc with
  | .handleNodata j => if j = i then 1 else 0
  | _ => 0

attribute [local simp] Pc.handNodata

/-- The idle thread has nothing in hand. -/
def Pc.EmptyHanded (pc : Pc) : Prop := ∀ i, pc.hand i = [] ∧ pc.handNodata i = 0

/-- What the queues of an irq, what is in hand and the history have to do with each other. -/
structure Account (q : IrqInfo Entry) (hand : List Entry) (handNodata : ℕ) (h : History) :
    Prop where
  numbered : h.enqueued.map Entry.seq = List.range h.enqueued.length
  purged_sub : ∀ e ∈ h.purged, e ∈ h.enqueued
  order : h.delivered ++ hand ++ q.dataList = h.enqueued.filter (· ∉ h.purged)
  count : (h.handled + handNodata + q.noDataCount.toInt + h.discarded + 2 ^ 32 * h.overflows : ℤ) =
    h.triggered

variable {e : Entry} {f : IrqInfo Entry → IrqInfo Entry} {g : History → History}

namespace Account

variable {q : IrqInfo Entry} {hand : List Entry} {handNodata : ℕ} {h : History}

section

variable (hq : Account q hand handNodata h)

include hq

lemma nodup : h.enqueued.Nodup :=
  List.Nodup.of_map Entry.seq (hq.numbered ▸ nodup_range)

lemma seq_lt (he : e ∈ h.enqueued) : e.seq < h.enqueued.length := by
  have := mem_map_of_mem (f := Entry.seq) he
  rwa [hq.numbered, mem_range] at this

lemma trigger : Account q.trigger hand handNodata
      { h with
        triggered := h.triggered + 1
        overflows := h.overflows + if q.noDataCount = BitVec.intMax 32 then 1 else 0 } := by
  refine ⟨hq.numbered, hq.purged_sub, hq.order, ?_⟩
  have hcount := hq.count
  simp only [IrqInfo.trigger]
  split_ifs with hmax
  · rw [hmax] at hcount ⊢
    have h1 : (BitVec.intMax 32).toInt = 2 ^ 31 - 1 := by decide
    have h2 : (BitVec.intMax 32 + 1).toInt = - 2 ^ 31 := by decide
    omega
  · have hsucc : (q.noDataCount + 1).toInt = q.noDataCount.toInt + 1 := by
      have hne : q.noDataCount.toInt ≠ 2 ^ 31 - 1 := fun h =>
        hmax (BitVec.eq_of_toInt_eq (h.trans (by decide)))
      have hlt := BitVec.toInt_lt (x := q.noDataCount)
      have hle := BitVec.le_toInt (x := q.noDataCount)
      rw [BitVec.toInt_add, show (1 : BitVec 32).toInt = 1 from by decide]
      exact Int.bmod_eq_of_le (by omega) (by omega)
    omega

lemma triggerWithData (d : ℕ) : Account (q.triggerWithData ⟨h.enqueued.length, d⟩) hand handNodata
      { h with enqueued := h.enqueued ++ [⟨h.enqueued.length, d⟩] } where
  numbered := by simp [hq.numbered, range_succ]
  purged_sub e he := mem_append_left _ (hq.purged_sub e he)
  order := by
    have hnew : (⟨h.enqueued.length, d⟩ : Entry) ∉ h.purged := fun he =>
      (hq.seq_lt (hq.purged_sub _ he)).false
    rw [filter_append, ← hq.order]
    simp [IrqInfo.triggerWithData, hnew]
  count := hq.count

lemma purge : Account q.purge hand handNodata
      { h with
        purged := h.purged ++ q.dataList
        discarded := h.discarded + q.noDataCount.toInt } where
  numbered := hq.numbered
  purged_sub e he := by
    rcases List.mem_append.1 he with he | he
    · exact hq.purged_sub e he
    · have : e ∈ h.enqueued.filter (· ∉ h.purged) :=
        hq.order ▸ mem_append_right _ he
      exact mem_of_mem_filter this
  order := by
    -- nothing in front of the purged entries is one of them
    have hnodup : (h.delivered ++ hand ++ q.dataList).Nodup := hq.order ▸ hq.nodup.filter _
    have hdisj := (List.nodup_append.1 hnodup).2.2
    have hfilter : h.enqueued.filter (· ∉ h.purged ++ q.dataList) =
        (h.enqueued.filter (· ∉ h.purged)).filter (· ∉ q.dataList) := by
      rw [filter_filter]
      refine filter_congr fun e _ => ?_
      simp [and_comm]
    rw [hfilter, ← hq.order, filter_append]
    have hfront : (h.delivered ++ hand).filter (· ∉ q.dataList) = h.delivered ++ hand :=
      List.filter_eq_self.2 fun e he => by simpa using fun he' => hdisj e he e he' rfl
    have hback : q.dataList.filter (· ∉ q.dataList) = [] :=
      List.filter_eq_nil_iff.2 fun e he => by simpa using he
    rw [hfront, hback]
    simp [IrqInfo.purge, IrqInfo.empty]
  count := by
    have hcount := hq.count
    have hzero : (0 : BitVec 32).toInt = 0 := by decide
    simp only [IrqInfo.purge, IrqInfo.empty, hzero]
    omega

end

lemma dequeueData {l : List Entry} (hq : Account q [] handNodata h) (hl : q.dataList = e :: l) :
    Account q.dequeueData [e] handNodata h where
  numbered := hq.numbered
  purged_sub := hq.purged_sub
  order := by rw [← hq.order]; simp [IrqInfo.dequeueData, hl]
  count := hq.count

lemma deliver (hq : Account q [e] handNodata h) :
    Account q [] handNodata { h with delivered := h.delivered ++ [e] } where
  numbered := hq.numbered
  purged_sub := hq.purged_sub
  order := by rw [← hq.order]; simp
  count := hq.count

lemma dequeueNodata (hq : Account q hand 0 h) (hpos : 0 < q.noDataCount.toInt) :
    Account q.dequeueNodata hand 1 h where
  numbered := hq.numbered
  purged_sub := hq.purged_sub
  order := hq.order
  count := by
    have hcount := hq.count
    have hlt := BitVec.toInt_lt (x := q.noDataCount)
    have hpred : (q.noDataCount - 1).toInt = q.noDataCount.toInt - 1 := by
      rw [BitVec.toInt_sub, show (1 : BitVec 32).toInt = 1 from by decide]
      exact Int.bmod_eq_of_le (by omega) (by omega)
    simp only [IrqInfo.dequeueNodata, hpred]
    omega

lemma handle (hq : Account q hand 1 h) : Account q hand 0 { h with handled := h.handled + 1 } where
  numbered := hq.numbered
  purged_sub := hq.purged_sub
  order := hq.order
  count := by
    have hcount := hq.count
    push_cast at hcount ⊢
    omega

end Account

/-! ### The account of every irq in a run -/

/-- The account of `i` balances in `s`. -/
def State.Balanced (s : State) (i : IrqNo) : Prop :=
  Account (s.irqs i) (s.pc.hand i) (s.pc.handNodata i) (s.hist i)

attribute [local simp] State.Balanced

section

variable {s : State} {i : IrqNo} {pc : Pc}

section

variable (h : ∀ j, s.Balanced j)

include h

lemma balanced_modify (hself : Account (f (s.irqs i)) (pc.hand i) (pc.handNodata i) (g (s.hist i)))
    (hother : ∀ j, j ≠ i → pc.hand j = s.pc.hand j ∧ pc.handNodata j = s.pc.handNodata j)
    (j : IrqNo) : { s.modify i f g with pc := pc }.Balanced j := by
  by_cases hj : j = i
  · subst hj
    simpa using hself
  · have hpc := hother j hj
    simp only [State.Balanced, irqs_modify_of_ne s f g hj, hist_modify_of_ne s f g hj, hpc]
    exact h j

lemma balanced_modify_queues
    (hself : Account (f (s.irqs i)) (s.pc.hand i) (s.pc.handNodata i) (g (s.hist i))) (j : IrqNo) :
    (s.modify i f g).Balanced j :=
  balanced_modify h hself (fun _ _ => ⟨rfl, rfl⟩) j

lemma balanced_goto (hs : s.pc.EmptyHanded) (hpc : pc.EmptyHanded)
    (j : IrqNo) : { s with pc := pc }.Balanced j := by
  have hj := h j
  simp only [State.Balanced, hs j, hpc j] at hj ⊢
  exact hj

end

lemma emptyHanded_scanFrom (k : ℕ) : (scanFrom k).EmptyHanded := by
  unfold scanFrom
  split_ifs <;> exact fun _ => ⟨rfl, rfl⟩

lemma balanced_runIrqs (h : ∀ j, s.Balanced j) (resched : Bool) (j : IrqNo) :
    (runIrqs s resched).Balanced j := by
  unfold runIrqs
  cases hpc : s.pc with simp only
  | outside => exact h j
  | top =>
    refine balanced_goto h (hpc ▸ fun _ => ⟨rfl, rfl⟩) ?_ j
    split_ifs
    · exact emptyHanded_scanFrom 0
    · exact fun _ => ⟨rfl, rfl⟩
  | down => exact balanced_goto h (hpc ▸ fun _ => ⟨rfl, rfl⟩) (emptyHanded_scanFrom 0) j
  | nodata i =>
    have hi : Account (s.irqs i) [] 0 (s.hist i) := by
      simpa [hpc] using h i
    split_ifs with hpos
    · refine balanced_modify h ?_ (fun k hk => ?_) j
      · simpa using hi.dequeueNodata hpos
      · simp [hpc, Ne.symm hk]
    · exact balanced_goto h (hpc ▸ fun _ => ⟨rfl, rfl⟩) (fun _ => ⟨rfl, rfl⟩) j
  | handleNodata i =>
    have hi : Account (s.irqs i) [] 1 (s.hist i) := by
      simpa [hpc] using h i
    refine balanced_modify h hi.handle (fun k hk => ?_) j
    simp [hpc, Ne.symm hk]
  | data i =>
    have hi : Account (s.irqs i) [] 0 (s.hist i) := by
      simpa [hpc] using h i
    split
    · rename_i e l hl
      refine balanced_modify h ?_ (fun k hk => ?_) j
      · simpa using hi.dequeueData hl
      · simp [hpc, Ne.symm hk]
    · exact balanced_goto h (hpc ▸ fun _ => ⟨rfl, rfl⟩) (emptyHanded_scanFrom _) j
  | handleData i e =>
    have hi : Account (s.irqs i) [e] 0 (s.hist i) := by
      simpa [hpc] using h i
    refine balanced_modify h hi.deliver (fun k hk => ?_) j
    simp [hpc, Ne.symm hk]
  | cond =>
    refine balanced_goto h (hpc ▸ fun _ => ⟨rfl, rfl⟩) ?_ j
    split_ifs <;> exact fun _ => ⟨rfl, rfl⟩

end

lemma balanced_next (kind : SemKind) (s : State) (a : Act) (h : ∀ j, s.Balanced j)
    (ha : guard s a) (j : IrqNo) : (next kind s a).Balanced j := by
  cases a with
  | triggerIrq _ i => exact balanced_modify h (h i).trigger (fun _ _ => ⟨rfl, rfl⟩) j
  | triggerIrqWithData _ i d alloc =>
    cases alloc with
    | false => exact h j
    | true => exact balanced_modify h ((h i).triggerWithData d) (fun _ _ => ⟨rfl, rfl⟩) j
  | semUp | machineHalt => exact h j
  | purgeIrqQueue _ i => exact balanced_modify_queues h (h i).purge j
  | enter =>
    have hpc : s.pc = .outside := ha
    exact balanced_goto h (hpc ▸ fun _ => ⟨rfl, rfl⟩) (fun _ => ⟨rfl, rfl⟩) j
  | runIrqs resched => exact balanced_runIrqs h resched j

lemma balanced_of_reachable {kind : SemKind} {s : State} (h : (machine kind).Reachable s) :
    ∀ i, s.Balanced i := by
  refine h.invariant ?_ (balanced_next kind)
  intro i
  constructor <;> simp [machine, State.init, History.empty, IrqInfo.empty]

/-! ### Delivery -/

/-- The data passed to `do_IRQ`, those in hand and those in the list are, in this order, all the
data enqueued and not purged, where each one has its own number. -/
def DataLaw (s : State) (i : IrqNo) : Prop :=
  (s.hist i).enqueued.map Entry.seq = List.range (s.hist i).enqueued.length ∧
    (s.hist i).delivered ++ s.pc.hand i ++ (s.irqs i).dataList =
      (s.hist i).enqueued.filter (· ∉ (s.hist i).purged)

/-- The interrupts without data that were handled, are in hand, are counted or were discarded are
all those triggered. -/
def CountLaw (s : State) (i : IrqNo) : Prop :=
  ((s.hist i).handled + s.pc.handNodata i + (s.irqs i).noDataCount.toInt + (s.hist i).discarded : ℤ)
    = (s.hist i).triggered

/-- Data are delivered once and in order in every run. The count of the interrupts without data is
right exactly as long as no call of `lkl_trigger_irq` finds it at `INT_MAX`. -/
theorem irq_delivery (kind : SemKind) (s : State) (h : (machine kind).Reachable s) (i : IrqNo) :
    DataLaw s i ∧ (s.hist i).delivered <+: (s.hist i).enqueued.filter (· ∉ (s.hist i).purged) ∧
      (CountLaw s i ↔ (s.hist i).overflows = 0) := by
  have hi := balanced_of_reachable h i
  refine ⟨⟨hi.numbered, hi.order⟩, ?_, ?_⟩
  · rw [← hi.order, append_assoc]
    exact prefix_append _ _
  · have hcount := hi.count
    unfold CountLaw
    omega

/-- Two packets and a timer interrupt arrive; the idle thread takes the first packet, the network
device is purged, and a third packet arrives. -/
def ethRun : List Act :=
  [.triggerIrqWithData 1 ethIrq 10 true, .triggerIrq 2 timerIrq,
    .triggerIrqWithData 3 ethIrq 11 true, .semUp 1, .semUp 2, .enter] ++
  List.replicate 12 (.runIrqs false) ++
  [.purgeIrqQueue 1 ethIrq, .triggerIrqWithData 1 ethIrq 12 true, .runIrqs false]

theorem irq_delivery_ethRun : DataLaw ((machine .nt).runFrom .init ethRun) ethIrq ∧
      CountLaw ((machine .nt).runFrom .init ethRun) timerIrq ∧
      (((machine .nt).runFrom .init ethRun).hist ethIrq).delivered = [⟨0, 10⟩] ∧
      (((machine .nt).runFrom .init ethRun).irqs ethIrq).dataList = [⟨2, 12⟩] := by
  have h := Machine.reachable_of_admits (M := machine .nt) ethRun (by decide)
  refine ⟨(irq_delivery .nt _ h ethIrq).1, (irq_delivery .nt _ h timerIrq).2.2.2 ?_, ?_, ?_⟩
  all_goals decide

lemma exists_reachable_triggered (kind : SemKind) (i : IrqNo) (n : ℕ) :
    ∃ s, (machine kind).Reachable s ∧ s.calls = [] ∧ s.pc = .outside ∧
      (s.irqs i).noDataCount = BitVec.ofNat 32 n ∧
      (s.hist i).triggered = n ∧ (s.hist i).handled = 0 ∧ (s.hist i).discarded = 0 := by
  induction n with
  | zero => exact ⟨.init, .init, rfl, rfl, rfl, rfl, rfl, rfl⟩
  | succ _ ih =>
    obtain ⟨s, hs, hcalls, hpc, hcount, htrig, hhandled, hdisc⟩ := ih
    have h1 := hs.step (.triggerIrq 0 i) (show s.Free 0 by simp [State.Free, hcalls])
    have h2 := h1.step (.semUp 0) (show ¬ (triggerIrq s 0 i).Free 0 by
      simp [State.Free, triggerIrq])
    refine ⟨_, h2, ?_, hpc, ?_, ?_, ?_, ?_⟩
    · simp [machine, next, triggerIrq, hcalls]
    · simp [machine, next, triggerIrq, IrqInfo.trigger, hcount, BitVec.ofNat_add]
    all_goals simp [machine, next, triggerIrq, htrig, hhandled, hdisc]

/-- After `2 ^ 31` triggers the count is negative, and `dequeue_nodata` finds nothing to do. -/
theorem not_countLaw_overflow :
    ∃ s, (machine .counting).Reachable s ∧ (s.hist timerIrq).triggered = 2 ^ 31 ∧
      (s.hist timerIrq).handled = 0 ∧ (s.hist timerIrq).discarded = 0 ∧
      (s.irqs timerIrq).noDataCount.toInt = - 2 ^ 31 ∧ ¬ CountLaw s timerIrq := by
  obtain ⟨s, hs, -, hpc, hcount, htrig, hhandled, hdisc⟩ :=
    exists_reachable_triggered .counting timerIrq (2 ^ 31)
  have hneg : (s.irqs timerIrq).noDataCount.toInt = - 2 ^ 31 := by
    rw [hcount]
    decide
  refine ⟨s, hs, htrig, hhandled, hdisc, hneg, ?_⟩
  simp [CountLaw, hneg, htrig, hhandled, hdisc, hpc]

end LklPort.Irq
