import LklPort.Eth.Ring

/-!
# Devices and each other's frames

A run in which a device is opened and stopped can be compared with the run without it: the steps
of that device are left out, those of its thread and the handling of its data included. What the
other devices deliver is the same, with one exception. The purge in `stop` empties the list of
data that all devices share, and the frames of the others that wait there are gone.
-/

namespace LklPort.Eth

open List Function

attribute [local simp] State.modify Irq.IrqInfo.empty Kernel.stopping

/-! ### A run without a device -/

/-- The device that a step is for. -/
def Act.dev (s : State) : Act → Option DevId
  | .openDev d _ | .stop d | .join d | .purge d | .poll d _ | .getRxDesc d | .recv d _
  | .trigger d _ => some d
  | .runIrqs _ =>
    match s.kernel with
    | .idle => s.irq.dataList.head?.map (·.dev)
    | k => k.dev

attribute [local simp] Kernel.dev

/-- The step is one of the device `d`. -/
def OfDev (d : DevId) (s : State) (a : Act) : Prop := a.dev s = some d
  deriving Decidable

/-- A `stop` of `d` finds no data but its own. -/
def PurgesOwn (d : DevId) (s : State) (a : Act) : Prop :=
  a = .purge d → ∀ x ∈ s.irq.dataList, x.dev = d
  deriving Decidable

/-- What the kernel does when it is not busy with `d`. -/
def Kernel.without (k : Kernel) (d : DevId) : Kernel := if k.dev = some d then .idle else k

/-- The state as it is without the device `d`. -/
def State.erase (ring : DevId → ℕ) (d : DevId) (s : State) : State where
  devs := update s.devs d (.init (ring d))
  irq := ⟨s.irq.dataList.filter (·.dev ≠ d), 0⟩
  kernel := s.kernel.without d

section

variable {ring : DevId → ℕ} {s : State} {d d' : DevId} {k : Kernel} {f : Dev → Dev}

lemma without_of_ne (h : k.dev ≠ some d) : k.without d = k := if_neg h

@[simp] lemma Kernel.without_idle : Kernel.idle.without d = .idle := by simp [Kernel.without]

lemma erase_init : (State.init ring).erase ring d = .init ring := by
  simp [State.erase, State.init]

lemma erase_devs_of_ne (h : d' ≠ d) : (s.erase ring d).devs d' = s.devs d' := by
  simp [State.erase, h]

lemma erase_kernel (h : s.kernel.dev ≠ some d) : (s.erase ring d).kernel = s.kernel :=
  without_of_ne h

lemma erase_modify_self : (s.modify d f).erase ring d = s.erase ring d := by
  simp [State.erase]

lemma erase_modify_of_ne (h : d' ≠ d) :
    (s.modify d' f).erase ring d = (s.erase ring d).modify d' f := by
  simp [State.erase, h, update_comm h]

lemma erase_set_self (hk : k.without d = s.kernel.without d) :
    State.erase ring d { s.modify d f with kernel := k } = s.erase ring d := by
  simp [State.erase, hk]

lemma erase_set_of_ne (h : d' ≠ d) (hk : k.dev ≠ some d) :
    State.erase ring d { s.modify d' f with kernel := k } =
      { (s.erase ring d).modify d' f with kernel := k } := by
  simp [State.erase, h, update_comm h, without_of_ne hk]

lemma queued_erase_of_ne (h : d' ≠ d) : (s.erase ring d).queued d' = s.queued d' := by
  simp only [State.queued, State.erase, filter_filter]
  congr 1
  apply filter_congr
  intro x _
  by_cases hx : x.dev = d' <;> simp [hx, h]

lemma queued_erase_self : (s.erase ring d).queued d = [] := by
  simp [State.queued, State.erase, filter_filter]

lemma erase_next_self {a : Act} (ha : guard s a) (hown : PurgesOwn d s a) (hd : OfDev d s a) :
    (next s a).erase ring d = s.erase ring d := by
  cases a with
  | openDev d' _ | poll d' _ | getRxDesc d' | recv d' _ =>
    obtain rfl : d' = d := Option.some.inj hd
    exact erase_modify_self
  | stop d' | join d' =>
    obtain rfl : d' = d := Option.some.inj hd
    exact erase_set_self (by simp [Kernel.without, ha.1])
  | purge d' =>
    obtain rfl : d' = d := Option.some.inj hd
    have hk : s.kernel = .purge d' := ha
    have hdata := hown rfl
    have hqueued {c : DevId} (hc : c ≠ d') : s.queued c = [] := by
      simp only [State.queued, map_eq_nil_iff, filter_eq_nil_iff]
      intro x hx
      simp [hdata x hx, Ne.symm hc]
    have hdevs : update (purge s).devs d' (.init (ring d')) =
        update s.devs d' (.init (ring d')) := by
      funext c
      by_cases hc : c = d'
      · simp [hc]
      · simp [hc, purge, hqueued hc]
    have hfilter : s.irq.dataList.filter (·.dev ≠ d') = [] := by
      simpa using hdata
    simp only [next, State.erase, hdevs, hfilter, hk]
    simp [purge, Irq.IrqInfo.purge, Kernel.without]
  | runIrqs =>
    simp only [OfDev, Act.dev] at hd
    cases hk : s.kernel with
    | idle =>
      rw [hk] at hd
      cases hx : s.irq.dataList with
      | nil => simp [hx] at hd
      | cons x =>
        have hxd : x.dev = d := by simpa [hx] using hd
        simp [next, runIrqs, hk, dequeue, hx, State.erase, Irq.IrqInfo.dequeueData, hxd,
          Kernel.without]
    | handle x | reload x =>
      rw [hk] at hd
      obtain rfl : x.dev = d := Option.some.inj hd
      simp only [next, runIrqs, hk, netifRx, reload]
      exact erase_set_self (by simp [Kernel.without, hk])
    | join d' | purge d' => simp [guard, hk] at ha
  | trigger d' alloc =>
    obtain rfl : d' = d := Option.some.inj hd
    obtain ⟨e, hrx⟩ := ha
    cases alloc with
    | false =>
      simp only [next, trigger, hrx, Bool.false_eq_true, if_false]
      exact erase_modify_self
    | true =>
      simp [next, trigger, hrx, State.erase, Irq.IrqInfo.triggerWithData]

lemma erase_next_of_ne {a : Act} (ha : guard s a) (hd : ¬ OfDev d s a) :
    guard (s.erase ring d) a ∧ next (s.erase ring d) a = (next s a).erase ring d := by
  cases a with
  | openDev d' =>
    have hne : d' ≠ d := fun h => hd (congrArg some h)
    have hk := @erase_kernel ring s d (by simp [ha.1])
    exact ⟨⟨hk.trans ha.1, by rw [erase_devs_of_ne hne]; exact ha.2⟩,
      by simp only [next, erase_modify_of_ne hne]⟩
  | stop d' | join d' =>
    have hne : d' ≠ d := fun h => hd (congrArg some h)
    have hk := @erase_kernel ring s d (by simp [ha.1, hne])
    refine ⟨⟨hk.trans ha.1, by rw [erase_devs_of_ne hne]; exact ha.2⟩, ?_⟩
    exact (erase_set_of_ne hne (by simpa using hne)).symm
  | purge d' =>
    have hne : d' ≠ d := fun h => hd (congrArg some h)
    have hk : s.kernel = .purge d' := ha
    refine ⟨(erase_kernel (by simp [hk, hne])).trans hk, ?_⟩
    have hdevs : (purge (s.erase ring d)).devs = update (purge s).devs d (.init (ring d)) := by
      funext c
      by_cases hc : c = d
      · subst hc
        simp [purge, queued_erase_self]
        simp [State.erase, Dev.init]
      · simp [purge, hc, queued_erase_of_ne hc, erase_devs_of_ne hc]
    simp only [next, State.erase, ← hdevs]
    simp [purge, Irq.IrqInfo.purge]
  | runIrqs =>
    simp only [OfDev, Act.dev] at hd
    cases hk : s.kernel with
    | idle =>
      have hk' : (s.erase ring d).kernel = .idle := by simp [State.erase, hk]
      refine ⟨by simp [guard, hk'], ?_⟩
      rw [hk] at hd
      simp only [next, runIrqs, hk, hk']
      cases hx : s.irq.dataList with
      | nil => simp [dequeue, hx, State.erase]
      | cons x =>
        have hxd : x.dev ≠ d := by simpa [hx] using hd
        simp [dequeue, hx, State.erase, hxd, Irq.IrqInfo.dequeueData, Kernel.without]
    | handle x | reload x =>
      rw [hk] at hd
      have hxd : x.dev ≠ d := fun h => hd (congrArg some h)
      have hk' := (@erase_kernel ring s d (by simp [hk, hxd])).trans hk
      refine ⟨by simp [guard, hk'], ?_⟩
      simp only [next, runIrqs, hk, hk', netifRx, reload]
      exact (erase_set_of_ne hxd (by simp [hxd])).symm
    | join d' | purge d' => simp [guard, hk] at ha
  | poll d' _ | getRxDesc d' | recv d' _ =>
    have hne : d' ≠ d := fun h => hd (congrArg some h)
    refine ⟨?_, by simp only [next, erase_modify_of_ne hne]⟩
    simpa only [guard, erase_devs_of_ne hne] using ha
  | trigger d' alloc =>
    have hne : d' ≠ d := fun h => hd (congrArg some h)
    refine ⟨by simpa only [guard, erase_devs_of_ne hne] using ha, ?_⟩
    obtain ⟨e, hrx⟩ := ha
    have hrx' : ((s.erase ring d).devs d').rx = .trigger e := by
      rw [erase_devs_of_ne hne]
      exact hrx
    cases alloc with
    | false =>
      simp only [next, trigger, hrx, hrx', Bool.false_eq_true, if_false, erase_modify_of_ne hne]
    | true =>
      simp [next, trigger, hrx, State.erase, Irq.IrqInfo.triggerWithData, hne, update_comm hne]

end

/-- Leaving out the steps of `d` forgets `d` and nothing else, if its purges do. -/
theorem erasure (ring : DevId → ℕ) (d : DevId) :
    ((machine ring).restrict (PurgesOwn d)).Erasure (OfDev d) (State.erase ring d) where
  invisible s a ha hd := erase_next_self ha.1 ha.2 hd
  admitted s a ha hd := by
    refine ⟨(erase_next_of_ne ha.1 hd).1, ?_⟩
    rintro rfl
    exact absurd rfl hd
  comm s a ha hd := (erase_next_of_ne ha.1 hd).2

/-! ### The way of a frame -/

/-- The entry whose frame the handler has still to pass on. -/
def Kernel.undelivered : Kernel → List ℕ
  | .handle x => [x.entry]
  | .idle | .reload _ | .join _ | .purge _ => []

/-- The entry whose frame the rx thread has still to raise the irq for. -/
def Rx.unraised : Rx → List ℕ
  | .trigger e => [e]
  | .none | .poll _ | .get | .recv _ | .exited => []

attribute [local simp] Rx.unraised Kernel.undelivered

/-- The frames on their way to `netif_rx`, in order. -/
def View.pending (v : View) : List Frame :=
  (v.kernel.undelivered ++ v.queued ++ v.dev.rx.unraised).map v.dev.frames

attribute [local simp] View.pending

/-- Received frames are delivered, on their way, or dropped, and they stay in order. -/
structure Flow (v : View) : Prop where
  length : v.dev.received.length = v.dev.delivered.length + v.pending.length + v.dev.dropped.length
  order : v.dev.dropped = [] → v.dev.received = v.dev.delivered ++ v.pending

section

variable {n : ℕ} {d : DevId} {v v' : View}

lemma Flow.frame (h : Flow v) (hr : v'.dev.received = v.dev.received)
    (hd : v'.dev.delivered = v.dev.delivered) (hp : v'.pending = v.pending)
    (hx : v'.dev.dropped = v.dev.dropped) : Flow v' where
  length := by rw [hr, hd, hp, hx]; exact h.length
  order := by rw [hr, hd, hp, hx]; exact h.order

lemma Kernel.undelivered_subset (k : Kernel) : k.undelivered ⊆ k.handling := by
  cases k <;> simp [Kernel.handling]

lemma Conserved.not_mem_of_recv {e : ℕ} (h : Conserved n d v) (hrx : v.dev.rx = .recv e) :
    e ∉ v.kernel.undelivered ++ v.queued := by
  have hinuse := h.inuse e
  have hring := h.ring e
  have hle : v.dev.inuse.count e ≤ 1 := by split_ifs at hring <;> omega
  simp only [hrx, Rx.held, count_cons_self, count_nil] at hinuse
  intro hmem
  rcases List.mem_append.mp hmem with hk | hq
  · have := List.count_pos_iff.mpr (v.kernel.undelivered_subset hk)
    omega
  · have := List.count_pos_iff.mpr hq
    omega

lemma Flow.step (h : Flow v) (hc : Conserved n d v) (hstep : DevStep d v v') : Flow v' := by
  cases hstep with
  | skip => exact h
  | openDev hrx _ | exit hrx _ | getRxDesc hrx _ | getNone hrx | recvFail hrx | trigger hrx =>
    exact h.frame rfl rfl (by simp [hrx]) rfl
  | stop _ hk | reload hk | reloadFail hk =>
    exact h.frame rfl rfl (by simp [hk]) rfl
  | join hrx hk =>
    exact h.frame rfl rfl (by simp [hk, hrx]) rfl
  | purge hk =>
    have hnone : v.kernel.undelivered = [] := by rcases hk with hk | hk <;> rw [hk] <;> rfl
    have hpending : v.pending =
        v.queued.map v.dev.frames ++ v.dev.rx.unraised.map v.dev.frames := by
      rw [View.pending, hnone, nil_append, map_append]
    obtain ⟨hlength, horder⟩ := h
    rw [hpending] at hlength horder
    constructor
    · simp only [View.pending, Kernel.undelivered, nil_append, length_append,
        length_map] at hlength ⊢
      omega
    · intro hdropped
      obtain ⟨hdropped, hqueued⟩ := List.append_eq_nil_iff.mp hdropped
      rw [hqueued] at horder
      simpa using horder hdropped
  | dequeue hk hq =>
    exact h.frame rfl rfl (by simp [hk, hq]) rfl
  | @netifRx e hk =>
    have hpending : v.pending =
        v.dev.frames e :: (v.queued ++ v.dev.rx.unraised).map v.dev.frames := by
      simp [hk]
    obtain ⟨hlength, horder⟩ := h
    rw [hpending] at hlength horder
    constructor
    · simp only [View.pending, Kernel.undelivered, nil_append, length_append,
        length_cons, length_nil, length_map] at hlength ⊢
      omega
    · intro hdropped
      simpa using horder hdropped
  | @poll led hrx =>
    exact h.frame rfl rfl (by cases led <;> simp [hrx]) rfl
  | @recv e f hrx =>
    have hnot := hc.not_mem_of_recv hrx
    have hmap : (v.kernel.undelivered ++ v.queued).map (update v.dev.frames e f) =
        (v.kernel.undelivered ++ v.queued).map v.dev.frames := by
      refine map_congr_left fun x hx => ?_
      have hne : x ≠ e := by rintro rfl; exact hnot hx
      simp [hne]
    have hpending : (v.kernel.undelivered ++ v.queued ++ [e]).map
        (update v.dev.frames e f) = v.pending ++ [f] := by
      rw [map_append, hmap]
      simp [hrx]
    constructor
    · simp only [View.pending, Rx.unraised, hpending, length_append, h.length]
      omega
    · intro hdropped
      have horder : v.dev.received = v.dev.delivered ++ v.pending := h.order hdropped
      simp only [View.pending, Rx.unraised, hpending]
      rw [horder, append_assoc]
      rfl
  | triggerFail hrx =>
    have hlength := h.length
    constructor
    · simp only [View.pending, hrx, Rx.unraised, length_append, length_cons,
        length_nil, length_map] at hlength ⊢
      omega
    · intro hdropped
      simp at hdropped

end

theorem flow_of_reachable {ring : DevId → ℕ} {s : State} (hreach : (machine ring).Reachable s)
    (d : DevId) : Flow (s.view d) := by
  refine hreach.invariant_of (I := fun s => Flow (s.view d))
    (fun s hs => conserved_of_reachable hs d) ?_ ?_
  · constructor <;> simp [machine, State.view, State.init, State.queued, Dev.init]
  · intro s a hc h ha
    exact h.step hc (devStep_next ha d)

/-! ### Devices do not interfere -/

/-- A run delivers the same frames of `d₂` when all steps of `d₁` are left out, if every `stop` of
`d₁` finds only data of `d₁`. The frames that `d₂` receives are delivered in order, or on their
way to it, exactly if none has been dropped by a purge or by a failed allocation. -/
theorem device_isolation (ring : DevId → ℕ) (d₁ d₂ : DevId) (hne : d₂ ≠ d₁) (as : List Act)
    (has : ((machine ring).restrict (PurgesOwn d₁)).Admits (.init ring) as) :
    (machine ring).Admits (.init ring) ((machine ring).strip (OfDev d₁) (.init ring) as) ∧
      (((machine ring).runFrom (.init ring)
          ((machine ring).strip (OfDev d₁) (.init ring) as)).devs d₂).delivered =
        (((machine ring).runFrom (.init ring) as).devs d₂).delivered ∧
      ((((machine ring).runFrom (.init ring) as).devs d₂).dropped = [] ↔
        (((machine ring).runFrom (.init ring) as).devs d₂).received =
          (((machine ring).runFrom (.init ring) as).devs d₂).delivered ++
            (((machine ring).runFrom (.init ring) as).view d₂).pending) := by
  obtain ⟨hadm, hrun⟩ := (erasure ring d₁).run has
  rw [erase_init, Machine.strip_restrict] at hadm hrun
  have hflow := flow_of_reachable (Machine.reachable_of_admits as has.of_restrict) d₂
  refine ⟨hadm.of_restrict, ?_, hflow.order, fun heq => ?_⟩
  · have hdev := congrArg (fun s => s.devs d₂) hrun
    simp only [erase_devs_of_ne hne] at hdev
    exact congrArg Dev.delivered hdev
  · have hlength := hflow.length
    have hreceived := congrArg List.length heq
    rw [length_append] at hreceived
    exact List.length_eq_zero_iff.mp (Nat.add_left_cancel (hlength.symm.trans hreceived))

/-- Device 1 delivers a frame, and device 0 is stopped with a frame of its own pending. -/
def ownRun : List Act :=
  [.openDev 0 true, .openDev 1 true, .poll 1 false, .getRxDesc 1, .recv 1 (some [7]),
    .trigger 1 true, .runIrqs true, .runIrqs true, .runIrqs true, .poll 0 false, .getRxDesc 0,
    .recv 0 (some [9]), .trigger 0 true, .stop 0, .poll 0 true, .join 0, .purge 0]

theorem device_isolation_ownRun : (((machine fun _ => 1).runFrom (.init fun _ => 1)
      ((machine fun _ => 1).strip (OfDev 0) (.init fun _ => 1) ownRun)).devs 1).delivered = [[7]] :=
  (device_isolation (fun _ => 1) 0 1 (by decide) ownRun (by decide)).2.1.trans (by decide)

/-- Device 0 is opened and stopped while a frame of device 1 waits for the handler. -/
def sharedRun : List Act :=
  [.openDev 0 true, .openDev 1 true, .poll 1 false, .getRxDesc 1, .recv 1 (some [7]),
    .trigger 1 true, .stop 0, .poll 0 true, .join 0, .purge 0, .runIrqs true, .runIrqs true,
    .runIrqs true]

/-- The frame of device 1 is lost; without the steps of device 0 it is delivered. -/
theorem not_isolated_sharedRun : (machine fun _ => 1).Admits (.init fun _ => 1) sharedRun ∧
      (((machine fun _ => 1).runFrom (.init fun _ => 1) sharedRun).devs 1).delivered = [] ∧
      (((machine fun _ => 1).runFrom (.init fun _ => 1)
        ((machine fun _ => 1).strip (OfDev 0) (.init fun _ => 1) sharedRun)).devs 1).delivered =
          [[7]] := by
  decide

end LklPort.Eth
