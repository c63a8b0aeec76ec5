import LklPort.Eth.Basic
import Mathlib.Data.List.Nodup

/-!
# Where the entries of a ring are

An entry is on the ready list or on the list of those in use, always. An entry in use comes back
only through the handler: it has to be with the rx thread, in the data of the irq, or with the
handler. This is so until one of four steps drops an entry, and from that step on it never is
again.

A step of the machine looks simple from a single device: `View` is what there is of a state for
one device and `DevStep` what can happen to it. The invariants are proved for such steps.
-/

namespace LklPort.Eth

open List

attribute [local simp] State.queued State.modify

/-! ### The view of one device -/

/-- The device that the kernel is busy with. -/
def Kernel.dev : Kernel → Option DevId
  | .idle => none
  | .handle x | .reload x => some x.dev
  | .join d | .purge d => some d

/-- What the kernel is doing for one device. -/
def Kernel.view (k : Kernel) (d : DevId) : Kernel := if k.dev = some d then k else .idle

/-- The part of a state that concerns one device. -/
structure View where
  dev : Dev
  queued : List ℕ
  kernel : Kernel

def State.view (s : State) (d : DevId) : View := ⟨s.devs d, s.queued d, s.kernel.view d⟩

/-- What a step can do to the device `d`. -/
inductive DevStep (d : DevId) (v : View) : View → Prop where
  | skip : DevStep d v v
  | openDev (hrx : v.dev.rx = .none) (hk : v.kernel = .idle) :
    DevStep d v { v with dev := { v.dev with rx := .poll none, pod := false } }
  | stop (hrx : v.dev.rx ≠ .none) (hk : v.kernel = .idle) :
    DevStep d v { v with dev := { v.dev with pod := true }, kernel := .join d }
  | join (hrx : v.dev.rx = .exited) (hk : v.kernel = .join d) :
    DevStep d v { v with dev := { v.dev with rx := .none }, kernel := .purge d }
  /-- The purge is of this device or of another one. -/
  | purge (hk : v.kernel = .purge d ∨ v.kernel = .idle) :
    DevStep d v
      ⟨{ v.dev with
          dropped := v.dev.dropped ++ v.queued.map v.dev.frames
          lost := v.dev.lost ++ v.queued }, [], .idle⟩
  | dequeue {e : ℕ} {q : List ℕ} (hk : v.kernel = .idle) (hq : v.queued = e :: q) :
    DevStep d v { v with queued := q, kernel := .handle ⟨d, e⟩ }
  | netifRx {e : ℕ} (hk : v.kernel = .handle ⟨d, e⟩) :
    DevStep d v { v with
      dev := { v.dev with delivered := v.dev.delivered ++ [v.dev.frames e] }
      kernel := .reload ⟨d, e⟩ }
  | reload {e : ℕ} (hk : v.kernel = .reload ⟨d, e⟩) :
    DevStep d v { v with
      dev := { v.dev with inuse := v.dev.inuse.erase e, ready := e :: v.dev.ready }
      kernel := .idle }
  | reloadFail {e : ℕ} (hk : v.kernel = .reload ⟨d, e⟩) :
    DevStep d v { v with dev := { v.dev with lost := v.dev.lost ++ [e] }, kernel := .idle }
  | poll {led : Option ℕ} (hrx : v.dev.rx = .poll led) :
    DevStep d v { v with dev := { v.dev with rx := led.elim .get .recv } }
  | exit {led : Option ℕ} (hrx : v.dev.rx = .poll led) (hpod : v.dev.pod = true) :
    DevStep d v { v with dev := { v.dev with rx := .exited, lost := v.dev.lost ++ led.toList } }
  | getRxDesc {e : ℕ} {r : List ℕ} (hrx : v.dev.rx = .get) (hr : v.dev.ready = e :: r) :
    DevStep d v { v with
      dev := { v.dev with ready := r, inuse := e :: v.dev.inuse, rx := .recv e } }
  | getNone (hrx : v.dev.rx = .get) :
    DevStep d v { v with dev := { v.dev with rx := .poll none } }
  | recv {e : ℕ} {f : Frame} (hrx : v.dev.rx = .recv e) :
    DevStep d v { v with
      dev := { v.dev with
        frames := Function.update v.dev.frames e f
        rx := .trigger e
        received := v.dev.received ++ [f] } }
  | recvFail {e : ℕ} (hrx : v.dev.rx = .recv e) :
    DevStep d v { v with dev := { v.dev with rx := .poll (some e) } }
  | trigger {e : ℕ} (hrx : v.dev.rx = .trigger e) :
    DevStep d v { v with
      dev := { v.dev with rx := .poll none }
      queued := v.queued ++ [e] }
  | triggerFail {e : ℕ} (hrx : v.dev.rx = .trigger e) :
    DevStep d v { v with
      dev := { v.dev with
        rx := .poll none
        dropped := v.dev.dropped ++ [v.dev.frames e]
        lost := v.dev.lost ++ [e] } }

variable {f : Dev → Dev} {s : State}

section

variable {s : State} {d d' : DevId} {k : Kernel}

@[simp] lemma Kernel.view_idle : Kernel.idle.view d = .idle := by simp [Kernel.view]

lemma view_self (h : k.dev = some d) : k.view d = k := if_pos h

lemma view_modify_self : (s.modify d f).view d = { s.view d with dev := f (s.devs d) } := by
  simp [State.view]

lemma view_modify_of_ne (h : d ≠ d') : (s.modify d' f).view d = s.view d := by
  simp [State.view, h]

lemma devStep_modify (h : DevStep d' (s.view d') { s.view d' with dev := f (s.devs d') }) :
    DevStep d (s.view d) ((s.modify d' f).view d) := by
  by_cases hd : d = d'
  · subst hd
    rw [view_modify_self]
    exact h
  · rw [view_modify_of_ne hd]
    exact .skip

lemma devStep_modify_kernel (hk : s.kernel.dev = none ∨ s.kernel.dev = some d')
    (hk' : k.dev = none ∨ k.dev = some d')
    (h : DevStep d' (s.view d') { s.view d' with dev := f (s.devs d'), kernel := k.view d' }) :
    DevStep d (s.view d) (State.view { s.modify d' f with kernel := k } d) := by
  by_cases hd : d = d'
  · subst hd
    simpa [State.view] using h
  · have hidle : s.kernel.view d = .idle := if_neg (by
      rcases hk with h | h <;> simp [h, Ne.symm hd])
    have hidle' : k.view d = .idle := if_neg (by
      rcases hk' with h | h <;> simp [h, Ne.symm hd])
    have hsame : State.view { s.modify d' f with kernel := k } d = s.view d := by
      simp [State.view, hd, hidle, hidle']
    rw [hsame]
    exact .skip

end

section

attribute [local simp] State.view Kernel.dev

lemma devStep_runIrqs (hs : s.kernel.stopping = false) (ok : Bool) (d : DevId) :
    DevStep d (s.view d) ((runIrqs s ok).view d) := by
  cases hk : s.kernel with
  | idle =>
    simp only [runIrqs, hk]
    cases hx : s.irq.dataList with
    | nil =>
      simp only [dequeue, hx]
      exact .skip
    | cons x xs =>
      have hview : (dequeue s).view d =
          ⟨s.devs d, (xs.filter (·.dev = d)).map (·.entry), (Kernel.handle x).view d⟩ := by
        simp [dequeue, hx, Irq.IrqInfo.dequeueData]
      rw [hview]
      by_cases hd : x.dev = d
      · subst hd
        rw [view_self rfl]
        exact .dequeue (by simp [hk]) (by simp [hx])
      · have hsame : s.view d = ⟨s.devs d, (xs.filter (·.dev = d)).map (·.entry),
            (Kernel.handle x).view d⟩ := by
          simp [hx, hd, hk, Kernel.view]
        rw [← hsame]
        exact .skip
  | handle =>
    simp only [runIrqs, hk, netifRx]
    apply devStep_modify_kernel (by simp [hk]) (by simp)
    rw [view_self rfl]
    exact .netifRx (by simp [hk, Kernel.view])
  | reload x =>
    simp only [runIrqs, hk, reload]
    apply devStep_modify_kernel (by simp [hk]) (by simp)
    have hview : (s.view x.dev).kernel = .reload x := by
      simp [hk, Kernel.view]
    cases ok with
    | false => exact .reloadFail hview
    | true => exact .reload hview
  | join d' | purge d' => simp [hk, Kernel.stopping] at hs

/-- Every step of the machine is a step for each device. -/
theorem devStep_next {a : Act} (ha : guard s a) (d : DevId) :
    DevStep d (s.view d) ((next s a).view d) := by
  cases a with
  | openDev _ ok =>
    obtain ⟨hk, hrx⟩ := ha
    apply devStep_modify
    cases ok with
    | false => exact .skip
    | true => exact .openDev hrx (by simp [hk])
  | stop =>
    obtain ⟨hk, hrx⟩ := ha
    apply devStep_modify_kernel (by simp [hk]) (by simp)
    rw [view_self rfl]
    exact .stop hrx (by simp [hk])
  | join =>
    obtain ⟨hk, hrx⟩ := ha
    apply devStep_modify_kernel (by simp [hk]) (by simp)
    rw [view_self rfl]
    exact .join hrx (by simp [hk, Kernel.view])
  | purge d' =>
    have hk : s.kernel = .purge d' := ha
    have hview : (purge s).view d =
        ⟨{ (s.view d).dev with
            dropped := (s.view d).dev.dropped ++ (s.view d).queued.map (s.view d).dev.frames
            lost := (s.view d).dev.lost ++ (s.view d).queued }, [], .idle⟩ := by
      simp [purge, Irq.IrqInfo.purge, Irq.IrqInfo.empty]
    refine .purge ?_
    by_cases hd : d' = d
    · exact .inl (by simp [hk, hd, Kernel.view])
    · exact .inr (by simp [hk, hd, Kernel.view])
  | runIrqs ok => exact devStep_runIrqs ha ok d
  | poll _ seen =>
    obtain ⟨⟨led, hrx⟩, hpod⟩ := ha
    rw [next]
    apply devStep_modify
    simp only [poll, hrx]
    cases seen with
    | false => exact .poll hrx
    | true => exact .exit hrx (hpod rfl)
  | getRxDesc d' =>
    have hrx : (s.devs d').rx = .get := ha
    apply devStep_modify
    cases hr : (s.devs d').ready with
    | nil =>
      have hget : getRxDesc (s.devs d') = { s.devs d' with rx := .poll none } := by
        simp [getRxDesc, hr]
      rw [hget]
      exact .getNone hrx
    | cons =>
      simp only [getRxDesc, hr]
      exact .getRxDesc hrx hr
  | recv _ frame =>
    obtain ⟨⟨e, hrx⟩, _⟩ := ha
    rw [next]
    apply devStep_modify
    cases frame with
    | none =>
      simp only [recv, hrx]
      exact .recvFail hrx
    | some =>
      simp only [recv, hrx]
      exact .recv hrx
  | trigger d' alloc =>
    obtain ⟨e, hrx⟩ := ha
    simp only [next, trigger, hrx]
    cases alloc with
    | false =>
      simp only [Bool.false_eq_true, if_false]
      exact devStep_modify (.triggerFail hrx)
    | true =>
      by_cases hd : d = d'
      · subst hd
        have hview : State.view { s.modify d (fun v => { v with rx := .poll none }) with
            irq := s.irq.triggerWithData ⟨d, e⟩ } d =
            { s.view d with
              dev := { s.devs d with rx := .poll none }
              queued := (s.view d).queued ++ [e] } := by
          simp [Irq.IrqInfo.triggerWithData]
        simp only [if_true, hview]
        exact .trigger hrx
      · have hview : State.view { s.modify d' (fun v => { v with rx := .poll none }) with
            irq := s.irq.triggerWithData ⟨d', e⟩ } d = s.view d := by
          simp [Irq.IrqInfo.triggerWithData, hd, Ne.symm hd]
        simp only [if_true, hview]
        exact .skip

end

/-! ### Every entry has its place -/

/-- The descriptor that the rx thread holds. -/
def Rx.held : Rx → List ℕ
  | .poll led => led.toList
  | .recv e | .trigger e => [e]
  | .none | .get | .exited => []

/-- The entry that the handler works on. -/
def Kernel.handling : Kernel → List ℕ
  | .handle x | .reload x => [x.entry]
  | .idle | .join _ | .purge _ => []

attribute [local simp] Rx.held Kernel.handling

/-- The entries of a ring of length `n` are on one list each. One that is in use is with the
thread, in the data, with the handler, or dropped; and nothing is under way when there is no
thread and no `stop`. -/
structure Conserved (n : ℕ) (d : DevId) (v : View) : Prop where
  ring : ∀ e, v.dev.ready.count e + v.dev.inuse.count e = if e < n then 1 else 0
  inuse : ∀ e, v.dev.inuse.count e = v.dev.rx.held.count e + v.queued.count e +
    v.kernel.handling.count e + v.dev.lost.count e
  down : v.dev.rx = .none → v.kernel ≠ .purge d → v.queued = [] ∧ v.kernel.handling = []

lemma Conserved.init (n : ℕ) (d : DevId) : Conserved n d ⟨.init n, [], .idle⟩ where
  ring e := by simp [Dev.init, List.nodup_range.count]
  inuse e := by simp [Dev.init]
  down _ _ := ⟨rfl, rfl⟩

section

variable {n : ℕ} {d : DevId} {v v' : View}

lemma Conserved.move (h : Conserved n d v) (hready : v'.dev.ready = v.dev.ready)
    (hinuse : v'.dev.inuse = v.dev.inuse)
    (hcount : ∀ e, v'.dev.rx.held.count e + v'.queued.count e + v'.kernel.handling.count e +
      v'.dev.lost.count e = v.dev.rx.held.count e + v.queued.count e +
        v.kernel.handling.count e + v.dev.lost.count e)
    (hdown : v'.dev.rx = .none → v'.kernel ≠ .purge d →
      v'.queued = [] ∧ v'.kernel.handling = []) : Conserved n d v' where
  ring e := by rw [hready, hinuse]; exact h.ring e
  inuse e := by rw [hinuse, hcount]; exact h.inuse e
  down := hdown

lemma Conserved.up (h : Conserved n d v) (hk : v.kernel.handling ≠ []) : v.dev.rx ≠ .none :=
  fun hrx => hk (h.down hrx fun hpurge => hk (by simp [hpurge])).2

lemma Conserved.step (h : Conserved n d v) (hstep : DevStep d v v') : Conserved n d v' := by
  cases hstep with
  | skip => exact h
  | openDev hrx _ | getNone hrx | recv hrx | recvFail hrx =>
    exact h.move rfl rfl (by simp [hrx]) (by simp)
  | stop hrx hk =>
    exact h.move rfl rfl (by simp [hk]) fun hnone => absurd hnone hrx
  | join hrx hk => exact h.move rfl rfl (by simp [hrx, hk]) (by simp)
  | purge hk =>
    refine h.move rfl rfl (fun e => ?_) fun _ _ => ⟨rfl, rfl⟩
    have hhandling : v.kernel.handling = [] := by
      rcases hk with hk | hk <;> rw [hk] <;> rfl
    rw [hhandling]
    simp only [Kernel.handling, count_nil, count_append]
    omega
  | @dequeue _ _ hk hq =>
    refine h.move rfl rfl (fun x => ?_) fun hrx hne => ?_
    · simp only [hk, hq, Kernel.handling, count_cons, count_nil]
      omega
    · have hdown := h.down hrx (by simp [hk])
      simp [hq] at hdown
  | netifRx hk =>
    exact h.move rfl rfl (by simp [hk]) fun hrx => absurd hrx (h.up (by simp [hk]))
  | @reload e hk =>
    have hmem : e ∈ v.dev.inuse := by
      rw [← count_pos_iff, h.inuse e, hk]
      simp only [Kernel.handling, count_singleton_self]
      omega
    have herase (x : ℕ) : (v.dev.inuse.erase e).count x + [e].count x = v.dev.inuse.count x := by
      rw [(perm_cons_erase hmem).count_eq x]
      simp only [count_cons, count_nil]
      omega
    refine ⟨fun x => ?_, fun x => ?_, fun hrx => absurd hrx (h.up (by simp [hk]))⟩
    · have hring := h.ring x
      have hcount := herase x
      simp only [count_cons, count_nil] at hcount ⊢
      omega
    · have hinuse := h.inuse x
      have hcount := herase x
      simp only [hk, Kernel.handling, count_nil] at hinuse hcount ⊢
      omega
  | @reloadFail _ hk =>
    refine h.move rfl rfl (fun x => ?_) fun hrx => absurd hrx (h.up (by simp [hk]))
    simp only [hk, Kernel.handling, count_append, count_nil]
    omega
  | @poll led hrx =>
    refine h.move rfl rfl (fun x => ?_) fun hnone => ?_
    · cases led <;> simp [hrx]
    · cases led <;> simp at hnone
  | exit hrx =>
    refine h.move rfl rfl (fun x => ?_) (by simp)
    simp only [hrx, Rx.held, count_append, count_nil]
    omega
  | @getRxDesc _ _ hrx hr =>
    refine ⟨fun x => ?_, fun x => ?_, by simp⟩
    · have hring := h.ring x
      simp only [hr, count_cons] at hring ⊢
      omega
    · have hinuse := h.inuse x
      simp only [hrx, Rx.held, count_cons, count_nil] at hinuse ⊢
      omega
  | @trigger e hrx | @triggerFail e hrx =>
    refine h.move rfl rfl (fun x => ?_) (by simp)
    simp only [hrx, Rx.held, count_append, Option.toList_none, count_nil]
    omega

end

theorem conserved_of_reachable {ring : DevId → ℕ} {s : State}
    (hreach : (machine ring).Reachable s) (d : DevId) : Conserved (ring d) d (s.view d) := by
  refine hreach.invariant (I := fun s => Conserved (ring d) d (s.view d)) ?_ ?_
  · have hview : (State.init ring).view d = ⟨.init (ring d), [], .idle⟩ := by
      simp [State.view, State.init, Irq.IrqInfo.empty]
    exact hview ▸ Conserved.init (ring d) d
  · intro s a h ha
    exact h.step (devStep_next ha d)

/-! ### The law of the ring -/

/-- What keeps a ring of `n` entries going: each entry is on one of the lists, one in use is on
its way back, and after a `stop` all of them are ready. -/
structure RingLaw (n : ℕ) (s : State) (d : DevId) : Prop where
  one : ∀ e, (s.devs d).ready.count e + (s.devs d).inuse.count e = if e < n then 1 else 0
  returns : ∀ e ∈ (s.devs d).inuse, e ∈ (s.devs d).rx.held ∨ ⟨d, e⟩ ∈ s.irq.dataList ∨
    s.kernel = .handle ⟨d, e⟩ ∨ s.kernel = .reload ⟨d, e⟩
  stopped : (s.devs d).rx = .none → s.kernel ≠ .purge d → ∀ e < n, e ∈ (s.devs d).ready

section

variable {n : ℕ} {s : State} {d : DevId} {e : ℕ}

lemma mem_queued : e ∈ (s.view d).queued ↔ ⟨d, e⟩ ∈ s.irq.dataList := by
  simp only [State.view, State.queued, mem_map, mem_filter, decide_eq_true_eq]
  constructor
  · rintro ⟨x, ⟨hx, rfl⟩, rfl⟩
    exact hx
  · intro hx
    exact ⟨⟨d, e⟩, ⟨hx, rfl⟩, rfl⟩

lemma mem_handling :
    e ∈ (s.view d).kernel.handling ↔ s.kernel = .handle ⟨d, e⟩ ∨ s.kernel = .reload ⟨d, e⟩ := by
  simp only [State.view, Kernel.view]
  cases hk : s.kernel with
  | idle | join d' | purge d' => split_ifs <;> simp
  | handle x | reload x =>
    obtain ⟨d', e'⟩ := x
    by_cases hd : d' = d
    · simp [Kernel.dev, hd, eq_comm]
    · simp [Kernel.dev, hd]

lemma State.view_kernel_eq_purge : (s.view d).kernel = .purge d ↔ s.kernel = .purge d := by
  simp only [State.view, Kernel.view]
  constructor
  · intro hk
    split_ifs at hk with hdev
    exact hk
  · intro hk
    rw [hk]
    exact if_pos rfl

lemma Conserved.ringLaw (h : Conserved n d (s.view d)) (hlost : (s.devs d).lost = []) :
    RingLaw n s d := by
  have hlost' : (s.view d).dev.lost = [] := hlost
  refine ⟨h.ring, fun e he => ?_, fun hrx hne e he => ?_⟩
  · have hpos := List.count_pos_iff.mpr he
    have hcount := h.inuse e
    rw [hlost', count_nil] at hcount
    rw [← mem_queued, ← mem_handling, ← count_pos_iff, ← count_pos_iff, ← count_pos_iff]
    change 0 < (s.view d).dev.inuse.count e at hpos
    change 0 < (s.view d).dev.rx.held.count e ∨ _
    omega
  · obtain ⟨hqueued, hhandling⟩ := h.down hrx fun hk => hne (State.view_kernel_eq_purge.mp hk)
    have hring := h.ring e
    have hcount := h.inuse e
    have hheld : (s.view d).dev.rx.held = [] := by
      rw [show (s.view d).dev.rx = .none from hrx]
      rfl
    rw [hqueued, hhandling, hheld, hlost'] at hcount
    rw [hcount, if_pos he] at hring
    exact List.count_pos_iff.mp (by change 0 < (s.view d).dev.ready.count e; omega)

lemma Conserved.lost_eq_nil (h : Conserved n d (s.view d)) (hlaw : RingLaw n s d) :
    (s.devs d).lost = [] := by
  by_contra hne
  obtain ⟨e, he⟩ := exists_mem_of_ne_nil _ hne
  have hlost : 0 < (s.view d).dev.lost.count e := List.count_pos_iff.mpr he
  have hcount := h.inuse e
  have hring := h.ring e
  have hle : (s.view d).dev.inuse.count e ≤ 1 := by split_ifs at hring <;> omega
  have hmem : e ∈ (s.devs d).inuse :=
    List.count_pos_iff.mp (by change 0 < (s.view d).dev.inuse.count e; omega)
  have hplace := hlaw.returns e hmem
  rw [← mem_queued, ← mem_handling, ← count_pos_iff, ← count_pos_iff, ← count_pos_iff] at hplace
  change 0 < (s.view d).dev.rx.held.count e ∨ _ at hplace
  omega

end

/-- The entries of a ring are always on one of its lists, and those in use all come back exactly
as long as none has been dropped: by a purge with data of the device, by a handler without a new
`sk_buff`, by an rx thread that ends with a descriptor, or by one that cannot raise its irq. -/
theorem ring_conservation (ring : DevId → ℕ) (s : State) (hreach : (machine ring).Reachable s)
    (d : DevId) :
    (∀ e, (s.devs d).ready.count e + (s.devs d).inuse.count e = if e < ring d then 1 else 0) ∧
      (RingLaw (ring d) s d ↔ (s.devs d).lost = []) :=
  have h := conserved_of_reachable hreach d
  ⟨h.ring, h.lost_eq_nil, h.ringLaw⟩

/-- A device with one buffer receives a frame, which is delivered, is stopped and opened again. -/
def reopenRun : List Act :=
  [.openDev 0 true, .poll 0 false, .getRxDesc 0, .recv 0 (some [7]), .trigger 0 true,
    .runIrqs true, .runIrqs true, .runIrqs true, .stop 0, .poll 0 true, .join 0, .purge 0,
    .openDev 0 true]

theorem ring_conservation_reopenRun :
    RingLaw 1 ((machine fun _ => 1).runFrom (.init fun _ => 1) reopenRun) 0 :=
  (ring_conservation (fun _ => 1) _ (Machine.reachable_of_admits reopenRun (by decide)) 0).2.mpr
    (by decide)

/-- The device is stopped before its datum is handled. -/
def purgeRun : List Act :=
  [.openDev 0 true, .poll 0 false, .getRxDesc 0, .recv 0 (some [7]), .trigger 0 true, .stop 0,
    .poll 0 true, .join 0, .purge 0]

/-- The purge in `stop` drops the datum, and the buffer stays in use without an owner. -/
theorem not_ringLaw_purgeRun : (machine fun _ => 1).Admits (.init fun _ => 1) purgeRun ∧
      ¬ RingLaw 1 ((machine fun _ => 1).runFrom (.init fun _ => 1) purgeRun) 0 := by
  refine ⟨by decide, fun hlaw => ?_⟩
  have hready := hlaw.stopped (by decide) (by decide) 0 (by decide)
  revert hready
  decide

end LklPort.Eth
