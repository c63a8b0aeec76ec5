import LklPort.Irq.Basic

/-!
# The ethernet driver

Every device has a ring of receive buffers on two lists, those ready for a frame and those in
use. A native thread takes a buffer from the first list, receives a frame into it and raises
`ETH_IRQ` with the buffer as its datum; the handler passes the frame on, gets a new `sk_buff`
and puts the buffer back. All devices share the irq and its list of data.

The kernel does one thing at a time: the handler, `open` and `stop` do not overlap, and `stop`
keeps the kernel while it waits for the native thread. The native threads run at any time. A
section under `rx_ring_lock` or under the lock of the irq is one step.
-/

namespace LklPort.Eth

open Irq (IrqInfo)

abbrev DevId := ℕ

/-- The bytes of a frame. -/
abbrev Frame := List (BitVec 8)

def maxFrameLength : ℕ := 1518

/-! ### The state -/

/-- Where the rx thread of a device is, with the descriptor in its variable `led`. -/
inductive Rx where
  /-- There is no thread: `native_handle` is `NULL`. -/
  | none
  /-- At `poll`. -/
  | poll (led : Option ℕ)
  /-- At `lkl_eth_get_rx_desc`. -/
  | get
  /-- At `recv`. -/
  | recv (led : ℕ)
  /-- At `lkl_trigger_irq_with_data`. -/
  | trigger (led : ℕ)
  /-- The thread has returned. -/
  | exited
  deriving DecidableEq

/-- The data of a device. Its `rx_ring_entry`s are numbers. The fields after `pod` are history. -/
structure Dev where
  /-- `rx_ring_ready`. -/
  ready : List ℕ
  /-- `rx_ring_inuse`. -/
  inuse : List ℕ
  /-- What the buffer of an entry holds. -/
  frames : ℕ → Frame
  rx : Rx
  /-- The pipe of death has been written to. -/
  pod : Bool
  /-- The frames that were received into a descriptor. -/
  received : List Frame
  /-- The frames passed to `netif_rx`. -/
  delivered : List Frame
  /-- The received frames that a purge or the rx thread has dropped. -/
  dropped : List Frame
  /-- The entries that the handler, a purge or the rx thread has dropped. -/
  lost : List ℕ

/-- A device made with `n` entries, each put on the ready list by `reload_rx_ring_entry`. -/
def Dev.init (n : ℕ) : Dev where
  ready := (List.range n).reverse
  inuse := []
  frames := fun _ => []
  rx := .none
  pod := false
  received := []
  delivered := []
  dropped := []
  lost := []

/-- The descriptor that `ETH_IRQ` is raised with. -/
structure Datum where
  dev : DevId
  entry : ℕ
  deriving DecidableEq

/-- What the kernel is doing. -/
inductive Kernel where
  | idle
  /-- `lkl_net_irq` before `netif_rx`. -/
  | handle (x : Datum)
  /-- `lkl_net_irq` at `reload_rx_ring_entry`. -/
  | reload (x : Datum)
  /-- `stop` in `lkl_eth_native_cleanup`, which waits for the thread. -/
  | join (d : DevId)
  /-- `stop` at `lkl_purge_irq_queue`. -/
  | purge (d : DevId)
  deriving DecidableEq

/-- The devices, the pending data of `ETH_IRQ` and the kernel. -/
structure State where
  devs : DevId → Dev
  irq : IrqInfo Datum
  kernel : Kernel

/-- Devices with rings of the lengths `ring`, none of them opened yet. -/
def State.init (ring : DevId → ℕ) : State where
  devs := fun d => .init (ring d)
  irq := .empty
  kernel := .idle

/-- Change the data of one device. -/
def State.modify (s : State) (d : DevId) (f : Dev → Dev) : State :=
  { s with devs := Function.update s.devs d (f (s.devs d)) }

/-- The entries of `d` that pending data refer to, in order. -/
def State.queued (s : State) (d : DevId) : List ℕ :=
  (s.irq.dataList.filter (·.dev = d)).map (·.entry)

/-! ### The functions -/

/-- `open`, where `lkl_eth_native_init` succeeds or not. -/
def openDev (v : Dev) (ok : Bool) : Dev :=
  if ok then { v with rx := .poll none, pod := false } else v

/-- The return of `poll` in `rx_thread`, with the pipe of death readable or not. -/
def poll (v : Dev) (seen : Bool) : Dev :=
  match v.rx with
  | .poll led =>
    if seen then { v with rx := .exited, lost := v.lost ++ led.toList }
    else { v with rx := led.elim .get .recv }
  | _ => v

/-- `lkl_eth_get_rx_desc`. Without a descriptor the packet is dropped. -/
def getRxDesc (v : Dev) : Dev :=
  match v.ready with
  | [] => { v with rx := .poll none }
  | e :: ready => { v with ready := ready, inuse := e :: v.inuse, rx := .recv e }

/-- `recv` into the descriptor, with the frame or an error. -/
def recv (v : Dev) (frame : Option Frame) : Dev :=
  match v.rx, frame with
  | .recv e, some f =>
    { v with
      frames := Function.update v.frames e f
      rx := .trigger e
      received := v.received ++ [f] }
  | .recv e, none => { v with rx := .poll (some e) }
  | _, _ => v

/-- `lkl_trigger_irq_with_data` in the rx thread of `d`, where `mem_alloc` succeeds or not. The
thread does not look at the result. -/
def trigger (s : State) (d : DevId) (alloc : Bool) : State :=
  match (s.devs d).rx with
  | .trigger e =>
    if alloc then
      { s.modify d fun v => { v with rx := .poll none } with irq := s.irq.triggerWithData ⟨d, e⟩ }
    else s.modify d fun v =>
      { v with
        rx := .poll none
        dropped := v.dropped ++ [v.frames e]
        lost := v.lost ++ [e] }
  | _ => s

/-- `dequeue_data` for `ETH_IRQ`, and the call of `lkl_net_irq` if there is a datum. -/
def dequeue (s : State) : State :=
  match s.irq.dataList with
  | [] => s
  | x :: _ => { s with irq := s.irq.dequeueData, kernel := .handle x }

/-- `netif_rx` in `lkl_net_irq`. -/
def netifRx (s : State) (x : Datum) : State :=
  { s.modify x.dev fun v => { v with delivered := v.delivered ++ [v.frames x.entry] } with
    kernel := .reload x }

/-- `reload_rx_ring_entry` in `lkl_net_irq`, where `dev_alloc_skb` succeeds or not. -/
def reload (s : State) (x : Datum) (ok : Bool) : State :=
  { s.modify x.dev fun v =>
      if ok then { v with inuse := v.inuse.erase x.entry, ready := x.entry :: v.ready }
      else { v with lost := v.lost ++ [x.entry] } with
    kernel := .idle }

/-- The next step of the idle thread, which takes data from the irq and handles them. -/
def runIrqs (s : State) (ok : Bool) : State :=
  match s.kernel with
  | .idle => dequeue s
  | .handle x => netifRx s x
  | .reload x => reload s x ok
  | .join _ | .purge _ => s

/-- `lkl_purge_irq_queue(ETH_IRQ)` in `stop`. -/
def purge (s : State) : State where
  devs := fun d =>
    { s.devs d with
      dropped := (s.devs d).dropped ++ (s.queued d).map (s.devs d).frames
      lost := (s.devs d).lost ++ s.queued d }
  irq := s.irq.purge
  kernel := .idle

/-! ### The machine -/

inductive Act where
  | openDev (d : DevId) (ok : Bool)
  /-- `stop` writes to the pipe of death. -/
  | stop (d : DevId)
  /-- `pthread_join` in `stop` returns. -/
  | join (d : DevId)
  | purge (d : DevId)
  /-- A step of the idle thread. -/
  | runIrqs (ok : Bool)
  | poll (d : DevId) (seen : Bool)
  | getRxDesc (d : DevId)
  | recv (d : DevId) (frame : Option Frame)
  | trigger (d : DevId) (alloc : Bool)
  deriving DecidableEq

/-- The kernel is in `stop`. -/
def Kernel.stopping : Kernel → Bool
  | .join _ | .purge _ => true
  | .idle | .handle _ | .reload _ => false

/-- When a step can be taken. The network core opens a device that is down and stops one that is
up. -/
def guard (s : State) : Act → Prop
  | .openDev d _ => s.kernel = .idle ∧ (s.devs d).rx = .none
  | .stop d => s.kernel = .idle ∧ (s.devs d).rx ≠ .none
  | .join d => s.kernel = .join d ∧ (s.devs d).rx = .exited
  | .purge d => s.kernel = .purge d
  | .runIrqs _ => s.kernel.stopping = false
  | .poll d seen => (∃ led, (s.devs d).rx = .poll led) ∧ (seen = true → (s.devs d).pod = true)
  | .getRxDesc d => (s.devs d).rx = .get
  | .recv d frame =>
    (∃ e, (s.devs d).rx = .recv e) ∧ ∀ f ∈ frame, 0 < f.length ∧ f.length ≤ maxFrameLength
  | .trigger d _ => ∃ e, (s.devs d).rx = .trigger e

instance (r : Rx) : Decidable (∃ led, r = .poll led) := by
  cases r <;> first | exact isTrue ⟨_, rfl⟩ | exact isFalse (by simp)

instance (r : Rx) : Decidable (∃ e, r = .recv e) := by
  cases r <;> first | exact isTrue ⟨_, rfl⟩ | exact isFalse (by simp)

instance (r : Rx) : Decidable (∃ e, r = .trigger e) := by
  cases r <;> first | exact isTrue ⟨_, rfl⟩ | exact isFalse (by simp)

def next (s : State) : Act → State
  | .openDev d ok => s.modify d (Eth.openDev · ok)
  | .stop d => { s.modify d fun v => { v with pod := true } with kernel := .join d }
  | .join d => { s.modify d fun v => { v with rx := .none } with kernel := .purge d }
  | .purge _ => Eth.purge s
  | .runIrqs ok => Eth.runIrqs s ok
  | .poll d seen => s.modify d (Eth.poll · seen)
  | .getRxDesc d => s.modify d Eth.getRxDesc
  | .recv d frame => s.modify d (Eth.recv · frame)
  | .trigger d alloc => Eth.trigger s d alloc

/-- The devices with rings of the lengths `ring`. -/
def machine (ring : DevId → ℕ) : Machine State Act where
  init := .init ring
  guard := guard
  next := next

instance (ring : DevId → ℕ) (s : State) (a : Act) : Decidable ((machine ring).guard s a) := by
  cases a <;> dsimp only [machine, guard] <;> infer_instance

end LklPort.Eth
