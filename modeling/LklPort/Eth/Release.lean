import LklPort.Eth.Ring
import Mathlib.Data.List.Count

/-!
# What a device has allocated

`_lkl_add_eth` allocates the device, its semaphore, the entries of the ring with an `sk_buff`
each, and a copy of the name of the native device. A failure at any point and `_lkl_del_eth` end
in `cleanup_netdev`, which frees the entries, the semaphore and the device.

The blocks that belong to a device are kept in a list. The run of a device between
`_lkl_add_eth` and `_lkl_del_eth` is one of the machine of the driver, with that list recorded
beside it: an `sk_buff` leaves it when it is passed to `netif_rx`.
-/

namespace LklPort.Eth.Release

open List

/-- A block of memory that was allocated for a device. -/
inductive Block where
  /-- A `struct rx_ring_entry`. -/
  | entry (e : ℕ)
  /-- The `sk_buff` that `reload_rx_ring_entry` has put into an entry. -/
  | skb (e : ℕ)
  /-- The string `native_dev`. -/
  | nativeDev
  /-- The semaphore `rx_ring_lock`. -/
  | sem
  /-- The `net_device` with its `netdev_data`. -/
  | netdev
  deriving DecidableEq

/-- `struct netdev_data` of a device that is down, and the blocks of the device. -/
structure NetdevData where
  ready : List ℕ
  inuse : List ℕ
  /-- `rx_ring_lock` is not `NULL`. -/
  rxRingLock : Bool
  heap : List Block

/-- `kfree` for the entries of a list. -/
def freeEntries (heap : List Block) (l : List ℕ) : List Block :=
  l.foldl (fun heap e => heap.erase (.entry e)) heap

/-- The blocks that `cleanup_netdev` leaves allocated. -/
def cleanupNetdev (nd : NetdevData) : List Block :=
  let heap := freeEntries nd.heap nd.inuse
  let heap := freeEntries heap nd.ready
  let heap := if nd.rxRingLock then heap.erase .sem else heap
  heap.erase .netdev

/-- `reload_rx_ring_entry`, where `dev_alloc_skb` succeeds. -/
def reloadRxRingEntry (nd : NetdevData) (e : ℕ) : NetdevData :=
  { nd with
    heap := .skb e :: nd.heap
    inuse := nd.inuse.erase e
    ready := e :: nd.ready }

/-! ### Adding a device -/

/-- How the calls in `_lkl_add_eth` end. -/
structure AddEnv where
  failedInit : Bool
  allocEtherdev : Bool
  semAlloc : Bool
  /-- `kmalloc` of the entry `i` succeeds. -/
  kmalloc : ℕ → Bool
  /-- `dev_alloc_skb` for the entry `i` succeeds. -/
  allocSkb : ℕ → Bool
  /-- `kstrdup` returns a string: `native_dev` is not `NULL` and there is memory for it. -/
  kstrdup : Bool
  /-- `register_netdev` gives the device a positive `ifindex`, or fails. -/
  register : Option { ifindex : ℕ // 0 < ifindex }

/-- The loop of `_lkl_add_eth` for the `n` entries from `i` on, and whether it has reached its
end. -/
def fillRing (env : AddEnv) : ℕ → ℕ → NetdevData → NetdevData × Bool
  | 0, _, nd => (nd, true)
  | n + 1, i, nd =>
    if env.kmalloc i then
      let nd := { nd with heap := .entry i :: nd.heap, inuse := i :: nd.inuse }
      if env.allocSkb i then fillRing env n (i + 1) (reloadRxRingEntry nd i) else (nd, false)
    else (nd, false)

structure Added where
  ret : ℤ
  /-- The device, if it was registered. -/
  dev : Option NetdevData
  /-- The blocks that are allocated at the end. -/
  heap : List Block

/-- `error:` in `_lkl_add_eth`. -/
def addFailed (nd : NetdevData) : Added := ⟨0, none, cleanupNetdev nd⟩

/-- `_lkl_add_eth`. -/
def addEth (env : AddEnv) (rxRingLen : ℤ) : Added :=
  if env.failedInit then ⟨-49, none, []⟩
  else if !env.allocEtherdev then ⟨-12, none, []⟩
  else
    let nd : NetdevData := ⟨[], [], false, [.netdev]⟩
    if !env.semAlloc then addFailed nd
    else
      let nd := { nd with rxRingLock := true, heap := .sem :: nd.heap }
      match fillRing env rxRingLen.toNat 0 nd with
      | (nd, false) => addFailed nd
      | (nd, true) =>
        let nd := if env.kstrdup then { nd with heap := .nativeDev :: nd.heap } else nd
        match env.register with
        | none => addFailed nd
        | some ifindex => ⟨ifindex.1, some nd, nd.heap⟩

/-- The call gets as far as the loop. -/
def AddEnv.Starts (env : AddEnv) : Prop :=
  env.failedInit = false ∧ env.allocEtherdev = true ∧ env.semAlloc = true

/-- The call allocates an `sk_buff`. -/
def AddEnv.Loads (env : AddEnv) (rxRingLen : ℤ) : Prop :=
  env.Starts ∧ 0 < rxRingLen ∧ env.kmalloc 0 = true ∧ env.allocSkb 0 = true

/-- The call allocates a copy of the name. -/
def AddEnv.Copies (env : AddEnv) (rxRingLen : ℤ) : Prop :=
  env.Starts ∧ (∀ i < rxRingLen.toNat, env.kmalloc i = true ∧ env.allocSkb i = true) ∧
    env.kstrdup = true

/-! ### The run of a device -/

/-- What a step does to the blocks of the device `d`. -/
def note (d : DevId) (s : State) (a : Act) (heap : List Block) : List Block :=
  match a, s.kernel with
  | .runIrqs _, .handle x => if x.dev = d then heap.erase (.skb x.entry) else heap
  | .runIrqs true, .reload x => if x.dev = d then .skb x.entry :: heap else heap
  | _, _ => heap

/-- The blocks that `_lkl_del_eth` leaves allocated. `unregister_netdev` has stopped the device. -/
def delEth (d : DevId) (s : State) (heap : List Block) : List Block :=
  cleanupNetdev ⟨(s.devs d).ready, (s.devs d).inuse, true, heap⟩

/-! ### What is left -/

/-- The blocks of a device but for the `sk_buff`s and the name. -/
structure Held (nd : NetdevData) : Prop where
  entry : ∀ e, nd.heap.count (.entry e) = nd.ready.count e + nd.inuse.count e
  sem : nd.heap.count .sem = if nd.rxRingLock then 1 else 0
  netdev : nd.heap.count .netdev = 1

lemma count_freeEntries (heap : List Block) (l : List ℕ) (b : Block) :
    (freeEntries heap l).count b = heap.count b - (l.map Block.entry).count b := by
  have hdiff : freeEntries heap l = heap.diff (l.map Block.entry) := by
    rw [diff_eq_foldl, freeEntries, foldl_map]
  rw [hdiff, count_diff]

lemma count_map_entry (l : List ℕ) (e : ℕ) : (l.map Block.entry).count (.entry e) = l.count e :=
  count_map_of_injective l Block.entry (fun _ _ => Block.entry.inj) e

variable {b : Block} {nd : NetdevData} {i : ℕ} {env : AddEnv} {rxRingLen : ℤ}

lemma count_map_entry_of_ne (l : List ℕ) (hb : ∀ e, b ≠ .entry e) :
    (l.map Block.entry).count b = 0 := by
  rw [count_eq_zero]
  intro hmem
  obtain ⟨e, -, rfl⟩ := List.mem_map.1 hmem
  exact hb e rfl

lemma Held.cons (h : Held nd) (hentry : ∀ e, b ≠ .entry e) (hsem : b ≠ .sem) (hdev : b ≠ .netdev) :
    Held { nd with heap := b :: nd.heap } where
  entry e := (count_cons_of_ne (hentry e)).trans (h.entry e)
  sem := (count_cons_of_ne hsem).trans h.sem
  netdev := (count_cons_of_ne hdev).trans h.netdev

lemma Held.cleanup_eq_nil_iff (h : Held nd) :
    cleanupNetdev nd = [] ↔ .nativeDev ∉ nd.heap ∧ ∀ e, .skb e ∉ nd.heap := by
  have hcount : ∀ b, (cleanupNetdev nd).count b =
      nd.heap.count b - (nd.inuse.map Block.entry).count b - (nd.ready.map Block.entry).count b -
        (if nd.rxRingLock ∧ b = .sem then 1 else 0) - (if b = .netdev then 1 else 0) := by
    intro b
    rw [cleanupNetdev]
    split_ifs <;> simp_all [count_freeEntries]
  have hentry : ∀ e, (cleanupNetdev nd).count (.entry e) = 0 := by
    intro e
    rw [hcount, h.entry, count_map_entry, count_map_entry]
    omega
  have hother : ∀ b, (∀ e, b ≠ .entry e) → b ≠ .sem → b ≠ .netdev →
      (cleanupNetdev nd).count b = nd.heap.count b := by
    intro b hb hsem hdev
    rw [hcount, count_map_entry_of_ne _ hb, count_map_entry_of_ne _ hb, if_neg (by simp [hsem]),
      if_neg hdev]
    rfl
  have hname := hother .nativeDev nofun nofun nofun
  have hskb := fun e => hother (.skb e) nofun nofun nofun
  constructor
  · intro hnil
    rw [hnil] at hname
    refine ⟨List.count_eq_zero.1 hname.symm, fun e => ?_⟩
    have hskb := hskb e
    rw [hnil] at hskb
    exact List.count_eq_zero.1 hskb.symm
  · rintro ⟨hname', hskb'⟩
    rw [eq_nil_iff_forall_not_mem]
    intro b
    rw [← count_eq_zero]
    cases b with
    | entry e => exact hentry e
    | skb e => rw [hskb e, List.count_eq_zero.2 (hskb' e)]
    | nativeDev => rw [hname, List.count_eq_zero.2 hname']
    | sem =>
      rw [hcount, h.sem]
      cases nd.rxRingLock
      · simp
      · simp
        omega
    | netdev =>
      rw [hcount, h.netdev]
      simp
      omega

/-! ### The loop of `_lkl_add_eth` -/

/-- The ring after the loop has made the entries below `i`. -/
structure Filled (i : ℕ) (nd : NetdevData) : Prop where
  ready : nd.ready = (List.range i).reverse
  inuse : nd.inuse = []
  lock : nd.rxRingLock = true
  held : Held nd
  name : .nativeDev ∉ nd.heap
  skb : (∃ e, .skb e ∈ nd.heap) ↔ 0 < i

lemma filled_zero : Filled 0 ⟨[], [], true, [.sem, .netdev]⟩ where
  ready := rfl
  inuse := rfl
  lock := rfl
  held := ⟨fun _ => rfl, rfl, rfl⟩
  name := by decide
  skb := by simp

lemma Filled.entry (h : Filled i nd) :
    Held { nd with heap := .entry i :: nd.heap, inuse := i :: nd.inuse } where
  entry e := by
    have hentry := h.held.entry e
    show (Block.entry i :: nd.heap).count (.entry e) = nd.ready.count e + (i :: nd.inuse).count e
    by_cases he : i = e
    · subst he
      rw [count_cons_self, count_cons_self, hentry]
      omega
    · rw [count_cons_of_ne (show Block.entry i ≠ .entry e by simpa using he),
        count_cons_of_ne he, hentry]
  sem := (count_cons_of_ne (show Block.entry i ≠ .sem from nofun)).trans h.held.sem
  netdev := (count_cons_of_ne (show Block.entry i ≠ .netdev from nofun)).trans h.held.netdev

lemma Filled.reload (h : Filled i nd) : Filled (i + 1) (reloadRxRingEntry
      { nd with heap := .entry i :: nd.heap, inuse := i :: nd.inuse } i) where
  ready := by
    rw [range_succ, reverse_append, ← h.ready]
    rfl
  inuse := by
    show (i :: nd.inuse).erase i = []
    rw [erase_cons_head, h.inuse]
  lock := h.lock
  held := by
    have hskb := h.entry.cons (b := .skb i) nofun nofun nofun
    refine ⟨fun e => (hskb.entry e).trans ?_, hskb.sem, hskb.netdev⟩
    show nd.ready.count e + (i :: nd.inuse).count e =
      (i :: nd.ready).count e + ((i :: nd.inuse).erase i).count e
    rw [erase_cons_head, count_cons, count_cons]
    omega
  name := by
    simp [reloadRxRingEntry, h.name]
  skb := by
    refine iff_of_true ⟨i, ?_⟩ (Nat.succ_pos i)
    exact mem_cons_self

/-- What the loop leaves, at its end or where it has failed. -/
structure Looped (env : AddEnv) (n : ℕ) (r : NetdevData × Bool) : Prop where
  held : Held r.1
  name : .nativeDev ∉ r.1.heap
  skb : (∃ e, .skb e ∈ r.1.heap) ↔ 0 < n ∧ env.kmalloc 0 = true ∧ env.allocSkb 0 = true
  done : r.2 = true ↔ ∀ i < n, env.kmalloc i = true ∧ env.allocSkb i = true
  ring : r.2 = true → r.1.ready = (List.range n).reverse ∧ r.1.inuse = [] ∧ r.1.rxRingLock = true

lemma Filled.failed (h : Filled i nd)
    (hpast : ∀ j < i, env.kmalloc j = true ∧ env.allocSkb j = true) {n : ℕ} (hn : i < n)
    (hfail : ¬ (env.kmalloc i = true ∧ env.allocSkb i = true)) {nd' : NetdevData} (hheld : Held nd')
    (hheap : ∀ b, (∀ e, b ≠ .entry e) → (b ∈ nd'.heap ↔ b ∈ nd.heap)) :
    Looped env n (nd', false) where
  held := hheld
  name := fun hmem => h.name ((hheap .nativeDev nofun).1 hmem)
  skb := by
    rw [exists_congr fun e => hheap (.skb e) nofun, h.skb]
    constructor
    · intro hi
      exact ⟨by omega, hpast 0 hi⟩
    · rintro ⟨-, hfirst⟩
      by_contra hi
      obtain rfl : i = 0 := by omega
      exact hfail hfirst
  done := iff_of_false nofun fun hall => hfail (hall i hn)
  ring := nofun

lemma fillRing_spec (env : AddEnv) (h : Filled i nd)
    (hpast : ∀ j < i, env.kmalloc j = true ∧ env.allocSkb j = true) (n : ℕ) :
    Looped env (i + n) (fillRing env n i nd) := by
  induction n generalizing i nd with
  | zero =>
    refine ⟨h.held, h.name, h.skb.trans ?_, iff_of_true rfl hpast,
      fun _ => ⟨h.ready, h.inuse, h.lock⟩⟩
    exact ⟨fun hi => ⟨hi, hpast 0 hi⟩, And.left⟩
  | succ n ih =>
    have hn : i < i + (n + 1) := by omega
    rw [fillRing]
    by_cases hkmalloc : env.kmalloc i = true
    · rw [if_pos hkmalloc]
      by_cases halloc : env.allocSkb i = true
      · simp only [if_pos halloc]
        have hnext := ih h.reload fun j hj => by
          rcases Nat.lt_succ_iff_lt_or_eq.1 hj with hlt | rfl
          · exact hpast j hlt
          · exact ⟨hkmalloc, halloc⟩
        rwa [show i + 1 + n = i + (n + 1) by omega] at hnext
      · simp only [if_neg halloc]
        refine h.failed hpast hn (fun hok => halloc hok.2) h.entry fun b hb => ?_
        exact List.mem_cons.trans (or_iff_right (hb i))
    · rw [if_neg hkmalloc]
      exact h.failed hpast hn (fun hok => hkmalloc hok.1) h.held fun b _ => Iff.rfl

/-- The blocks before `register_netdev`. -/
def withName (env : AddEnv) (nd : NetdevData) : NetdevData :=
  if env.kstrdup then { nd with heap := .nativeDev :: nd.heap } else nd

lemma addEth_of_starts (hstarts : env.Starts) (rxRingLen : ℤ) :
    ∃ nd ok, Looped env rxRingLen.toNat (nd, ok) ∧ addEth env rxRingLen =
      match ok, env.register with
      | false, _ => addFailed nd
      | true, none => addFailed (withName env nd)
      | true, some ifindex => ⟨ifindex.1, some (withName env nd), (withName env nd).heap⟩ := by
  have hloop := fillRing_spec env filled_zero (by simp) rxRingLen.toNat
  rw [Nat.zero_add] at hloop
  obtain ⟨hinit, hdev, hsem⟩ := hstarts
  simp only [addEth, hinit, hdev, hsem]
  cases hr : fillRing env rxRingLen.toNat 0 ⟨[], [], true, [.sem, .netdev]⟩ with
  | mk nd ok =>
    refine ⟨nd, ok, hr ▸ hloop, ?_⟩
    cases ok with
    | false => rfl
    | true => cases env.register <;> rfl

lemma addEth_of_not_starts (hstarts : ¬ env.Starts) (rxRingLen : ℤ) :
    ∃ r ≤ 0, addEth env rxRingLen = ⟨r, none, []⟩ := by
  by_cases hinit : env.failedInit = true
  · exact ⟨-49, by decide, by simp [addEth, hinit]⟩
  by_cases hdev : env.allocEtherdev = true
  · by_cases hsem : env.semAlloc = true
    · exact absurd ⟨by simpa using hinit, hdev, hsem⟩ hstarts
    · refine ⟨0, Int.le_refl 0, ?_⟩
      simp [addEth, hinit, hdev, hsem, addFailed, cleanupNetdev, freeEntries]
  · exact ⟨-12, by decide, by simp [addEth, hinit, hdev]⟩

lemma Held.withName (h : Held nd) : Held (withName env nd) := by
  rw [Release.withName]
  split_ifs
  · exact h.cons nofun nofun nofun
  · exact h

lemma mem_withName :
    b ∈ (withName env nd).heap ↔ env.kstrdup = true ∧ b = .nativeDev ∨ b ∈ nd.heap := by
  rw [withName]
  split_ifs with h <;> simp [h]

lemma addEth_failed (hfail : (addEth env rxRingLen).dev = none) : (addEth env rxRingLen).ret ≤ 0 ∧
      ((addEth env rxRingLen).heap = [] ↔ ¬ env.Loads rxRingLen ∧ ¬ env.Copies rxRingLen) := by
  by_cases hstarts : env.Starts
  · obtain ⟨nd, ok, hloop, heq⟩ := addEth_of_starts hstarts rxRingLen
    have hloads : env.Loads rxRingLen ↔
        0 < rxRingLen.toNat ∧ env.kmalloc 0 = true ∧ env.allocSkb 0 = true := by
      rw [AddEnv.Loads, and_iff_right hstarts, Int.lt_toNat]
      rfl
    rw [heq] at hfail ⊢
    rw [hloads, ← hloop.skb, AddEnv.Copies, and_iff_right hstarts, ← hloop.done]
    cases ok with
    | false =>
      refine ⟨Int.le_refl 0, hloop.held.cleanup_eq_nil_iff.trans ?_⟩
      simp [hloop.name]
    | true =>
      cases hregister : env.register with
      | none =>
        refine ⟨Int.le_refl 0, hloop.held.withName.cleanup_eq_nil_iff.trans ?_⟩
        simp only [mem_withName, hloop.name]
        simp
        exact and_comm
      | some => simp [hregister] at hfail
  · have hnot : ¬ env.Loads rxRingLen ∧ ¬ env.Copies rxRingLen :=
      ⟨fun h => hstarts h.1, fun h => hstarts h.1⟩
    obtain ⟨r, hr, heq⟩ := addEth_of_not_starts hstarts rxRingLen
    rw [heq]
    exact ⟨hr, iff_of_true rfl hnot⟩

lemma addEth_registered (hdev : (addEth env rxRingLen).dev = some nd) :
    0 < (addEth env rxRingLen).ret ∧ (addEth env rxRingLen).heap = nd.heap ∧ Held nd ∧
      nd.ready = (List.range rxRingLen.toNat).reverse ∧ nd.inuse = [] ∧
      nd.rxRingLock = true ∧ (.nativeDev ∈ nd.heap ↔ env.kstrdup = true) := by
  by_cases hstarts : env.Starts
  · obtain ⟨nd', ok, hloop, heq⟩ := addEth_of_starts hstarts rxRingLen
    rw [heq] at hdev ⊢
    cases ok with
    | false => simp [addFailed] at hdev
    | true =>
      cases hregister : env.register with
      | none => simp [hregister, addFailed] at hdev
      | some ifindex =>
        simp only [hregister, Option.some.injEq] at hdev ⊢
        subst hdev
        obtain ⟨hready, hinuse, hlock⟩ := hloop.ring rfl
        have hlists : (withName env nd').ready = nd'.ready ∧
            (withName env nd').inuse = nd'.inuse ∧
            (withName env nd').rxRingLock = nd'.rxRingLock := by
          rw [Release.withName]
          split_ifs <;> exact ⟨rfl, rfl, rfl⟩
        refine ⟨Int.natCast_pos.2 ifindex.2, rfl, hloop.held.withName, hlists.1.trans hready,
          hlists.2.1.trans hinuse, hlists.2.2.trans hlock, ?_⟩
        simp [mem_withName, hloop.name]
  · obtain ⟨r, -, heq⟩ := addEth_of_not_starts hstarts rxRingLen
    rw [heq] at hdev
    exact absurd hdev nofun

/-! ### The law -/

lemma count_note (d : DevId) (s : State) (a : Act) (heap : List Block) (hb : ∀ e, b ≠ .skb e) :
    (note d s a heap).count b = heap.count b := by
  unfold note
  split
  next x _ =>
    split_ifs
    · exact count_erase_of_ne (hb x.entry)
    · rfl
  next x _ =>
    split_ifs
    · exact count_cons_of_ne (hb x.entry).symm
    · rfl
  · rfl

variable {ring : DevId → ℕ} {d : DevId} {p : State × List Block}

lemma count_of_reachable {heap0 : List Block}
    (h : ((machine ring).record heap0 (note d)).Reachable p) (b : Block) (hb : ∀ e, b ≠ .skb e) :
    p.2.count b = heap0.count b := by
  refine h.invariant (I := fun p => p.2.count b = heap0.count b) rfl fun p a hp _ => ?_
  exact (count_note d p.1 a p.2 hb).trans hp

lemma delEth_eq_nil_iff (hdev : (addEth env rxRingLen).dev = some nd)
    (hring : ring d = rxRingLen.toNat) (h : ((machine ring).record nd.heap (note d)).Reachable p) :
    delEth d p.1 p.2 = [] ↔ env.kstrdup = false ∧ ∀ e, .skb e ∉ p.2 := by
  obtain ⟨-, -, hheld, hready, hinuse, hlock, hname⟩ := addEth_registered hdev
  have hlists := (conserved_of_reachable h.of_record d).ring
  have hend : Held ⟨(p.1.devs d).ready, (p.1.devs d).inuse, true, p.2⟩ := by
    refine ⟨fun e => ?_, ?_, ?_⟩
    · -- the lists have all entries of the ring, as they had at the start
      have hstart : nd.heap.count (.entry e) = if e < ring d then 1 else 0 := by
        rw [hheld.entry, hready, hinuse, hring, count_nil, Nat.add_zero, count_reverse]
        simp
      exact (count_of_reachable h (.entry e) nofun).trans (hstart.trans (hlists e).symm)
    · exact (count_of_reachable h .sem nofun).trans (hheld.sem.trans (if_pos hlock))
    · exact (count_of_reachable h .netdev nofun).trans hheld.netdev
  have hkept : .nativeDev ∈ p.2 ↔ env.kstrdup = true := by
    rw [← hname, ← count_pos_iff, ← count_pos_iff, count_of_reachable h .nativeDev nofun]
  refine hend.cleanup_eq_nil_iff.trans (and_congr_left fun _ => ?_)
  rw [hkept, Bool.not_eq_true]

/-- A failing `_lkl_add_eth` returns no valid `ifindex`, and it leaves nothing allocated exactly if
it has allocated no `sk_buff` and no name. A device that was added and has run leaves nothing
allocated after `_lkl_del_eth` exactly if there is no name and no entry has an `sk_buff`. -/
theorem eth_release_law (env : AddEnv) (rxRingLen : ℤ) : ((addEth env rxRingLen).dev = none →
      (addEth env rxRingLen).ret ≤ 0 ∧
        ((addEth env rxRingLen).heap = [] ↔ ¬ env.Loads rxRingLen ∧ ¬ env.Copies rxRingLen)) ∧
    ∀ nd, (addEth env rxRingLen).dev = some nd →
      0 < (addEth env rxRingLen).ret ∧
        ∀ ring d, ring d = rxRingLen.toNat → ∀ p,
          ((machine ring).record nd.heap (note d)).Reachable p →
            (delEth d p.1 p.2 = [] ↔ env.kstrdup = false ∧ ∀ e, .skb e ∉ p.2) :=
  ⟨addEth_failed, fun _ hdev => ⟨(addEth_registered hdev).1,
    fun _ _ hring _ hp => delEth_eq_nil_iff hdev hring hp⟩⟩

/-- All calls succeed but for those that are given. -/
def goodEnv (kstrdup : Bool) (register : Option { ifindex : ℕ // 0 < ifindex }) : AddEnv :=
  ⟨false, true, true, fun _ => true, fun _ => true, kstrdup, register⟩

/-- A frame is passed on, there is no memory for another `sk_buff`, and the device is stopped. -/
def lastFrameRun : List Act :=
  [.openDev 0 true, .poll 0 false, .getRxDesc 0, .recv 0 (some [7]), .trigger 0 true,
    .runIrqs true, .runIrqs true, .runIrqs false, .stop 0, .poll 0 true, .join 0, .purge 0]

/-- A ring of one entry: there is no `sk_buff` for it, or a frame takes it away. -/
theorem eth_release_law_lastFrameRun :
    (addEth { goodEnv true none with allocSkb := fun _ => false } 1).heap = [] ∧
      delEth 0 ((machine fun _ => 1).runFrom (.init fun _ => 1) lastFrameRun)
        [.entry 0, .sem, .netdev] = [] := by
  have hfail := (eth_release_law { goodEnv true none with allocSkb := fun _ => false } 1).1 rfl
  have hadded := (eth_release_law (goodEnv false (some ⟨2, by decide⟩)) 1).2 _ rfl
  refine ⟨hfail.2.2 ⟨fun h => absurd h.2.2.2 (by decide), fun h => ?_⟩, ?_⟩
  · exact absurd (h.2.1 0 (by decide)).2 (by decide)
  · refine (hadded.2 (fun _ => 1) 0 rfl _
      (Machine.reachable_of_admits lastFrameRun (by decide))).2 ⟨rfl, fun e hmem => ?_⟩
    have hheap : Block.skb e ∈ [Block.entry 0, .sem, .netdev] := hmem
    simp at hheap

/-- A ring of one entry whose device cannot be registered leaves the name and the `sk_buff`. -/
theorem failed_register_leaks : (addEth (goodEnv true none) 1).dev = none ∧
      (addEth (goodEnv true none) 1).heap = [.nativeDev, .skb 0] := by
  decide

end LklPort.Eth.Release
