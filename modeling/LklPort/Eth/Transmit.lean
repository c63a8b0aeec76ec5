import LklPort.Machine.Basic
import Mathlib.Data.Int.Notation
import Mathlib.Data.List.Nodup

/-!
# Transmission

The network core takes an `sk_buff` from the queue of the device and offers it to `start_xmit`,
which frees it when the host has sent the frame. The return value says who owns the `sk_buff`
afterwards: below `NET_XMIT_MASK` it has been consumed, and otherwise it goes back to the front
of the queue. `lkl_eth_native_xmit` returns 0 or a negative number, so it is always consumed, and
one that the host could not send is freed by nobody.
-/

namespace LklPort.Eth.Transmit

open List

def netXmitMask : ℤ := 0x0f

def devXmitComplete (rc : ℤ) : Bool := rc < netXmitMask

/-- `lkl_eth_native_xmit`, where `sendto` returns `err`. -/
def nativeXmit (err : ℤ) : ℤ := if err ≥ 0 then 0 else err

/-- An `sk_buff` was passed to `start_xmit`, and `sendto` returned `err`. -/
structure Offer where
  skb : ℕ
  err : ℤ
  deriving DecidableEq

structure State where
  /-- The `sk_buff`s that the core will offer, in order. -/
  queue : List ℕ
  /-- History: every `sk_buff` that has been in the queue. -/
  known : List ℕ
  /-- History: the calls of `start_xmit`. -/
  offered : List Offer
  /-- History: the calls of `dev_kfree_skb`. -/
  freed : List ℕ

/-- `start_xmit`, with its return value. -/
def startXmit (s : State) (skb : ℕ) (sent : ℤ) : State × ℤ :=
  let err := nativeXmit sent
  let s := { s with offered := ⟨skb, sent⟩ :: s.offered }
  (if err = 0 then { s with freed := skb :: s.freed } else s, err)

/-- `sch_direct_xmit` for the first `sk_buff` of the queue. -/
def directXmit (s : State) (sent : ℤ) : State :=
  match s.queue with
  | [] => s
  | skb :: queue =>
    let (s, rc) := startXmit { s with queue := queue } skb sent
    if devXmitComplete rc then s else { s with queue := skb :: s.queue }

inductive Act where
  | enqueue (skb : ℕ)
  /-- The core offers an `sk_buff`, and `sendto` returns `sent`. -/
  | xmit (sent : ℤ)

/-- The core transmits `sk_buff`s, each of them new when it enters the queue. -/
def machine : Machine State Act where
  init := ⟨[], [], [], []⟩
  guard s
    | .enqueue skb => skb ∉ s.known
    | .xmit _ => s.queue ≠ []
  next s
    | .enqueue skb => { s with queue := s.queue ++ [skb], known := skb :: s.known }
    | .xmit sent => directXmit s sent

instance (s : State) : (a : Act) → Decidable (machine.guard s a)
  | .enqueue skb => inferInstanceAs (Decidable (skb ∉ s.known))
  | .xmit _ => inferInstanceAs (Decidable (s.queue ≠ []))

/-! ### Who frees an `sk_buff` -/

lemma nativeXmit_eq_zero_iff {err : ℤ} : nativeXmit err = 0 ↔ 0 ≤ err := by
  rw [nativeXmit]
  split_ifs <;> omega

lemma devXmitComplete_nativeXmit (err : ℤ) : devXmitComplete (nativeXmit err) = true := by
  rw [devXmitComplete, decide_eq_true_iff, nativeXmit, netXmitMask]
  split_ifs <;> omega

variable {s : State} {o : Offer}

lemma directXmit_cons {skb : ℕ} {queue : List ℕ} (hqueue : s.queue = skb :: queue) (sent : ℤ) :
    directXmit s sent =
      { s with
        queue := queue
        offered := ⟨skb, sent⟩ :: s.offered
        freed := if 0 ≤ sent then skb :: s.freed else s.freed } := by
  simp only [directXmit, hqueue, startXmit, devXmitComplete_nativeXmit, if_true,
    nativeXmit_eq_zero_iff]
  split_ifs <;> rfl

/-- An `sk_buff` waits in the queue or was offered, once, and the freed ones are those of the
offers that the host has accepted. -/
structure Inv (s : State) : Prop where
  once : (s.offered.map Offer.skb ++ s.queue).Nodup
  known : ∀ skb ∈ s.offered.map Offer.skb ++ s.queue, skb ∈ s.known
  freed : s.freed = (s.offered.filter fun o => 0 ≤ o.err).map Offer.skb

lemma Inv.enqueue (h : Inv s) {skb : ℕ} (hskb : skb ∉ s.known) :
    Inv { s with queue := s.queue ++ [skb], known := skb :: s.known } where
  once := by
    rw [← append_assoc]
    apply h.once.append (nodup_singleton skb)
    rw [disjoint_singleton]
    exact fun hmem => hskb (h.known skb hmem)
  known := by
    intro x hx
    rw [← append_assoc, mem_append, mem_singleton] at hx
    rcases hx with hx | rfl
    · exact mem_cons_of_mem _ (h.known x hx)
    · exact mem_cons_self
  freed := h.freed

lemma Inv.xmit (h : Inv s) (hqueue : s.queue ≠ []) (sent : ℤ) : Inv (directXmit s sent) := by
  obtain ⟨skb, queue, hcons⟩ := exists_cons_of_ne_nil hqueue
  have hperm : (skb :: (s.offered.map Offer.skb ++ queue)).Perm
      (s.offered.map Offer.skb ++ s.queue) := by
    rw [hcons]
    exact List.perm_middle.symm
  rw [directXmit_cons hcons]
  refine ⟨hperm.nodup_iff.2 h.once, fun x hx => h.known x (hperm.mem_iff.1 hx), ?_⟩
  split_ifs with hsent
  · rw [filter_cons_of_pos (by simpa using hsent), map_cons, ← h.freed]
  · rw [filter_cons_of_neg (by simpa using hsent), ← h.freed]

lemma inv_of_reachable (h : machine.Reachable s) : Inv s := by
  have h0 : Inv machine.init := ⟨nodup_nil, nofun, rfl⟩
  refine h.invariant h0 fun s a hs ha => ?_
  cases a with
  | enqueue => exact hs.enqueue ha
  | xmit sent => exact hs.xmit ha sent

lemma Inv.count_freed (h : Inv s) (ho : o ∈ s.offered) :
    s.freed.count o.skb = if 0 ≤ o.err then 1 else 0 := by
  have hnodup : (s.offered.map Offer.skb).Nodup := (List.nodup_append.1 h.once).1
  rw [h.freed]
  split_ifs with herr
  · apply count_eq_one_of_mem (hnodup.sublist (List.filter_sublist.map _))
    exact mem_map_of_mem (List.mem_filter.2 ⟨ho, by simpa using herr⟩)
  · rw [count_eq_zero]
    intro hmem
    obtain ⟨o', ho', heq⟩ := List.mem_map.1 hmem
    rw [mem_filter] at ho'
    rw [inj_on_of_nodup_map hnodup ho'.1 ho heq] at ho'
    exact herr (by simpa using ho'.2)

lemma offered_directXmit (ho : o ∈ s.offered) (sent : ℤ) : o ∈ (directXmit s sent).offered := by
  cases hqueue : s.queue with
  | nil => simpa only [directXmit, hqueue] using ho
  | cons =>
    rw [directXmit_cons hqueue]
    exact mem_cons_of_mem _ ho

lemma offered_runFrom (ho : o ∈ s.offered) (as : List Act) :
    o ∈ (machine.runFrom s as).offered := by
  induction as generalizing s with
  | nil => exact ho
  | cons a _ ih =>
    apply ih
    cases a with
    | enqueue => exact ho
    | xmit sent => exact offered_directXmit ho sent

/-- In every run, nothing is freed twice or while the core still holds it, and the `sk_buff`s that
`start_xmit` was given are freed once exactly when the host has sent all of them. -/
theorem transmit_ownership {s : State} (h : machine.Reachable s) :
    (∀ skb, s.freed.count skb ≤ 1) ∧ (∀ skb ∈ s.queue, s.freed.count skb = 0) ∧
      ((∀ o ∈ s.offered, s.freed.count o.skb = 1) ↔ ∀ o ∈ s.offered, 0 ≤ o.err) := by
  have hinv := inv_of_reachable h
  obtain ⟨hnodup, -, hdisj⟩ := List.nodup_append.1 hinv.once
  have hsub : ∀ skb ∈ s.freed, skb ∈ s.offered.map Offer.skb := by
    intro skb hskb
    rw [hinv.freed] at hskb
    exact (List.filter_sublist.map _).subset hskb
  refine ⟨fun skb => ?_, fun skb hskb => ?_, forall₂_congr fun o ho => ?_⟩
  · rw [hinv.freed]
    exact List.nodup_iff_count_le_one.1 (hnodup.sublist (List.filter_sublist.map _)) skb
  · exact List.count_eq_zero.2 fun hmem => hdisj skb (hsub skb hmem) skb hskb rfl
  · rw [hinv.count_freed ho]
    split_ifs with herr <;> simp [herr]

/-- Two `sk_buff`s are transmitted, and `sendto` returns `err` for the second one. -/
def twoFrames (err : ℤ) : List Act := [.enqueue 1, .enqueue 2, .xmit 60, .xmit err]

theorem transmit_ownership_twoFrames : machine.Admits machine.init (twoFrames 42) ∧
    ∀ o ∈ (machine.runFrom machine.init (twoFrames 42)).offered,
      (machine.runFrom machine.init (twoFrames 42)).freed.count o.skb = 1 := by
  have hadmits : machine.Admits machine.init (twoFrames 42) := by decide
  have hlaw := transmit_ownership (Machine.reachable_of_admits (twoFrames 42) hadmits)
  exact ⟨hadmits, hlaw.2.2.2 (by decide)⟩

/-- The `sk_buff` that the host could not send has left the queue, and it is never freed. -/
theorem failed_xmit_leaks : ∃ s, machine.Reachable s ∧ s.queue = [] ∧ ⟨2, -1⟩ ∈ s.offered ∧
    ∀ as, machine.Admits s as → (machine.runFrom s as).freed.count 2 = 0 := by
  have hreach := Machine.reachable_of_admits (M := machine) (twoFrames (-1)) (by decide)
  have hoffer : (⟨2, -1⟩ : Offer) ∈ (machine.runFrom machine.init (twoFrames (-1))).offered := by
    decide
  refine ⟨_, hreach, by decide, hoffer, fun as has => ?_⟩
  exact (inv_of_reachable (hreach.runFrom has)).count_freed (offered_runFrom hoffer as)

end LklPort.Eth.Transmit
