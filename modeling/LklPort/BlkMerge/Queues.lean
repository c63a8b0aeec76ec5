import Mathlib.Algebra.BigOperators.Group.List.Basic
import Mathlib.Algebra.Ring.Nat
import LklPort.BlkMerge.Basic
import Mathlib.Data.List.Nodup

/-!
# What a request transfers

The bios of a request cover its sectors one after another, and its data length is the sum of
theirs. A bio may be added at either end of a request, and two requests may become one, if the
sectors follow each other and the result is not too large.
-/

namespace LklPort.BlkMerge

open List

/-- The bios cover the sectors from `pos` to before `stop` in ascending order. -/
def Covers : ℕ → List Bio → ℕ → Prop
  | pos, [], stop => pos = stop
  | pos, b :: bios, stop => b.sector = pos ∧ Covers (pos + b.sectors) bios stop

/-- A request is as it should be, in a queue with at most so many sectors in a request. -/
structure Transfer.Ok (max : ℕ) (t : Transfer) : Prop where
  covers : Covers t.pos t.bios (t.pos + t.sectors)
  nonempty : t.bios ≠ []
  dataLen : t.dataLen = (t.bios.map Bio.size).sum
  same : ∀ b ∈ t.bios, b.write = t.write ∧ b.disk = t.disk ∧ b.discard = t.discard
  small : t.bios.length = 1 ∨ t.sectors ≤ max
  fit : t.pos + t.sectors < 2 ^ 64

variable {max pos stop : ℕ} {bios bios' : List Bio} {b : Bio} {t u : Transfer}

lemma covers_append :
    Covers pos (bios ++ bios') stop ↔ ∃ mid, Covers pos bios mid ∧ Covers mid bios' stop := by
  induction bios generalizing pos with
  | nil => simp [Covers]
  | cons _ _ ih =>
    rw [cons_append, Covers, ih]
    constructor
    · rintro ⟨hb, mid, h, h'⟩
      exact ⟨mid, ⟨hb, h⟩, h'⟩
    · rintro ⟨mid, ⟨hb, h⟩, h'⟩
      exact ⟨hb, mid, h, h'⟩

/-! ### Sizes -/

lemma sum_sizes (bios : List Bio) : 512 ∣ (bios.map Bio.size).sum := by
  induction bios with
  | nil => exact ⟨0, rfl⟩
  | cons b _ ih =>
    exact Nat.dvd_add b.dvd_size ih

lemma Transfer.sectors_eq (t : Transfer) : t.sectors = t.dataLen / 512 := by
  rw [Transfer.sectors, Nat.shiftRight_eq_div_pow]

lemma Transfer.Ok.dataLen_eq (h : t.Ok max) : t.dataLen = 512 * t.sectors := by
  have hdvd := sum_sizes t.bios
  rw [← h.dataLen] at hdvd
  rw [t.sectors_eq]
  omega

lemma Transfer.Ok.key (h : t.Ok max) : t.key = t.pos + t.sectors := Nat.mod_eq_of_lt h.fit

/-! ### New requests -/

lemma ok_initRequest (hfit : b.sector + b.sectors < 2 ^ 64) (max : ℕ) :
    (initRequestFromBio b).toTransfer.Ok max where
  covers := ⟨rfl, rfl⟩
  nonempty := cons_ne_nil b []
  dataLen := (sum_singleton).symm
  same c hc := by
    obtain rfl := List.mem_singleton.mp hc
    exact ⟨rfl, rfl, rfl⟩
  small := .inl rfl
  fit := hfit

/-! ### Larger requests -/

/-- A transfer of the sectors of `t` and then of those of `u`. -/
def Transfer.join (t u : Transfer) : Transfer :=
  { t with
    bios := t.bios ++ u.bios
    dataLen := (t.dataLen + u.dataLen) % 2 ^ 32 }

section

variable (ht : t.Ok max) (hu : u.Ok max) (hlt : t.sectors + u.sectors < 2 ^ 23)

include ht hu hlt

lemma Transfer.Ok.join_dataLen : (t.join u).dataLen = t.dataLen + u.dataLen := by
  have htlen := ht.dataLen_eq
  have hulen := hu.dataLen_eq
  exact Nat.mod_eq_of_lt (by omega)

lemma Transfer.Ok.join_sectors : (t.join u).sectors = t.sectors + u.sectors := by
  have htlen := ht.dataLen_eq
  have hulen := hu.dataLen_eq
  rw [Transfer.sectors_eq (t.join u), ht.join_dataLen hu hlt]
  omega

end

lemma Transfer.Ok.join (ht : t.Ok max) (hu : u.Ok max) (hpos : t.pos + t.sectors = u.pos)
    (hsame : u.write = t.write ∧ u.disk = t.disk ∧ u.discard = t.discard)
    (hmax : t.sectors + u.sectors ≤ max) (hlt : t.sectors + u.sectors < 2 ^ 23) :
    (t.join u).Ok max := by
  have hsectors := ht.join_sectors hu hlt
  have hstop : t.pos + (t.join u).sectors = u.pos + u.sectors := by omega
  refine ⟨?_, ?_, ?_, ?_, .inr (hsectors ▸ hmax), ?_⟩
  · refine covers_append.mpr ⟨u.pos, ?_, ?_⟩
    · rw [← hpos]
      exact ht.covers
    · change Covers u.pos u.bios (t.pos + (t.join u).sectors)
      rw [hstop]
      exact hu.covers
  · exact append_ne_nil_of_left_ne_nil ht.nonempty _
  · rw [ht.join_dataLen hu hlt, ht.dataLen, hu.dataLen, ← sum_append, ← map_append]
    rfl
  · intro b hb
    rcases List.mem_append.mp hb with hb | hb
    · exact ht.same b hb
    · obtain ⟨hw, hd, hdis⟩ := hu.same b hb
      exact ⟨hw.trans hsame.1, hd.trans hsame.2.1, hdis.trans hsame.2.2⟩
  · change t.pos + (t.join u).sectors < 2 ^ 64
    rw [hstop]
    exact hu.fit

/-!
## The lists of a queue

A request is on the list of the scheduler, on the dispatch list, or with the driver. The hash and
the one-hit cache only know requests of the first kind. Each bio that has been submitted waits for a
new request or is in exactly one request.
-/

open Program

/-- All requests, with those that the driver has. -/
def Queue.all (q : Queue) (D : List ℕ) : List ℕ := q.sorted ++ q.dispatch ++ D

/-- The bios `W` wait for a request, `D` are the requests that the driver has, and `B` are all bios
that have been submitted. -/
structure Inv (q : Queue) (W : List Bio) (D : List ℕ) (B : List Bio) : Prop where
  ok : ∀ i ∈ q.all D, (q.rq i).toTransfer.Ok q.maxSectors
  nodup : (q.all D).Nodup
  hashed : ∀ k, ∀ i ∈ q.hash k, i ∈ q.sorted
  cached : ∀ i, q.lastMerge = some i → i ∈ q.sorted
  bios : (W ++ (q.all D).flatMap fun i => (q.rq i).bios).Perm B
  fit : ∀ b ∈ W, b.sector + b.sectors < 2 ^ 64

/-- The lists and what the requests transfer stay as they are, and no request comes into the hash
or the cache. -/
structure Calm (q q' : Queue) : Prop where
  sorted : q'.sorted = q.sorted
  dispatch : q'.dispatch = q.dispatch
  maxSectors : q'.maxSectors = q.maxSectors
  transfer : ∀ i, (q'.rq i).toTransfer = (q.rq i).toTransfer
  hash : ∀ k, ∀ i ∈ q'.hash k, i ∈ q.hash k
  cache : ∀ i, q'.lastMerge = some i → q.lastMerge = some i

variable {q q' : Queue} {W B : List Bio} {D : List ℕ} {i j : ℕ}

lemma Calm.refl (q : Queue) : Calm q q :=
  ⟨rfl, rfl, rfl, fun _ => rfl, fun _ _ h => h, fun _ h => h⟩

lemma Inv.calm (h : Inv q W D B) (hc : Calm q q') : Inv q' W D B := by
  have hall : q'.all D = q.all D := by rw [Queue.all, hc.sorted, hc.dispatch, Queue.all]
  refine ⟨fun i hi => ?_, ?_, fun k i hi => ?_, fun i hi => ?_, ?_, h.fit⟩
  · rw [hc.transfer, hc.maxSectors]
    exact h.ok i (hall ▸ hi)
  · rw [hall]
    exact h.nodup
  · rw [hc.sorted]
    exact h.hashed k i (hc.hash k i hi)
  · rw [hc.sorted]
    exact h.cached i (hc.cache i hi)
  · rw [hall]
    simp only [hc.transfer]
    exact h.bios

lemma mem_all (D : List ℕ) (hi : i ∈ q.sorted) : i ∈ q.all D :=
  mem_append_left _ (mem_append_left _ hi)

lemma Inv.ok_sorted (h : Inv q W D B) (hi : i ∈ q.sorted) : (q.rq i).toTransfer.Ok q.maxSectors :=
  h.ok i (mem_all D hi)

/-! ### Requests change -/

lemma setRq_self (q : Queue) (i : ℕ) (f : Request → Request) : (q.setRq i f).rq i = f (q.rq i) :=
  Function.update_self ..

lemma setRq_of_ne (q : Queue) (h : j ≠ i) (f : Request → Request) :
    (q.setRq i f).rq j = q.rq j := Function.update_of_ne h ..

lemma calm_setRq (q : Queue) (i : ℕ) {f : Request → Request}
    (hf : ∀ r, (f r).toTransfer = r.toTransfer) : Calm q (q.setRq i f) := by
  refine ⟨rfl, rfl, rfl, fun j => ?_, fun _ _ h => h, fun _ h => h⟩
  by_cases hj : j = i
  · subst hj
    rw [setRq_self, hf]
  · rw [setRq_of_ne q hj]

lemma flatMap_perm {L : List ℕ} (hL : L.Nodup) (hi : i ∈ L) {f g : ℕ → List Bio} {x : List Bio}
    (hne : ∀ j ∈ L, j ≠ i → g j = f j) (hg : (g i).Perm (x ++ f i)) :
    (L.flatMap g).Perm (x ++ L.flatMap f) := by
  have hperm := perm_cons_erase hi
  have hrest : (L.erase i).flatMap g = (L.erase i).flatMap f := by
    refine flatMap_congr fun j hj => hne j (mem_of_mem_erase hj) ?_
    rintro rfl
    exact hL.not_mem_erase hj
  have hfirst : (L.flatMap g).Perm (g i ++ (L.erase i).flatMap f) := by
    rw [← hrest]
    exact hperm.flatMap_right g
  refine hfirst.trans ((hg.append_right _).trans ?_)
  rw [append_assoc]
  exact (hperm.flatMap_right f).symm.append_left x

lemma Inv.join (h : Inv q (b :: W) D B) (hi : i ∈ q.sorted) {f : Request → Request}
    (hbios : (f (q.rq i)).bios.Perm (b :: (q.rq i).bios))
    (hok : (f (q.rq i)).toTransfer.Ok q.maxSectors) : Inv (q.setRq i f) W D B := by
  refine ⟨fun j hj => ?_, h.nodup, h.hashed, h.cached, ?_,
    fun c hc => h.fit c (mem_cons_of_mem b hc)⟩
  · by_cases hji : j = i
    · subst hji
      rw [setRq_self]
      exact hok
    · rw [setRq_of_ne q hji]
      exact h.ok j hj
  · refine List.Perm.trans ?_ h.bios
    have hperm := flatMap_perm h.nodup (mem_all D hi)
      (g := fun j => ((q.setRq i f).rq j).bios) (x := [b])
      (fun j _ hj => by rw [setRq_of_ne q hj]) (by rw [setRq_self]; exact hbios)
    apply (hperm.append_left W).trans
    exact perm_middle

lemma Inv.absorb (h : Inv q W D B) {r n : ℕ} (hr : r ∈ q.sorted) (hn : n ∈ q.sorted) (hrn : r ≠ n)
    (hok : ((q.rq r).toTransfer.join (q.rq n).toTransfer).Ok q.maxSectors)
    (hsorted : q'.sorted = q.sorted.erase n) (hdispatch : q'.dispatch = q.dispatch)
    (hmax : q'.maxSectors = q.maxSectors)
    (hrq : (q'.rq r).toTransfer = (q.rq r).toTransfer.join (q.rq n).toTransfer)
    (hrest : ∀ j, j ≠ r → j ≠ n → (q'.rq j).toTransfer = (q.rq j).toTransfer)
    (hhash : ∀ k, ∀ i ∈ q'.hash k, i ∈ q.sorted ∧ i ≠ n)
    (hcache : ∀ i, q'.lastMerge = some i → i = r) : Inv q' W D B := by
  have hall : q'.all D = (q.all D).erase n := by
    rw [Queue.all, hsorted, hdispatch, Queue.all, erase_append_left _
      (mem_append_left _ hn), erase_append_left _ hn]
  have hne : ∀ j ∈ (q.all D).erase n, j ≠ n := by
    rintro j hj rfl
    exact h.nodup.not_mem_erase hj
  refine ⟨fun j hj => ?_, ?_, fun k i hi => ?_, fun i hi => ?_, ?_, h.fit⟩
  · rw [hall] at hj
    rw [hmax]
    by_cases hjr : j = r
    · subst hjr
      rw [hrq]
      exact hok
    · rw [hrest j hjr (hne j hj)]
      exact h.ok j (mem_of_mem_erase hj)
  · rw [hall]
    exact h.nodup.erase n
  · rw [hsorted]
    exact (mem_erase_of_ne (hhash k i hi).2).mpr (hhash k i hi).1
  · rw [hsorted, hcache i hi]
    exact (mem_erase_of_ne hrn).mpr hr
  · refine List.Perm.trans (List.Perm.append_left W ?_) h.bios
    -- the bios of `n` are now in `r`
    have hperm := (perm_cons_erase (mem_all D hn)).flatMap_right fun j => (q.rq j).bios
    refine List.Perm.trans ?_ hperm.symm
    rw [hall, flatMap_cons]
    refine flatMap_perm (h.nodup.erase n) ((mem_erase_of_ne hrn).mpr (mem_all D hr))
      (fun j hj hjr => by rw [hrest j hjr (hne j hj)]) ?_
    rw [hrq]
    exact perm_append_comm

/-! ### Hash and cache -/

lemma Inv.hashed_of (h : Inv q W D B) {hash : Fin 64 → List ℕ} (hi : i ∈ q.sorted)
    (hhash : ∀ k, ∀ j ∈ hash k, j = i ∨ j ∈ q.hash k) (last : Option ℕ)
    (hlast : ∀ j, last = some j → j ∈ q.sorted) :
    Inv { q with hash := hash, lastMerge := last } W D B := by
  refine ⟨h.ok, h.nodup, fun k j hj => ?_, hlast, h.bios, h.fit⟩
  rcases hhash k j hj with rfl | hj
  · exact hi
  · exact h.hashed k j hj

variable (hashFn : ℕ → Fin 64)

lemma elvRqhashAdd_runs (hi : ¬ q.OnHash i) : Ends (elvRqhashAdd hashFn i) q fun _ q' =>
    ∃ hash, q' = { q with hash := hash } ∧ ∀ k, ∀ j ∈ hash k, j = i ∨ j ∈ q.hash k := by
  refine .read (.ite (fun h => absurd h hi) fun _ => ⟨(), _, .write _ q, _, rfl, fun k j hj => ?_⟩)
  rw [Function.update_apply] at hj
  split_ifs at hj with hk
  · rw [mem_cons] at hj
    exact hj.imp_right fun hj => hk ▸ hj
  · exact .inr hj

lemma not_onHash_filter (q : Queue) (i : ℕ) :
    ¬ Queue.OnHash { q with hash := fun k => (q.hash k).filter (· ≠ i) } i := by
  rintro ⟨k, hk⟩
  simp at hk

lemma elvRqhashReposition_runs (q : Queue) (i : ℕ) :
    Ends (elvRqhashReposition hashFn i) q fun _ q' =>
      ∃ hash, q' = { q with hash := hash } ∧ ∀ k, ∀ j ∈ hash k, j = i ∨ j ∈ q.hash k := by
  obtain ⟨_, _, hrun, hash, rfl, hhash⟩ := elvRqhashAdd_runs hashFn (not_onHash_filter q i)
  exact ⟨(), _, .bind (.write _ q) hrun, hash, rfl, fun k j hj =>
    (hhash k j hj).imp_right mem_of_mem_filter⟩

end LklPort.BlkMerge
