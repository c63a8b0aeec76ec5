import LklPort.BlkMerge.Queues

/-!
# Merging a bio

What the elevator finds, what the limits allow, and what becomes of the queue when a bio joins a
request and when that request then takes over its neighbour.
-/

namespace LklPort.BlkMerge

open Program List

variable (hashFn : ℕ → Fin 64) {q q' : Queue} {W B : List Bio} {D : List ℕ} {b : Bio} {i : ℕ}

/-! ### What the elevator finds -/

/-- Requests are taken out of the hash. -/
def Pruned (q q' : Queue) : Prop :=
  ∃ hash, q' = { q with hash := hash } ∧ ∀ k, ∀ i ∈ hash k, i ∈ q.hash k

lemma Pruned.refl (q : Queue) : Pruned q q := ⟨q.hash, rfl, fun _ _ h => h⟩

lemma Pruned.calm (h : Pruned q q') : Calm q q' := by
  obtain ⟨hash, rfl, hhash⟩ := h
  exact ⟨rfl, rfl, rfl, fun _ => rfl, hhash, fun _ h => h⟩

lemma Pruned.rq (h : Pruned q q') : q'.rq = q.rq := by
  obtain ⟨hash, rfl, -⟩ := h
  rfl

/-- The bio may be merged with the request, at the given end. -/
structure Candidate (q : Queue) (b : Bio) (i : ℕ) (type : MergeType) : Prop where
  sorted : i ∈ q.sorted
  mergeOk : elvRqMergeOk (q.rq i) b = true
  back : type = .back → (q.rq i).key = b.sector
  front : type = .front → ((q.rq i).pos + 2 ^ 64 - b.sectors) % 2 ^ 64 = b.sector

lemma elvTryMerge_eq_some {r : Request} {type : MergeType} (h : elvTryMerge r b = some type) :
    elvRqMergeOk r b = true ∧ (type = .back → r.key = b.sector) ∧
      (type = .front → (r.pos + 2 ^ 64 - b.sectors) % 2 ^ 64 = b.sector) := by
  unfold elvTryMerge at h
  split_ifs at h with hok hback hfront
  · cases h
    exact ⟨hok, fun _ => hback, nofun⟩
  · cases h
    exact ⟨hok, nofun, fun _ => hfront⟩

lemma elvRqhashTry_runs {q0 : Queue} {offset : ℕ} (h : Pruned q0 q) (hi : i ∈ q0.sorted) :
    Ends (elvRqhashTry offset i) q (Found (Pruned q0)
      fun j q' => Pruned q0 q' ∧ j ∈ q0.sorted ∧ (q0.rq j).key = offset) := by
  refine .read (.ite (fun _ => .write _ (.pure ?_)) fun _ => .ite (fun hkey => .pure ?_)
    fun _ => .pure h)
  · obtain ⟨hash, rfl, hhash⟩ := h
    exact ⟨_, rfl, fun k j hj => hhash k j (mem_of_mem_filter hj)⟩
  · exact ⟨h, hi, h.rq ▸ hkey⟩

lemma Inv.elvRqhashFind_runs (h : Inv q W D B) (offset : ℕ) :
    Ends (elvRqhashFind hashFn offset) q (Found (Pruned q)
      fun j q' => Pruned q q' ∧ j ∈ q.sorted ∧ (q.rq j).key = offset) :=
  .read (.findSome (fun i hi _ hs => elvRqhashTry_runs hs (h.hashed (hashFn offset) i hi))
    (Pruned.refl q))

/-- What `elv_merge` returns. -/
def ElvFound (q : Queue) (b : Bio) : Option (ℕ × MergeType) → Queue → Prop :=
  Found (Pruned q) fun x q' => Pruned q q' ∧ Candidate q b x.1 x.2

lemma Inv.elvMergeHash_runs (h : Inv q W D B) (b : Bio) :
    Ends (elvMergeHash hashFn b) q (ElvFound q b) := by
  refine (h.elvRqhashFind_runs hashFn b.sector).bind fun r q' hr => ?_
  match r, hr with
  | none, hr => exact .pure hr
  | some i, ⟨hpruned, hi, hkey⟩ =>
    refine .read (.ite (fun hok => .pure ⟨hpruned, hi, ?_, fun _ => hkey, nofun⟩)
      fun _ => .pure hpruned)
    rwa [← hpruned.rq]

lemma Inv.elvMerge_runs (h : Inv q W D B) (nomerges noxmerges : Bool) (b : Bio) :
    Ends (elvMerge hashFn nomerges noxmerges b) q (ElvFound q b) := by
  refine .ite (fun _ => .pure (Pruned.refl q)) fun _ => .read ?_
  split
  next i type hlast =>
    obtain ⟨j, hj, htry⟩ := Option.bind_eq_some_iff.mp hlast
    obtain ⟨type', htype, heq⟩ := Option.map_eq_some_iff.mp htry
    cases heq
    obtain ⟨hok, hback, hfront⟩ := elvTryMerge_eq_some htype
    exact .pure ⟨Pruned.refl q, h.cached _ hj, hok, hback, hfront⟩
  next =>
    exact .ite (fun _ => .pure (Pruned.refl q)) fun _ => h.elvMergeHash_runs hashFn b

/-! ### What the limits allow -/

lemma noMerge_calm (q : Queue) (i : ℕ) : Ends (noMerge i) q fun _ => Calm q := by
  have hcalm := calm_setRq q i (f := fun r => { r with nomerge := true }) fun _ => rfl
  refine ⟨(), _, .write _ q, rfl, rfl, rfl, hcalm.transfer, fun _ _ h => h, fun j hj => ?_⟩
  split_ifs at hj with hlast
  exact hj

lemma llMergeFn_runs (q : Queue) (i : ℕ) (b : Bio) :
    Ends (llMergeFn i b) q fun r q' => Calm q q' ∧
      (r = true → (q.rq i).sectors + b.sectors ≤ q.maxSectors % 2 ^ 16) := by
  have hno : Ends (do noMerge i; return false) q fun r q' => Calm q q' ∧
      (r = true → (q.rq i).sectors + b.sectors ≤ q.maxSectors % 2 ^ 16) :=
    (noMerge_calm q i).bind fun _ _ hcalm => .pure ⟨hcalm, nofun⟩
  refine .read (.ite (fun _ => hno) fun hlarge => .read (.ite (fun _ => hno) fun _ =>
    .write _ (.pure ⟨calm_setRq q i fun _ => rfl, fun _ => Nat.le_of_not_gt hlarge⟩)))

lemma llMergeRequestsFn_runs (q : Queue) (contig : Bool) (r n : ℕ) :
    Ends (llMergeRequestsFn contig r n) q fun ret q' => Calm q q' ∧
      (ret = true → (q.rq r).sectors + (q.rq n).sectors ≤ q.maxSectors) := by
  have hno : Ends (return false) q fun ret q' => Calm q q' ∧
      (ret = true → (q.rq r).sectors + (q.rq n).sectors ≤ q.maxSectors) := .pure ⟨.refl q, nofun⟩
  exact .read (.ite (fun _ => hno) fun _ => .ite (fun _ => hno) fun hlarge => .ite (fun _ => hno)
    fun _ => .write _ (.pure ⟨calm_setRq q r fun _ => rfl, fun _ => Nat.le_of_not_gt hlarge⟩))

/-! ### Merging requests -/

lemma latter_eq_some {l : List ℕ} {j : ℕ} (hl : l.Nodup) (h : latter l i = some j) :
    i ∈ l ∧ j ∈ l ∧ i ≠ j := by
  induction l with
  | nil => simp [latter] at h
  | cons a l ih =>
    cases l with
    | nil => simp [latter] at h
    | cons =>
      rw [latter] at h
      rw [nodup_cons] at hl
      split_ifs at h with ha
      · cases h
        subst ha
        exact ⟨mem_cons_self, mem_cons_of_mem _ mem_cons_self, ne_of_not_mem_cons hl.1⟩
      · obtain ⟨hi, hj, hij⟩ := ih hl.2 h
        exact ⟨mem_cons_of_mem a hi, mem_cons_of_mem a hj, hij⟩

lemma Inv.sorted_nodup (h : Inv q W D B) : q.sorted.Nodup := by
  have hnodup := h.nodup
  rw [Queue.all, append_assoc, nodup_append] at hnodup
  exact hnodup.1

lemma Inv.absorb_runs (h : Inv q W D B) {r n : ℕ} (hr : r ∈ q.sorted) (hn : n ∈ q.sorted)
    (hrn : r ≠ n) (hok : ((q.rq r).toTransfer.join (q.rq n).toTransfer).Ok q.maxSectors) :
    Ends (BlkMerge.absorb hashFn r n) q fun _ q' => Inv q' W D B := by
  have hnodup := h.nodup
  rw [Queue.all, append_assoc, nodup_append] at hnodup
  refine .write _ (.bind (P := fun _ q' => ∃ hash : Fin 64 → List ℕ,
      (∀ k, ∀ j ∈ hash k, j = r ∨ j ∈ q.hash k) ∧ q' = { q.setRq r fun x => { x with
        bios := x.bios ++ (q.rq n).bios
        dataLen := (x.dataLen + (q.rq n).dataLen) % 2 ^ 32 } with
          sorted := q.sorted.erase n
          hash := fun k => (hash k).filter (· ≠ n)
          lastMerge := some r }) ?_ ?_)
  · refine .write _ ((elvRqhashReposition_runs hashFn _ r).bind ?_)
    rintro _ _ ⟨hash, rfl, hhash⟩
    exact .write _ ⟨(), _, .write _ _, hash, hhash, rfl⟩
  rintro _ _ ⟨hash, hhash, rfl⟩
  refine .write _ (.read (.ite ?_ fun _ => .pure ?_))
  · rintro (hmem | hmem | hmem)
    · exact absurd hmem hnodup.1.not_mem_erase
    · exact absurd rfl (hnodup.2.2 n hn n (mem_append_left _ hmem))
    · exact absurd hmem (not_onHash_filter { q with hash := hash } n)
  refine h.absorb hr hn hrn hok rfl rfl rfl ?_ (fun j hjr hjn => ?_) (fun k j hj => ?_)
    fun j hj => (Option.some.inj hj).symm
  · rw [setRq_of_ne _ hrn, setRq_self]
    rfl
  · rw [setRq_of_ne _ hjn, setRq_of_ne _ hjr]
  · obtain ⟨hmem, hne⟩ := List.mem_filter.mp hj
    refine ⟨?_, by simpa using hne⟩
    rcases hhash k j hmem with rfl | hmem
    · exact hr
    · exact h.hashed k j hmem

/-- A neighbour that follows a request is of the same kind. -/
def Matching (q : Queue) (r n : ℕ) : Prop :=
  (q.rq r).pos + (q.rq r).sectors = (q.rq n).pos → (q.rq n).discard = (q.rq r).discard

lemma Inv.attemptMerge_runs (h : Inv q W D B) {r n : ℕ} (hr : r ∈ q.sorted) (hn : n ∈ q.sorted)
    (hrn : r ≠ n) (hmax : q.maxSectors < 2 ^ 23) (hkind : Matching q r n) (contig : Bool) :
    Ends (attemptMerge hashFn contig r n) q fun ret q' => Inv q' W D B ∧
      (ret = false → q'.sorted = q.sorted) := by
  have hno : Ends (return false) q fun ret q' => Inv q' W D B ∧
      (ret = false → q'.sorted = q.sorted) := .pure ⟨h, fun _ => rfl⟩
  refine .read (.ite (fun _ => hno) fun _ => .ite (fun _ => hno) fun hkey => .ite (fun _ => hno)
    fun hdir => (llMergeRequestsFn_runs q contig r n).bind ?_)
  rintro ret q1 ⟨hcalm, hsize⟩
  have h1 := h.calm hcalm
  cases ret with
  | false => exact .pure ⟨h1, fun _ => hcalm.sorted⟩
  | true =>
    have hsize := hsize rfl
    rw [not_not, (h.ok_sorted hr).key] at hkey
    simp only [not_or, not_not] at hdir
    have hok := (h.ok_sorted hr).join (h.ok_sorted hn) hkey
      ⟨hdir.1.symm, hdir.2.1.symm, hkind hkey⟩ hsize (Nat.lt_of_le_of_lt hsize hmax)
    rw [← hcalm.transfer r, ← hcalm.transfer n, ← hcalm.maxSectors] at hok
    exact (h1.absorb_runs hashFn (hcalm.sorted ▸ hr) (hcalm.sorted ▸ hn) hrn hok).bind
      fun _ _ h2 => .pure ⟨h2, nofun⟩

/-! ### A bio joins a request -/

/-- A bio that no request of the other kind, discard or not, is next to. Its end is a sector number,
and two requests within the limit of the queue have a data length that is a 32-bit number. -/
@[mk_iff] structure Separate (q : Queue) (b : Bio) : Prop where
  limit : q.maxSectors < 2 ^ 23
  fit : b.sector + b.sectors < 2 ^ 64
  before : ∀ j ∈ q.sorted, (q.rq j).discard ≠ b.discard → (q.rq j).pos + (q.rq j).sectors ≠ b.sector
  after : ∀ j ∈ q.sorted, (q.rq j).discard ≠ b.discard → b.sector + b.sectors ≠ (q.rq j).pos

instance (q : Queue) (b : Bio) : Decidable (Separate q b) :=
  decidable_of_iff _ (separate_iff q b).symm

lemma Separate.calm (h : Separate q b) (hc : Calm q q') : Separate q' b := by
  refine ⟨hc.maxSectors ▸ h.limit, h.fit, ?_, ?_⟩
  all_goals
    intro j hj
    rw [hc.transfer]
  · exact h.before j (hc.sorted ▸ hj)
  · exact h.after j (hc.sorted ▸ hj)

lemma Inv.same_of_mergeOk (h : Inv q W D B) (hi : i ∈ q.sorted)
    (hok : elvRqMergeOk (q.rq i) b = true) :
    b.write = (q.rq i).write ∧ b.disk = (q.rq i).disk ∧ b.discard = (q.rq i).discard := by
  simp only [elvRqMergeOk, Bool.and_eq_true, decide_eq_true_iff] at hok
  obtain ⟨⟨⟨-, hdiscard⟩, hwrite⟩, hdisk, -⟩ := hok
  obtain ⟨c, hc, hcb⟩ := Option.map_eq_some_iff.mp hdiscard
  have hsame := (h.ok_sorted hi).same c (mem_of_mem_head? hc)
  exact ⟨hwrite, hdisk.symm, hcb.symm.trans hsame.2.2⟩

lemma Inv.elvMergedRequest_runs (h : Inv q W D B) (hi : i ∈ q.sorted) (type : MergeType) :
    Ends (elvMergedRequest hashFn i type) q fun _ q' => Inv q' W D B := by
  have hlast : ∀ j, some i = some j → j ∈ q.sorted := by
    rintro j ⟨⟩
    exact hi
  cases type with
  | back =>
    apply (elvRqhashReposition_runs hashFn q i).bind
    rintro _ _ ⟨hash, rfl, hhash⟩
    exact ⟨(), _, .write _ _, h.hashed_of hi hhash (some i) hlast⟩
  | front => exact ⟨(), _, .write _ q, h.hashed_of hi (fun _ _ => .inr) (some i) hlast⟩

lemma merged_runs {x : Program Queue Bool} (type : MergeType) (hi : i ∈ q'.sorted)
    (hx : Ends x q fun ret q'' => Inv q'' W D B ∧ (ret = false → q''.sorted = q'.sorted)) :
    Ends (do match ← x with | true => return | false => elvMergedRequest hashFn i type)
      q fun _ q'' => Inv q'' W D B := by
  refine hx.bind fun ret q'' ⟨h, hsorted⟩ => ?_
  cases ret with
  | true => exact .pure h
  | false => exact h.elvMergedRequest_runs hashFn (hsorted rfl ▸ hi) type

lemma Inv.attemptBackMerge_runs (h : Inv q W D B) (hmax : q.maxSectors < 2 ^ 23)
    (hkind : ∀ n ∈ q.sorted, n ≠ i → Matching q i n) (contig : Bool) :
    Ends (attemptBackMerge hashFn contig i) q fun ret q' => Inv q' W D B ∧
      (ret = false → q'.sorted = q.sorted) := by
  refine .read ?_
  split
  next => exact .pure ⟨h, fun _ => rfl⟩
  next n hlatter =>
    obtain ⟨hi, hn, hin⟩ := latter_eq_some h.sorted_nodup hlatter
    exact h.attemptMerge_runs hashFn hi hn hin hmax (hkind n hn hin.symm) contig

lemma Inv.attemptFrontMerge_runs (h : Inv q W D B) (hmax : q.maxSectors < 2 ^ 23)
    (hkind : ∀ r ∈ q.sorted, r ≠ i → Matching q r i) (contig : Bool) :
    Ends (attemptFrontMerge hashFn contig i) q fun ret q' => Inv q' W D B ∧
      (ret = false → q'.sorted = q.sorted) := by
  refine .read ?_
  split
  next => exact .pure ⟨h, fun _ => rfl⟩
  next r hlatter =>
    obtain ⟨hi, hr, hir⟩ := latter_eq_some (List.nodup_reverse.mpr h.sorted_nodup) hlatter
    rw [mem_reverse] at hi hr
    exact h.attemptMerge_runs hashFn hr hi hir.symm hmax (hkind r hr hir.symm) contig

section

variable (h : Inv q (b :: W) D B) (hi : i ∈ q.sorted)
  (hsame : b.write = (q.rq i).write ∧ b.disk = (q.rq i).disk ∧ b.discard = (q.rq i).discard)

include h hi hsame

lemma Inv.backMerge_runs (hkey : (q.rq i).key = b.sector)
    (hsize : (q.rq i).sectors + b.sectors ≤ q.maxSectors % 2 ^ 16) (hsep : Separate q b)
    (contig : Bool) : Ends (backMerge hashFn contig i b) q fun _ q' => Inv q' W D B := by
  have hrq := h.ok_sorted hi
  have hbio := ok_initRequest hsep.fit q.maxSectors
  have hpos : (q.rq i).pos + (q.rq i).sectors = b.sector := hrq.key.symm.trans hkey
  have hlt : (q.rq i).sectors + b.sectors < 2 ^ 23 := by omega
  have hjoin := hrq.join hbio hpos hsame (Nat.le_trans hsize (Nat.mod_le _ _)) hlt
  refine .write _ (merged_runs hashFn .back hi
    ((h.join hi perm_append_comm ?_).attemptBackMerge_runs hashFn hsep.limit ?_ contig))
  · exact hjoin
  intro n hn hni hend
  rw [setRq_self, setRq_of_ne q hni] at *
  rw [show (q.rq n).discard = b.discard from not_not.1 fun hne => hsep.after n hn hne ?_]
  · exact hsame.2.2
  · have hsectors := hrq.join_sectors hbio hlt
    change (q.rq i).pos + (Transfer.join _ (initRequestFromBio b).toTransfer).sectors = _ at hend
    rw [hsectors] at hend
    change _ + (_ + b.sectors) = _ at hend
    omega

lemma Inv.frontMerge_runs (hfront : ((q.rq i).pos + 2 ^ 64 - b.sectors) % 2 ^ 64 = b.sector)
    (hsize : (q.rq i).sectors + b.sectors ≤ q.maxSectors % 2 ^ 16) (hsep : Separate q b)
    (contig : Bool) : Ends (frontMerge hashFn contig i b) q fun _ q' => Inv q' W D B := by
  have hrq := h.ok_sorted hi
  have hbio := ok_initRequest hsep.fit q.maxSectors
  have hpos : b.sector + b.sectors = (q.rq i).pos := by
    have hfit := hsep.fit
    have hfit' := hrq.fit
    omega
  have hjoin := hbio.join hrq hpos ⟨hsame.1.symm, hsame.2.1.symm, hsame.2.2.symm⟩
    (by rw [add_comm]; exact Nat.le_trans hsize (Nat.mod_le _ _))
    (show b.sectors + (q.rq i).sectors < 2 ^ 23 by omega)
  refine .write _ (merged_runs hashFn .front hi
    ((h.join hi (.refl _) ?_).attemptFrontMerge_runs hashFn hsep.limit ?_ contig))
  · convert hjoin using 1
    simp [Transfer.join, initRequestFromBio, hsame, add_comm]
  intro r hr hri hend
  rw [setRq_self, setRq_of_ne q hri] at *
  by_contra hne
  exact hsep.before r hr (fun heq => hne (hsame.2.2 ▸ heq.symm)) hend

end

/-! ### Submitting a bio -/

/-- The bio has joined a request, or it still waits for one. -/
def Submitted (b : Bio) (W : List Bio) : Bool → List Bio
  | true => W
  | false => b :: W

lemma Inv.mergeBio_runs (h : Inv q (b :: W) D B) {type : MergeType} (hc : Candidate q b i type)
    (hsep : Separate q b) (contig : Bool) :
    Ends (mergeBio hashFn contig b i type) q fun ret q' => Inv q' (Submitted b W ret) D B := by
  refine .read (.ite (fun hm => ?_) fun _ => (llMergeFn_runs q i b).bind ?_)
  · have hok := hc.mergeOk
    simp [elvRqMergeOk, hm] at hok
  rintro ret q1 ⟨hcalm, hsize⟩
  have h1 := h.calm hcalm
  cases ret with
  | false => exact .pure h1
  | true =>
    have hsize := hsize rfl
    have hi : i ∈ q1.sorted := hcalm.sorted ▸ hc.sorted
    have hsame := h.same_of_mergeOk hc.sorted hc.mergeOk
    have hback := hc.back
    have hfront := hc.front
    rw [← hcalm.transfer i, ← hcalm.maxSectors] at hsize
    rw [← hcalm.transfer i] at hsame hback hfront
    refine .bind ?_ fun _ _ => .pure
    cases type with
    | back => exact h1.backMerge_runs hashFn hi hsame (hback rfl) hsize (hsep.calm hcalm) contig
    | front => exact h1.frontMerge_runs hashFn hi hsame (hfront rfl) hsize (hsep.calm hcalm) contig

lemma Inv.makeRequest_runs (h : Inv q (b :: W) D B) (hsep : Separate q b) (env : Env) :
    Ends (makeRequest hashFn env b) q fun ret q' => Inv q' (Submitted b W ret) D B := by
  refine .read (.ite (fun _ => .pure h) fun _ =>
    (h.elvMerge_runs hashFn env.nomerges env.noxmerges b).bind fun r q1 hr => ?_)
  match r, hr with
  | none, hr => exact .pure (h.calm (Pruned.calm hr))
  | some (i, type), ⟨hpruned, hc⟩ =>
    have hcalm := hpruned.calm
    have hc1 : Candidate q1 b i type := by
      refine ⟨hcalm.sorted ▸ hc.sorted, ?_, ?_, ?_⟩ <;> rw [hpruned.rq]
      exacts [hc.mergeOk, hc.back, hc.front]
    exact (h.calm hcalm).mergeBio_runs hashFn hc1 (hsep.calm hcalm) env.contig

end LklPort.BlkMerge
