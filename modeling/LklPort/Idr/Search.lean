import LklPort.Idr.Layer

/-!
# The search for a free identifier

`sub_alloc` goes down to a leaf, back to a layer above if a layer has no space behind the present
identifier, and starts again at the top if that gives a new way. All the time the identifiers
between the first one and the present one are in use.
-/

namespace LklPort.Idr

open List

variable {α : Type} {i j l layers start rounds free : ℕ} {id : Id} {p : Layer (Ptr α)}
  {pa : List (Frame α)} {M : ℕ → Option α}

variable {m : Slot} {inner : Prop} {bitmap : Slot → Bool} {n : Slot}

/-! ### The next slot -/

lemma findNext_eq_some (h : findNext bitmap n = some m) :
    n ≤ m ∧ bitmap m = false ∧ ∀ o, n ≤ o → o < m → bitmap o = true := by
  obtain ⟨hm, k, hk, hkm, hbefore⟩ := List.find?_eq_some_iff_getElem.1 h
  have hmk : (m : ℕ) = k := by
    rw [← hkm, getElem_finRange]
    rfl
  simp only [Bool.and_eq_true, decide_eq_true_eq, Bool.not_eq_true'] at hm
  refine ⟨hm.1, hm.2, fun o hno hom => ?_⟩
  have ho : (o : ℕ) < k := by
    rw [← hmk]
    exact hom
  have hnot := hbefore o ho
  simpa [hno] using hnot

lemma findNext_eq_none (h : findNext bitmap n = none) (o : Slot) (ho : n ≤ o) :
    bitmap o = true := by
  have hnot := List.find?_eq_none.1 h o (mem_finRange o)
  simpa [ho] using hnot

/-! ### What holds all the time -/

/-- The search for identifiers from `start` on is at `id` and at the layer `p` below the frames
`pa`. The tree holds the pointers `M`. -/
structure Searching (layers start : ℕ) (M : ℕ → Option α) (id : Id) (l : ℕ) (p : Layer (Ptr α))
    (pa : List (Frame α)) : Prop where
  layers_eq : l + pa.length + 1 = layers
  layers_le : layers ≤ 5
  wf : WF (l + pa.length) (plug p pa)
  get_eq : ∀ j, get (l + pa.length) (plug p pa) j = M j
  along : Along id.toNat l pa
  lt : id.toNat < 64 ^ layers
  le : start ≤ id.toNat
  taken : ∀ j, start ≤ j → j < id.toNat → (M j).isSome
  space : pa ≠ [] → p.full = false

namespace Searching

variable (h : Searching layers start M id l p pa)

include h

lemma lt_pow : id.toNat < 2 ^ 30 := h.lt.trans_le (pow_le h.layers_le)

lemma slot_eq : slot id l = digit id.toNat l := by
  have hlt := h.lt_pow
  exact Idr.slot_eq (by omega) l

lemma tree : WF (layers - 1) (plug p pa) ∧ ∀ j, get (layers - 1) (plug p pa) j = M j := by
  rw [← h.layers_eq, Nat.add_sub_cancel]
  exact ⟨h.wf, h.get_eq⟩

lemma isSome_of_bit (hlead : lead j (l + 1) = lead id.toNat (l + 1))
    (hbit : p.bitmap (digit j l) = true) : (M j).isSome := by
  rw [← h.get_eq, get_plug (h.along.congr hlead)]
  exact (wf_of_plug h.wf).get_isSome hbit

lemma taken_bump (hnone : findNext p.bitmap (slot id l) = none) :
    ∀ j, start ≤ j → j < (lead id.toNat (l + 1) + 1) * 64 ^ (l + 1) → (M j).isSome := by
  intro j hj hlt
  by_cases hid : j < id.toNat
  · exact h.taken j hj hid
  have hlead := lead_eq_of_lt_bump (not_lt.1 hid) hlt
  refine h.isSome_of_bit hlead (findNext_eq_none hnone _ ?_)
  rw [h.slot_eq, Fin.le_def]
  have hle := lead_le (not_lt.1 hid) l
  have h1 := lead_eq id.toNat l
  have h2 := lead_eq j l
  omega

lemma taken_next (hm : findNext p.bitmap (slot id l) = some m) :
    ∀ j, start ≤ j → j < nextAt id.toNat l m → (M j).isSome := by
  intro j hj hlt
  by_cases hid : j < id.toNat
  · exact h.taken j hj hid
  obtain ⟨hnm, -, hset⟩ := findNext_eq_some hm
  rw [h.slot_eq] at hnm hset
  unfold nextAt at hlt
  split_ifs at hlt with heq
  · exact absurd hlt hid
  have hle := lead_le (not_lt.1 hid) l
  have hlt' := lead_lt hlt
  have h1 := lead_eq id.toNat l
  have h2 := lead_eq j l
  have hlead : lead j (l + 1) = lead id.toNat (l + 1) := by omega
  refine h.isSome_of_bit hlead (hset _ ?_ ?_)
  · rw [Fin.le_def]
    omega
  · rw [Fin.lt_def]
    omega

end Searching

/-! ### How the search ends -/

/-- What is known when `sub_alloc` returns. -/
inductive SubOutcome (layers start : ℕ) (M : ℕ → Option α) : Found α → Prop where
  | slot (id : Id) (leaf : Layer (Ptr α)) (pa : List (Frame α)) (free : ℕ)
      (h : Searching layers start M id 0 leaf pa)
      (hclear : leaf.bitmap (digit id.toNat 0) = false) :
      SubOutcome layers start M (.slot id leaf pa free)
  | grow (id : Id) (top : Layer (Ptr α)) (free : ℕ) (hid : id.toNat = 64 ^ layers)
      (hwf : WF (layers - 1) top) (hget : ∀ j, get (layers - 1) top j = M j)
      (htaken : ∀ j, start ≤ j → j < id.toNat → (M j).isSome) :
      SubOutcome layers start M (.grow id top free)
  | noMemory (top : Layer (Ptr α)) (free : ℕ) (hwf : WF (layers - 1) top)
      (hget : ∀ j, get (layers - 1) top j = M j) :
      SubOutcome layers start M (.noMemory top free)

/-- How many rounds are needed at most. If the identifier is a multiple for this layer, then there
is space below it. Otherwise every way up makes the identifier a multiple of a larger power. -/
def Enough (layers : ℕ) (i l rounds : ℕ) (inner : Prop) : Prop :=
  (64 ^ (l + 1) ∣ i ∧ inner ∧ l < rounds) ∨
    ∃ t, t ≤ l ∧ 64 ^ t ∣ i ∧ (layers - t) * (layers + 1) + l < rounds

lemma lead_nextAt : lead (nextAt i l m) (l + 1) = lead i (l + 1) := by
  unfold nextAt
  split_ifs
  · rfl
  · rw [lead_succ (_ * _), lead, Nat.mul_div_cancel _ (Nat.pow_pos (by decide))]
    omega

lemma digit_nextAt : digit (nextAt i l m) l = m := by
  unfold nextAt
  split_ifs with hm
  · exact hm.symm
  · apply Fin.ext
    change (lead _ l) % 64 = m
    rw [lead, Nat.mul_div_cancel _ (Nat.pow_pos (by decide))]
    omega

lemma le_nextAt (hm : digit i l ≤ m) : i ≤ nextAt i l m := by
  unfold nextAt
  split_ifs with heq
  · exact le_refl i
  · have hlt : (digit i l : ℕ) < m := Fin.lt_def.1 (lt_of_le_of_ne hm (Ne.symm heq))
    have hlead := lead_eq i l
    have hle : lead i l + 1 ≤ lead i (l + 1) * 64 + m := by omega
    calc i ≤ (lead i l + 1) * 64 ^ l := by
          have hdiv := Nat.lt_succ_iff.1 (Nat.lt_succ_of_le (le_of_lt
            (Nat.lt_mul_div_succ i (Nat.pow_pos (n := l) (show 0 < 64 by decide)))))
          rwa [mul_comm] at hdiv
      _ ≤ (lead i (l + 1) * 64 + m) * 64 ^ l := Nat.mul_le_mul_right _ hle

lemma dvd_nextAt (hm : m ≠ digit i l) : 64 ^ l ∣ nextAt i l m := by
  rw [nextAt, if_neg hm]
  exact Nat.dvd_mul_left _ _

lemma digit_eq_zero (h : 64 ^ (l + 1) ∣ i) : digit i l = 0 := by
  obtain ⟨k, rfl⟩ := h
  apply Fin.ext
  change lead (64 ^ (l + 1) * k) l % 64 = 0
  rw [lead, pow_succ, mul_assoc, Nat.mul_div_cancel_left _ (Nat.pow_pos (by decide))]
  omega

section Step

variable (h : Searching layers start M id l p pa)

include h

namespace Searching

lemma exists_next (hdvd : 64 ^ (l + 1) ∣ id.toNat) (hpa : pa ≠ []) :
    findNext p.bitmap (slot id l) ≠ none := by
  intro hnone
  have hfull := h.space hpa
  rw [Bool.eq_false_iff, ne_eq, full_iff] at hfull
  refine hfull fun o => findNext_eq_none hnone o ?_
  rw [h.slot_eq, digit_eq_zero hdvd]
  exact Fin.zero_le o

lemma toNat_bump : (bump id (l + 1)).toNat = (lead id.toNat (l + 1) + 1) * 64 ^ (l + 1) := by
  have hlayers := h.layers_eq
  have hle := h.layers_le
  exact Idr.toNat_bump h.lt_pow (by omega)

lemma bump_le : (bump id (l + 1)).toNat ≤ 64 ^ layers := by
  have hlayers := h.layers_eq
  have hsplit : 64 ^ layers = 64 ^ pa.length * 64 ^ (l + 1) := by
    rw [← pow_add]
    congr 1
    omega
  have hlt := h.lt
  rw [h.toNat_bump, hsplit]
  rw [hsplit] at hlt
  exact Nat.mul_le_mul_right _ (lead_lt hlt)

lemma lt_bump : id.toNat < (bump id (l + 1)).toNat := by
  rw [h.toNat_bump, mul_comm]
  exact Nat.lt_mul_div_succ _ (Nat.pow_pos (by decide))

lemma beyond_bump :
    beyond (bump id (l + 1)) layers = true ↔ (bump id (l + 1)).toNat = 64 ^ layers := by
  have hle := h.bump_le
  have hpow := pow_le h.layers_le
  rw [beyond_iff (by omega) h.layers_le]
  omega

lemma up {f : Frame α} {pa' : List (Frame α)} (hpa : pa = f :: pa')
    (hnone : findNext p.bitmap (slot id l) = none) (hlt : (bump id (l + 1)).toNat < 64 ^ layers)
    (hsame : lead id.toNat (l + 2) = lead (bump id (l + 1)).toNat (l + 2)) :
    Searching layers start M (bump id (l + 1)) (l + 1) (f.fill p) pa' := by
  subst hpa
  have hlen := add_length_cons l f pa'
  have hfill := wf_fill_of_plug h.wf
  have hbit : (f.fill p).bitmap f.slot = false := by
    rw [(hfill.child fill_ary).2]
    exact h.space (by simp)
  refine ⟨?_, h.layers_le, ?_, ?_, ?_, hlt, h.le.trans (le_of_lt h.lt_bump), ?_, ?_⟩
  · have hlayers := h.layers_eq
    omega
  · rw [← hlen]
    exact h.wf
  · rw [← hlen]
    exact h.get_eq
  · exact h.along.2.congr hsame.symm
  · rw [h.toNat_bump]
    exact h.taken_bump hnone
  · exact fun _ => full_eq_false hbit

lemma restart (hnone : findNext p.bitmap (slot id l) = none)
    (hlt : (bump id (l + 1)).toNat < 64 ^ layers) :
    Searching layers start M (bump id (l + 1)) (layers - 1) (plug p pa) [] := by
  have hlayers := h.layers_eq
  refine ⟨?_, h.layers_le, h.tree.1, h.tree.2, trivial, hlt, h.le.trans (le_of_lt h.lt_bump), ?_,
    absurd rfl⟩
  · simp only [length_nil]
    omega
  · rw [h.toNat_bump]
    exact h.taken_bump hnone

lemma toNat_withSlot : (withSlot id l m).toNat = nextAt id.toNat l m := by
  have hlayers := h.layers_eq
  have hle := h.layers_le
  exact Idr.toNat_withSlot h.lt_pow (by omega)

lemma next (hm : findNext p.bitmap (slot id l) = some m) :
    Searching layers start M (withSlot id l m) l p pa := by
  have hlayers := h.layers_eq
  have hnext := (findNext_eq_some hm).1
  rw [h.slot_eq] at hnext
  have hlt : nextAt id.toNat l m < 64 ^ layers := by
    have hlen : layers = l + 1 + pa.length := by omega
    have hid := h.lt
    rw [hlen] at hid ⊢
    exact nextAt_lt hid
  refine ⟨h.layers_eq, h.layers_le, h.wf, h.get_eq, ?_, ?_, ?_, ?_, h.space⟩
  · rw [h.toNat_withSlot]
    exact h.along.congr lead_nextAt
  · rwa [h.toNat_withSlot]
  · rw [h.toNat_withSlot]
    exact h.le.trans (le_nextAt hnext)
  · rw [h.toNat_withSlot]
    exact h.taken_next hm

end Searching

end Step

lemma Searching.down {c : Layer (Ptr α)} (h : Searching layers start M id (l + 1) p pa)
    (hclear : p.bitmap (digit id.toNat (l + 1)) = false)
    (hc : p.ary (digit id.toNat (l + 1)) = some (.node c)) :
    Searching layers start M id l c (⟨p, digit id.toNat (l + 1)⟩ :: pa) := by
  have hfill : Frame.fill ⟨p, digit id.toNat (l + 1)⟩ c = p := by
    unfold Frame.fill Layer.setAry
    rw [← hc, Function.update_eq_self]
  have hlen := add_length_cons l ⟨p, digit id.toNat (l + 1)⟩ pa
  refine ⟨?_, h.layers_le, ?_, ?_, ⟨rfl, h.along⟩, h.lt, h.le, h.taken, fun _ => ?_⟩
  · rw [hlen]
    exact h.layers_eq
  · rw [hlen, plug, hfill]
    exact h.wf
  · rw [hlen, plug, hfill]
    exact h.get_eq
  · rw [← ((wf_of_plug h.wf).child hc).2]
    exact hclear

lemma Searching.add {o : Slot} (h : Searching layers start M id (l + 1) p pa)
    (hnone : p.ary o = none) : Searching layers start M id (l + 1)
      { p.setAry o (some (.node (emptyLayer l))) with count := p.count + 1 } pa := by
  have hwf := wf_of_plug h.wf
  have hput := hwf.put_add hnone (.node (emptyLayer l)) false
  rw [setBit_self _ (hwf.bit_none hnone)] at hput
  have hfull : (emptyLayer l : Layer (Ptr α)).full = false := full_eq_false (o := 0) rfl
  have hnew := hput.wf hwf ⟨_, rfl, wf_emptyLayer, hfull.symm⟩
  have hget : ∀ j, get (l + 1)
      { p.setAry o (some (.node (emptyLayer l))) with count := p.count + 1 } j =
        get (l + 1) p j := by
    intro j
    by_cases hj : digit j (l + 1) = o
    · rw [hput.get_node hj, get_emptyLayer, get, hj, hnone]
    · exact hput.get_of_ne hj
  exact ⟨h.layers_eq, h.layers_le, wf_plug h.wf hnew rfl,
    fun j => (get_plug_congr hget j).trans (h.get_eq j), h.along, h.lt, h.le, h.taken, h.space⟩

/-! ### The loop -/

lemma Enough.up {i' l' : ℕ} {inner' : Prop} (hr : Enough layers i l (rounds + 1) inner)
    (hnot : ¬ (64 ^ (l + 1) ∣ i ∧ inner)) (hl : l + 1 ≤ l') (hl' : l' < layers)
    (hdvd : 64 ^ (l + 1) ∣ i') : Enough layers i' l' rounds inner' := by
  rcases hr with ⟨hd, hin, -⟩ | ⟨t, ht, -, hlt⟩
  · exact absurd ⟨hd, hin⟩ hnot
  · refine .inr ⟨l + 1, hl, hdvd, ?_⟩
    obtain ⟨k, hk⟩ : ∃ k, layers - t = layers - (l + 1) + 1 + k := ⟨l - t, by omega⟩
    rw [hk] at hlt
    have hexp : (layers - (l + 1) + 1 + k) * (layers + 1) =
        (layers - (l + 1)) * (layers + 1) + (layers + 1) + k * (layers + 1) := by ring
    omega

lemma Enough.down (hr : Enough layers i (l + 1) (rounds + 1) inner) :
    Enough layers (nextAt i (l + 1) m) l rounds True := by
  by_cases hm : m = digit i (l + 1)
  · rw [nextAt, if_pos hm]
    rcases hr with ⟨hd, -, hlt⟩ | ⟨t, ht, hd, hlt⟩
    · exact .inl ⟨(Nat.pow_dvd_pow 64 (by omega)).trans hd, trivial, by omega⟩
    · rcases lt_or_ge l t with hlt' | hge
      · obtain rfl : t = l + 1 := by omega
        exact .inl ⟨hd, trivial, by omega⟩
      · exact .inr ⟨t, hge, hd, by omega⟩
  · refine .inl ⟨dvd_nextAt hm, trivial, ?_⟩
    rcases hr with ⟨-, -, hlt⟩ | ⟨t, -, -, hlt⟩ <;> omega

lemma Enough.mono (hr : Enough layers i l rounds True) (hin : inner) :
    Enough layers i l rounds inner := by
  rcases hr with ⟨hd, -, hlt⟩ | hr
  · exact .inl ⟨hd, hin, hlt⟩
  · exact .inr hr

lemma subAllocLoop_spec (h : Searching layers start M id l p pa)
    (hr : Enough layers id.toNat l rounds (pa ≠ [])) :
    ∃ r, subAllocLoop layers rounds id l p pa free = some r ∧ SubOutcome layers start M r := by
  induction rounds generalizing id l p pa free with
  | zero =>
    rcases hr with ⟨-, -, hlt⟩ | ⟨t, -, -, hlt⟩
    · exact absurd hlt (Nat.not_lt_zero _)
    · exact absurd hlt (Nat.not_lt_zero _)
  | succ rounds ih =>
    have hlayers := h.layers_eq
    have hpow := h.lt_pow
    rw [subAllocLoop]
    cases hnext : findNext p.bitmap (slot id l) with
    | none =>
      have hnot : ¬ (64 ^ (l + 1) ∣ id.toNat ∧ pa ≠ []) := fun hd => h.exists_next hd.1 hd.2 hnext
      by_cases hbeyond : beyond (bump id (l + 1)) layers = true
      · rw [if_pos hbeyond]
        refine ⟨_, rfl, .grow _ _ _ (h.beyond_bump.1 hbeyond) h.tree.1 h.tree.2 ?_⟩
        rw [h.toNat_bump]
        exact h.taken_bump hnext
      · rw [if_neg hbeyond]
        have hlt : (bump id (l + 1)).toNat < 64 ^ layers :=
          lt_of_le_of_ne h.bump_le fun he => hbeyond (h.beyond_bump.2 he)
        have hdvd : 64 ^ (l + 1) ∣ (bump id (l + 1)).toNat := by
          rw [h.toNat_bump]
          exact Nat.dvd_mul_left _ _
        cases pa with
        | nil =>
          -- at the top the next multiple is beyond all layers
          have hlead : lead id.toNat (l + 1) = 0 := lead_eq_zero (by
            rw [show l + 1 = layers by simpa using hlayers]
            exact h.lt)
          rw [h.toNat_bump, hlead, ← hlayers] at hlt
          simp at hlt
        | cons =>
          have hpow' : (bump id (l + 1)).toNat < 2 ^ 31 := by
            have hle := pow_le h.layers_le
            omega
          simp only [length_cons] at hlayers
          dsimp only
          by_cases hsame : id.sshiftRight (idrBits * (l + 2)) =
              (bump id (l + 1)).sshiftRight (idrBits * (l + 2))
          · rw [if_pos hsame]
            have hlead := congrArg BitVec.toNat hsame
            rw [toNat_sshiftRight (by omega), toNat_sshiftRight hpow'] at hlead
            exact ih (h.up rfl hnext hlt hlead) (hr.up hnot (le_refl _) (by omega) hdvd)
          · rw [if_neg hsame]
            exact ih (h.restart hnext hlt) (hr.up hnot (by omega) (by omega) hdvd)
    | some m =>
      have hnew := h.next hnext
      have hid := h.toNat_withSlot (m := m)
      have hlt := hnew.lt_pow
      have hdigit : digit (withSlot id l m).toNat l = m := by rw [hid, digit_nextAt]
      have hclear : p.bitmap m = false := (findNext_eq_some hnext).2.1
      dsimp only
      rw [if_neg (by omega)]
      cases l with
      | zero => exact ⟨_, rfl, .slot _ _ _ _ hnew (by rwa [hdigit])⟩
      | succ l =>
        have hless := hr.down (m := m)
        rw [← hid] at hless
        have hless' : ∀ f, Enough layers (withSlot id (l + 1) m).toNat l rounds (f :: pa ≠ []) :=
          fun f => hless.mono (cons_ne_nil f pa)
        rcases (wf_of_plug h.wf).ary_node m with ⟨hm, -⟩ | ⟨c, hm, -⟩
        · cases free with
          | zero =>
            rw [hm]
            exact ⟨_, rfl, .noMemory _ _ h.tree.1 h.tree.2⟩
          | succ =>
            rw [hm]
            have hadd := (hnew.add hm).down (by rwa [hdigit])
              (by rw [hdigit]; exact Function.update_self ..)
            rw [hdigit] at hadd
            exact ih hadd (hless' _)
        · rw [hm]
          have hdown := hnew.down (by rwa [hdigit]) (by rwa [hdigit])
          rw [hdigit] at hdown
          exact ih hdown (hless' _)

lemma subAlloc_spec {top : Layer (Ptr α)} (hwf : WF (layers - 1) top) (hpos : 1 ≤ layers)
    (hle : layers ≤ 5) (hlt : id.toNat < 64 ^ layers) : ∃ r, subAlloc layers id top free = some r ∧
      SubOutcome layers id.toNat (get (layers - 1) top) r := by
  refine subAllocLoop_spec ⟨?_, hle, hwf, fun j => rfl, trivial, hlt, le_refl _, ?_, ?_⟩ ?_
  · simp only [length_nil]
    omega
  · intro j hj hlt
    exact absurd hlt (not_lt.2 hj)
  · exact absurd rfl
  · refine .inr ⟨0, Nat.zero_le _, one_dvd _, ?_⟩
    have hexp : (layers + 1) * (layers + 1) = layers * (layers + 1) + (layers + 1) := by ring
    rw [hexp, Nat.sub_zero]
    omega

end LklPort.Idr
