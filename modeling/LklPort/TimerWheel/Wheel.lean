import Mathlib.Order.Lattice
import LklPort.TimerWheel.Basic

/-!
# Where the timers are

Ticks are counted here without wrap-around, so that `timer_jiffies` is the number of the tick modulo
`2 ^ 64`. Each list of a vector has a tick at which it is taken apart: a list of `tv1` is processed
then, and a list of another vector is cascaded. A pending timer is on a list whose tick has not
come yet and is not after the tick when the timer is due. Except in `tv5`, the timer is due before
the next list of the vector is taken apart; in `tv5` this fails for a timer that is too far in the
future for the wheel.
-/

namespace LklPort.TimerWheel

open List Function

attribute [local simp] shift

variable {T : Type}

/-! ### Lists and ticks -/

/-- At the tick `n`, a timer that is due at `d` may be on the list `i` of the vector `l`, and this
list is taken apart at the tick `c`. -/
structure Slot (n d : ℕ) (l : Level) (i c : ℕ) : Prop where
  dvd : 2 ^ shift l ∣ c
  now_le : n ≤ c
  lt_now : c < n + 2 ^ shift l * size l
  le_due : c ≤ d
  due_lt : l ≠ 4 → d < c + 2 ^ shift l
  slot : i = c / 2 ^ shift l % size l

/-- The tick when a timer is due: `max(expires, timer_jiffies)`, in the cyclic order. -/
def dueTick (n : ℕ) (timerJiffies expires : Jiffies) : ℕ :=
  n + (expires - timerJiffies).toInt.toNat

/-- A timer for a tick that has not been processed yet. -/
structure Future (e : Jiffies) (n d : ℕ) : Prop where
  expires : e = BitVec.ofNat 64 d
  now_le : n ≤ d
  lt_now : d < n + 2 ^ 63

lemma size_of_ne_zero : ∀ {l : Level}, l ≠ 0 → size l = 2 ^ 6 := by
  decide

lemma toInt_sub_neg_iff (e : Jiffies) (n : ℕ) :
    (e - BitVec.ofNat 64 n).toInt < 0 ↔ 2 ^ 63 ≤ (e - BitVec.ofNat 64 n).toNat := by
  rw [BitVec.toInt_eq_toNat_cond]
  split_ifs <;> omega

variable {n d : ℕ} {e : Jiffies}

lemma dueTick_of_neg {j : Jiffies} (h : (e - j).toInt < 0) : dueTick n j e = n := by
  unfold dueTick
  omega

lemma dueTick_eq (h : ¬ (e - BitVec.ofNat 64 n).toInt < 0) :
    dueTick n (BitVec.ofNat 64 n) e = n + (e - BitVec.ofNat 64 n).toNat := by
  have hsmall := h
  rw [toInt_sub_neg_iff] at hsmall
  have hint : (e - BitVec.ofNat 64 n).toInt = (e - BitVec.ofNat 64 n).toNat := by
    rw [BitVec.toInt_eq_toNat_cond, if_pos (by omega)]
  unfold dueTick
  omega

lemma future_dueTick (h : ¬ (e - BitVec.ofNat 64 n).toInt < 0) :
    Future e n (dueTick n (BitVec.ofNat 64 n) e) := by
  have hsmall := (toInt_sub_neg_iff e n).not.1 h
  rw [dueTick_eq h]
  refine ⟨BitVec.eq_of_toNat_eq ?_, by omega, by omega⟩
  simp only [BitVec.toNat_sub, BitVec.toNat_ofNat]
  omega

lemma Future.toNat_sub (h : Future e n d) : (e - BitVec.ofNat 64 n).toNat = d - n := by
  have := h.now_le
  have := h.lt_now
  rw [h.expires]
  simp only [BitVec.toNat_sub, BitVec.toNat_ofNat]
  omega

lemma Future.not_neg (h : Future e n d) : ¬ (e - BitVec.ofNat 64 n).toInt < 0 := by
  have := h.lt_now
  rw [toInt_sub_neg_iff, h.toNat_sub]
  omega

/-! ### What `internal_add_timer` chooses -/

lemma index_ofNat (l : Level) (n : ℕ) : index (BitVec.ofNat 64 n) l = n / 2 ^ shift l % size l := by
  unfold index
  rw [BitVec.toNat_ofNat]
  match l with
  | 0 | 1 | 2 | 3 | 4 => simp only [shift, size]; omega

lemma exists_slot {l : Level} {x : ℕ} (he : e = BitVec.ofNat 64 x) (hnear : n + 2 ^ shift l ≤ x)
    (hfar : x < n + 2 ^ shift l * size l) (hle : x ≤ d) (hdue : l ≠ 4 → x = d) :
    ∃ c, Slot n d l (index e l) c ∧ (l ≠ 0 → c ≠ n) := by
  have hpos : 0 < 2 ^ shift l := Nat.two_pow_pos _
  have hfloor := Nat.div_mul_le_self x (2 ^ shift l)
  have hnext := Nat.lt_div_mul_add (a := x) hpos
  refine ⟨x / 2 ^ shift l * 2 ^ shift l, ⟨Nat.dvd_mul_left _ _, by omega, by omega, by omega,
    fun hl => ?_, ?_⟩, by omega⟩
  · rwa [← hdue hl]
  · rw [he, index_ofNat, Nat.mul_div_cancel _ hpos]

lemma Future.slot (h : Future e n d) :
    ∃ c, Slot n d (slotOf (BitVec.ofNat 64 n) e).1 (slotOf (BitVec.ofNat 64 n) e).2 c ∧
      ((slotOf (BitVec.ofNat 64 n) e).1 ≠ 0 → c ≠ n) := by
  have hle := h.now_le
  have he : e.toNat = d % 2 ^ 64 := by rw [h.expires, BitVec.toNat_ofNat]
  unfold slotOf
  simp only [h.toNat_sub, h.not_neg, if_false]
  split_ifs with h8 h14 h20 h26 hfar
  · exact ⟨d, ⟨by simp, hle, by simp [size]; omega, le_refl d, by simp,
      by simp only [shift, size, he]; omega⟩, by simp⟩
  iterate 3
    · exact exists_slot h.expires (by simp only [shift]; omega)
        (by simp only [shift, size]; omega) (le_refl d) fun _ => rfl
  · -- too far for the wheel: the last list that `tv5` has
    have hpark : (0xffffffff + BitVec.ofNat 64 n : Jiffies) =
        BitVec.ofNat 64 (2 ^ 32 - 1 + n) := (BitVec.ofNat_add _ _).symm
    exact exists_slot hpark (by simp only [shift]; omega)
      (by simp only [shift, size]; omega) (by omega) fun h => absurd rfl h
  · exact exists_slot h.expires (by simp only [shift]; omega)
      (by simp only [shift, size]; omega) (le_refl d) fun h => absurd rfl h

lemma slotOf_past (h : (e - BitVec.ofNat 64 n).toInt < 0) :
    slotOf (BitVec.ofNat 64 n) e = (0, n % 2 ^ 8) := by
  have hbig := (toInt_sub_neg_iff e n).1 h
  have hn : (BitVec.ofNat 64 n).toNat % 2 ^ 8 = n % 2 ^ 8 := by
    rw [BitVec.toNat_ofNat]
    omega
  unfold slotOf
  simp only [h, if_true, hn]
  split_ifs
  all_goals first | rfl | omega

lemma slot_now (n : ℕ) : Slot n n 0 (n % 2 ^ 8) n :=
  ⟨by simp, le_refl n, by simp [size], le_refl n, by simp, by simp [size]⟩

variable {l : Level} {i : ℕ} {df : T → Bool} {α : Type}

lemma Slot.eq_now {c : ℕ} (h : Slot n d l i c) (hdvd : 2 ^ shift l ∣ n)
    (hi : i = n / 2 ^ shift l % size l) : c = n := by
  have hslot := h.slot
  have hle := h.now_le
  have hlt := h.lt_now
  obtain ⟨a, rfl⟩ := h.dvd
  obtain ⟨k, rfl⟩ := hdvd
  have hpos : 0 < 2 ^ shift l := Nat.two_pow_pos _
  rw [Nat.mul_div_cancel_left _ hpos] at hslot hi
  rw [← Nat.mul_add] at hlt
  have hka : k ≤ a := Nat.le_of_mul_le_mul_left hle hpos
  have hak : a < k + size l := Nat.lt_of_mul_lt_mul_left hlt
  have hmod : k % size l = a % size l := hi.symm.trans hslot
  have : a = k := by
    have hzero : (a - k) % size l = 0 := Nat.sub_mod_eq_zero_of_mod_eq hmod.symm
    rw [Nat.mod_eq_of_lt (by omega)] at hzero
    omega
  rw [this]

/-! ### The wheel -/

/-- A pending timer on the list `i` of the vector `l`. The lists of the vectors in `A` that are
taken apart at the tick `n` were already. -/
def Placed (A : Level → Prop) (e j : Jiffies) (n d : ℕ) (l : Level) (i : ℕ) : Prop :=
  (∃ c, Slot n d l i c ∧ (A l → c ≠ n)) ∧ (Future e n d ∨ (l = 0 ∧ d = n ∧ (e - j).toInt < 0))

/-- The state of the wheel before the tick `n`. The timers in `rest` are on no list, since a
cascade is just moving them. -/
structure Wheel (A : Level → Prop) (b : Base T) (n : ℕ) (due : T → Option ℕ) (rest : List T) :
    Prop where
  now : b.timerJiffies = BitVec.ofNat 64 n
  mem : ∀ p t, t ∈ b.list p ↔ b.entry t = some p ∧ t ∉ rest
  nodup : ∀ p, (b.list p).Nodup
  rest_nodup : rest.Nodup
  pending : ∀ t, b.entry t = none ↔ due t = none
  placed : ∀ t l i d, t ∉ rest → b.entry t = some (.vec l i) → due t = some d →
    Placed A (b.expires t) b.timerJiffies n d l i
  rest_due : ∀ t ∈ rest, ∃ d, due t = some d ∧ Future (b.expires t) n d
  work : ∀ t d, b.entry t = some .work → due t = some d → d + 1 = n

variable {A : Level → Prop} {b : Base T} {n : ℕ} {due : T → Option ℕ} {rest : List T} {t : T}

lemma Wheel.mem_iff (h : Wheel A b n due []) {p : Place} : t ∈ b.list p ↔ b.entry t = some p := by
  rw [h.mem]
  exact and_iff_left not_mem_nil

lemma Wheel.exists_due {p : Place} (h : Wheel A b n due rest) (hentry : b.entry t = some p) :
    ∃ d, due t = some d := by
  cases hd : due t with
  | none =>
    simp [(h.pending t).2 hd] at hentry
  | some d => exact ⟨d, rfl⟩

lemma Wheel.le_due (h : Wheel A b n due []) (hentry : b.entry t = some (.vec l i))
    (hd : due t = some d) : n ≤ d := by
  obtain ⟨⟨c, hslot, -⟩, -⟩ := h.placed t l i d not_mem_nil hentry hd
  exact le_trans hslot.now_le hslot.le_due

lemma Wheel.pass (A' : Level → Prop) (h : Wheel A b n due rest)
    (hA : ∀ l, A' l → A l ∨ ¬ 2 ^ shift l ∣ n) : Wheel A' b n due rest := by
  refine { h with placed := fun t l i d ht hentry hd => ?_ }
  obtain ⟨⟨c, hslot, hc⟩, hd⟩ := h.placed t l i d ht hentry hd
  refine ⟨⟨c, hslot, fun hl => ?_⟩, hd⟩
  obtain hl | hl := hA l hl
  · exact hc hl
  · rintro rfl
    exact hl hslot.dvd

lemma placed_slotOf (hA : ¬ A 0) :
    Placed A e (BitVec.ofNat 64 n) n (dueTick n (BitVec.ofNat 64 n) e)
      (slotOf (BitVec.ofNat 64 n) e).1 (slotOf (BitVec.ofNat 64 n) e).2 := by
  by_cases hneg : (e - BitVec.ofNat 64 n).toInt < 0
  · rw [slotOf_past hneg, dueTick_of_neg hneg]
    exact ⟨⟨n, slot_now n, fun h => absurd h hA⟩, .inr ⟨rfl, rfl, hneg⟩⟩
  · have hfuture := future_dueTick hneg
    obtain ⟨c, hslot, hc⟩ := hfuture.slot
    refine ⟨⟨c, hslot, fun hl => hc ?_⟩, .inl hfuture⟩
    intro hzero
    rw [hzero] at hl
    exact hA hl

variable [DecidableEq T]

lemma Wheel.add (h : Wheel A b n due rest) (hA : ¬ A 0)
    (ht : b.entry t = none ∨ t ∈ rest) : Wheel A (internalAddTimer b t) n
      (update due t (some (dueTick n b.timerJiffies (b.expires t)))) (rest.erase t) := by
  have hnot : ∀ p, t ∉ b.list p := by
    intro p hp
    obtain ⟨hentry, hrest⟩ := (h.mem p t).1 hp
    obtain ht | ht := ht
    · simp [ht] at hentry
    · exact hrest ht
  have hrest : t ∉ rest.erase t := fun hmem => (h.rest_nodup.mem_erase_iff.1 hmem).1 rfl
  constructor
  · exact h.now
  · intro p t'
    simp only [internalAddTimer]
    by_cases htt : t' = t
    · subst htt
      by_cases hp : p = .vec (slotOf b.timerJiffies (b.expires t')).1
          (slotOf b.timerJiffies (b.expires t')).2
      · subst hp
        simp [hrest]
      · simp only [update_of_ne hp, update_self, Option.some.injEq]
        exact iff_of_false (hnot p) fun hq => hp hq.1.symm
    · rw [update_of_ne htt, mem_erase_of_ne htt, ← h.mem p t']
      by_cases hp : p = .vec (slotOf b.timerJiffies (b.expires t)).1
          (slotOf b.timerJiffies (b.expires t)).2
      · subst hp
        simp [htt]
      · rw [update_of_ne hp]
  · intro p
    simp only [internalAddTimer]
    by_cases hp : p = .vec (slotOf b.timerJiffies (b.expires t)).1
        (slotOf b.timerJiffies (b.expires t)).2
    · subst hp
      rw [update_self]
      refine List.nodup_append.2 ⟨h.nodup _, by simp, fun a ha a' ha' => ?_⟩
      rw [List.mem_singleton.1 ha']
      rintro rfl
      exact hnot _ ha
    · rw [update_of_ne hp]
      exact h.nodup p
  · exact h.rest_nodup.erase t
  · intro t'
    by_cases htt : t' = t
    · subst htt
      simp [internalAddTimer]
    · simp only [internalAddTimer, update_of_ne htt]
      exact h.pending t'
  · intro t' l i d ht' hentry hd
    by_cases htt : t' = t
    · subst htt
      simp only [internalAddTimer, update_self, Option.some.injEq, Place.vec.injEq] at hentry hd
      obtain ⟨rfl, rfl⟩ := hentry
      subst hd
      change Placed A (b.expires t') b.timerJiffies n _ _ _
      rw [h.now]
      exact placed_slotOf hA
    · simp only [internalAddTimer, update_of_ne htt] at hentry hd
      rw [mem_erase_of_ne htt] at ht'
      exact h.placed t' l i d ht' hentry hd
  · intro t' ht'
    have htt : t' ≠ t := (h.rest_nodup.mem_erase_iff.1 ht').1
    rw [update_of_ne htt]
    exact h.rest_due t' (mem_of_mem_erase ht')
  · intro t' d hentry hd
    by_cases htt : t' = t
    · subst htt
      simp [internalAddTimer] at hentry
    · simp only [internalAddTimer, update_of_ne htt] at hentry hd
      exact h.work t' d hentry hd

lemma Future.dueTick_eq (h : Future e n d) : dueTick n (BitVec.ofNat 64 n) e = d := by
  rw [TimerWheel.dueTick_eq h.not_neg, h.toNat_sub]
  exact Nat.add_sub_of_le h.now_le

lemma Wheel.foldl (h : Wheel A b n due rest) (hA : ¬ A 0) :
    Wheel A (rest.foldl internalAddTimer b) n due [] := by
  induction rest generalizing b with
  | nil => exact h
  | cons t _ ih =>
    have hadd := h.add hA (.inr mem_cons_self)
    obtain ⟨d, hd, hfuture⟩ := h.rest_due t mem_cons_self
    rw [h.now, hfuture.dueTick_eq, ← hd, update_eq_self, erase_cons_head] at hadd
    exact ih hadd

lemma Wheel.cascadeOne (h : Wheel A b n due []) (hA : ¬ A 0) (hl : l ≠ 0) (hdvd : 2 ^ shift l ∣ n)
    (hi : i = n / 2 ^ shift l % size l) :
    Wheel (fun k => A k ∨ k = l) (cascade b l i) n due [] := by
  refine Wheel.foldl ?_ (not_or.2 ⟨hA, hl.symm⟩)
  constructor
  · exact h.now
  · intro p t
    by_cases hp : p = .vec l i
    · subst hp
      simp [h.mem_iff]
    · simp only [update_of_ne hp, h.mem_iff]
      refine ⟨fun hentry => ⟨hentry, fun hother => hp ?_⟩, And.left⟩
      exact Option.some.inj (hentry.symm.trans hother)
  · intro p
    by_cases hp : p = .vec l i
    · subst hp
      simp
    · simp only [update_of_ne hp]
      exact h.nodup p
  · exact h.nodup _
  · exact h.pending
  · intro t k i' d ht hentry hd
    obtain ⟨⟨c, hslot, hc⟩, hexp⟩ := h.placed t k i' d not_mem_nil hentry hd
    refine ⟨⟨c, hslot, ?_⟩, hexp⟩
    rintro (hk | rfl) rfl
    · exact hc hk rfl
    · refine ht (h.mem_iff.2 ?_)
      rw [hentry, hi, hslot.slot]
  · intro t ht
    have hentry := h.mem_iff.1 ht
    obtain ⟨d, hd⟩ := h.exists_due hentry
    obtain ⟨-, hfuture | hpast⟩ := h.placed t l i d not_mem_nil hentry hd
    · exact ⟨d, hd, hfuture⟩
    · exact absurd hpast.1 hl
  · exact h.work

lemma cascades_cons (b : Base T) (l : Level) (ls : List Level) : cascades b (l :: ls) =
      if index b.timerJiffies l = 0 then cascades (cascade b l (index b.timerJiffies l)) ls
      else cascade b l (index b.timerJiffies l) := rfl

lemma Wheel.cascadeAll (ls : List Level) (hchain : ls.IsChain fun l k => shift k = shift l + 6)
    (hls : ls.Pairwise fun l k => shift l + 6 ≤ shift k) (h0 : 0 ∉ ls) (h : Wheel A b n due [])
    (hA : ¬ A 0) (hdvd : ∀ l ∈ ls.head?, 2 ^ shift l ∣ n) :
    Wheel (fun k => A k ∨ k ∈ ls) (cascades b ls) n due [] := by
  induction ls generalizing A b with
  | nil => exact h.pass _ fun k hk => .inl (hk.resolve_right not_mem_nil)
  | cons l ls ih =>
    obtain ⟨hl, hls⟩ := List.pairwise_cons.1 hls
    have hl0 : l ≠ 0 := fun hl0 => h0 (hl0 ▸ mem_cons_self)
    have hdvd : 2 ^ shift l ∣ n := hdvd l rfl
    have htail : ls.IsChain (fun l k => shift k = shift l + 6) ∧
        ∀ k ∈ ls.head?, shift k = shift l + 6 := by
      cases ls with
      | nil => exact ⟨.nil, by simp⟩
      | cons =>
        obtain ⟨hk, hchain⟩ := List.isChain_cons_cons.1 hchain
        exact ⟨hchain, by simpa using hk⟩
    have hi : index b.timerJiffies l = n / 2 ^ shift l % size l := by rw [h.now, index_ofNat]
    have hnext : 2 ^ (shift l + 6) ∣ n ↔ index b.timerJiffies l = 0 := by
      rw [hi, size_of_ne_zero hl0, pow_add, ← Nat.dvd_iff_mod_eq_zero]
      exact (Nat.dvd_div_iff_mul_dvd hdvd).symm
    have hc := h.cascadeOne hA hl0 hdvd hi
    rw [cascades_cons]
    split_ifs with hzero
    · have h0' : 0 ∉ ls := fun hmem => h0 (mem_cons_of_mem l hmem)
      refine (ih htail.1 hls h0' hc (not_or.2 ⟨hA, hl0.symm⟩) fun k hk => ?_).pass _ ?_
      · rw [htail.2 k hk]
        exact hnext.2 hzero
      · intro k hk
        rw [mem_cons, ← or_assoc] at hk
        exact .inl hk
    · refine hc.pass _ fun k hk => ?_
      obtain hk | hk := hk
      · exact .inl (.inl hk)
      · obtain rfl | hk := List.mem_cons.1 hk
        · exact .inl (.inr rfl)
        · refine .inr fun hdvd' => hzero (hnext.1 (Nat.dvd_trans ?_ hdvd'))
          exact Nat.pow_dvd_pow 2 (hl k hk)

/-! ### The operations -/

omit [DecidableEq T] in
lemma Wheel.congr {b' : Base T} (h : Wheel A b n due rest)
    (hnow : b'.timerJiffies = b.timerJiffies) (hlist : b'.list = b.list)
    (hentry : b'.entry = b.entry) (hexpires : b'.expires = b.expires) : Wheel A b' n due rest := by
  obtain ⟨j, e, list, entry, expires, j', phase⟩ := b'
  cases hnow
  cases hlist
  cases hentry
  cases hexpires
  exact ⟨h.now, h.mem, h.nodup, h.rest_nodup, h.pending, h.placed, h.rest_due, h.work⟩

lemma entry_detachTimer (b : Base T) (t : T) : (detachTimer b t true).entry t = none := by
  simp [detachTimer]

lemma Wheel.detach (h : Wheel A b n due []) :
    Wheel A (detachTimer b t true) n (update due t none) [] := by
  have hother : ∀ t' ≠ t, (detachTimer b t true).entry t' = b.entry t' :=
    fun t' ht' => by simp [detachTimer, ht']
  have hself := entry_detachTimer b t
  have hleft (t' : T) (p : Place) (hentry : (detachTimer b t true).entry t' = some p) :
      b.entry t' = some p ∧ update due t none t' = due t' := by
    by_cases ht' : t' = t
    · simp [ht', hself] at hentry
    · exact ⟨hother t' ht' ▸ hentry, update_of_ne ht' ..⟩
  constructor
  · exact h.now
  · intro p t'
    simp only [not_mem_nil, not_false_eq_true, and_true]
    by_cases ht' : t' = t
    · subst ht'
      rw [hself]
      simp only [detachTimer, reduceCtorEq, iff_false]
      split_ifs with hp
      · exact fun hin => ((h.nodup p).mem_erase_iff.1 hin).1 rfl
      · rwa [h.mem_iff]
    · rw [hother t' ht', ← h.mem_iff]
      simp only [detachTimer]
      split_ifs
      · exact mem_erase_of_ne ht'
      · rfl
  · intro p
    simp only [detachTimer]
    split_ifs
    · exact (h.nodup p).erase t
    · exact h.nodup p
  · exact nodup_nil
  · intro t'
    by_cases ht' : t' = t
    · subst ht'
      simp [hself]
    · rw [hother t' ht', update_of_ne ht']
      exact h.pending t'
  · intro t' l i d hrest hentry hd
    obtain ⟨hold, hdue⟩ := hleft t' _ hentry
    exact h.placed t' l i d hrest hold (hdue ▸ hd)
  · intro t' ht'
    exact absurd ht' not_mem_nil
  · intro t' d hentry hd
    obtain ⟨hold, hdue⟩ := hleft t' _ hentry
    exact h.work t' d hold (hdue ▸ hd)

omit [DecidableEq T] in
lemma Wheel.forget (df : T → Bool) (h : Wheel A b n due rest) :
    Wheel A (forgetNextTimer df b t) n due rest := by
  unfold forgetNextTimer
  split_ifs
  · exact h.congr rfl rfl rfl rfl
  · exact h

lemma Wheel.update_expires (h : Wheel A b n due []) (ht : b.entry t = none) (e j : Jiffies) :
    Wheel A { b with expires := update b.expires t e, nextTimer := j } n due [] := by
  refine ⟨h.now, h.mem, h.nodup, h.rest_nodup, h.pending, fun t' l i d hrest hentry hd => ?_,
    fun t' ht' => ?_, h.work⟩
  · have htt : t' ≠ t := by
      rintro rfl
      simp [ht] at hentry
    simp only [update_of_ne htt]
    exact h.placed t' l i d hrest hentry hd
  · exact absurd ht' not_mem_nil

lemma Wheel.arm (df : T → Bool) (h : Wheel A b n due []) (hA : ¬ A 0)
    (ht : b.entry t = none) : Wheel A (armTimer df b t e) n
      (update due t (some (dueTick n b.timerJiffies e))) [] := by
  have hset := h.update_expires ht e
    (if timeBefore e b.nextTimer ∧ df t = false then e else b.nextTimer)
  have hadd := hset.add hA (.inl ht)
  simp only [update_self, erase_nil] at hadd
  exact hadd

omit [DecidableEq T] in
lemma entry_forgetNextTimer (df : T → Bool) (b : Base T) (t : T) :
    (forgetNextTimer df b t).entry = b.entry := by
  unfold forgetNextTimer
  split_ifs <;> rfl

lemma armTimer_detachTimer (df : T → Bool) (b : Base T) (t : T) (e : Jiffies) :
    armTimer df (forgetNextTimer df (detachTimer b t false) t) t e =
      armTimer df (forgetNextTimer df (detachTimer b t true) t) t e := by
  unfold forgetNextTimer armTimer internalAddTimer detachTimer
  split_ifs <;> simp only [update_idem]

lemma Wheel.modify {pendingOnly : Bool} (h : Wheel A b n due []) (hA : ¬ A 0)
    (hactive : timerPending b t = true ∨ pendingOnly = false) :
    Wheel A (modTimerCore df b t e pendingOnly).2 n
      (update due t (some (dueTick n b.timerJiffies e))) [] := by
  unfold modTimerCore
  split_ifs with hpending honly
  · have hdetach := (h.detach (t := t)).forget df (t := t)
    have harm := hdetach.arm df hA (e := e) (by rw [entry_forgetNextTimer, entry_detachTimer])
    rw [update_idem] at harm
    rw [armTimer_detachTimer, h.now]
    rwa [hdetach.now] at harm
  · simp [hpending, honly] at hactive
  · apply h.arm df hA
    simpa [timerPending] using hpending

lemma Wheel.del (h : Wheel A b n due []) :
    Wheel A (delTimer df b t).2 n (update due t none) [] := by
  unfold delTimer
  split_ifs with hpending
  · exact h.detach.forget df
  · have hnone : due t = none := by
      rw [← h.pending]
      simpa [timerPending] using hpending
    rw [← hnone, update_eq_self]
    exact h

omit [DecidableEq T] in
lemma Wheel.take (h : Wheel A b n due []) (hA : ∀ l, l ≠ 0 → A l) (hwork : b.list .work = []) :
    Wheel (fun _ => False) (takeList b (n % 2 ^ 8)) (n + 1) due [] := by
  have hidle : ∀ t, b.entry t ≠ some .work := by
    intro t ht
    rw [← h.mem_iff, hwork] at ht
    exact not_mem_nil ht
  have hnow : (takeList b (n % 2 ^ 8)).timerJiffies = BitVec.ofNat 64 (n + 1) := by
    simp only [takeList, h.now]
    exact (BitVec.ofNat_add n 1).symm
  have hentry : ∀ t p, p ≠ .work → ((takeList b (n % 2 ^ 8)).entry t = some p ↔
        b.entry t = some p ∧ p ≠ .vec 0 (n % 2 ^ 8)) := by
    intro t p hp
    simp only [takeList]
    split_ifs with ht
    · rw [ht]
      simp only [Option.some.injEq]
      exact iff_of_false hp.symm fun hq => hq.2 hq.1.symm
    · refine ⟨fun hq => ⟨hq, ?_⟩, And.left⟩
      rintro rfl
      exact ht hq
  have hentry_work : ∀ t, (takeList b (n % 2 ^ 8)).entry t = some .work ↔
      b.entry t = some (.vec 0 (n % 2 ^ 8)) := by
    intro t
    simp only [takeList]
    split_ifs with ht
    · exact iff_of_true rfl ht
    · exact iff_of_false (hidle t) ht
  have hlist : ∀ p t, t ∈ (takeList b (n % 2 ^ 8)).list p ↔
      (takeList b (n % 2 ^ 8)).entry t = some p := by
    intro p t
    by_cases hwork : p = .work
    · subst hwork
      rw [hentry_work, ← h.mem_iff]
      simp [takeList]
    · rw [hentry t p hwork, ← h.mem_iff]
      by_cases hp : p = .vec 0 (n % 2 ^ 8)
      · subst hp
        simp [takeList]
      · simp only [takeList, update_of_ne hp, update_of_ne hwork]
        exact (and_iff_left hp).symm
  constructor
  · exact hnow
  · intro p t
    rw [hlist]
    exact (and_iff_left not_mem_nil).symm
  · intro p
    simp only [takeList]
    by_cases hp : p = .vec 0 (n % 2 ^ 8)
    · subst hp
      simp
    · rw [update_of_ne hp]
      by_cases hwork : p = .work
      · subst hwork
        rw [update_self]
        exact h.nodup _
      · rw [update_of_ne hwork]
        exact h.nodup p
  · exact nodup_nil
  · intro t
    rw [← h.pending]
    simp only [takeList]
    split_ifs with ht
    · rw [ht]
      simp
    · rfl
  · intro t l i d _ ht hd
    obtain ⟨hold, hne⟩ := (hentry t _ (by simp)).1 ht
    obtain ⟨⟨c, hslot, hc⟩, hexp⟩ := h.placed t l i d not_mem_nil hold hd
    have hcn : c ≠ n := by
      intro hcn
      by_cases hl : l = 0
      · subst hl hcn
        refine hne ?_
        rw [hslot.slot]
        simp [size]
      · exact hc (hA l hl) hcn
    have hle := hslot.now_le
    have hlt := hslot.lt_now
    have hdue := hslot.le_due
    refine ⟨⟨c, ⟨hslot.dvd, by omega, by omega, hdue, hslot.due_lt, hslot.slot⟩, False.elim⟩, ?_⟩
    obtain hfuture | ⟨-, rfl, -⟩ := hexp
    · have := hfuture.lt_now
      exact .inl ⟨hfuture.expires, by omega, by omega⟩
    · omega
  · intro t ht
    exact absurd ht not_mem_nil
  · intro t d ht hd
    obtain ⟨⟨c, hslot, -⟩, -⟩ := h.placed t _ _ d not_mem_nil ((hentry_work t).1 ht) hd
    have hcn : c = n := hslot.eq_now (by simp) (by simp [size])
    have hdue := hslot.le_due
    have hlt := hslot.due_lt (by decide)
    simp only [shift] at hlt
    omega

lemma list_work_internalAddTimer (b : Base T) (t : T) :
    (internalAddTimer b t).list .work = b.list .work := by
  simp [internalAddTimer]

section

variable (f : Base T → α) (hadd : ∀ b t, f (internalAddTimer b t) = f b)
  (hlist : ∀ b l i, f { b with list := update b.list (.vec l i) [] } = f b)

include hadd hlist

lemma cascade_frame (b : Base T) (l : Level) (i : ℕ) : f (cascade b l i) = f b := by
  have hfold : ∀ (ts : List T) (b : Base T), f (ts.foldl internalAddTimer b) = f b := by
    intro ts
    induction ts with
    | nil => intro b; rfl
    | cons _ _ ih => intro b; rw [foldl_cons, ih, hadd]
  rw [cascade, hfold, hlist]

lemma cascades_frame (b : Base T) (ls : List Level) : f (cascades b ls) = f b := by
  induction ls generalizing b with
  | nil => rfl
  | cons _ _ ih =>
    rw [cascades_cons]
    split_ifs
    · rw [ih, cascade_frame f hadd hlist]
    · rw [cascade_frame f hadd hlist]

end

lemma list_work_cascades (b : Base T) (ls : List Level) :
    (cascades b ls).list .work = b.list .work :=
  cascades_frame (fun b => b.list .work) list_work_internalAddTimer (fun _ _ _ => by simp) b ls

lemma Wheel.tick (h : Wheel (fun _ => False) b n due []) (hwork : b.list .work = []) :
    Wheel (fun _ => False) (startTick b) (n + 1) due [] := by
  have hi : b.timerJiffies.toNat % 2 ^ 8 = n % 2 ^ 8 := by
    rw [h.now, BitVec.toNat_ofNat]
    omega
  unfold startTick
  simp only [hi]
  split_ifs with hzero
  · have hc := h.cascadeAll [1, 2, 3, 4] (by decide) (by decide) (by decide) id
      (by simpa using Nat.dvd_of_mod_eq_zero hzero)
    apply hc.take (by decide)
    rw [list_work_cascades, hwork]
  · have hpass := h.pass (fun l => l ≠ 0) fun l hl => .inr fun hdvd => hzero ?_
    · exact hpass.take (fun l hl => hl) hwork
    · refine Nat.mod_eq_zero_of_dvd (Nat.dvd_trans (Nat.pow_dvd_pow 2 ?_) hdvd)
      exact (by decide : ∀ l : Level, l ≠ 0 → 8 ≤ shift l) l hl

end LklPort.TimerWheel
