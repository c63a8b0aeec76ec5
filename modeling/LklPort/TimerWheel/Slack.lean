import LklPort.TimerWheel.Basic
import LklPort.Words.Align

/-!
# Timer slack

A timer may fire a little later than asked for, and `apply_slack` picks a round tick so that timers
fire together: it clears the bits of the latest allowed tick below the highest one in which it
differs from `expires`. The mask is an `int`, so that this bit must be below 32; and `expires`
itself is never picked, even if it is the roundest of all.
-/

namespace LklPort.TimerWheel

/-- The slack of the timer, or 0.4 percent of the remaining time. -/
def allowedSlack (slack : ℤ) (now expires : Jiffies) : ℕ :=
  if 0 ≤ slack then slack.toNat
  else if timeAfter expires now then (expires - now).toNat / 256
  else 0

/-- `expires_limit` before it is rounded down. -/
def expiresLimit (slack : ℤ) (now expires : Jiffies) : Jiffies :=
  expires + BitVec.ofNat 64 (allowedSlack slack now expires)

def highBit (e limit : Jiffies) : ℕ := (e ^^^ limit).toNat.log2

/-- The ticks from `e` on, cyclically, that a slack of `m` allows. -/
def InSlack (e : Jiffies) (m : ℕ) (v : Jiffies) : Prop := (v - e).toNat ≤ m

/-- No tick that the slack allows has more trailing zeros than `r`. -/
def Roundest (e : Jiffies) (m : ℕ) (r : Jiffies) : Prop :=
  InSlack e m r ∧ ∀ v, InSlack e m v → ∀ k ≤ 64, 2 ^ k ∣ v.toNat → 2 ^ k ∣ r.toNat

/-- What is asked of `apply_slack`. The kernel is compiled with `-fno-strict-overflow`, so that
`(1 << 31) - 1` wraps around. -/
structure SlackLaw (slack : ℤ) (now expires : Jiffies) : Prop where
  shift : expires ≠ expiresLimit slack now expires →
    highBit expires (expiresLimit slack now expires) < 32
  rounds : ∀ junk, (highBit expires (expiresLimit slack now expires) = 31 → junk = 0x7fffffff) →
    Roundest expires (allowedSlack slack now expires) (applySlack slack junk now expires)

variable {slack : ℤ} {now e limit junk v r : Jiffies} {m : ℕ}

lemma allowedSlack_lt (hslack : slack < 2 ^ 31) : allowedSlack slack now e < 2 ^ 56 := by
  unfold allowedSlack
  split_ifs <;> omega

lemma expiresLimit_eq : expiresLimit slack now e =
    if 0 ≤ slack then e + BitVec.ofInt 64 slack
    else if timeAfter e now then e + (e - now) / 256
    else e := by
  unfold expiresLimit allowedSlack
  split_ifs with h0
  · rw [← BitVec.ofInt_natCast, Int.toNat_of_nonneg h0]
  · congr 1
    apply BitVec.eq_of_toNat_eq
    rw [BitVec.toNat_ofNat, BitVec.toNat_udiv, Nat.mod_eq_of_lt (by omega)]
    rfl
  · exact BitVec.add_zero _

lemma applySlack_of_eq (h : e = expiresLimit slack now e) : applySlack slack junk now e = e := by
  rw [applySlack, ← expiresLimit_eq, ← h, BitVec.xor_self]
  rfl

lemma toNat_applySlack (hlimit : expiresLimit slack now e = limit) (hne : e ≠ limit)
    (hbit : highBit e limit < 32) (hjunk : highBit e limit = 31 → junk = 0x7fffffff) :
    (applySlack slack junk now e).toNat =
      limit.toNat / 2 ^ highBit e limit * 2 ^ highBit e limit := by
  have hmask : (if highBit e limit < 31 then BitVec.ofNat 64 (2 ^ highBit e limit - 1) else junk) =
      BitVec.ofNat 64 (2 ^ highBit e limit - 1) := by
    split_ifs with h31
    · rfl
    · have heq : highBit e limit = 31 := by omega
      rw [hjunk heq, heq]
      rfl
  rw [applySlack, ← expiresLimit_eq, hlimit]
  have hxor : e ^^^ limit ≠ 0 := fun h => hne (BitVec.xor_eq_zero_iff.1 h)
  rw [← Words.toNat_and_not_mask _ (by omega), ← hmask]
  exact congrArg BitVec.toNat (if_neg hxor)

section

variable (hlimit : limit = e + BitVec.ofNat 64 m) (hm : m < 2 ^ 56) (hbit : highBit e limit < 32)

include hlimit hm hbit

/-- The limit does not wrap around: otherwise the highest bits would differ. -/
lemma toNat_limit : limit.toNat = e.toNat + m := by
  have hdiv : e.toNat / 2 ^ 32 = limit.toNat / 2 ^ 32 := by
    apply Words.div_eq_of_xor_lt
    exact lt_of_lt_of_le Nat.lt_log2_self (Nat.pow_le_pow_right (by decide) hbit)
  rw [hlimit, BitVec.toNat_add, BitVec.toNat_ofNat] at hdiv ⊢
  omega

lemma inSlack_iff : InSlack e m v ↔ e.toNat ≤ v.toNat ∧ v.toNat ≤ limit.toNat := by
  have hnat := toNat_limit hlimit hm hbit
  rw [InSlack, BitVec.toNat_sub]
  omega

lemma roundest_iff (hne : e ≠ limit)
    (hr : r.toNat = limit.toNat / 2 ^ highBit e limit * 2 ^ highBit e limit) :
    Roundest e m r ↔ ¬ 2 ^ (highBit e limit + 1) ∣ e.toNat := by
  have hle : e.toNat ≤ limit.toNat := by
    rw [toNat_limit hlimit hm hbit]
    exact Nat.le_add_right _ _
  obtain ⟨q, hx, hy⟩ : ∃ q, e.toNat / 2 ^ highBit e limit = 2 * q ∧
      limit.toNat / 2 ^ highBit e limit = 2 * q + 1 := by
    exact Words.div_log2_xor (lt_of_le_of_ne hle fun h => hne (BitVec.eq_of_toNat_eq h))
  have hpos := Nat.two_pow_pos (highBit e limit)
  simp only [Roundest, inSlack_iff hlimit hm hbit, hr]
  constructor
  · intro h hdvd
    have hround := h.2 e ⟨le_rfl, hle⟩ _ (by omega) hdvd
    rw [hy, Nat.pow_succ'] at hround
    have := Nat.dvd_of_mul_dvd_mul_right hpos hround
    omega
  · refine fun hnd => ⟨⟨?_, Nat.div_mul_le_self _ _⟩, fun v hv k _ hdvd => ?_⟩
    · exact le_of_lt ((Nat.div_lt_iff_lt_mul hpos).1 (by omega))
    · obtain hk | hk := Nat.lt_or_ge (highBit e limit) k
      · -- only `e` itself can be rounder than the result
        have hdvd := (Nat.pow_dvd_pow 2 hk).trans hdvd
        rw [Words.eq_of_dvd_of_between hpos hx hy hv.1 hv.2 hdvd] at hdvd
        exact absurd hdvd hnd
      · exact (Nat.pow_dvd_pow 2 hk).trans (Nat.dvd_mul_left _ _)

end

lemma slackLaw_of_eq (hslack : slack < 2 ^ 31) (heq : e = expiresLimit slack now e) :
    SlackLaw slack now e := by
  refine ⟨absurd heq, fun junk _ => ?_⟩
  have hbit : highBit e e < 32 := by
    rw [highBit, BitVec.xor_self]
    decide
  have hv (v : Jiffies) : InSlack e (allowedSlack slack now e) v ↔ v = e := by
    rw [inSlack_iff heq (allowedSlack_lt hslack) hbit, ← Nat.le_antisymm_iff, eq_comm,
      BitVec.toNat_inj]
  rw [applySlack_of_eq heq]
  refine ⟨(hv e).2 rfl, fun v hin k _ hdvd => ?_⟩
  rwa [(hv v).1 hin] at hdvd

/-- The law holds exactly if `expires` is the limit itself, or if it differs from it in the low
32 bits only and is not rounder than the highest bit of the difference. -/
theorem slackLaw_iff (slack : BitVec 32) (now expires : Jiffies) :
    SlackLaw slack.toInt now expires ↔ expires = expiresLimit slack.toInt now expires ∨
      highBit expires (expiresLimit slack.toInt now expires) < 32 ∧
        ¬ 2 ^ (highBit expires (expiresLimit slack.toInt now expires) + 1) ∣ expires.toNat := by
  have hslack : slack.toInt < 2 ^ 31 := BitVec.toInt_lt
  by_cases heq : expires = expiresLimit slack.toInt now expires
  · exact iff_of_true (slackLaw_of_eq hslack heq) (.inl heq)
  · have hm : allowedSlack slack.toInt now expires < 2 ^ 56 := allowedSlack_lt hslack
    constructor
    · intro h
      have hbit := h.shift heq
      have hr := toNat_applySlack rfl heq hbit fun _ => rfl
      exact .inr ⟨hbit, (roundest_iff rfl hm hbit heq hr).1 (h.rounds _ fun _ => rfl)⟩
    · rintro (h | ⟨hbit, hnd⟩)
      · exact absurd h heq
      · refine ⟨fun _ => hbit, fun junk hjunk => ?_⟩
        exact (roundest_iff rfl hm hbit heq (toNat_applySlack rfl heq hbit hjunk)).2 hnd

/-- From 8 with a slack of 3 the timer is moved to 10, and a slack that reaches over `2 ^ 32` asks
for a shift by 32. -/
theorem not_slackLaw : ¬ SlackLaw (3#32).toInt 0 8 ∧ ¬ SlackLaw (1#32).toInt 0 0xffffffff := by
  constructor
  · intro h
    have hround := (h.rounds 0 (by decide +kernel)).2 8 (by unfold InSlack; decide) 3
    revert hround
    decide +kernel
  · intro h
    exact absurd (h.shift (by decide)) (by decide +kernel)

end LklPort.TimerWheel
