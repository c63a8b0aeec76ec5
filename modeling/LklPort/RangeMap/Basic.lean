import Mathlib.Tactic.Common
import Mathlib.Data.Int.Order.Basic

/-!
# Maps on the integers by ranges

A map that is constant on finitely many ranges and undefined elsewhere can be kept as a list of
ranges. The list is tidy if its ranges are in order and as large as possible. `set` gives a new
value to all integers of one range, and keeps the list tidy.
-/

namespace RangeMap

open List

/-- The integers from `lo` to `hi`, with a value. -/
structure Range (τ : Type*) where
  lo : ℤ
  hi : ℤ
  tag : τ
  deriving DecidableEq

variable {τ : Type*} {x y z q : Range τ} {l : List (Range τ)} {b : ℤ}

/-- `x` is before `y`, and they cannot be joined. -/
def Gap (x y : Range τ) : Prop := x.hi < y.lo ∧ (x.tag = y.tag → x.hi + 1 < y.lo)

lemma Gap.trans (hxy : Gap x y) (hyz : Gap y z) (hy : y.lo ≤ y.hi) : Gap x z := by
  have h1 := hxy.1
  have h2 := hyz.1
  exact ⟨by omega, fun _ => by omega⟩

/-- The ranges are not empty, in order, and as large as possible. -/
structure Tidy (l : List (Range τ)) : Prop where
  le : ∀ x ∈ l, x.lo ≤ x.hi
  gap : l.Pairwise Gap

lemma tidy_nil : Tidy ([] : List (Range τ)) := ⟨nofun, .nil⟩

lemma tidy_cons : Tidy (x :: l) ↔ x.lo ≤ x.hi ∧ (∀ y ∈ l, Gap x y) ∧ Tidy l := by
  constructor
  · intro h
    obtain ⟨hgap, hrest⟩ := List.pairwise_cons.1 h.gap
    exact ⟨h.le x mem_cons_self, hgap, fun y hy => h.le y (mem_cons_of_mem x hy), hrest⟩
  · rintro ⟨hle, hgap, hrest⟩
    refine ⟨fun y hy => ?_, List.pairwise_cons.2 ⟨hgap, hrest.gap⟩⟩
    rcases List.mem_cons.1 hy with rfl | hy
    · exact hle
    · exact hrest.le y hy

lemma Tidy.sublist {l' : List (Range τ)} (h : Tidy l) (hsub : l'.Sublist l) : Tidy l' :=
  ⟨fun x hx => h.le x (hsub.subset hx), h.gap.sublist hsub⟩

lemma Tidy.cons (h : Tidy (x :: l)) (hz : z.lo ≤ z.hi) (hzx : Gap z x) : Tidy (z :: x :: l) := by
  obtain ⟨hx, hxl, -⟩ := tidy_cons.1 h
  exact tidy_cons.2 ⟨hz, List.forall_mem_cons.2 ⟨hzx, fun y hy => hzx.trans (hxl y hy) hx⟩, h⟩

lemma Tidy.tail_of_lo {n : ℤ} (h : Tidy (x :: l)) (hn : n ≤ x.hi) :
    Tidy ({ x with lo := n } :: l) := by
  obtain ⟨-, hxl, hl⟩ := tidy_cons.1 h
  exact tidy_cons.2 ⟨hn, hxl, hl⟩

/-- The value at an integer. -/
def lookup : List (Range τ) → ℤ → Option τ
  | [], _ => none
  | x :: l, b => if x.lo ≤ b ∧ b ≤ x.hi then some x.tag else lookup l b

lemma lookup_eq_none (h : ∀ x ∈ l, ¬ (x.lo ≤ b ∧ b ≤ x.hi)) : lookup l b = none := by
  induction l with
  | nil => rfl
  | cons x l ih =>
    rw [lookup, if_neg (h x mem_cons_self)]
    exact ih fun y hy => h y (mem_cons_of_mem x hy)

lemma mem_of_lookup_eq_some {t : τ} (h : lookup l b = some t) :
    ∃ x ∈ l, (x.lo ≤ b ∧ b ≤ x.hi) ∧ x.tag = t := by
  induction l with
  | nil => cases h
  | cons x l ih =>
    rw [lookup] at h
    split_ifs at h with hb
    · exact ⟨x, mem_cons_self, hb, Option.some.inj h⟩
    · obtain ⟨y, hy, hyb⟩ := ih h
      exact ⟨y, mem_cons_of_mem x hy, hyb⟩

lemma Tidy.lookup_filter (h : Tidy l) (p : τ → Bool) (b : ℤ) :
    lookup (l.filter fun x => p x.tag) b = (lookup l b).filter p := by
  induction l with
  | nil => rfl
  | cons x l ih =>
    obtain ⟨-, hgap, hl⟩ := tidy_cons.1 h
    by_cases hb : x.lo ≤ b ∧ b ≤ x.hi
    · have hnone : lookup l b = none := by
        refine lookup_eq_none fun y hy hyb => ?_
        have hlt := (hgap y hy).1
        omega
      rw [lookup, if_pos hb, filter_cons]
      split_ifs with hp
      · rw [lookup, if_pos hb, Option.filter_some_pos hp]
      · rw [ih hl, hnone, Option.filter_none, Option.filter_some_neg (Bool.eq_false_iff.2 hp)]
    · rw [lookup, if_neg hb, filter_cons]
      split_ifs
      · rw [lookup, if_neg hb, ih hl]
      · exact ih hl

/-! ### Setting a range -/

/-- The range from the first to the last integer of both. -/
def Range.join (q x : Range τ) : Range τ := ⟨min q.lo x.lo, max q.hi x.hi, q.tag⟩

lemma mem_join (h1 : ¬ x.hi + 1 < q.lo) (h2 : ¬ q.hi + 1 < x.lo) :
    (q.join x).lo ≤ b ∧ b ≤ (q.join x).hi ↔ q.lo ≤ b ∧ b ≤ q.hi ∨ x.lo ≤ b ∧ b ≤ x.hi := by
  unfold Range.join
  dsimp only
  omega

lemma join_le (hq : q.lo ≤ q.hi) : (q.join x).lo ≤ (q.join x).hi := by
  unfold Range.join
  dsimp only
  omega

variable [DecidableEq τ]

/-- Give the value of `q` to all integers in its range. -/
def set (q : Range τ) : List (Range τ) → List (Range τ)
  | [] => [q]
  | x :: l =>
    if q.tag = x.tag then
      if x.hi + 1 < q.lo then x :: set q l
      else if q.hi + 1 < x.lo then q :: x :: l
      else set (q.join x) l
    else if x.hi < q.lo then x :: set q l
    else if q.hi < x.lo then q :: x :: l
    else if x.lo < q.lo then
      if q.hi < x.hi then { x with hi := q.lo - 1 } :: q :: { x with lo := q.hi + 1 } :: l
      else { x with hi := q.lo - 1 } :: set q l
    else if q.hi < x.hi then q :: { x with lo := q.hi + 1 } :: l
    else set q l

lemma lookup_set (b : ℤ) : lookup (set q l) b =
    if q.lo ≤ b ∧ b ≤ q.hi then some q.tag else lookup l b := by
  fun_induction set q l with
  | case1 => rfl
  | case2 q x l htag h1 ih | case5 q x l htag h1 ih =>
    rw [lookup, ih, lookup]
    split_ifs <;> first | rfl | omega
  | case3 q x l | case6 q x l => rfl
  | case4 q x l htag h1 h2 ih =>
    have hmem := mem_join (b := b) h1 h2
    rw [ih, lookup]
    by_cases hq : q.lo ≤ b ∧ b ≤ q.hi
    · rw [if_pos (hmem.2 (.inl hq)), if_pos hq]
      rfl
    by_cases hx : x.lo ≤ b ∧ b ≤ x.hi
    · rw [if_pos (hmem.2 (.inr hx)), if_neg hq, if_pos hx, ← htag]
      rfl
    · rw [if_neg fun h => (hmem.1 h).elim hq hx, if_neg hq, if_neg hx]
  | case7 q x l =>
    simp only [lookup]
    split_ifs <;> first | rfl | omega
  | case8 q x l htag h1 h2 hlo hhi ih =>
    simp only [lookup, ih]
    split_ifs <;> first | rfl | omega
  | case9 q x l =>
    simp only [lookup]
    split_ifs <;> first | rfl | omega
  | case10 q x l htag h1 h2 hlo hhi ih =>
    rw [ih, lookup]
    split_ifs <;> first | rfl | omega

lemma gap_set (hq : q.lo ≤ q.hi) (hzq : Gap z q) (hzl : ∀ y ∈ l, Gap z y) :
    ∀ y ∈ set q l, Gap z y := by
  have hright : ∀ {q x : Range τ}, q.lo ≤ q.hi → Gap z q → Gap z { x with lo := q.hi + 1 } := by
    intro q x hq hzq
    have hlt := hzq.1
    exact ⟨by dsimp only; omega, fun _ => by dsimp only; omega⟩
  fun_induction set q l with
  | case1 q => simpa using hzq
  | case2 q x l htag h1 ih | case5 q x l htag h1 ih =>
    obtain ⟨hzx, hzl⟩ := List.forall_mem_cons.1 hzl
    exact List.forall_mem_cons.2 ⟨hzx, ih hq hzq hzl⟩
  | case3 q x l | case6 q x l => exact List.forall_mem_cons.2 ⟨hzq, hzl⟩
  | case4 q x l htag h1 h2 ih =>
    obtain ⟨hzx, hzl⟩ := List.forall_mem_cons.1 hzl
    refine ih (join_le hq) ⟨lt_min hzq.1 hzx.1, fun he => ?_⟩ hzl
    exact lt_min (hzq.2 he) (hzx.2 (he.trans htag))
  | case7 q x l =>
    obtain ⟨hzx, hzl⟩ := List.forall_mem_cons.1 hzl
    refine List.forall_mem_cons.2 ⟨hzx, List.forall_mem_cons.2 ⟨hzq, ?_⟩⟩
    exact List.forall_mem_cons.2 ⟨hright hq hzq, hzl⟩
  | case8 q x l htag h1 h2 hlo hhi ih =>
    obtain ⟨hzx, hzl⟩ := List.forall_mem_cons.1 hzl
    exact List.forall_mem_cons.2 ⟨hzx, ih hq hzq hzl⟩
  | case9 q x l =>
    obtain ⟨-, hzl⟩ := List.forall_mem_cons.1 hzl
    exact List.forall_mem_cons.2 ⟨hzq, List.forall_mem_cons.2 ⟨hright hq hzq, hzl⟩⟩
  | case10 q x l htag h1 h2 hlo hhi ih =>
    exact ih hq hzq (List.forall_mem_cons.1 hzl).2

theorem tidy_set (hq : q.lo ≤ q.hi) (h : Tidy l) : Tidy (set q l) := by
  fun_induction set q l with
  | case1 q => exact tidy_cons.2 ⟨hq, nofun, tidy_nil⟩
  | case2 q x l htag h1 ih =>
    obtain ⟨hx, hxl, hl⟩ := tidy_cons.1 h
    have hxq : Gap x q := ⟨by omega, fun _ => h1⟩
    exact tidy_cons.2 ⟨hx, gap_set hq hxq hxl, ih hq hl⟩
  | case3 q x l htag h1 h2 => exact h.cons hq ⟨by omega, fun _ => h2⟩
  | case4 q x l htag h1 h2 ih => exact ih (join_le hq) (tidy_cons.1 h).2.2
  | case5 q x l htag h1 ih =>
    obtain ⟨hx, hxl, hl⟩ := tidy_cons.1 h
    have hxq : Gap x q := ⟨h1, fun he => absurd he.symm htag⟩
    exact tidy_cons.2 ⟨hx, gap_set hq hxq hxl, ih hq hl⟩
  | case6 q x l htag h1 h2 => exact h.cons hq ⟨h2, fun he => absurd he htag⟩
  | case7 q x l htag h1 h2 hlo hhi =>
    have hright : Tidy ({ x with lo := q.hi + 1 } :: l) := h.tail_of_lo hhi
    have hmid := hright.cons hq ⟨by dsimp only; omega, fun he => absurd he htag⟩
    exact hmid.cons (by dsimp only; omega) ⟨by dsimp only; omega, fun he => absurd he.symm htag⟩
  | case8 q x l htag h1 h2 hlo hhi ih =>
    obtain ⟨-, hxl, hl⟩ := tidy_cons.1 h
    have hleft : Gap { x with hi := q.lo - 1 } q :=
      ⟨by dsimp only; omega, fun he => absurd he.symm htag⟩
    refine tidy_cons.2 ⟨by dsimp only; omega, gap_set hq hleft fun y hy => ?_, ih hq hl⟩
    have hlt := (hxl y hy).1
    exact ⟨by dsimp only; omega, fun _ => by dsimp only; omega⟩
  | case9 q x l htag h1 h2 hlo hhi =>
    have hright : Tidy ({ x with lo := q.hi + 1 } :: l) := h.tail_of_lo hhi
    exact hright.cons hq ⟨by dsimp only; omega, fun he => absurd he htag⟩
  | case10 q x l htag h1 h2 hlo hhi ih => exact ih hq (tidy_cons.1 h).2.2

end RangeMap
