import Mathlib.Data.Fintype.Pigeonhole
import Mathlib.Data.Set.Finite.Basic

/-!
# Loops without a bound

A loop is given by its body, which takes a state to the next one or to a result. `run` gives up
after a number of rounds, and a loop halts if some number of rounds is enough. A loop that can only
get to finitely many states halts unless it comes back to one of them.
-/

namespace Rounds

variable {σ τ ρ ρ' : Type*} {step : σ → σ ⊕ ρ} {s t : σ} {r : ρ} {n m : ℕ}

/-- The loop goes on from `s` with `t`. -/
def Next (step : σ → σ ⊕ ρ) (s t : σ) : Prop := step s = .inl t

/-- The states that the loop gets to. -/
abbrev Reaches (step : σ → σ ⊕ ρ) : σ → σ → Prop := Relation.ReflTransGen (Next step)

/-- The loop comes back to the state. -/
def Cycles (step : σ → σ ⊕ ρ) (s : σ) : Prop := Relation.TransGen (Next step) s s

/-- The result of the loop, if at most so many rounds are enough. -/
def run (step : σ → σ ⊕ ρ) : ℕ → σ → Option ρ
  | 0, _ => none
  | n + 1, s =>
    match step s with
    | .inl t => run step n t
    | .inr r => some r

/-- Some number of rounds is enough. -/
def Halts (step : σ → σ ⊕ ρ) (s : σ) : Prop := ∃ n r, run step n s = some r

lemma run_inl (h : step s = .inl t) : run step (n + 1) s = run step n t := by
  rw [run, h]

lemma run_inr (h : step s = .inr r) : run step (n + 1) s = some r := by
  rw [run, h]

lemma run_of_le (h : run step n s = some r) (hle : n ≤ m) : run step m s = some r := by
  induction n generalizing s m with
  | zero => cases h
  | succ _ ih =>
    obtain ⟨m, rfl⟩ : ∃ m', m = m' + 1 := ⟨m - 1, by omega⟩
    cases hs : step s with
    | inl =>
      rw [run_inl hs] at h ⊢
      exact ih h (Nat.le_of_succ_le_succ hle)
    | inr =>
      rw [run_inr hs] at h ⊢
      exact h

lemma run_unique {r' : ρ} (h : run step n s = some r) (h' : run step m s = some r') : r = r' := by
  have hmax := run_of_le h (Nat.le_max_left n m)
  rw [run_of_le h' (Nat.le_max_right n m)] at hmax
  exact (Option.some.inj hmax).symm

lemma halts_of_inr (h : step s = .inr r) : Halts step s := ⟨1, r, run_inr h⟩

lemma halts_iff_of_next (h : Next step s t) : Halts step s ↔ Halts step t := by
  constructor
  · rintro ⟨n, r, hrun⟩
    cases n with
    | zero => cases hrun
    | succ n => exact ⟨n, r, by rwa [run_inl h] at hrun⟩
  · rintro ⟨n, r, hrun⟩
    exact ⟨n + 1, r, by rwa [run_inl h]⟩

lemma halts_iff_of_reaches (h : Reaches step s t) : Halts step s ↔ Halts step t := by
  induction h with
  | refl => rfl
  | tail _ hnext ih => rw [ih, halts_iff_of_next hnext]

lemma exists_run_of_reaches (h : Reaches step s t) (hr : step t = .inr r) :
    ∃ n, run step n s = some r := by
  obtain ⟨n, r', hrun⟩ := (halts_iff_of_reaches h).2 (halts_of_inr hr)
  have hlast : ∀ {u : σ}, Reaches step s u → ∃ m, run step m u = some r' := by
    intro u hu
    induction hu with
    | refl => exact ⟨n, hrun⟩
    | tail _ hnext ih =>
      obtain ⟨m, hm⟩ := ih
      cases m with
      | zero => cases hm
      | succ m => exact ⟨m, by rwa [run_inl hnext] at hm⟩
  obtain ⟨m, hm⟩ := hlast h
  rw [run_unique (run_inr (n := 0) hr) hm]
  exact ⟨n, hrun⟩

lemma Reaches.invariant {I : σ → Prop} (h : Reaches step s t) (hs : I s)
    (hnext : ∀ s t, I s → Next step s t → I t) : I t := by
  induction h with
  | refl => exact hs
  | tail _ hn ih => exact hnext _ _ ih hn

/-! ### Cycles -/

lemma Cycles.exists_next (h : Cycles step s) : ∃ t, Next step s t ∧ Cycles step t := by
  obtain ⟨t, hst, hts⟩ := Relation.TransGen.head'_iff.1 h
  exact ⟨t, hst, Relation.TransGen.tail' hts hst⟩

lemma Cycles.not_halts (h : Cycles step s) : ¬ Halts step s := by
  rintro ⟨n, r, hrun⟩
  induction n generalizing s with
  | zero => cases hrun
  | succ _ ih =>
    obtain ⟨t, hst, ht⟩ := h.exists_next
    rw [run_inl hst] at hrun
    exact ih ht hrun

lemma exists_next_of_not_halts (h : ¬ Halts step s) (hst : Reaches step s t) :
    ∃ u, Next step t u := by
  cases hstep : step t with
  | inl u => exact ⟨u, hstep⟩
  | inr => exact absurd ((halts_iff_of_reaches hst).2 (halts_of_inr hstep)) h

lemma exists_cycles_of_not_halts (hfin : {t | Reaches step s t}.Finite) (h : ¬ Halts step s) :
    ∃ t, Reaches step s t ∧ Cycles step t := by
  have := hfin.to_subtype
  choose! next hnext using fun t (ht : Reaches step s t) => exists_next_of_not_halts h ht
  -- the states of the run, one for each number of rounds
  let orbit : ℕ → {t | Reaches step s t} := fun n =>
    Nat.rec ⟨s, .refl⟩ (fun _ t => ⟨next t.1, t.2.tail (hnext t.1 t.2)⟩) n
  have hsucc (n : ℕ) : Next step (orbit n).1 (orbit (n + 1)).1 := hnext _ (orbit n).2
  have hlater (n d : ℕ) : Relation.TransGen (Next step) (orbit n).1 (orbit (n + (d + 1))).1 := by
    induction d with
    | zero => exact .single (hsucc n)
    | succ d ih => exact .tail ih (hsucc (n + (d + 1)))
  have hcycle {a b : ℕ} (hab : a < b) (heq : orbit a = orbit b) : Cycles step (orbit a).1 := by
    obtain ⟨d, rfl⟩ := Nat.exists_eq_add_of_lt hab
    have htrans := hlater a d
    rw [add_assoc] at heq
    rwa [← heq] at htrans
  obtain ⟨a, b, hab, heq⟩ := Finite.exists_ne_map_eq_of_infinite orbit
  rcases Nat.lt_or_gt_of_ne hab with hlt | hgt
  · exact ⟨_, (orbit a).2, hcycle hlt heq⟩
  · exact ⟨_, (orbit b).2, hcycle hgt heq.symm⟩

/-- A loop with finitely many states halts if it comes back to none of them. -/
theorem halts_iff_of_finite (hfin : {t | Reaches step s t}.Finite) :
    Halts step s ↔ ∀ t, Reaches step s t → ¬ Cycles step t := by
  constructor
  · intro h t hst hcycle
    exact hcycle.not_halts ((halts_iff_of_reaches hst).1 h)
  · intro h
    by_contra hnot
    obtain ⟨t, hst, hcycle⟩ := exists_cycles_of_not_halts hfin hnot
    exact h t hst hcycle

/-! ### Simulation -/

/-- A loop that follows another one, with states that are a part of the other's. -/
structure Follows (I : σ → Prop) (f : σ → τ) (step : σ → σ ⊕ ρ) (step' : τ → τ ⊕ ρ') : Prop where
  inl : ∀ s t, I s → step s = .inl t → step' (f s) = .inl (f t) ∧ I t
  inr : ∀ s r, I s → step s = .inr r → ∃ r', step' (f s) = .inr r'

variable {I : σ → Prop} {f : σ → τ} {step' : τ → τ ⊕ ρ'}

section

variable (h : Follows I f step step') (hs : I s)

include h hs

lemma Follows.reaches (hst : Reaches step s t) : Reaches step' (f s) (f t) ∧ I t := by
  induction hst with
  | refl => exact ⟨.refl, hs⟩
  | tail _ hn ih =>
    obtain ⟨hnext, hI⟩ := h.inl _ _ ih.2 hn
    exact ⟨ih.1.tail hnext, hI⟩

lemma Follows.exists_of_reaches {t' : τ}
    (hst : Reaches step' (f s) t') : ∃ t, Reaches step s t ∧ f t = t' := by
  induction hst with
  | refl => exact ⟨s, .refl, rfl⟩
  | @tail _ v' _ hn ih =>
    obtain ⟨u, hsu, rfl⟩ := ih
    have hI := (h.reaches hs hsu).2
    cases hstep : step u with
    | inl v =>
      have hnext := (h.inl u v hI hstep).1
      rw [show step' (f u) = .inl v' from hn] at hnext
      exact ⟨v, hsu.tail hstep, (Sum.inl.inj hnext).symm⟩
    | inr r =>
      obtain ⟨r', hr'⟩ := h.inr u r hI hstep
      simp [show step' (f u) = .inl v' from hn] at hr'

lemma Follows.halts_iff : Halts step s ↔ Halts step' (f s) := by
  -- the two loops return after the same number of rounds
  refine exists_congr fun n => ?_
  induction n generalizing s with
  | zero => simp [run]
  | succ _ ih =>
    cases hstep : step s with
    | inl t =>
      obtain ⟨hnext, hI⟩ := h.inl s t hs hstep
      rw [run_inl hstep, run_inl hnext]
      exact ih hI
    | inr r =>
      obtain ⟨r', hr⟩ := h.inr s r hs hstep
      simp [run_inr hstep, run_inr hr]

end

end Rounds
