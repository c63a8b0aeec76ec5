import Mathlib.Tactic.Common

/-!
# Guarded machines

A concurrent component is described by its initial state, by a guard that says which action may
be taken in which state, and by the state each action leads to. An interleaving of the
component's threads is a list of actions, each admitted by the guard of the state it is taken in,
so a property of every interleaving is a property of every reachable state.

`Machine.restrict` keeps the runs whose steps all meet a further condition. A fact about the
states reached by such runs is a fact about the reachable states of the restricted machine.
`Machine.record` keeps a history beside the state, for facts about what has happened in a run.
`Machine.strip` takes steps out of a run, and an `Erasure` says that they leave no other trace.
-/

/-- A transition system given by a guard and by the effect of each action. -/
structure Machine (σ α : Type*) where
  init : σ
  guard : σ → α → Prop
  next : σ → α → σ

namespace Machine

variable {σ α : Type*} (M : Machine σ α)

/-- The states that some run of the machine reaches. -/
inductive Reachable : σ → Prop where
  | init : Reachable M.init
  | step {s : σ} (h : Reachable s) (a : α) (ha : M.guard s a) : Reachable (M.next s a)

/-- The same machine, with every step required to meet `C` in the state it is taken in. -/
def restrict (C : σ → α → Prop) : Machine σ α where
  init := M.init
  guard s a := M.guard s a ∧ C s a
  next := M.next

instance (C : σ → α → Prop) (s : σ) (a : α) [Decidable (M.guard s a)] [Decidable (C s a)] :
    Decidable ((M.restrict C).guard s a) :=
  inferInstanceAs (Decidable (M.guard s a ∧ C s a))

/-- The same machine, with a record of its run beside the state. `note` says what a step adds. -/
def record {η : Type*} (h₀ : η) (note : σ → α → η → η) : Machine (σ × η) α where
  init := (M.init, h₀)
  guard p a := M.guard p.1 a
  next p a := (M.next p.1 a, note p.1 a p.2)

instance {η : Type*} (h₀ : η) (note : σ → α → η → η) (p : σ × η) (a : α)
    [Decidable (M.guard p.1 a)] : Decidable ((M.record h₀ note).guard p a) :=
  inferInstanceAs (Decidable (M.guard p.1 a))

/-- The actions `as` can be taken one after another from `s`. -/
def Admits : σ → List α → Prop
  | _, [] => True
  | s, a :: as => M.guard s a ∧ Admits (M.next s a) as

/-- The state that the actions `as` lead to from `s`. -/
def runFrom (s : σ) (as : List α) : σ := as.foldl M.next s

instance decidableAdmits [∀ s a, Decidable (M.guard s a)] :
    (s : σ) → (as : List α) → Decidable (M.Admits s as)
  | _, [] => inferInstanceAs (Decidable True)
  | s, a :: as =>
    have := decidableAdmits (M.next s a) as
    inferInstanceAs (Decidable (M.guard s a ∧ M.Admits (M.next s a) as))

variable {M}

/-! ### Invariants -/

lemma Reachable.invariant {I : σ → Prop} (h0 : I M.init)
    (hstep : ∀ s a, I s → M.guard s a → I (M.next s a)) {s : σ} (h : M.Reachable s) : I s := by
  induction h with
  | init => exact h0
  | step _ a ha ih => exact hstep _ a ih ha

lemma Reachable.invariant_of {I J : σ → Prop} (hJ : ∀ s, M.Reachable s → J s) (h0 : I M.init)
    (hstep : ∀ s a, J s → I s → M.guard s a → I (M.next s a)) {s : σ}
    (h : M.Reachable s) : I s := by
  induction h with
  | init => exact h0
  | step h a ha ih => exact hstep _ a (hJ _ h) ih ha

lemma Reachable.of_restrict {C : σ → α → Prop} {s : σ} (h : (M.restrict C).Reachable s) :
    M.Reachable s := by
  induction h with
  | init => exact .init
  | step _ a ha ih => exact .step ih a ha.1

lemma Reachable.of_record {η : Type*} {h₀ : η} {note : σ → α → η → η} {p : σ × η}
    (h : (M.record h₀ note).Reachable p) : M.Reachable p.1 := by
  induction h with
  | init => exact .init
  | step _ a ha ih => exact .step ih a ha

lemma Reachable.exists_record {η : Type*} (h₀ : η) (note : σ → α → η → η) {s : σ}
    (h : M.Reachable s) : ∃ r, (M.record h₀ note).Reachable (s, r) := by
  induction h with
  | init => exact ⟨h₀, .init⟩
  | step _ a ha ih =>
    obtain ⟨r, hr⟩ := ih
    exact ⟨_, hr.step a ha⟩

/-! ### Leaving out steps -/

/-- The actions `as`, taken from `s`, without those that satisfy `P` in their state. -/
def strip (M : Machine σ α) (P : σ → α → Prop) [∀ s a, Decidable (P s a)] : σ → List α → List α
  | _, [] => []
  | s, a :: as => if P s a then M.strip P (M.next s a) as else a :: M.strip P (M.next s a) as

@[simp] lemma strip_restrict {C P : σ → α → Prop} [∀ s a, Decidable (P s a)] (s : σ)
    (as : List α) : (M.restrict C).strip P s as = M.strip P s as := by
  induction as generalizing s with
  | nil => rfl
  | cons _ _ ih =>
    rw [strip, ih]
    rfl

/-- A map that forgets exactly what the steps in `P` do: they are invisible through it, and the
other steps can be taken without them. -/
structure Erasure (M : Machine σ α) (P : σ → α → Prop) (erase : σ → σ) : Prop where
  invisible : ∀ s a, M.guard s a → P s a → erase (M.next s a) = erase s
  admitted : ∀ s a, M.guard s a → ¬ P s a → M.guard (erase s) a
  comm : ∀ s a, M.guard s a → ¬ P s a → M.next (erase s) a = erase (M.next s a)

/-- A run without the steps in `P` is a run, and leads to what the erasure leaves of the state. -/
lemma Erasure.run {P : σ → α → Prop} [∀ s a, Decidable (P s a)] {erase : σ → σ}
    (h : M.Erasure P erase) {s : σ} {as : List α} (has : M.Admits s as) :
    M.Admits (erase s) (M.strip P s as) ∧
      M.runFrom (erase s) (M.strip P s as) = erase (M.runFrom s as) := by
  induction as generalizing s with
  | nil => exact ⟨trivial, rfl⟩
  | cons a _ ih =>
    obtain ⟨hadm, hrun⟩ := ih has.2
    rw [strip]
    split_ifs with hP
    · rw [h.invisible s a has.1 hP] at hadm hrun
      exact ⟨hadm, hrun⟩
    · rw [← h.comm s a has.1 hP] at hadm hrun
      exact ⟨⟨h.admitted s a has.1 hP, hadm⟩, hrun⟩

/-! ### Concrete runs -/

lemma Admits.of_restrict {C : σ → α → Prop} {s : σ} {as : List α}
    (h : (M.restrict C).Admits s as) : M.Admits s as := by
  induction as generalizing s with
  | nil => trivial
  | cons _ _ ih => exact ⟨h.1.1, ih h.2⟩

lemma Reachable.runFrom {s : σ} (h : M.Reachable s) {as : List α} (has : M.Admits s as) :
    M.Reachable (M.runFrom s as) := by
  induction as generalizing s with
  | nil => exact h
  | cons a _ ih => exact ih (h.step a has.1) has.2

lemma reachable_of_admits (as : List α) (has : M.Admits M.init as) :
    M.Reachable (M.runFrom M.init as) :=
  Reachable.init.runFrom has

end Machine
