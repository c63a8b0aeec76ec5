import Mathlib.Tactic.Common

/-!
# Programs that may fail

A program reads and changes a state, and has no result if it does something that is not allowed,
such as following a pointer that leads nowhere. `Runs x s b s'` says that `x` does not fail in the
state `s`, returns `b` and leaves the state `s'`, and `Ends x s Q` that it does not fail and `Q`
holds of what it returns and leaves. A loop has a number of rounds after which it
gives up, so that a program that runs also ends.
-/

/-- A program with states in `σ`. -/
abbrev Program (σ β : Type) := StateT σ Option β

namespace Program

variable {σ β γ : Type}

/-- The program returns `b` and leaves `s'`. -/
def Runs (x : Program σ β) (s : σ) (b : β) (s' : σ) : Prop := x.run s = some (b, s')

/-- The program returns a result, with the postcondition `Q`. -/
def Ends (x : Program σ β) (s : σ) (Q : β → σ → Prop) : Prop := ∃ b s', Runs x s b s' ∧ Q b s'

/-- The state is read. -/
def read : Program σ σ := fun s => some (s, s)

/-- The state is changed. -/
def write (f : σ → σ) : Program σ Unit := fun s => some ((), f s)

/-- The program fails. -/
def fail : Program σ β := fun _ => none

/-- The body is run until it returns a result, in at most so many rounds. -/
def loop (body : γ → Program σ (γ ⊕ β)) : ℕ → γ → Program σ β
  | 0, _ => fail
  | rounds + 1, x => do
    match ← body x with
    | .inl x => loop body rounds x
    | .inr b => pure b

section Rules

variable {x : Program σ β} {s s' s'' : σ} {b : β} {c : γ}

lemma Runs.pure (b : β) (s : σ) : Runs (Pure.pure b : Program σ β) s b s := rfl

lemma Runs.bind {f : β → Program σ γ} (hx : Runs x s b s') (hf : Runs (f b) s' c s'') :
    Runs (x >>= f) s c s'' := by
  unfold Runs at *
  rw [StateT.run_bind, hx]
  exact hf

lemma Runs.read (s : σ) : Runs (read : Program σ σ) s s s := rfl

lemma Runs.write (f : σ → σ) (s : σ) : Runs (write f) s () (f s) := rfl

lemma Runs.ite_pos {P : Prop} [Decidable P] {y : Program σ β} (h : P) (hx : Runs x s b s') :
    Runs (if P then x else y) s b s' := by
  rw [if_pos h]
  exact hx

lemma Runs.ite_neg {P : Prop} [Decidable P] {y : Program σ β} (h : ¬ P) (hx : Runs x s b s') :
    Runs (if P then y else x) s b s' := by
  rw [if_neg h]
  exact hx

section Ends

variable {P : β → σ → Prop} {Q : γ → σ → Prop} {f : β → Program σ γ} {y z : Program σ γ}

lemma Ends.pure (h : Q c s) : Ends (Pure.pure c) s Q := ⟨c, s, .pure c s, h⟩

lemma Ends.after (hx : Runs x s b s') (h : Ends (f b) s' Q) : Ends (x >>= f) s Q := by
  obtain ⟨c, s'', hrun, hc⟩ := h
  exact ⟨c, s'', hx.bind hrun, hc⟩

lemma Ends.bind (hx : Ends x s P) (h : ∀ b s', P b s' → Ends (f b) s' Q) : Ends (x >>= f) s Q := by
  obtain ⟨b, s', hrun, hb⟩ := hx
  exact .after hrun (h b s' hb)

lemma Ends.mono {Q' : γ → σ → Prop} (h : Ends y s Q) (himp : ∀ c s', Q c s' → Q' c s') :
    Ends y s Q' := by
  obtain ⟨c, s', hrun, hc⟩ := h
  exact ⟨c, s', hrun, himp c s' hc⟩

lemma Ends.read {f : σ → Program σ γ} (h : Ends (f s) s Q) : Ends (read >>= f) s Q :=
  .after (.read s) h

lemma Ends.write {f : Unit → Program σ γ} (g : σ → σ) (h : Ends (f ()) (g s) Q) :
    Ends (write g >>= f) s Q := .after (.write g s) h

lemma Ends.ite {A : Prop} [Decidable A] (hy : A → Ends y s Q) (hz : ¬ A → Ends z s Q) :
    Ends (if A then y else z) s Q := by
  split_ifs with h
  · exact hy h
  · exact hz h

end Ends

variable {body : γ → Program σ (γ ⊕ β)} {rounds : ℕ} {c' : γ}

lemma Runs.loop_inr (h : Runs (body c) s (.inr b) s') : Runs (loop body (rounds + 1) c) s b s' :=
  h.bind (.pure b s')

lemma Runs.loop_inl (h : Runs (body c) s (.inl c') s') (h' : Runs (loop body rounds c') s' b s'') :
    Runs (loop body (rounds + 1) c) s b s'' :=
  h.bind h'

/-- A loop with an invariant `I`, whose number falls with each round. -/
lemma Ends.loop {I : ℕ → γ → σ → Prop} {Q : β → σ → Prop} {n : ℕ} (hbody : ∀ n c s, I n c s →
      Ends (body c) s (Sum.elim (fun c' s' => ∃ n' < n, I n' c' s') Q))
    (h : I n c s) (hr : n < rounds) : Ends (loop body rounds c) s Q := by
  induction rounds generalizing n c s with
  | zero => exact absurd hr (Nat.not_lt_zero _)
  | succ _ ih =>
    refine (hbody n c s h).bind fun r s' hr' => ?_
    cases r with
    | inl =>
      obtain ⟨n', hlt, h'⟩ := hr'
      exact ih h' (Nat.lt_of_lt_of_le hlt (Nat.le_of_lt_succ hr))
    | inr => exact .pure hr'

end Rules

section Search

variable {α : Type} {f : α → Program σ (Option β)} {I : σ → Prop} {Q : β → σ → Prop}

/-- What holds after a search that may find nothing. -/
def Found (I : σ → Prop) (Q : β → σ → Prop) : Option β → σ → Prop
  | none, s => I s
  | some b, s => Q b s

lemma Ends.findSome {as : List α} (hf : ∀ a ∈ as, ∀ s, I s → Ends (f a) s (Found I Q)) {s : σ}
    (hs : I s) : Ends (as.findSomeM? f) s (Found I Q) := by
  induction as generalizing s with
  | nil => exact .pure hs
  | cons a _ ih =>
    refine (hf a List.mem_cons_self s hs).bind fun r s1 hr => ?_
    cases r with
    | some => exact .pure hr
    | none => exact ih (fun a' ha' => hf a' (List.mem_cons_of_mem a ha')) hr

/-- A search that changes nothing before it finds something. -/
lemma Ends.findSome_same {as : List α} {s : σ} {N : α → Prop}
    (hf : ∀ a ∈ as, Ends (f a) s (Found (fun s' => s' = s ∧ N a) Q)) :
    Ends (as.findSomeM? f) s (Found (fun s' => s' = s ∧ ∀ a ∈ as, N a) Q) := by
  induction as with
  | nil => exact .pure ⟨rfl, List.forall_mem_nil N⟩
  | cons a _ ih =>
    rw [List.forall_mem_cons] at hf
    refine hf.1.bind fun r s1 hr => ?_
    cases r with
    | some => exact .pure hr
    | none =>
      obtain ⟨rfl, ha⟩ := hr
      refine (ih hf.2).mono fun r s' hr => ?_
      cases r with
      | some => exact hr
      | none => exact ⟨hr.1, List.forall_mem_cons.mpr ⟨ha, hr.2⟩⟩

end Search

end Program
