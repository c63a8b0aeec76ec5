import LklPort.Machine.Basic
import Mathlib.Data.List.Nodup

/-!
# Threads that share a state

The threads of a program share a state, and each of them is at a place of its own. `exec` says what
a thread at a place does, and the machine of the program interleaves the threads.

An `Outline` assigns an assertion to every place. It holds in every interleaving if a step leads
from one assertion to the next one, and no step of another thread makes an assertion false. What
is not a matter of a single thread can be stated with a `Roster`: a list of the threads which
satisfy a predicate, each of them once.
-/

/-- What a thread at a place does: an action leads to a new shared state and a new place. -/
structure Interleaving (M T P A : Type*) where
  exec : M → T → P → A → Option (M × P)

namespace Interleaving

open List

structure State (M T P : Type*) where
  shared : M
  pc : T → P

variable {M T P A : Type*} [DecidableEq T]

/-- The thread `t` goes to `p` and leaves `m` behind. -/
def State.set (s : State M T P) (m : M) (t : T) (p : P) : State M T P :=
  ⟨m, Function.update s.pc t p⟩

@[simp] lemma State.shared_set (s : State M T P) (m : M) (t : T) (p : P) :
    (s.set m t p).shared = m := rfl

@[simp] lemma State.pc_set_self (s : State M T P) (m : M) (t : T) (p : P) :
    (s.set m t p).pc t = p := by
  simp only [State.set, Function.update_self]

@[simp] lemma State.pc_set_of_ne (s : State M T P) (m : M) {t x : T} (p : P) (h : x ≠ t) :
    (s.set m t p).pc x = s.pc x := by
  simp only [State.set, Function.update_of_ne h]

/-- All threads start at `p`. -/
def machine (I : Interleaving M T P A) (m : M) (p : P) : Machine (State M T P) (T × A) where
  init := ⟨m, fun _ => p⟩
  guard s a := (I.exec s.shared a.1 (s.pc a.1) a.2).isSome = true
  next s a :=
    match I.exec s.shared a.1 (s.pc a.1) a.2 with
    | some (m, p) => s.set m a.1 p
    | none => s

instance (I : Interleaving M T P A) (m : M) (p : P) (s : State M T P) (a : T × A) :
    Decidable ((I.machine m p).guard s a) :=
  inferInstanceAs (Decidable (_ = true))

variable {I : Interleaving M T P A} {m0 : M} {p0 : P}

lemma exists_exec {s : State M T P} {a : T × A} (h : (I.machine m0 p0).guard s a) :
    ∃ m p, I.exec s.shared a.1 (s.pc a.1) a.2 = some (m, p) ∧
      (I.machine m0 p0).next s a = s.set m a.1 p := by
  obtain ⟨⟨m, p⟩, hexec⟩ := Option.isSome_iff_exists.1 h
  exact ⟨m, p, hexec, by simp only [machine, hexec]⟩

/-! ### Outlines -/

/-- An assertion `L` for each place, and one for the shared state, that all steps keep. -/
structure Outline (I : Interleaving M T P A) (G : M → Prop) (L : M → T → P → Prop) : Prop where
  own : ∀ {m t p a m' p'}, I.exec m t p a = some (m', p') → G m → L m t p → G m' ∧ L m' t p'
  other : ∀ {m t p a m' p'}, I.exec m t p a = some (m', p') → G m → L m t p →
    ∀ {x q}, x ≠ t → L m x q → L m' x q

/-- The assertions of an outline hold in every interleaving. -/
theorem Outline.holds {G : M → Prop} {L : M → T → P → Prop} (h : I.Outline G L) (hG : G m0)
    (hL : ∀ t, L m0 t p0) {s : State M T P} (hs : (I.machine m0 p0).Reachable s) :
    G s.shared ∧ ∀ t, L s.shared t (s.pc t) := by
  refine hs.invariant (I := fun s => G s.shared ∧ ∀ t, L s.shared t (s.pc t)) ⟨hG, hL⟩
    fun s a hs ha => ?_
  obtain ⟨m, p, hexec, hnext⟩ := exists_exec ha
  obtain ⟨hG', hL'⟩ := h.own hexec hs.1 (hs.2 a.1)
  rw [hnext]
  refine ⟨hG', fun x => ?_⟩
  by_cases hx : x = a.1
  · subst hx
    rwa [State.shared_set, State.pc_set_self]
  · rw [State.shared_set, State.pc_set_of_ne _ _ _ hx]
    exact h.other hexec hs.1 (hs.2 a.1) hx (hs.2 x)

/-! ### Rosters -/

/-- The threads that satisfy `R`, each of them once. -/
def Roster (R : M → T → P → Prop) (s : State M T P) (l : List T) : Prop :=
  l.Nodup ∧ ∀ t, t ∈ l ↔ R s.shared t (s.pc t)

variable {R : M → T → P → Prop} {s : State M T P} {l : List T} {m : M} {t : T} {p : P}

section

variable (h : Roster R s l)

include h

lemma Roster.keep (hown : R m t p ↔ R s.shared t (s.pc t))
    (hother : ∀ x, x ≠ t → (R m x (s.pc x) ↔ R s.shared x (s.pc x))) :
    Roster R (s.set m t p) l := by
  refine ⟨h.1, fun x => (h.2 x).trans ?_⟩
  by_cases hx : x = t
  · subst hx
    rw [State.shared_set, State.pc_set_self, hown]
  · rw [State.shared_set, State.pc_set_of_ne _ _ _ hx, hother x hx]

lemma Roster.join (hnot : ¬ R s.shared t (s.pc t)) (hown : R m t p)
    (hother : ∀ x, x ≠ t → (R m x (s.pc x) ↔ R s.shared x (s.pc x))) :
    Roster R (s.set m t p) (t :: l) := by
  refine ⟨List.nodup_cons.2 ⟨fun ht => hnot ((h.2 t).1 ht), h.1⟩, fun x => ?_⟩
  rw [mem_cons]
  by_cases hx : x = t
  · subst hx
    rw [State.shared_set, State.pc_set_self]
    exact iff_of_true (.inl rfl) hown
  · rw [State.shared_set, State.pc_set_of_ne _ _ _ hx, hother x hx, ← h.2 x]
    exact or_iff_right hx

lemma Roster.replace (hown : ¬ R m t p) {ws : List T} (hws : ws.Nodup)
    (hnew : ∀ w ∈ ws, w ≠ t ∧ ¬ R s.shared w (s.pc w))
    (hother : ∀ x, x ≠ t → (R m x (s.pc x) ↔ x ∈ ws ∨ R s.shared x (s.pc x))) :
    Roster R (s.set m t p) (ws ++ l.erase t) := by
  refine ⟨hws.append (h.1.erase t) fun x hx hx' => ?_, fun x => ?_⟩
  · exact (hnew x hx).2 ((h.2 x).1 (mem_of_mem_erase hx'))
  · rw [mem_append, h.1.mem_erase_iff]
    by_cases hx : x = t
    · subst hx
      rw [State.shared_set, State.pc_set_self]
      exact iff_of_false (fun hx => hx.elim (fun hx => (hnew x hx).1 rfl) fun hx => hx.1 rfl) hown
    · rw [State.shared_set, State.pc_set_of_ne _ _ _ hx, hother x hx, ← h.2 x]
      exact or_congr_right (and_iff_right hx)

lemma Roster.leave (hown : ¬ R m t p)
    (hother : ∀ x, x ≠ t → (R m x (s.pc x) ↔ R s.shared x (s.pc x))) :
    Roster R (s.set m t p) (l.erase t) :=
  h.replace hown nodup_nil (by simp) fun x hx => by
    rw [hother x hx]
    exact ⟨.inr, fun h => h.resolve_left not_mem_nil⟩

end

end Interleaving
