import Mathlib.Data.List.Count

/-!
# Tokens that are handed on

A token is passed from one container to the next, and each container has one owner, who adds to it
or takes from it. `Held` relates the contents of the containers to a record of where each token
is: a token is in the container that the record names, once, and in no other. Not every place
that the record can name has contents that can be inspected, so the containers that count are those
which satisfy a predicate `K`.

A step of an owner moves one token, and `Held.move` covers all of them: the first and the last move
of a token are the ones from and to a place outside `K`.
-/

namespace Custody

open List

variable {ι κ : Type*} [DecidableEq ι] [DecidableEq κ]

/-- A token is in the container where it is said to be, once, and in no other one. -/
def Held (K : κ → Prop) (contents : κ → List ι) (place : ι → κ) : Prop :=
  ∀ k, K k → ∀ i, (contents k).count i = if place i = k then 1 else 0

variable {K : κ → Prop} {c c' : κ → List ι} {p p' : ι → κ} {k k0 k1 : κ} {i : ι}

lemma Held.mem_iff (h : Held K c p) (hk : K k) : i ∈ c k ↔ p i = k := by
  rw [← count_pos_iff, h k hk i]
  split_ifs with hi <;> simp [hi]

lemma Held.congr (h : Held K c p) (hc : ∀ k, K k → c' k = c k) (hp : ∀ i, p' i = p i) :
    Held K c' p' := by
  intro k hk i
  rw [hc k hk, hp i]
  exact h k hk i

lemma Held.move (h : Held K c p) (h0 : p i = k0) (h1 : p' i = k1) (hne : k0 ≠ k1)
    (hp : ∀ j, j ≠ i → p' j = p j) (hout : K k0 → c k0 = i :: c' k0)
    (hin : K k1 → (c' k1).Perm (i :: c k1)) (hc : ∀ k, K k → k ≠ k0 → k ≠ k1 → c' k = c k) :
    Held K c' p' := by
  intro k hk j
  have hj := h k hk j
  by_cases hk0 : k = k0
  · subst hk0
    rw [hout hk] at hj
    by_cases hji : j = i
    · subst hji
      rw [count_cons_self, if_pos h0] at hj
      rw [h1, if_neg hne.symm]
      omega
    · rw [count_cons_of_ne (Ne.symm hji)] at hj
      rw [hj, hp j hji]
  · by_cases hk1 : k = k1
    · subst hk1
      rw [(hin hk).count_eq]
      by_cases hji : j = i
      · subst hji
        rw [count_cons_self, hj, if_neg (h0.trans_ne hne), if_pos h1]
      · rw [count_cons_of_ne (Ne.symm hji), hj, hp j hji]
    · rw [hc k hk hk0 hk1, hj]
      by_cases hji : j = i
      · subst hji
        rw [h0, h1, if_neg (Ne.symm hk0), if_neg (Ne.symm hk1)]
      · rw [hp j hji]

end Custody
