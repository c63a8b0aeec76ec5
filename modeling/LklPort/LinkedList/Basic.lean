import Mathlib.Data.Finset.Card

/-!
# Singly linked lists

A list of nodes that are linked through a field `next`. `Seg next s l t` says that from the pointer
`s` on the nodes of `l` follow one another, and that the last of them leads to the pointer `t`. A
whole list ends with no node.
-/

namespace LinkedList

open List

variable {α : Type*}

/-- The nodes of `l` lead from `s` to `t`. -/
def Seg (next : α → Option α) : Option α → List α → Option α → Prop
  | s, [], t => s = t
  | s, a :: l, t => s = some a ∧ Seg next (next a) l t

variable {next next' : α → Option α} {s t u : Option α} {l l' : List α} {a : α}

@[simp] lemma seg_nil : Seg next s [] t ↔ s = t := Iff.rfl

@[simp] lemma seg_cons : Seg next s (a :: l) t ↔ s = some a ∧ Seg next (next a) l t := Iff.rfl

lemma seg_append : Seg next s (l ++ l') t ↔ ∃ u, Seg next s l u ∧ Seg next u l' t := by
  induction l generalizing s with
  | nil => simp
  | cons _ _ ih => simp [ih, and_assoc]

lemma Seg.start_eq (h : Seg next s l none) : s = l.head? := by
  cases l with
  | nil => exact h
  | cons => exact h.1

lemma Seg.exists_head (h : Seg next s (l ++ [a]) t) : ∃ b ∈ l ++ [a], s = some b := by
  cases l with
  | nil => exact ⟨a, by simp, h.1⟩
  | cons b => exact ⟨b, by simp, h.1⟩

lemma Seg.congr (h : Seg next s l t) (heq : ∀ a ∈ l, next' a = next a) : Seg next' s l t := by
  induction l generalizing s with
  | nil => exact h
  | cons a _ ih =>
    refine ⟨h.1, ?_⟩
    rw [heq a mem_cons_self]
    exact ih h.2 fun b hb => heq b (mem_cons_of_mem a hb)

lemma Seg.unique (h : Seg next s l none) (h' : Seg next s l' none) : l = l' := by
  induction l generalizing s l' with
  | nil =>
    have hs := h'.start_eq
    rw [h] at hs
    exact (List.head?_eq_none_iff.1 hs.symm).symm
  | cons _ _ ih =>
    obtain ⟨rfl, hl⟩ := h
    cases l' with
    | nil => cases h'
    | cons =>
      obtain ⟨hab, hl'⟩ := h'
      cases hab
      rw [ih hl hl']

lemma Seg.nodup (h : Seg next s l none) : l.Nodup := by
  induction l generalizing s with
  | nil => exact nodup_nil
  | cons _ _ ih =>
    refine List.nodup_cons.2 ⟨fun ha => ?_, ih h.2⟩
    obtain ⟨l1, l2, rfl⟩ := append_of_mem ha
    obtain ⟨u, -, -, hl2⟩ := seg_append.1 h.2
    have hlen := congrArg List.length (h.2.unique hl2)
    simp at hlen
    omega

variable [DecidableEq α]

lemma Seg.relink (h : Seg next s (l ++ [a]) t) (ha : a ∉ l) :
    Seg (Function.update next a u) s (l ++ [a]) u := by
  obtain ⟨v, hl, hv, -⟩ := seg_append.1 h
  refine seg_append.2 ⟨v, hl.congr fun b hb => ?_, hv, Function.update_self ..⟩
  have hne : b ≠ a := fun hba => ha (hba ▸ hb)
  exact Function.update_of_ne hne ..

end LinkedList

lemma List.Nodup.length_le_of_forall_lt {l : List ℕ} {n : ℕ} (h : l.Nodup)
    (hlt : ∀ a ∈ l, a < n) : l.length ≤ n := by
  have hsub : l.toFinset ⊆ Finset.range n := fun a ha =>
    Finset.mem_range.2 (hlt a (List.mem_toFinset.1 ha))
  have hcard := Finset.card_le_card hsub
  rwa [List.toFinset_card_of_nodup h, Finset.card_range] at hcard
