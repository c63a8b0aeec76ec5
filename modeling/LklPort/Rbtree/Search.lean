import Mathlib.Order.Lattice
import LklPort.Rbtree.Balance

/-!
# Search trees

The callers of `lib/rbtree.c` keep their trees ordered by a key: they go down to the left of a
greater key and to the right of a smaller one, and link, find or unlink a node at the place where
this ends. On a balanced tree that is sorted by its keys all three do what they say.
-/

namespace LklPort.Rbtree

open List

variable {α κ : Type*} [LinearOrder κ] (key : α → κ)

/-- The way down from a place to the key `k`, or to the empty place where it would be. -/
def descend (k : κ) : Tree α → Path α → Path α × Tree α
  | .nil, p => (p, .nil)
  | .node c l a r, p =>
    if k < key a then descend k l (⟨.left, c, a, r⟩ :: p)
    else if key a < k then descend k r (⟨.right, c, a, l⟩ :: p)
    else (p, .node c l a r)

/-- The value with the key `k`. -/
def find (k : κ) (t : Tree α) : Option α :=
  match (descend key k t []).2 with
  | .nil => none
  | .node _ _ a _ => some a

/-- A new node for `a`. There is none if its key is taken. -/
def insert (a : α) (t : Tree α) : Option (Tree α) :=
  match descend key (key a) t [] with
  | (p, .nil) => rbInsert p a
  | (_, .node _ _ _ _) => none

/-- The tree without the node of the key `k`. There is none if there is no such node. -/
def erase (k : κ) (t : Tree α) : Option (Tree α) :=
  match descend key k t [] with
  | (_, .nil) => none
  | (p, .node c l a r) => rbErase p (.node c l a r)

/-- A balanced tree, sorted by its keys. -/
structure SearchTree (t : Tree α) : Prop where
  balanced : ∃ n, RB .black n t
  sorted : t.toList.Pairwise fun a b => key a < key b

variable {key} {k : κ} {t s : Tree α} {p q : Path α} {a : α}

lemma SearchTree.nil : SearchTree key (.nil : Tree α) := ⟨⟨0, .nil⟩, .nil⟩

lemma SearchTree.eq_of_key_eq (h : SearchTree key t) {b : α} (ha : a ∈ t.toList)
    (hb : b ∈ t.toList) (hab : key a = key b) : a = b := by
  obtain ⟨i, hi, rfl⟩ := List.mem_iff_getElem.1 ha
  obtain ⟨j, hj, rfl⟩ := List.mem_iff_getElem.1 hb
  have hsorted := List.pairwise_iff_getElem.1 h.sorted
  rcases Nat.lt_trichotomy i j with hij | rfl | hij
  · exact absurd hab (hsorted i j hi hj hij).ne
  · rfl
  · exact absurd hab (hsorted j i hj hi hij).ne'

/-! ### The way down -/

variable {c : Color} {l r : Tree α}

/-- What each step of the way down keeps holds at its end. -/
lemma descend_keeps {P : Tree α → Path α → Prop} (h : descend key k t p = (q, s)) (ht : P t p)
    (hleft : ∀ {c l a r p}, k < key a → P (.node c l a r) p → P l (⟨.left, c, a, r⟩ :: p))
    (hright : ∀ {c l a r p}, key a < k → P (.node c l a r) p → P r (⟨.right, c, a, l⟩ :: p)) :
    P s q := by
  induction t, p using descend.induct key k with
  | case1 =>
    cases h
    exact ht
  | case2 _ _ _ _ _ hlt ih =>
    rw [descend, if_pos hlt] at h
    exact ih h (hleft hlt ht)
  | case3 _ _ _ _ _ hlt hgt ih =>
    rw [descend, if_neg hlt, if_pos hgt] at h
    exact ih h (hright hgt ht)
  | case4 _ _ _ _ _ hlt hgt =>
    rw [descend, if_neg hlt, if_neg hgt] at h
    cases h
    exact ht

lemma plug_descend (h : descend key k t p = (q, s)) : plug q s = plug p t :=
  descend_keeps (P := fun s q => plug q s = plug p t) h rfl (fun _ => id) fun _ => id

lemma key_of_descend (h : descend key k t p = (q, .node c l a r)) : key a = k := by
  induction t, p using descend.induct key k with
  | case1 => simp [descend] at h
  | case2 _ _ _ _ _ hlt ih =>
    rw [descend, if_pos hlt] at h
    exact ih h
  | case3 _ _ _ _ _ hlt hgt ih =>
    rw [descend, if_neg hlt, if_pos hgt] at h
    exact ih h
  | case4 _ _ _ _ _ hlt hgt =>
    rw [descend, if_neg hlt, if_neg hgt, Prod.mk.injEq, Tree.node.injEq] at h
    obtain ⟨-, -, -, rfl, -⟩ := h
    exact le_antisymm (not_lt.1 hlt) (not_lt.1 hgt)

lemma before_after_descend (ht : t.toList.Pairwise fun a b => key a < key b)
    (hb : ∀ x ∈ before p, key x < k) (ha : ∀ x ∈ after p, k < key x)
    (h : descend key k t p = (q, s)) : (∀ x ∈ before q, key x < k) ∧ ∀ x ∈ after q, k < key x := by
  refine (descend_keeps (P := fun t p => t.toList.Pairwise (fun a b => key a < key b) ∧
    (∀ x ∈ before p, key x < k) ∧ ∀ x ∈ after p, k < key x) h ⟨ht, hb, ha⟩ ?_ ?_).2
  · rintro c l a r p hlt ⟨ht, hb, ha⟩
    simp only [Tree.toList, pairwise_append, pairwise_cons] at ht
    obtain ⟨hl, ⟨har, -⟩, -⟩ := ht
    refine ⟨hl, hb, ?_⟩
    simp only [after, cons_append, mem_cons, mem_append]
    rintro x (rfl | hx | hx)
    · exact hlt
    · exact hlt.trans (har x hx)
    · exact ha x hx
  · rintro c l a r p hgt ⟨ht, hb, ha⟩
    simp only [Tree.toList, pairwise_append, pairwise_cons] at ht
    obtain ⟨-, ⟨-, hr⟩, hla⟩ := ht
    refine ⟨hr, ?_, ha⟩
    simp only [before, mem_append, mem_singleton]
    rintro x (hx | hx | rfl)
    · exact hb x hx
    · exact (hla x hx a mem_cons_self).trans hgt
    · exact hgt

lemma Hole.descend {c : Color} {n : ℕ} (hp : Hole p c n) (ht : RB c n t)
    (h : Rbtree.descend key k t p = (q, s)) : ∃ c' m, Hole q c' m ∧ RB c' m s := by
  refine descend_keeps (P := fun t p => ∃ c n, Hole p c n ∧ RB c n t) h ⟨c, n, hp, ht⟩ ?_ ?_
  · rintro c l a r p - ⟨_, _, hp, ht⟩
    cases ht with
    | red hl hr => exact ⟨_, _, .red hp hr, hl⟩
    | black hl hr => exact ⟨_, _, .black hp hr, hl⟩
  · rintro c l a r p - ⟨_, _, hp, ht⟩
    cases ht with
    | red hl hr => exact ⟨_, _, .red hp hl, hr⟩
    | black hl hr => exact ⟨_, _, .black hp hl, hr⟩

/-! ### The way down from the root of a search tree -/

lemma toList_of_descend (hd : descend key k t [] = (q, s)) :
    t.toList = before q ++ s.toList ++ after q := by
  rw [← toList_plug, plug_descend hd, plug]

lemma mem_of_descend (hd : descend key k t [] = (q, .node c l a r)) : a ∈ t.toList := by
  rw [toList_of_descend hd]
  simp [Tree.toList]

namespace SearchTree

variable (h : SearchTree key t)

include h

lemma separated (hd : descend key k t [] = (q, s)) :
    (∀ x ∈ before q, key x < k) ∧ ∀ x ∈ after q, k < key x :=
  before_after_descend h.sorted (by simp [before]) (by simp [after]) hd

lemma exists_hole (hd : descend key k t [] = (q, s)) : ∃ c m, Hole q c m ∧ RB c m s := by
  obtain ⟨n, hn⟩ := h.balanced
  exact Hole.root.descend hn hd

lemma key_ne_of_nil (hd : descend key k t [] = (q, .nil)) : ∀ x ∈ t.toList, key x ≠ k := by
  obtain ⟨hb, ha⟩ := h.separated hd
  intro x hx
  rw [toList_of_descend hd, Tree.toList, append_nil, mem_append] at hx
  rcases hx with hx | hx
  · exact (hb x hx).ne
  · exact (ha x hx).ne'

/-- The search finds exactly the value with the key. -/
theorem find_eq_some : find key k t = some a ↔ a ∈ t.toList ∧ key a = k := by
  obtain ⟨⟨q, s⟩, hd⟩ : ∃ qs, descend key k t [] = qs := ⟨_, rfl⟩
  unfold find
  rw [hd]
  cases s with
  | nil =>
    have hne := h.key_ne_of_nil hd
    simp only [reduceCtorEq, false_iff, not_and]
    exact hne a
  | node =>
    have hb := mem_of_descend hd
    have hk := key_of_descend hd
    simp only [Option.some.injEq]
    constructor
    · rintro rfl
      exact ⟨hb, hk⟩
    · rintro ⟨ha, hak⟩
      exact h.eq_of_key_eq hb ha (hk.trans hak.symm)

theorem find_eq_none : find key k t = none ↔ ∀ a ∈ t.toList, key a ≠ k := by
  rw [Option.eq_none_iff_forall_ne_some]
  simp only [ne_eq, h.find_eq_some, not_and]

/-- Insertion of a new key. -/
theorem insert (ha : ∀ x ∈ t.toList, key x ≠ key a) :
    ∃ t', Rbtree.insert key a t = some t' ∧ SearchTree key t' ∧
      ∀ x, x ∈ t'.toList ↔ x = a ∨ x ∈ t.toList := by
  obtain ⟨⟨q, s⟩, hd⟩ : ∃ qs, descend key (key a) t [] = qs := ⟨_, rfl⟩
  cases s with
  | node _ _ b => exact absurd (key_of_descend hd) (ha b (mem_of_descend hd))
  | nil =>
    obtain ⟨c, m, hq, hnil⟩ := h.exists_hole hd
    cases hnil
    obtain ⟨m, t', ht', hbal⟩ := rbInsert_balanced hq a
    have hlist := toList_rbInsert ht'
    have hold := toList_of_descend hd
    obtain ⟨hbefore, hafter⟩ := h.separated hd
    refine ⟨t', by rw [Rbtree.insert, hd]; exact ht', ⟨⟨m, hbal⟩, ?_⟩, fun x => ?_⟩
    · have hsorted := h.sorted
      rw [hold, Tree.toList, append_nil, pairwise_append] at hsorted
      obtain ⟨hs1, hs2, hs12⟩ := hsorted
      rw [hlist, pairwise_append, pairwise_cons]
      refine ⟨hs1, ⟨hafter, hs2⟩, fun x hx y hy => ?_⟩
      rcases List.mem_cons.1 hy with rfl | hy
      · exact hbefore x hx
      · exact hs12 x hx y hy
    · rw [hlist, hold]
      simp only [Tree.toList, append_nil, mem_append, mem_cons]
      tauto

/-- Removal of a value. -/
theorem erase (ha : a ∈ t.toList) : ∃ t', Rbtree.erase key (key a) t = some t' ∧ SearchTree key t' ∧
      ∀ x, x ∈ t'.toList ↔ x ∈ t.toList ∧ x ≠ a := by
  obtain ⟨⟨q, s⟩, hd⟩ : ∃ qs, descend key (key a) t [] = qs := ⟨_, rfl⟩
  cases s with
  | nil => exact absurd rfl (h.key_ne_of_nil hd a ha)
  | node c l b r =>
    obtain rfl := h.eq_of_key_eq (mem_of_descend hd) ha (key_of_descend hd)
    obtain ⟨c', m, hq, hnode⟩ := h.exists_hole hd
    obtain rfl : c' = c := by cases hnode <;> rfl
    obtain ⟨m, t', ht', hbal⟩ := rbErase_balanced hq hnode
    have hlist := toList_rbErase ht'
    have hold : t.toList = before q ++ (l.toList ++ b :: r.toList) ++ after q :=
      toList_of_descend hd
    have hsub : t'.toList.Sublist t.toList := by
      rw [hlist, hold]
      exact (((sublist_cons_self b r.toList).append_left l.toList).append_left
        (before q)).append_right (after q)
    have hperm : t.toList.Perm (b :: t'.toList) := by
      rw [hlist, hold]
      simpa using @List.perm_middle _ b (before q ++ l.toList) (r.toList ++ after q)
    have hb : b ∉ t'.toList := by
      have hnodup : t.toList.Nodup := h.sorted.imp fun hlt => ne_of_apply_ne key hlt.ne
      exact (List.nodup_cons.1 (hperm.nodup_iff.1 hnodup)).1
    refine ⟨t', by rw [Rbtree.erase, hd]; exact ht', ⟨⟨m, hbal⟩, h.sorted.sublist hsub⟩,
      fun x => ?_⟩
    rw [hperm.mem_iff, mem_cons]
    constructor
    · intro hx
      exact ⟨.inr hx, fun hxb => hb (hxb ▸ hx)⟩
    · rintro ⟨rfl | hx, hne⟩
      · exact absurd rfl hne
      · exact hx

end SearchTree

end LklPort.Rbtree
