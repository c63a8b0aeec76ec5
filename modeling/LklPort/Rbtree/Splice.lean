import LklPort.Rbtree.Steps

/-!
# Removal of a node with two children

The next node in order leaves its place below the right child and takes over the place of the node
that is removed. In memory the two happen at once. Here the memory is compared with the one in which
only the first has happened.
-/

namespace LklPort.Rbtree.Heap

open Program List

open LklPort.Rbtree.Tree (mk)

variable {m : Mem} {p q : Path Ptr} {l child : Tree Ptr} {a s : Ptr} {c c' : Color}

lemma leftmost_side {t : Tree Ptr} (h : leftmost t p = some (c', s, child, q)) :
    q = p ∨ (q ≠ [] ∧ side q = .left) := by
  induction t, p using leftmost.induct with
  | case1 => simp [leftmost] at h
  | case2 =>
    simp only [leftmost, Option.some.injEq, Prod.mk.injEq] at h
    exact .inl h.2.2.2.symm
  | case3 _ _ _ _ _ _ _ _ ih =>
    rw [leftmost] at h
    rcases ih h with rfl | hq
    · exact .inr ⟨by simp, rfl⟩
    · exact .inr hq

/-- The place of the successor of `a`, and the nodes around it. -/
structure Successor (m : Mem) (p : Path Ptr) (c : Color) (l : Tree Ptr) (a : Ptr) (q : Path Ptr)
    (c' : Color) (s : Ptr) (child : Tree Ptr) : Prop where
  place : Place m (q ++ ⟨.right, c, a, l⟩ :: p) (.node c' .nil s child)
  left : q = [] ∨ (q ≠ [] ∧ side q = .left)

/-- The memory in which the successor has left its place, and no more. -/
def Mem.without (m : Mem) (p : Path Ptr) (child : Ptr) : Mem :=
  (m.reparented child (above p)).relinked p child

namespace Successor

variable (h : Successor m p c l a q c' s child)

include h

lemma nodup : (s :: (child.toList ++ nodes q ++ a :: (l.toList ++ nodes p))).Nodup := by
  have hn := h.place.nodup_mk (d := .left)
  simpa only [Tree.toList, nil_append, nodes_append, nodes, ← append_assoc] using hn

lemma place_without : Place (m.without (q ++ ⟨.right, c, a, l⟩ :: p) (ptr child)) p
    (.node c l a (plug q child)) := by
  have hplace := (h.place.unlink (d := .left)).2
  rwa [place_append, place_cons] at hplace

lemma place_self : Place m p (.node c l a (plug q (.node c' .nil s child))) := by
  have hplace := h.place
  rwa [place_append, place_cons] at hplace

lemma good : Good s := h.place.good (d := .left)

lemma without_node {e : Ptr} (he : e ≠ 0) (hec : e ∉ child.toList)
    (hep : e ≠ above (q ++ ⟨.right, c, a, l⟩ :: p)) :
    (m.without (q ++ ⟨.right, c, a, l⟩ :: p) (ptr child)).node e = m.node e := by
  obtain ⟨-, -, -, hchild⟩ := h.place.tree
  rw [Mem.without, relinked_node_of_ne hep, reparented_node he, if_neg (ne_ptr hchild he hec)]

end Successor

/-- What the memory is after `pullOut`. -/
structure PulledOut (m : Mem) (p : Path Ptr) (c : Color) (l : Tree Ptr) (a : Ptr) (q : Path Ptr)
    (s : Ptr) (child : Tree Ptr) (m' : Mem) : Prop where
  path : ∀ e ∈ nodes p, m'.node e = (m.relinked p s).node e
  root : m'.root = (m.relinked p s).root
  left : ∀ e ∈ l.toList, m'.node e = m.node e
  self : m'.node a = m.node a
  right : (m'.node s).right = ptr (plug q child)
  rest : ∀ e ∈ (plug q child).toList, m'.node e =
    if e = ptr (plug q child) then
      ((m.without (q ++ ⟨.right, c, a, l⟩ :: p) (ptr child)).node e).setParent s
    else (m.without (q ++ ⟨.right, c, a, l⟩ :: p) (ptr child)).node e

namespace Successor

variable (h : Successor m p c l a q c' s child)

include h

lemma pullOut_nil (hq : q = []) :
    Ends (pullOut s a (ptr child) (above (q ++ ⟨.right, c, a, l⟩ :: p))) (m.relinked p s)
      fun r m' => r = above (q ++ ⟨.right, c, s, l⟩ :: p) ∧ PulledOut m p c l a q s child m' := by
  subst hq
  obtain ⟨hs, hrs, -, hchild⟩ := h.place.tree
  obtain ⟨ha, -, hl, hp⟩ := h.place.path
  have hn := h.nodup
  rw [nodes, append_nil] at hn
  simp only [nodup_cons, nodup_append, mem_append, mem_cons, not_or] at hn
  obtain ⟨⟨-, -, -, hsp⟩, -, ⟨⟨-, hap⟩, -, -, hlp⟩, hc⟩ := hn
  refine ⟨s, m.relinked p s, .ite_pos rfl (.pure s _), rfl, fun _ _ => rfl, rfl, ?_, ?_, ?_, ?_⟩
  · intro e he
    exact relinked_node (hl.good he).ne_zero fun hep => hlp _ he _ hep rfl
  · exact relinked_node ha.ne_zero hap
  · rw [relinked_node hs.ne_zero hsp, hrs]
    rfl
  · intro e he
    have he0 := (hchild.good he).ne_zero
    have hea : e ≠ a := hc _ he _ (.inl rfl)
    have hep : e ∉ nodes p := fun hep => hc _ he _ (.inr (.inr hep)) rfl
    have hwithout : (m.without ([] ++ ⟨.right, c, a, l⟩ :: p) (ptr child)).node e =
        if e = ptr child then (m.node e).setParent a else m.node e := by
      rw [Mem.without, relinked_node_of_ne hea]
      exact reparented_node he0
    rw [relinked_node he0 hep, hwithout, plug]
    split_ifs with heq
    · -- the parent of the child was the successor already
      cases child with
      | nil => simp [plug, Tree.toList] at he
      | node =>
        obtain ⟨-, hrec, -⟩ := hchild
        rw [heq, ptr, hrec, of_setParent hs.aligned, of_setParent ha.aligned]
    · rfl

lemma pullOut_cons (hq : q ≠ []) (hside : side q = .left) :
    Ends (pullOut s a (ptr child) (above (q ++ ⟨.right, c, a, l⟩ :: p))) (m.relinked p s)
      fun r m' => r = above (q ++ ⟨.right, c, s, l⟩ :: p) ∧ PulledOut m p c l a q s child m' := by
  obtain ⟨w, q, rfl⟩ := exists_cons_of_ne_nil hq
  have hdir : w.dir = .left := hside
  obtain ⟨hs, hrs, -, hchild⟩ := h.place.tree
  obtain ⟨ha, hra, hl, hr⟩ := h.place_self.tree
  have hpath := h.place.path
  have hp : PathLayout m.node a p := h.place_self.path
  have hw : Good w.val := hpath.1
  have hn := h.nodup
  simp only [nodup_cons, nodup_append, mem_append, mem_cons, not_or] at hn
  obtain ⟨⟨⟨hsc, hsq⟩, hsa, hsl, hsp⟩, ⟨-, -, hcq⟩, ⟨⟨hal, hap⟩, -, -, hlp⟩, hrest⟩ := hn
  have hwq : w.val ∈ nodes (w :: q) := by simp [nodes]
  have htop : top (w :: q) s ∈ nodes (w :: q) := top_mem (by simp) s
  have hst : top (w :: q) s ≠ s := ne_of_mem_of_not_mem htop hsq
  have hgood : Good (top (w :: q) s) :=
    hpath.good (by rw [nodes_append]; exact mem_append_left _ htop)
  obtain ⟨m1, hm1⟩ : ∃ m1, m1 = ((m.relinked p s).reparented (ptr child) w.val).update w.val
    (RbNode.setChild .left (ptr child)) := ⟨_, rfl⟩
  obtain ⟨m2, hm2⟩ : ∃ m2, m2 = (m1.update s (RbNode.setChild .right (top (w :: q) s))).update
    (top (w :: q) s) (RbNode.setParent s) := ⟨_, rfl⟩
  have h1 : ∀ e, e ≠ 0 → e ∉ child.toList → e ∉ nodes (w :: q) →
      m1.node e = (m.relinked p s).node e := by
    intro e he hec heq
    have hew : e ≠ w.val := (ne_of_mem_of_not_mem hwq heq).symm
    rw [hm1, update_node, if_neg hew, reparented_node he, if_neg (ne_ptr hchild he hec)]
  have h2 : ∀ e, e ≠ s → e ≠ top (w :: q) s → m2.node e = m1.node e := by
    intro e hes het
    rw [hm2, update_node, if_neg het, update_node, if_neg hes]
  -- what is neither below the right child nor the successor
  have haway : ∀ e, e ≠ 0 → e ≠ s → e ∉ child.toList → e ∉ nodes (w :: q) →
      m2.node e = (m.relinked p s).node e := by
    intro e he hes hec heq
    rw [h2 e hes (ne_of_mem_of_not_mem htop heq).symm, h1 e he hec heq]
  have hself : m1.node a = m.node a := by
    rw [h1 a ha.ne_zero (fun hac => hrest _ (.inl hac) _ (.inl rfl) rfl)
      fun haq => hrest _ (.inr haq) _ (.inl rfl) rfl]
    exact relinked_node ha.ne_zero hap
  refine ⟨_, m2, ?_, rfl, ?_, ?_, ?_, ?_, ?_, ?_⟩
  · have hwa : w.val ≠ a := hrest _ (.inr hwq) _ (.inl rfl)
    have hright := child_flip_runs ha.ne_zero (hself.trans hra)
    rw [ptr_plug, ptr] at hright
    refine .ite_neg hwa (.bind (reparent_runs _ _ _) (.bind (store_runs hw.ne_zero _ _) ?_))
    show Runs _ (((m.relinked p s).reparented (ptr child) w.val).update w.val
      (RbNode.setChild .left (ptr child))) _ _
    rw [← hm1]
    refine .bind hright (.bind (store_runs hs.ne_zero _ m1)
      (.bind (store_runs hgood.ne_zero _ _) ?_))
    rw [← hm2]
    exact .pure _ m2
  · intro e he
    exact haway e (hp.good he).ne_zero (ne_of_mem_of_not_mem he hsp)
      (fun hec => hrest _ (.inl hec) _ (.inr (.inr he)) rfl)
      fun heq => hrest _ (.inr heq) _ (.inr (.inr he)) rfl
  · rw [hm2, hm1]
    exact reparented_root _ _ _
  · intro e he
    rw [haway e (hl.good he).ne_zero]
    · exact relinked_node (hl.good he).ne_zero fun hep => hlp _ he _ hep rfl
    · exact ne_of_mem_of_not_mem he hsl
    · exact fun hec => hrest _ (.inl hec) _ (.inr (.inl he)) rfl
    · exact fun heq => hrest _ (.inr heq) _ (.inr (.inl he)) rfl
  · rw [h2 a (Ne.symm hsa) (by rintro rfl; exact hrest _ (.inr htop) _ (.inl rfl) rfl), hself]
  · rw [hm2, update_node, if_neg hst.symm, update_node, if_pos rfl, ptr_plug]
    rfl
  · intro e he
    have hmem := toList_plug_perm.mem_iff.mp he
    rw [mem_append] at hmem
    have hes : e ≠ s := by
      rintro rfl
      tauto
    have he0 := (h.place_without.tree.2.2.2.good he).ne_zero
    have hep : ∀ e', e' ∈ child.toList ∨ e' ∈ nodes (w :: q) → e' ∉ nodes p :=
      fun e' he' hep => hrest _ he' _ (.inr (.inr hep)) rfl
    have hwithout : (m.without ((w :: q) ++ ⟨.right, c, a, l⟩ :: p) (ptr child)).node e =
        m1.node e := by
      have hsame : ∀ e', e' ≠ 0 → e' ∈ child.toList ∨ e' ∈ nodes (w :: q) →
          ((m.relinked p s).reparented (ptr child) w.val).node e' =
            (m.reparented (ptr child) w.val).node e' := by
        intro e' he' hmem'
        rw [reparented_node he', reparented_node he', relinked_node he' (hep e' hmem')]
      rw [hm1]
      show ((m.reparented (ptr child) w.val).update w.val (RbNode.setChild w.dir _)).node e = _
      rw [hdir, update_node, update_node, hsame e he0 hmem, hsame w.val hw.ne_zero (.inr hwq)]
    rw [hwithout, ptr_plug, ← top_cons w q s, hm2, update_node]
    split_ifs with heq
    · rw [update_node, if_neg hst, heq]
    · rw [update_node, if_neg hes]

lemma pullOut :
    Ends (pullOut s a (ptr child) (above (q ++ ⟨.right, c, a, l⟩ :: p))) (m.relinked p s)
      fun r m' => r = above (q ++ ⟨.right, c, s, l⟩ :: p) ∧ PulledOut m p c l a q s child m' := by
  rcases h.left with hq | ⟨hq, hside⟩
  · exact h.pullOut_nil hq
  · exact h.pullOut_cons hq hside

lemma splice {m1 : Mem} (hm1 : PulledOut m p c l a q s child m1) :
    Place (((m1.update s fun x => { x with parentColor := (m.node a).parentColor }).update s
        (RbNode.setChild .left (ptr l))).update (ptr l) (RbNode.setParent s))
      (q ++ ⟨.right, c, s, l⟩ :: p) child := by
  obtain ⟨ha, hra, hl, -⟩ := h.place_self.tree
  obtain ⟨-, hwa, hwl, hwr⟩ := h.place_without.tree
  have hp : PathLayout m.node a p := h.place_self.path
  have hs := h.good
  have hn := h.nodup
  simp only [nodup_cons, nodup_append, mem_append, mem_cons, not_or] at hn
  obtain ⟨⟨⟨hsc, hsq⟩, hsa, hsl, hsp⟩, -, ⟨⟨hal, hap⟩, -, -, hlp⟩, hrest⟩ := hn
  obtain ⟨m', hm'⟩ : ∃ m', m' = ((m1.update s fun x =>
      { x with parentColor := (m.node a).parentColor }).update s
      (RbNode.setChild .left (ptr l))).update (ptr l) (RbNode.setParent s) := ⟨_, rfl⟩
  have hframe : ∀ e, e ≠ s → e ≠ ptr l → m'.node e = m1.node e := by
    intro e hes hel
    rw [hm', update_node, if_neg hel, update_node, if_neg hes, update_node, if_neg hes]
  -- the memory in which the successor has left its place is the old one around the node
  have habove : above (q ++ ⟨.right, c, a, l⟩ :: p) ∈ nodes q ∨
      above (q ++ ⟨.right, c, a, l⟩ :: p) = a := by
    cases q with
    | nil => exact .inr rfl
    | cons => exact .inl (by simp [above, nodes])
  have hwithout : ∀ e, e ≠ 0 → e ∈ l.toList ∨ e ∈ nodes p →
      (m.without (q ++ ⟨.right, c, a, l⟩ :: p) (ptr child)).node e = m.node e := by
    intro e he hmem
    apply h.without_node he
    · exact fun hec => hrest _ (.inl hec) _ (.inr hmem) rfl
    · rintro rfl
      rcases habove with hq | heq
      · exact hrest _ (.inr hq) _ (.inr hmem) rfl
      · rw [heq] at hmem
        tauto
  rw [← hm', place_append, place_cons]
  refine h.place_without.renamed hs ?_ ?_ ?_ ?_ ?_ ?_
  · simp only [mem_append, not_or, toList_plug_perm.mem_iff]
    exact ⟨⟨hsl, hsc, hsq⟩, hsp⟩
  · intro e he
    have he0 := (hp.good he).ne_zero
    rw [hframe e (ne_of_mem_of_not_mem he hsp)
      (ne_ptr hl he0 fun hel => hlp _ hel _ he rfl), hm1.path e he]
    exact relinked_congr (hwithout e he0 (.inr he)).symm s
  · rw [hm']
    show m1.root = _
    rw [hm1.root, relinked_root, relinked_root, Mem.without, relinked_root, reparented_root]
    simp
  · rw [hm', update_node, if_neg (ne_ptr hl hs.ne_zero hsl), update_node, if_pos rfl, update_node,
      if_pos rfl, hwa, hra, of_parentColor]
    rw [hm1.right]
    rfl
  · intro e he
    have he0 := (hl.good he).ne_zero
    rw [hwithout e he0 (.inl he)]
    have hes : e ≠ s := ne_of_mem_of_not_mem he hsl
    split_ifs with heq
    · rw [hm', heq, update_node, if_pos rfl, ← heq, update_node, if_neg hes, update_node,
        if_neg hes, hm1.left e he]
    · rw [hframe e hes heq, hm1.left e he]
  · intro e he
    have he0 := (hwr.good he).ne_zero
    have hmem := toList_plug_perm.mem_iff.mp he
    rw [mem_append] at hmem
    rw [hframe e (by rintro rfl; tauto)
      (ne_ptr hl he0 fun hel => hrest _ hmem _ (.inr (.inl hel)) rfl), hm1.rest e he]

end Successor

end LklPort.Rbtree.Heap
