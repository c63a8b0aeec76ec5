import LklPort.Rbtree.Layout

/-!
# The primitive operations on places
-/

namespace LklPort.Rbtree.Heap

open Program List

open LklPort.Rbtree.Tree (mk)

variable {m m' : Mem} {p : Path Ptr} {t x y z : Tree Ptr} {a b par e : Ptr} {c c' : Color} {d : Dir}

/-! ### Reading and writing -/

lemma update_node (m : Mem) (a : Ptr) (f : RbNode → RbNode) (e : Ptr) :
    (m.update a f).node e = if e = a then f (m.node a) else m.node e :=
  Function.update_apply _ _ _ _

lemma load_runs (h : a ≠ 0) (m : Mem) : Runs (load a) m (m.node a) m :=
  .ite_neg h (.bind (.read m) (.pure _ m))

lemma store_runs (h : a ≠ 0) (f : RbNode → RbNode) (m : Mem) :
    Runs (store a f) m () (m.update a f) :=
  .ite_neg h (.write _ m)

lemma root_runs (m : Mem) : Runs root m m.root m := .bind (.read m) (.pure _ m)

section Record

variable {u v : Ptr} (ha : a ≠ 0) (hrec : m.node a = RbNode.of d (pack par c) u v)

include ha hrec

lemma child_runs : Runs (child d a) m u m := by
  refine .bind (load_runs ha m) ?_
  rw [hrec, of_child]
  exact .pure u m

lemma child_flip_runs : Runs (child d.flip a) m v m := by
  refine .bind (load_runs ha m) ?_
  rw [hrec, of_child_flip]
  exact .pure v m

variable (hpar : Aligned par)

include hpar

lemma rbParent_runs : Runs (rbParent a) m par m := by
  refine .bind (load_runs ha m) ?_
  rw [hrec, of_parentColor, pack_parent hpar]
  exact .pure par m

lemma rbColor_runs : Runs (rbColor a) m (bit c) m := by
  refine .bind (load_runs ha m) ?_
  rw [hrec, of_parentColor, pack_color hpar]
  exact .pure (bit c) m

lemma rbIsRed_runs : Runs (rbIsRed a) m (decide (c = .red)) m := by
  refine .bind (rbColor_runs ha hrec hpar) ?_
  have hred : decide (bit c = 0) = decide (c = .red) := by cases c <;> rfl
  rw [hred]
  exact .pure _ m

end Record

lemma redAt_runs (ht : Layout m.node par t) (hpar : Aligned par) :
    Runs (redAt (ptr t)) m t.isRed m := by
  cases t with
  | nil => exact .ite_pos rfl (.pure false m)
  | node c l a r =>
    have hred : (Tree.node c l a r).isRed = decide (c = .red) := by cases c <;> rfl
    rw [hred]
    exact .ite_neg ht.1.ne_zero (rbIsRed_runs ht.1.ne_zero ht.2.1 hpar)

/-- The memory after `reparent`. -/
def Mem.reparented (m : Mem) (u par : Ptr) : Mem :=
  if u = 0 then m else m.update u (RbNode.setParent par)

lemma reparent_runs (m : Mem) (u par : Ptr) : Runs (reparent u par) m () (m.reparented u par) := by
  unfold reparent Mem.reparented
  split_ifs with hu
  · exact .pure () m
  · exact store_runs hu _ m

lemma reparented_root (m : Mem) (u par : Ptr) : (m.reparented u par).root = m.root := by
  unfold Mem.reparented
  split_ifs <;> rfl

lemma reparented_node {u : Ptr} (he : e ≠ 0) :
    (m.reparented u par).node e = if e = u then (m.node e).setParent par else m.node e := by
  unfold Mem.reparented
  split_ifs with hu heu heu
  · exact absurd (heu.trans hu) he
  · rfl
  · rw [update_node, if_pos heu, heu]
  · rw [update_node, if_neg heu]

/-- The memory after `relink`. -/
def Mem.relinked (m : Mem) (p : Path Ptr) (new : Ptr) : Mem :=
  match p with
  | [] => { m with root := new }
  | q :: _ => m.update q.val (RbNode.setChild q.dir new)

lemma relinked_root (m : Mem) (new : Ptr) (p : Path Ptr) :
    (m.relinked p new).root = if p = [] then new else m.root := by
  cases p <;> rfl

lemma relinked_node_self (m : Mem) (new : Ptr) {p : Path Ptr} (h : p ≠ []) :
    (m.relinked p new).node (above p) = (m.node (above p)).setChild (side p) new := by
  cases p with
  | nil => exact absurd rfl h
  | cons q =>
    show (m.update q.val _).node q.val = _
    rw [update_node, if_pos rfl]
    rfl

lemma relinked_node_of_ne {new : Ptr} (h : e ≠ above p) : (m.relinked p new).node e = m.node e := by
  cases p with
  | nil => rfl
  | cons q =>
    exact (update_node m q.val _ e).trans (if_neg h)

lemma ne_above (he : e ≠ 0) (hep : e ∉ nodes p) : e ≠ above p := by
  rintro rfl
  refine hep (above_mem fun hnil => he ?_)
  rw [hnil]
  rfl

lemma relinked_node {new : Ptr} (he : e ≠ 0) (hep : e ∉ nodes p) :
    (m.relinked p new).node e = m.node e := relinked_node_of_ne (ne_above he hep)

lemma relink_runs {old : Ptr} (hp : PathLayout m.node old p) (hold : old ≠ 0)
    (hne : old ∉ nodes p) (d : Dir) (new : Ptr) :
    Runs (relink d old new (above p)) m () (m.relinked p new) := by
  cases p with
  | nil => exact .ite_pos rfl (.write _ m)
  | cons q =>
    obtain ⟨hq, hrec, ho, hp⟩ := hp
    refine .ite_neg hq.ne_zero ?_
    by_cases hd : d = q.dir
    · subst hd
      exact .bind (child_runs hq.ne_zero hrec) (.ite_pos rfl (store_runs hq.ne_zero _ m))
    · have hside : d.flip = q.dir := (eq_flip_of_ne (Ne.symm hd)).symm
      rw [eq_flip_of_ne hd]
      refine .bind (child_flip_runs hq.ne_zero hrec) (.ite_neg ?_ ?_)
      · intro heq
        apply hne
        have hmem := ptr_mem ho (by rw [heq]; exact hold)
        rw [heq] at hmem
        simp [nodes, hmem]
      · rw [← eq_flip_of_ne hd, hside]
        exact store_runs hq.ne_zero _ m

/-! ### Colours -/

section Places

section

variable (h : Place m p (mk d c x a y))

include h

lemma Place.good : Good a := (layout_mk.mp h.tree).1

lemma Place.record :
    m.node a = RbNode.of d (pack (above p) c) (ptr x) (ptr y) := (layout_mk.mp h.tree).2.1

omit h in
lemma Place.aligned (h : Place m p t) : Aligned (above p) := aligned_above h.path

lemma Place.parent_runs : Runs (rbParent a) m (above p) m :=
  rbParent_runs h.good.ne_zero h.record h.aligned

lemma Place.color_runs : Runs (rbColor a) m (bit c) m :=
  rbColor_runs h.good.ne_zero h.record h.aligned

end

lemma Place.redAt_runs (h : Place m p t) : Runs (redAt (ptr t)) m t.isRed m :=
  Heap.redAt_runs h.tree h.aligned

section

variable (h : Place m p (mk d c x a y))

include h

lemma Place.child_runs : Runs (child d a) m (ptr x) m := Heap.child_runs h.good.ne_zero h.record

lemma Place.child_flip_runs : Runs (child d.flip a) m (ptr y) m :=
  Heap.child_flip_runs h.good.ne_zero h.record

lemma Place.nodup_mk : (a :: (x.toList ++ y.toList ++ nodes p)).Nodup :=
  (toList_mk_perm.append_right _).nodup_iff.mp h.nodup

lemma Place.recolor {f : RbNode → RbNode}
    (hf : f (m.node a) = RbNode.of d (pack (above p) c') (ptr x) (ptr y)) :
    Runs (store a f) m () (m.update a f) ∧ Place (m.update a f) p (mk d c' x a y) := by
  obtain ⟨ha, hrec, hx, hy⟩ := layout_mk.mp h.tree
  have hn := h.nodup_mk
  rw [nodup_cons] at hn
  have hother : ∀ e, e ≠ a → (m.update a f).node e = m.node e := by
    intro e he
    rw [update_node, if_neg he]
  refine ⟨store_runs ha.ne_zero f m, ?_, layout_mk.mpr ⟨ha, ?_, hx.congr ?_, hy.congr ?_⟩, ?_, ?_⟩
  · rw [ptr_mk]
    have hp := h.path
    rw [ptr_mk] at hp
    exact hp.congr fun e he => hother e (by rintro rfl; exact hn.1 (by simp [he]))
  · rw [update_node, if_pos rfl, hf]
  · exact fun e he => hother e (by rintro rfl; exact hn.1 (by simp [he]))
  · exact fun e he => hother e (by rintro rfl; exact hn.1 (by simp [he]))
  · have hroot := h.root
    rw [ptr_mk] at hroot ⊢
    exact hroot
  · exact ((toList_mk_perm.trans toList_mk_perm.symm).append_right _).nodup_iff.mp h.nodup

lemma Place.setRed : Ends (rbSetRed a) m fun _ m' => Place m' p (mk d .red x a y) := by
  refine ⟨(), _, h.recolor ?_⟩
  rw [h.record, of_parentColor, pack_setRed h.aligned]
  cases d <;> rfl

lemma Place.setBlack : Ends (rbSetBlack a) m fun _ m' => Place m' p (mk d .black x a y) := by
  refine ⟨(), _, h.recolor ?_⟩
  rw [h.record, of_parentColor, pack_setBlack]
  cases d <;> rfl

lemma Place.setColor (c' : Color) :
    Ends (rbSetColor a (bit c')) m fun _ m' => Place m' p (mk d c' x a y) := by
  refine ⟨(), _, h.recolor ?_⟩
  rw [h.record, of_parentColor, pack_setColor h.aligned]
  cases d <;> rfl

end

end Places

/-! ### The place of a pointer -/

lemma top_cons (q : Crumb Ptr) (p : Path Ptr) (u v : Ptr) : top (q :: p) u = top (q :: p) v := rfl

lemma Place.relinked (m0 : Mem) {u : Ptr} (hp : PathLayout m0.node u p) (hroot : m0.root = top p u)
    (hpath : ∀ e ∈ nodes p, m.node e = (m0.relinked p (ptr t)).node e)
    (hmroot : m.root = (m0.relinked p (ptr t)).root) (ht : Layout m.node (above p) t)
    (hn : (t.toList ++ nodes p).Nodup) : Place m p t := by
  refine ⟨hp.relink (List.nodup_append.mp hn).2.1 fun e he => ?_, ht, ?_, hn⟩
  · rw [hpath e he]
    split_ifs with heq
    · rw [heq]
      refine relinked_node_self _ _ fun hnil => ?_
      simp [hnil, nodes] at he
    · exact relinked_node_of_ne heq
  · rw [hmroot]
    cases p with
    | nil => rfl
    | cons q p => exact hroot.trans (top_cons q p _ _)

/-! ### Rotations -/

/-- The memory after a rotation of `a` at the place `p`, where `b` is above the subtree `y`. -/
def Mem.rotated (m : Mem) (d : Dir) (p : Path Ptr) (a b y : Ptr) : Mem :=
  (((((m.update a (RbNode.setChild d.flip y)).reparented y a).update b
    (RbNode.setChild d a)).update b (RbNode.setParent (above p))).relinked p b).update a
    (RbNode.setParent b)

section Rotated

variable {u v y : Ptr} (hab : a ≠ b)

lemma relinked_congr {m1 m2 : Mem} (h : m1.node e = m2.node e) (new : Ptr) :
    (m1.relinked p new).node e = (m2.relinked p new).node e := by
  by_cases he : e = above p
  · cases p with
    | nil => exact h
    | cons =>
      subst he
      rw [relinked_node_self _ _ (by simp), relinked_node_self _ _ (by simp), h]
  · rw [relinked_node_of_ne he, relinked_node_of_ne he, h]

lemma rotated_node (he : e ≠ 0) (hea : e ≠ a) (heb : e ≠ b) :
    (m.rotated d p a b y).node e = ((m.reparented y a).relinked p b).node e := by
  unfold Mem.rotated
  rw [update_node, if_neg hea]
  apply relinked_congr
  rw [update_node, if_neg heb, update_node, if_neg heb, reparented_node he,
    reparented_node he, update_node, if_neg hea]

include hab

lemma rotated_lower (ha : a ≠ 0) (hap : a ∉ nodes p) (hay : a ≠ y) (hpar : Aligned par)
    (hrec : m.node a = RbNode.of d (pack par c) u b) :
    (m.rotated d p a b y).node a = RbNode.of d (pack b c) u y := by
  unfold Mem.rotated
  rw [update_node, if_pos rfl, relinked_node ha hap, update_node, if_neg hab,
    update_node, if_neg hab, reparented_node ha, if_neg hay, update_node, if_pos rfl, hrec,
    of_setChild_flip, of_setParent hpar]

lemma rotated_upper (hb : b ≠ 0) (hbp : b ∉ nodes p) (hby : b ≠ y) (ha : Aligned a)
    (hrec : m.node b = RbNode.of d (pack a c) y v) :
    (m.rotated d p a b y).node b = RbNode.of d (pack (above p) c) a v := by
  unfold Mem.rotated
  rw [update_node, if_neg (Ne.symm hab), relinked_node hb hbp, update_node,
    if_pos rfl, update_node, if_pos rfl, reparented_node hb, if_neg hby, update_node,
    if_neg (Ne.symm hab), hrec, of_setChild, of_setParent ha]

end Rotated

lemma ne_ptr {node : Ptr → RbNode} (ht : Layout node par t) (he : e ≠ 0) (het : e ∉ t.toList) :
    e ≠ ptr t := by
  rintro rfl
  exact het (ptr_mem ht he)

section Rotation

variable (h : Place m p (mk d c x a (mk d c' y b z)))

include h

lemma Place.nodup_mk_mk : (a :: b :: (x.toList ++ y.toList ++ z.toList ++ nodes p)).Nodup := by
  have hperm : (x.toList ++ (mk d c' y b z).toList ++ nodes p).Perm
      (b :: (x.toList ++ y.toList ++ z.toList ++ nodes p)) := by
    rw [← cons_append]
    apply List.Perm.append_right
    rw [append_assoc x.toList]
    exact (toList_mk_perm.append_left _).trans perm_middle
  exact (hperm.cons a).nodup_iff.mp h.nodup_mk

lemma Place.rotate_runs : Runs (rbRotate d a) m () (m.rotated d p a b (ptr y)) := by
  obtain ⟨ha, hra, hx, hbz⟩ := layout_mk.mp h.tree
  obtain ⟨hb, hrb, hy, hz⟩ := layout_mk.mp hbz
  have hp := h.path
  have hn := h.nodup_mk_mk
  simp only [nodup_cons, nodup_append, mem_cons, mem_append, not_or] at hn
  obtain ⟨⟨hab, -, hap⟩, ⟨-, hbp⟩, -, -, hup⟩ := hn
  have hchild := h.child_flip_runs
  rw [ptr_mk] at hp hchild
  refine .bind hchild (.bind h.parent_runs (.bind (Heap.child_runs hb.ne_zero hrb) ?_))
  refine .bind (store_runs ha.ne_zero _ m) (.bind (reparent_runs _ _ _) ?_)
  refine .bind (store_runs hb.ne_zero _ _) (.bind (store_runs hb.ne_zero _ _) ?_)
  refine .bind (relink_runs (hp.congr fun e he => ?_) ha.ne_zero hap d b)
    (store_runs ha.ne_zero _ _)
  have he0 := (hp.good he).ne_zero
  have hea : e ≠ a := ne_of_mem_of_not_mem he hap
  have heb : e ≠ b := ne_of_mem_of_not_mem he hbp
  have hey := ne_ptr hy he0 fun hey => hup _ (.inl (.inr hey)) _ he rfl
  rw [update_node, if_neg heb, update_node, if_neg heb, reparented_node he0, if_neg hey,
    update_node, if_neg hea]

lemma Place.rotate : Ends (rbRotate d a) m fun _ m' => Place m' p (mk d c' (mk d c x a y) b z) := by
  refine ⟨(), _, h.rotate_runs, ?_⟩
  obtain ⟨ha, hra, hx, hbz⟩ := layout_mk.mp h.tree
  obtain ⟨hb, hrb, hy, hz⟩ := layout_mk.mp hbz
  have hn := h.nodup_mk_mk
  simp only [nodup_cons, nodup_append, mem_cons, mem_append, not_or] at hn
  obtain ⟨⟨hab, ⟨⟨hax, hay⟩, haz⟩, hap⟩, ⟨⟨⟨hbx, hby⟩, hbz⟩, hbp⟩,
    ⟨⟨-, hny, hxy⟩, -, hxz⟩, -, hup⟩ := hn
  have hp := h.path
  have hroot := h.root
  rw [ptr_mk] at hra hp hroot
  -- what is away from the two nodes and from the path
  have hframe : ∀ e, e ≠ 0 → e ≠ a → e ≠ b → e ∉ nodes p →
      (m.rotated d p a b (ptr y)).node e =
        if e = ptr y then (m.node e).setParent a else m.node e := by
    intro e he hea heb hep
    rw [rotated_node he hea heb, relinked_node he hep, reparented_node he]
  refine Place.relinked m hp hroot ?_ ?_ (layout_mk.mpr
    ⟨hb, ?_, layout_mk.mpr ⟨ha, ?_, hx.congr ?_, hy.reparent hb.aligned hny ?_⟩, hz.congr ?_⟩) ?_
  · intro e he
    have he0 := (hp.good he).ne_zero
    have hea : e ≠ a := ne_of_mem_of_not_mem he hap
    have heb : e ≠ b := ne_of_mem_of_not_mem he hbp
    rw [ptr_mk, rotated_node he0 hea heb]
    apply relinked_congr
    rw [reparented_node he0, if_neg]
    exact ne_ptr hy he0 fun hey => hup _ (.inl (.inr hey)) _ he rfl
  · rw [ptr_mk, relinked_root]
    exact (relinked_root _ _ _).trans (by rw [Mem.update, Mem.update, reparented_root]; rfl)
  · rw [ptr_mk]
    exact rotated_upper hab hb.ne_zero hbp (ne_ptr hy hb.ne_zero hby) ha.aligned hrb
  · exact rotated_lower hab ha.ne_zero hap (ne_ptr hy ha.ne_zero hay) h.aligned hra
  · intro e he
    have he0 := (hx.good he).ne_zero
    rw [hframe e he0 (ne_of_mem_of_not_mem he hax) (ne_of_mem_of_not_mem he hbx)
      fun hep => hup _ (.inl (.inl he)) _ hep rfl, if_neg]
    exact ne_ptr hy he0 fun hey => hxy _ he _ hey rfl
  · intro e he
    exact hframe e (hy.good he).ne_zero (ne_of_mem_of_not_mem he hay)
      (ne_of_mem_of_not_mem he hby) fun hep => hup _ (.inl (.inr he)) _ hep rfl
  · intro e he
    have he0 := (hz.good he).ne_zero
    rw [hframe e he0 (ne_of_mem_of_not_mem he haz) (ne_of_mem_of_not_mem he hbz)
      fun hep => hup _ (.inr he) _ hep rfl, if_neg]
    exact ne_ptr hy he0 fun hey => hxz _ (.inr hey) _ he rfl
  · rw [toList_of_rotate rotate_mk]
    exact h.nodup

end Rotation

/-! ### Adding and removing a node -/

/-- The pointer to a place. -/
def link : Path Ptr → Link
  | [] => none
  | q :: _ => some (q.val, q.dir)

lemma pack_red (par : Ptr) : pack par .red = par := BitVec.or_zero

lemma Place.linkNode (h : Place m p .nil) (ha : Good a) (hap : a ∉ nodes p) :
    Ends (rbLinkNode a (link p)) m fun _ m' => Place m' p (.node .red .nil a .nil) := by
  obtain ⟨m1, hm1⟩ : ∃ m1, m1 = m.update a fun _ => ⟨above p, 0, 0⟩ := ⟨_, rfl⟩
  have hother : ∀ e, e ≠ a → m1.node e = m.node e := by
    intro e he
    rw [hm1, update_node, if_neg he]
  have hpath : PathLayout m1.node 0 p :=
    h.path.congr fun e he => hother e (ne_of_mem_of_not_mem he hap)
  refine ⟨(), m1.relinked p a, ?_, Place.relinked m1 hpath ?_ (fun _ _ => rfl) rfl ?_ ?_⟩
  · have habove : ((link p).map Prod.fst).getD 0 = above p := by cases p <;> rfl
    have hstore := store_runs ha.ne_zero (fun _ => ⟨above p, 0, 0⟩) m
    rw [← hm1] at hstore
    unfold rbLinkNode
    rw [habove]
    refine .bind hstore ?_
    cases p with
    | nil => exact .write _ m1
    | cons => exact store_runs hpath.1.ne_zero _ m1
  · rw [hm1]
    exact h.root
  · refine ⟨ha, ?_, trivial, trivial⟩
    rw [relinked_node ha.ne_zero hap, hm1, update_node, if_pos rfl, pack_red]
    rfl
  · have hn := h.nodup
    simpa [Tree.toList] using ⟨hap, hn⟩

lemma Place.unlink (h : Place m p (mk d c .nil a y)) :
    Runs (relink .left a (ptr y) (above p)) (m.reparented (ptr y) (above p)) ()
        ((m.reparented (ptr y) (above p)).relinked p (ptr y)) ∧
      Place ((m.reparented (ptr y) (above p)).relinked p (ptr y)) p y := by
  obtain ⟨ha, hra, -, hy⟩ := layout_mk.mp h.tree
  have hp := h.path
  have hroot := h.root
  rw [ptr_mk] at hp hroot
  have hn := h.nodup_mk
  simp only [Tree.toList, nil_append, nodup_cons, nodup_append, mem_append, not_or] at hn
  obtain ⟨⟨hay, hap⟩, hny, hnp, hyp⟩ := hn
  have hpath : PathLayout (m.reparented (ptr y) (above p)).node a p := by
    refine hp.congr fun e he => ?_
    have he0 := (hp.good he).ne_zero
    rw [reparented_node he0, if_neg (ne_ptr hy he0 fun hey => hyp _ hey _ he rfl)]
  refine ⟨relink_runs hpath ha.ne_zero hap _ _, Place.relinked _ hpath ?_ (fun _ _ => rfl) rfl ?_
    (List.nodup_append.mpr ⟨hny, hnp, hyp⟩)⟩
  · rw [reparented_root, hroot]
  · refine hy.reparent ha.aligned hny fun e he => ?_
    have he0 := (hy.good he).ne_zero
    rw [relinked_node he0 fun hep => hyp _ he _ hep rfl, reparented_node he0]

lemma Place.renamed {l r : Tree Ptr} (h : Place m p (.node c l a r)) (hb : Good b)
    (hbt : b ∉ l.toList ++ r.toList ++ nodes p)
    (hpath : ∀ e ∈ nodes p, m'.node e = (m.relinked p b).node e)
    (hroot : m'.root = (m.relinked p b).root) (hself : m'.node b = m.node a)
    (hl : ∀ e ∈ l.toList, m'.node e = if e = ptr l then (m.node e).setParent b else m.node e)
    (hr : ∀ e ∈ r.toList, m'.node e = if e = ptr r then (m.node e).setParent b else m.node e) :
    Place m' p (.node c l b r) := by
  obtain ⟨ha, hra, hll, hlr⟩ := h.tree
  have hn := h.nodup_mk (d := .left)
  rw [nodup_cons] at hn
  have hnl := List.nodup_append.mp (List.nodup_append.mp hn.2).1
  refine Place.relinked m h.path h.root hpath hroot ⟨hb, hself.trans hra,
    hll.reparent ha.aligned hnl.1 hl, hlr.reparent ha.aligned hnl.2.1 hr⟩ ?_
  have hperm : ((Tree.node c l b r).toList ++ nodes p).Perm
      (b :: (l.toList ++ r.toList ++ nodes p)) := by
    exact List.perm_middle.append_right _
  exact hperm.nodup_iff.mpr (List.nodup_cons.mpr ⟨hbt, hn.2⟩)

lemma Place.replaceNode {l r : Tree Ptr} (h : Place m p (.node c l a r)) (hb : Good b)
    (hbt : b ∉ (Tree.node c l a r).toList ++ nodes p) :
    Ends (rbReplaceNode a b) m fun _ m' => Place m' p (.node c l b r) := by
  obtain ⟨ha, hra, hl, hr⟩ := h.tree
  have hp : PathLayout m.node a p := h.path
  have hn := h.nodup_mk (d := .left)
  simp only [nodup_cons, nodup_append, mem_append, not_or] at hn
  obtain ⟨⟨⟨hal, har⟩, hap⟩, ⟨hnl, hnr, hlr⟩, hnp, hup⟩ := hn
  simp only [Tree.toList, mem_append, mem_cons, not_or] at hbt
  obtain ⟨⟨hbl, hba, hbr⟩, hbp⟩ := hbt
  obtain ⟨m3, hm3⟩ : ∃ m3, m3 = ((m.relinked p b).reparented (ptr l) b).reparented (ptr r) b :=
    ⟨_, rfl⟩
  have h3 : ∀ e, e ≠ 0 → e ∉ nodes p → e ≠ ptr l → e ≠ ptr r → m3.node e = m.node e := by
    intro e he hep hel her
    rw [hm3, reparented_node he, if_neg her, reparented_node he, if_neg hel, relinked_node he hep]
  have hal' := ne_ptr hl ha.ne_zero hal
  have har' := ne_ptr hr ha.ne_zero har
  have ha1 : (m.relinked p b).node a = m.node a :=
    relinked_node ha.ne_zero hap
  have ha2 : ((m.relinked p b).reparented (ptr l) b).node a = m.node a := by
    rw [reparented_node ha.ne_zero, if_neg hal', ha1]
  refine ⟨(), m3.update b fun _ => m3.node a, ?_, h.renamed hb ?_ ?_ ?_ ?_ ?_ ?_⟩
  · refine .bind (h.parent_runs (d := .left)) (.bind (relink_runs hp ha.ne_zero hap _ b) ?_)
    refine .bind (Heap.child_runs ha.ne_zero (ha1.trans hra)) (.bind (reparent_runs _ _ _) ?_)
    refine .bind (Heap.child_flip_runs ha.ne_zero (ha2.trans hra)) (.bind (reparent_runs _ _ _) ?_)
    rw [← hm3]
    exact .bind (load_runs ha.ne_zero m3) (store_runs hb.ne_zero _ m3)
  · simp only [mem_append, not_or]
    exact ⟨⟨hbl, hbr⟩, hbp⟩
  · intro e he
    have he0 := (hp.good he).ne_zero
    have heb : e ≠ b := ne_of_mem_of_not_mem he hbp
    rw [update_node, if_neg heb, hm3, reparented_node he0, if_neg, reparented_node he0, if_neg]
    · exact ne_ptr hl he0 fun hel => hup _ (.inl hel) _ he rfl
    · exact ne_ptr hr he0 fun her => hup _ (.inr her) _ he rfl
  · show m3.root = _
    rw [hm3, reparented_root, reparented_root]
  · rw [update_node, if_pos rfl, h3 a ha.ne_zero hap hal' har']
  · intro e he
    have he0 := (hl.good he).ne_zero
    have heb : e ≠ b := ne_of_mem_of_not_mem he hbl
    rw [update_node, if_neg heb, hm3, reparented_node he0,
      if_neg (ne_ptr hr he0 fun her => hlr _ he _ her rfl), reparented_node he0,
      relinked_node he0 fun hep => hup _ (.inl he) _ hep rfl]
  · intro e he
    have he0 := (hr.good he).ne_zero
    have heb : e ≠ b := ne_of_mem_of_not_mem he hbr
    rw [update_node, if_neg heb, hm3, reparented_node he0, reparented_node he0,
      if_neg (ne_ptr hl he0 fun hel => hlr _ hel _ he rfl),
      relinked_node he0 fun hep => hup _ (.inr he) _ hep rfl]

end LklPort.Rbtree.Heap
