import Mathlib.Data.Fintype.Card
import LklPort.Rbtree.Balance
import LklPort.Rbtree.Splice

/-!
# Insertion in memory

`rb_insert_color` on nodes in memory does what it does on trees: from a memory with a tree it runs
to one with the tree that the function on trees returns.
-/

namespace LklPort.Rbtree.Heap

open Program List

open LklPort.Rbtree.Tree (mk rotate)

variable {m : Mem} {p : Path Ptr} {t x y : Tree Ptr} {a : Ptr} {c : Color} {d : Dir}

/-! ### The number of rounds -/

lemma length_le_nodes (p : Path Ptr) : p.length ≤ (nodes p).length := by
  induction p with
  | nil => rfl
  | cons =>
    simp only [nodes, length_cons, length_append]
    omega

lemma Place.length_lt (h : Place m p t) : t.toList.length + (nodes p).length < rounds := by
  have hzero : (0 : Ptr) ∉ t.toList ++ nodes p := by
    intro hmem
    rcases List.mem_append.mp hmem with hmem | hmem
    · exact (h.tree.good hmem).ne_zero rfl
    · exact (h.path.good hmem).ne_zero rfl
  have hn : (((0 : Ptr) :: (t.toList ++ nodes p)).map BitVec.toFin).Nodup := by
    refine List.Nodup.map ?_ (List.nodup_cons.mpr ⟨hzero, h.nodup⟩)
    intro u v huv
    exact BitVec.eq_of_toFin_eq huv
  have hle := hn.length_le_card
  rwa [Fintype.card_fin, length_map, length_cons, length_append] at hle

/-! ### Sides -/

lemma Place.ptr_ne (h : Place m p (mk d c x a y)) (hne : x ≠ .nil ∨ y ≠ .nil) : ptr x ≠ ptr y := by
  obtain ⟨-, -, hx, hy⟩ := layout_mk.mp h.tree
  intro heq
  have hx0 : ptr x ≠ 0 := by
    intro h0
    rcases hne with hne | hne
    · exact hne ((ptr_eq_zero hx).mp h0)
    · exact hne ((ptr_eq_zero hy).mp (heq ▸ h0))
  have hn := h.nodup_mk
  simp only [nodup_cons, nodup_append] at hn
  exact hn.2.1.2.2 _ (ptr_mem hx hx0) _ (ptr_mem hy (heq ▸ hx0)) heq

lemma Place.left_runs (h : Place m p (mk d c x a y)) (hne : ptr x ≠ ptr y) :
    ∃ u, Runs (child .left a) m u m ∧ (ptr x = u ↔ d = .left) := by
  cases d with
  | left => exact ⟨ptr x, h.child_runs, by simp⟩
  | right => exact ⟨ptr y, h.child_flip_runs, by simp [hne]⟩

lemma exists_mk (ht : t ≠ .nil) (d : Dir) : ∃ c x a y, t = mk d c x a y := by
  cases t with
  | nil => exact absurd rfl ht
  | node c l a r =>
    cases d with
    | left => exact ⟨c, l, a, r, rfl⟩
    | right => exact ⟨c, r, a, l, rfl⟩

lemma ne_nil_of_isRed (ht : t.isRed = true) : t ≠ .nil := by
  rintro rfl
  cases ht

/-! ### Insertion -/

variable {q g : Crumb Ptr} {T : Tree Ptr}

lemma Place.insertColor_recolor (h : Place m (q :: g :: p) t) (hg : g.other.isRed = true) :
    Ends (insertColorRed g.dir (ptr t) q.val g.val) m fun r m' => r = .inl g.val ∧ Place m' p
      (mk g.dir .red (mk q.dir .black t q.val q.other) g.val g.other.setBlack) := by
  have hgparent := place_cons.mp (place_cons.mp h)
  have hplace := place_far.mp hgparent
  have hred := hplace.redAt_runs
  rw [hg] at hred
  refine .after hgparent.child_flip_runs
    (.after hred (.ite (fun _ => ?_) fun hne => absurd rfl hne))
  obtain ⟨c, x, a, y, hother⟩ := exists_mk (ne_nil_of_isRed hg) .left
  rw [hother] at hplace ⊢
  -- the uncle, the parent, and the grandparent
  exact hplace.setBlack.bind fun _ m1 h1 =>
    (place_near.mp (place_far.mpr h1)).setBlack.bind fun _ m2 h2 =>
      (place_near.mpr h2).setRed.bind fun _ m3 h3 => .pure ⟨rfl, h3⟩

lemma Place.insertColorEnd {b : Ptr} (h : Place m (g :: p) (mk g.dir c x b y)) (node : Ptr) :
    Ends (insertColorEnd g.dir node b g.val) m fun r m' => r = .inl node ∧
      Place m' p (mk g.dir .black x b (mk g.dir .red y g.val g.other)) := by
  refine h.setBlack.bind fun _ m1 h1 => (place_cons.mp h1).setRed.bind fun _ m2 h2 => ?_
  rw [← mk_flip, ← mk_flip (d := g.dir)] at h2
  refine h2.rotate.bind fun _ m3 h3 => .pure ⟨rfl, ?_⟩
  rwa [mk_flip, mk_flip] at h3

lemma Place.insertColor_rotate (h : Place m (q :: g :: p) t) (ht : t ≠ .nil) (hq : q.color = .red)
    (hg : g.other.isRed = false) {s : Tree Ptr} (hs : straighten g.dir q t = some s) :
    Ends (insertColorRed g.dir (ptr t) q.val g.val) m fun r m' => ∃ c x b y, r = .inl (ptr x) ∧
      Place m' p (mk g.dir .black x b (mk g.dir .red y g.val g.other)) ∧ x ≠ .nil ∧
      s = mk g.dir c x b y := by
  have hparent := place_cons.mp h
  have hgparent := place_cons.mp hparent
  have hred := (place_far.mp hgparent).redAt_runs
  rw [hg] at hred
  refine .after hgparent.child_flip_runs (.after hred (.ite Bool.false_ne_true.elim fun _ => ?_))
  rw [hq] at hparent
  unfold straighten at hs
  by_cases hd : q.dir = g.dir
  · rw [if_pos hd] at hs
    cases hs
    have hne := hparent.ptr_ne (.inl ht)
    rw [hd] at hparent ⊢
    refine .after hparent.child_flip_runs (.ite (fun heq => absurd heq.symm hne) fun _ => ?_)
    exact (hparent.insertColorEnd (ptr t)).mono fun _ _ h' =>
      ⟨.red, t, q.val, q.other, h'.1, h'.2, ht, rfl⟩
  · rw [if_neg hd, eq_flip_of_ne hd, mk_flip] at hs
    rw [eq_flip_of_ne hd, mk_flip] at hparent
    obtain ⟨c, x, a, y, rfl⟩ := exists_mk ht g.dir
    rw [rotate_mk] at hs
    cases hs
    refine .after hparent.child_flip_runs (.ite (fun _ => ?_) fun hne => absurd rfl hne)
    rw [ptr_mk]
    refine hparent.rotate.bind fun _ m1 h1 => (h1.insertColorEnd q.val).mono fun _ _ h' => ?_
    exact ⟨c, mk g.dir .red q.other q.val x, a, y, by rw [h'.1, ptr_mk], h'.2, mk_ne_nil, rfl⟩

/-- The loop of `rb_insert_color` goes on at the root of `t`, and will return the tree `T`. -/
def InsertAt (T : Tree Ptr) (n : ℕ) (node : Ptr) (m : Mem) : Prop :=
  ∃ p t, n = p.length ∧ node = ptr t ∧ t ≠ .nil ∧ Place m p t ∧ Rbtree.rbInsertColor p t = some T

section

variable (h : Place m p t) (ht : t ≠ .nil) (hT : Rbtree.rbInsertColor p t = some T)

include h ht hT

lemma Place.insertColor_body : Ends (insertColorBody (ptr t)) m
      (Sum.elim (fun node m' => ∃ n < p.length, InsertAt T n node m')
        fun _ m' => ∃ T', Place m' [] T' ∧ T'.blacken = some T) := by
  have hrun : Runs (rbParent (ptr t)) m (above p) m := by
    obtain ⟨c, x, a, y, rfl⟩ := exists_mk ht .left
    exact h.parent_runs
  refine .after hrun ?_
  cases p with
  | nil =>
    exact .after (.ite_pos rfl (.pure false m)) (.ite (fun _ => .pure ⟨t, h, hT⟩) (absurd rfl))
  | cons q p =>
    have hparent := place_cons.mp h
    have hred := hparent.redAt_runs
    rw [ptr_mk] at hred
    refine .after hred ?_
    by_cases hq : q.color = .black
    · rw [hq, isRed_mk_black]
      rw [rbInsertColor_black hq] at hT
      exact .ite (fun _ => .pure ⟨_, place_plug.mpr h, hT⟩) (absurd rfl)
    have hq := eq_red_of_ne hq
    rw [hq, isRed_mk_red]
    cases p with
    | nil => simp [Rbtree.rbInsertColor, hq] at hT
    | cons g p =>
      have hgparent := place_cons.mp hparent
      obtain ⟨u, hu, hside⟩ := hgparent.left_runs (hgparent.ptr_ne (.inl mk_ne_nil))
      replace hside : above (q :: g :: p) = u ↔ g.dir = .left := by rwa [ptr_mk] at hside
      refine .ite Bool.noConfusion fun _ => .after hparent.parent_runs (.after hu ?_)
      rw [ite_left_eq hside]
      by_cases hg : g.other.isRed = true
      · rw [rbInsertColor_recolor hq hg] at hT
        apply (h.insertColor_recolor hg).mono
        rintro _ m' ⟨rfl, h'⟩
        exact ⟨_, Nat.lt_of_lt_of_le (Nat.lt_succ_self _) (Nat.le_succ _), p, _, rfl,
          by rw [ptr_mk], mk_ne_nil, h', hT⟩
      · have hg : g.other.isRed = false := by simpa using hg
        rw [rbInsertColor_rotate hq hg, Option.bind_eq_some_iff] at hT
        obtain ⟨s, hs, hT⟩ := hT
        apply (h.insertColor_rotate ht hq hg hs).mono
        rintro _ m' ⟨c, x, b, y, rfl, h', hx, rfl⟩
        rw [blacken_mk, Option.bind_some, rotate_flip_mk, Option.bind_some] at hT
        -- the parent is black now, and the next round is the last one
        exact ⟨_, by simp, _, x, rfl, rfl, hx, place_near.mp h', (rbInsertColor_black rfl).trans hT⟩

/-- `rb_insert_color`. -/
theorem Place.insertColor : Ends (rbInsertColor (ptr t)) m fun _ m' => Place m' [] T := by
  have hlt := h.length_lt
  have hle := length_le_nodes p
  have hloop : Ends (loop insertColorBody rounds (ptr t)) m fun _ m' =>
      ∃ T', Place m' [] T' ∧ T'.blacken = some T := by
    refine .loop (I := InsertAt T) ?_ ⟨p, t, rfl, rfl, ht, h, hT⟩ (by omega)
    rintro _ _ m ⟨p, t, rfl, rfl, ht, h, hT⟩
    exact h.insertColor_body ht hT
  refine hloop.bind fun _ m1 ⟨T', h1, hT'⟩ => ?_
  have hne : T' ≠ .nil := by
    rintro rfl
    cases hT'
  obtain ⟨c, x, a, y, rfl⟩ := exists_mk hne .left
  cases hT'
  refine .after (root_runs m1) ?_
  rw [h1.root]
  exact h1.setBlack

end

/-!
## Removal in memory

`__rb_erase_color` and `rb_erase` on nodes in memory, and the way down to the next node in order.
-/

variable {near far : Tree Ptr} {b : Ptr} {c' : Color}

/-! ### One round of `__rb_erase_color` -/

lemma Place.eraseColorEnd (h : Place m p (mk d c t a (mk d c' near b far))) (hfar : far ≠ .nil) :
    Ends (eraseColorEnd d a b) m fun r m' => r = .inr m'.root ∧
      Place m' p (mk d c (mk d .black t a near) b far.setBlack) := by
  obtain ⟨cf, xf, e, yf, rfl⟩ := exists_mk hfar d
  refine .after h.color_runs (((place_far.mp h).setColor c).bind fun _ m1 h1 =>
    (place_far.mpr h1).setBlack.bind fun _ m2 h2 => ?_)
  have hother := place_far.mp h2
  have hchild := hother.child_flip_runs
  rw [ptr_mk] at hchild
  refine .after hchild ((place_far.mp hother).setBlack.bind fun _ m3 h3 =>
    (place_far.mpr (place_far.mpr h3)).rotate.bind fun _ m4 h4 =>
      .after (root_runs m4) (.pure ⟨rfl, ?_⟩))
  rwa [setBlack_mk]

lemma blacken_eq (ht : t ≠ .nil) : t.blacken = some t.setBlack := by
  cases t with
  | nil => exact absurd rfl ht
  | node => rfl

/-- A round has ended as `eraseStep` says. -/
def EraseStepped (p : Path Ptr) (q : Crumb Ptr) (t : Tree Ptr) (r : Tree Ptr ⊕ Tree Ptr)
    (x : (Ptr × Ptr) ⊕ Ptr) (m : Mem) : Prop :=
  (∃ o, r = .inl (mk q.dir q.color t q.val o) ∧ x = .inl (q.val, above p) ∧
    Place m p (mk q.dir q.color t q.val o)) ∨ ∃ top, r = .inr top ∧ x = .inr m.root ∧ Place m p top

lemma Place.eraseColorOther (h : Place m p (mk q.dir q.color t q.val q.other))
    {r : Tree Ptr ⊕ Tree Ptr} (hr : eraseStep q t = some r) :
    Ends (eraseColorOther q.dir q.val (ptr q.other)) m (EraseStepped p q t r) := by
  unfold eraseStep at hr
  split at hr
  · simp at hr
  next c near b far hsplit =>
  have hq := eq_mk_of_split hsplit
  have hother := place_far.mp h
  rw [hq] at hother h
  obtain ⟨hb, -, hnear, hfar⟩ := layout_mk.mp hother.tree
  have hptr : ptr q.other = b := by rw [hq, ptr_mk]
  rw [hptr]
  refine .after hother.child_runs (.after (Heap.redAt_runs hnear hb.aligned)
    (.after hother.child_flip_runs (.after (Heap.redAt_runs hfar hb.aligned) ?_)))
  split_ifs at hr with hblack
  · cases hr
    refine .ite (fun _ => hother.setRed.bind fun _ m1 h1 => ?_) fun hne => absurd hblack hne
    have h1 := place_far.mpr h1
    exact .after h1.parent_runs (.pure (.inl ⟨_, by rw [hq, setRed_mk], rfl, h1⟩))
  refine .ite (fun hb => absurd hb hblack) fun _ => ?_
  unfold straightenOther at hr
  by_cases hred : far.isRed = true
  · refine .ite (fun hf => absurd hred (by simp [hf])) fun _ =>
      (h.eraseColorEnd (ne_nil_of_isRed hred)).mono fun _ _ ⟨hx, h'⟩ => .inr ⟨_, ?_, hx, h'⟩
    simpa [hred, hsplit, blacken_eq (ne_nil_of_isRed hred)] using hr.symm
  · have hred : far.isRed = false := by simpa using hred
    have hnear : near.isRed = true := by simpa [hred] using hblack
    obtain ⟨cn, x, e, y, rfl⟩ := exists_mk (ne_nil_of_isRed hnear) q.dir
    refine .ite (fun _ => ?_) fun hf => absurd hred hf
    rw [ptr_mk]
    refine (place_near.mp hother).setBlack.bind fun _ m1 h1 =>
      (place_near.mpr h1).setRed.bind fun _ m2 h2 => ?_
    rw [← mk_flip, ← mk_flip (d := q.dir)] at h2
    refine h2.rotate.bind fun _ m3 h3 => ?_
    rw [mk_flip, mk_flip] at h3
    have h3 := place_far.mpr h3
    have hchild := h3.child_flip_runs
    rw [ptr_mk] at hchild
    refine .after hchild ((h3.eraseColorEnd mk_ne_nil).mono fun _ _ ⟨hx, h'⟩ =>
      .inr ⟨_, ?_, hx, h'⟩)
    simpa [hred, blacken_eq mk_ne_nil] using hr.symm

/-! ### `__rb_erase_color` -/

/-- The loop of `__rb_erase_color` goes on at the place `p` of `t`, and will return `T`. It stops at
a red node. -/
def EraseAt (T : Tree Ptr) (n : ℕ) (x : Ptr × Ptr) (m : Mem) : Prop :=
  ∃ p t, n = (if t.isRed then 0 else p.length) ∧ x = (ptr t, above p) ∧ Place m p t ∧
    Rbtree.rbEraseColor p t = some T

/-- Where the loop of `__rb_erase_color` has stopped, and what the result will be. -/
def Stopped (T : Tree Ptr) (node : Ptr) (m : Mem) : Prop :=
  ∃ p t, Place m p t ∧ node = ptr t ∧ plug p t.setBlack = T

lemma Stopped.of_root (h : Place m p t) (hT : (plug p t).setBlack = T) : Stopped T m.root m :=
  ⟨[], plug p t, place_plug.mpr h, (place_plug.mpr h).root, hT⟩

lemma Place.eraseColor_exit (h : Place m p t) (hexit : t.isRed = true ∨ p = []) :
    Runs (eraseColorBody (ptr t, above p)) m (.inr (ptr t)) m := by
  refine .bind h.redAt_runs (.bind (root_runs m) (.ite_pos ?_ (.pure _ m)))
  rcases hexit with hred | rfl
  · exact .inl hred
  · exact .inr h.root.symm

lemma Place.eraseColor_side (h : Place m (q :: p) t) (ht : t.isRed = false) (hq : q.other ≠ .nil)
    {Q : (Ptr × Ptr) ⊕ Ptr → Mem → Prop} (hrest : Ends (eraseColorSide q.dir q.val) m Q) :
    Ends (eraseColorBody (ptr t, above (q :: p))) m Q := by
  have hparent := place_cons.mp h
  obtain ⟨u, hu, hside⟩ := hparent.left_runs (hparent.ptr_ne (.inr hq))
  have hred := h.redAt_runs
  rw [ht] at hred
  have htop : ptr t ≠ m.root := by
    rw [h.root]
    intro heq
    have hmem := top_mem (p := q :: p) (by simp) (ptr t)
    rw [← heq] at hmem
    have hroot := ptr_mem h.tree (h.path.good hmem).ne_zero
    exact (List.nodup_append.mp h.nodup).2.2 _ hroot _ hmem rfl
  refine .after hred (.after (root_runs m) (.ite (fun hor => ?_) fun _ => .after hu ?_))
  · exact absurd hor (by simpa using htop)
  rw [eq_comm] at hside
  rwa [ite_left_eq hside]

section

variable (h : Place m p t) (hT : Rbtree.rbEraseColor p t = some T)

include h hT

lemma Place.eraseColor_body : Ends (eraseColorBody (ptr t, above p)) m (Sum.elim (fun x m' =>
      ∃ n < if t.isRed then 0 else p.length, EraseAt T n x m') (Stopped T)) := by
  cases p with
  | nil =>
    cases hT
    exact ⟨_, m, h.eraseColor_exit (.inr rfl), [], t, h, rfl, rfl⟩
  | cons q p =>
    unfold Rbtree.rbEraseColor at hT
    split_ifs at hT with hred
    · cases hT
      exact ⟨_, m, h.eraseColor_exit (.inl hred), q :: p, t, h, rfl, rfl⟩
    have hred : t.isRed = false := by simpa using hred
    have hparent := place_cons.mp h
    have hplace := place_far.mp hparent
    rw [if_neg (by simp [hred])]
    split at hT
    · cases hT
    · next near b far hsplit =>
      have hq := eq_mk_of_split hsplit
      have hchild := hparent.child_flip_runs
      rw [hq] at hplace
      rw [hq, ptr_mk] at hchild
      have hother := rbIsRed_runs hplace.good.ne_zero hplace.record hplace.aligned
      refine h.eraseColor_side hred (by rw [hq]; exact mk_ne_nil) (.after hchild (.after hother
        (.ite (fun _ => hplace.setBlack.bind fun _ m1 h1 => (place_far.mpr h1).setRed.bind
          fun _ m2 h2 => h2.rotate.bind fun _ m3 h3 => ?_) fun hne => absurd rfl hne)))
      have hnext := place_near.mp h3
      refine .after hnext.child_flip_runs ?_
      cases hstep : eraseStep { q with color := .red, other := near } t with
      | none => simp [hstep] at hT
      | some =>
        rw [hstep] at hT
        apply (Place.eraseColorOther hnext hstep).mono
        rintro _ m' (⟨o, rfl, rfl, h'⟩ | ⟨top, rfl, rfl, h'⟩)
        · -- the parent is red, and the next round is the last one
          cases hT
          exact ⟨0, Nat.succ_pos _, ⟨q.dir, .black, b, far⟩ :: p, _, by rw [isRed_mk_red]; rfl,
            by rw [ptr_mk], h', rbEraseColor_red isRed_mk_red⟩
        · cases hT
          exact .of_root h' rfl
    · next near b far hsplit =>
      have hq := eq_mk_of_split hsplit
      rw [hq] at hplace
      have hother := rbIsRed_runs hplace.good.ne_zero hplace.record hplace.aligned
      have hchild := hparent.child_flip_runs
      have hptr : ptr q.other = b := by rw [hq, ptr_mk]
      rw [hptr] at hchild
      refine h.eraseColor_side hred (by rw [hq]; exact mk_ne_nil) (.after hchild (.after hother
        (.ite nofun fun _ => ?_)))
      rw [← hptr]
      cases hstep : eraseStep q t with
      | none => simp [hstep] at hT
      | some =>
        rw [hstep] at hT
        apply (Place.eraseColorOther hparent hstep).mono
        rintro _ m' (⟨o, rfl, rfl, h'⟩ | ⟨top, rfl, rfl, h'⟩)
        · exact ⟨_, by split_ifs <;> simp, p, _, rfl, by rw [ptr_mk], h', hT⟩
        · cases hT
          exact .of_root h' rfl

/-- `__rb_erase_color`. -/
theorem Place.eraseColor : Ends (rbEraseColor (ptr t) (above p)) m fun _ m' => Place m' [] T := by
  have hlt := h.length_lt
  have hle := length_le_nodes p
  have hloop : Ends (loop eraseColorBody rounds (ptr t, above p)) m (Stopped T) := by
    refine .loop (I := EraseAt T) ?_ ⟨p, t, rfl, rfl, h, hT⟩ (by split_ifs <;> omega)
    rintro _ _ m ⟨p, t, rfl, rfl, h, hT⟩
    exact h.eraseColor_body hT
  apply hloop.bind
  rintro _ m1 ⟨p', t', h1, rfl, rfl⟩
  by_cases ht : t' = .nil
  · subst ht
    exact .ite (fun _ => .pure (place_plug.mpr h1)) fun hne => absurd rfl hne
  · obtain ⟨c, x, a, y, rfl⟩ := exists_mk ht .left
    refine .ite (fun h0 => absurd h0 h1.good.ne_zero) fun _ => h1.setBlack.mono fun _ _ h2 => ?_
    exact place_plug.mpr h2

end

/-! ### The way down -/

/-- The last node of a tree on one side. -/
def extreme (d : Dir) : Tree Ptr → Option Ptr
  | .nil => none
  | .node _ l a r =>
    match d with
    | .left => (extreme d l).or (some a)
    | .right => (extreme d r).or (some a)

lemma extreme_mk : extreme d (mk d c x a y) = (extreme d x).or (some a) := by cases d <;> rfl

lemma extreme_left : extreme .left t = t.toList.head? := by
  induction t with
  | nil => rfl
  | node _ _ _ _ ihl => simp [extreme, Tree.toList, ihl]

lemma extreme_right : extreme .right t = t.toList.getLast? := by
  induction t with
  | nil => rfl
  | node _ _ _ r _ ihr =>
    rw [extreme, ihr, Tree.toList, List.getLast?_append, List.getLast?_cons]
    cases hr : r.toList.getLast? with
    | none => simp
    | some => simp

lemma descend_loop {par : Ptr} (h : Layout m.node par t) (ht : t ≠ .nil) (d : Dir) (fuel : ℕ)
    (hfuel : t.toList.length ≤ fuel) :
    ∃ b, extreme d t = some b ∧ Runs (loop (descendBody d) fuel (ptr t)) m b m := by
  induction fuel generalizing t par with
  | zero =>
    cases t with
    | nil => exact absurd rfl ht
    | node => simp [Tree.toList] at hfuel
  | succ _ ih =>
    obtain ⟨c, x, a, y, rfl⟩ := exists_mk ht d
    obtain ⟨ha, hrec, hx, -⟩ := layout_mk.mp h
    have hchild := child_runs ha.ne_zero hrec
    rw [ptr_mk, extreme_mk]
    by_cases hnil : x = .nil
    · subst hnil
      exact ⟨a, rfl, .loop_inr (.bind hchild (.ite_pos rfl (.pure _ m)))⟩
    · have hx0 : ptr x ≠ 0 := fun h0 => hnil ((ptr_eq_zero hx).mp h0)
      have hlen := (toList_mk_perm (d := d) (c := c) (y := x) (a := a) (z := y)).length_eq
      rw [length_cons, length_append] at hlen
      obtain ⟨b, hb, hrun⟩ := ih hx hnil (by omega)
      exact ⟨b, by rw [hb]; rfl, .loop_inl (.bind hchild (.ite_neg hx0 (.pure _ m))) hrun⟩

lemma Place.descend_runs (h : Place m p t) (ht : t ≠ .nil) (d : Dir) :
    ∃ b, extreme d t = some b ∧ Runs (descend d (ptr t)) m b m := by
  have hlt := h.length_lt
  exact descend_loop h.tree ht d rounds (by omega)

/-! ### `rb_erase` -/

lemma Place.eraseTail (h : Place m p t) (hT : Rbtree.unlink c p t = some T) :
    Ends (if bit c = 1 then rbEraseColor (ptr t) (above p) else pure ()) m
      fun _ m' => Place m' [] T := by
  unfold Rbtree.unlink at hT
  split_ifs at hT with hc
  · exact .ite (fun _ => h.eraseColor hT) fun hbit => absurd (bit_eq_one.mpr hc) hbit
  · cases hT
    exact .ite (fun hbit => absurd (bit_eq_one.mp hbit) hc) fun _ => .pure (place_plug.mpr h)

lemma Place.eraseOne (h : Place m p (mk d c .nil a y)) (hT : Rbtree.unlink c p y = some T) :
    Ends (eraseOne a (ptr y)) m fun _ m' => Place m' [] T :=
  .after h.parent_runs (.after h.color_runs (.after (reparent_runs _ _ _)
    (.after h.unlink.1 (h.unlink.2.eraseTail hT))))

lemma Place.eraseTwo {l r child : Tree Ptr} {q : Path Ptr} {s : Ptr} (h : Place m p (.node c l a r))
    (hl : l ≠ .nil) (hr : r ≠ .nil) (hq : leftmost r [] = some (c', s, child, q))
    (hT : Rbtree.unlink c' (q ++ ⟨.right, c, s, l⟩ :: p) child = some T) :
    Ends (eraseTwo a) m fun _ m' => Place m' [] T := by
  obtain ⟨hplug, hbefore⟩ := leftmost_spec hq
  have hright : Place m (⟨.right, c, a, l⟩ :: p) r := place_cons.mpr h
  have hsucc : Successor m p c l a q c' s child := by
    refine ⟨?_, leftmost_side hq⟩
    rw [place_append, hplug]
    exact hright
  obtain ⟨ha, hra, hll, -⟩ := h.tree
  have hleft0 : ptr l ≠ 0 := fun h0 => hl ((ptr_eq_zero hll).mp h0)
  have hs := hsucc.good
  have hn := hsucc.nodup
  simp only [nodup_cons, nodup_append, mem_append, mem_cons, not_or] at hn
  obtain ⟨⟨-, -, -, hsp⟩, -, ⟨⟨-, hap⟩, -⟩, -⟩ := hn
  -- the node that is found is the successor, and the memory at it has not changed
  have hdescend : Runs (descend .left (ptr r)) m s m := by
    obtain ⟨b, hb, hrun⟩ := hright.descend_runs hr .left
    have hlist : r.toList = before q ++ (Tree.node c' .nil s child).toList ++ after q := by
      rw [← toList_plug, hplug]
      rfl
    rw [extreme_left, hlist, hbefore] at hb
    simp only [before, Tree.toList, nil_append, cons_append, List.head?_cons,
      Option.some.injEq] at hb
    rw [hb]
    exact hrun
  have hnode : (m.relinked p s).node s = m.node s :=
    relinked_node hs.ne_zero hsp
  have hrs := hsucc.place.record (d := .left)
  have hchild := Heap.child_flip_runs hs.ne_zero (hnode.trans hrs)
  have hparent := rbParent_runs hs.ne_zero (hnode.trans hrs) hsucc.place.aligned
  have hcolor := rbColor_runs hs.ne_zero (hnode.trans hrs) hsucc.place.aligned
  have hnleft : (m.node a).left = ptr l := by
    rw [hra]
    rfl
  refine .after (h.child_flip_runs (d := .left)) (.after hdescend (.after
    (h.parent_runs (d := .left)) (.after (relink_runs h.path ha.ne_zero hap .left s) ?_)))
  refine .after hchild (.after hparent (.after hcolor (hsucc.pullOut.bind ?_)))
  rintro _ m1 ⟨rfl, hm1⟩
  have hload := load_runs ha.ne_zero m1
  rw [hm1.self] at hload
  refine .after hload (.after (store_runs hs.ne_zero _ m1) ?_)
  rw [hnleft]
  exact .after (store_runs hs.ne_zero _ _) (.after (store_runs hleft0 _ _)
    ((hsucc.splice hm1).eraseTail hT))

/-- `rb_erase`. -/
theorem Place.erase {l r : Tree Ptr} (h : Place m p (.node c l a r))
    (hT : Rbtree.rbErase p (.node c l a r) = some T) :
    Ends (rbErase a) m fun _ m' => Place m' [] T := by
  obtain ⟨-, -, hll, hlr⟩ := h.tree
  refine .after h.child_runs (.after (h.child_flip_runs (d := .left)) ?_)
  by_cases hl : l = .nil
  · subst hl
    exact .ite (fun _ => Place.eraseOne (d := .left) h (by simpa [Rbtree.rbErase] using hT))
      fun hne => absurd rfl hne
  refine .ite (fun h0 => absurd ((ptr_eq_zero hll).mp h0) hl) fun _ => ?_
  obtain ⟨cl, ll, b, rl, rfl⟩ := exists_mk hl .left
  by_cases hr : r = .nil
  · subst hr
    exact .ite (fun _ => Place.eraseOne (d := .right) h hT) fun hne => absurd rfl hne
  refine .ite (fun h0 => absurd ((ptr_eq_zero hlr).mp h0) hr) fun _ => ?_
  obtain ⟨cr, lr, e, rr, rfl⟩ := exists_mk hr .left
  obtain ⟨⟨c', s, child, q⟩, hq, hT⟩ := Option.bind_eq_some_iff.mp hT
  exact h.eraseTwo hl hr hq hT

end LklPort.Rbtree.Heap
