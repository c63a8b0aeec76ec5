import LklPort.Rbtree.Basic

/-!
# Balance

No red node has a red child, and all ways from a node down to a leaf meet the same number of
black nodes. With this the loops of `lib/rbtree.c` never follow a `NULL` pointer, and they leave
a tree for which it holds again.
-/

namespace LklPort.Rbtree

open Option

open LklPort.Rbtree.Tree (mk rotate)

variable {α : Type*}

/-- A balanced tree whose root has the colour `c`, with `n` black nodes on each way down. An empty
tree counts as black. -/
inductive RB : Color → ℕ → Tree α → Prop where
  | nil : RB .black 0 .nil
  | red {n : ℕ} {l r : Tree α} {a : α} (hl : RB .black n l) (hr : RB .black n r) :
    RB .red n (.node .red l a r)
  | black {c c' : Color} {n : ℕ} {l r : Tree α} {a : α} (hl : RB c n l) (hr : RB c' n r) :
    RB .black (n + 1) (.node .black l a r)

/-- A path that becomes a balanced tree with a black root when a tree of colour `c` and height
`n` is put at its place. -/
inductive Hole : Path α → Color → ℕ → Prop where
  | root {n : ℕ} : Hole [] .black n
  | red {p : Path α} {n : ℕ} {d : Dir} {a : α} {t : Tree α} (hp : Hole p .red n)
      (ht : RB .black n t) : Hole (⟨d, .red, a, t⟩ :: p) .black n
  | black {p : Path α} {c c' : Color} {n : ℕ} {d : Dir} {a : α} {t : Tree α}
      (hp : Hole p .black (n + 1)) (ht : RB c' n t) : Hole (⟨d, .black, a, t⟩ :: p) c n

/-- The result is a balanced tree with a black root. -/
def Balanced (o : Option (Tree α)) : Prop := ∃ m s, o = some s ∧ RB .black m s

section

variable {c c' : Color} {n : ℕ} {d : Dir} {x y t : Tree α} {a : α} {p : Path α}

lemma RB.mk_red (hx : RB .black n x) (hy : RB .black n y) : RB .red n (mk d .red x a y) := by
  cases d with
  | left => exact .red hx hy
  | right => exact .red hy hx

lemma RB.mk_black (hx : RB c n x) (hy : RB c' n y) : RB .black (n + 1) (mk d .black x a y) := by
  cases d with
  | left => exact .black hx hy
  | right => exact .black hy hx

lemma RB.exists_of_red (h : RB .red n t) (d : Dir) :
    ∃ x a y, t = mk d .red x a y ∧ RB .black n x ∧ RB .black n y := by
  cases h with
  | @red _ l r a hl hr =>
    cases d with
    | left => exact ⟨l, a, r, rfl, hl, hr⟩
    | right => exact ⟨r, a, l, rfl, hr, hl⟩

lemma RB.exists_of_black (h : RB .black (n + 1) t) (d : Dir) :
    ∃ c x a c' y, t = mk d .black x a y ∧ RB c n x ∧ RB c' n y := by
  cases h with
  | @black c c' _ l r a hl hr =>
    cases d with
    | left => exact ⟨c, l, a, c', r, rfl, hl, hr⟩
    | right => exact ⟨c', r, a, c, l, rfl, hr, hl⟩

lemma RB.isRed_eq (h : RB c n t) : t.isRed = decide (c = .red) := by
  cases h <;> rfl

lemma RB.setBlack_red (h : RB .red n t) : RB .black (n + 1) t.setBlack := by
  cases h with
  | red hl hr => exact .black hl hr

lemma RB.balanced_setBlack (h : RB c n t) : Balanced (some t.setBlack) := by
  cases h with
  | nil => exact ⟨0, _, rfl, .nil⟩
  | red hl hr | black hl hr => exact ⟨_, _, rfl, .black hl hr⟩

lemma RB.blacken_black (h : RB .black (n + 1) t) : t.blacken = some t := by
  cases h
  rfl

lemma RB.blacken_red (h : RB .red n t) : t.blacken = some t.setBlack := by
  cases h
  rfl

lemma Hole.black_of_red (h : Hole p .red n) : Hole p .black n := by
  cases h with
  | black hp ht => exact .black hp ht

lemma Hole.plug (h : Hole p c n) (ht : RB c n t) : ∃ m, RB .black m (plug p t) := by
  induction h generalizing t with
  | root => exact ⟨_, ht⟩
  | red _ hs ih => exact ih (.mk_red ht hs)
  | black _ hs ih => exact ih (.mk_black ht hs)

lemma Hole.balanced (h : Hole p c n) (ht : RB c n t) : Balanced (some (Rbtree.plug p t)) := by
  obtain ⟨m, hm⟩ := h.plug ht
  exact ⟨m, _, rfl, hm⟩

lemma mk_ne_nil : mk d c x a y ≠ .nil := by cases d <;> simp [mk]

lemma plug_ne_nil (ht : t ≠ .nil) : Rbtree.plug p t ≠ .nil := by
  induction p generalizing t with
  | nil => exact ht
  | cons _ _ ih => exact ih mk_ne_nil

@[simp] lemma blacken_mk : (mk d c x a y).blacken = some (mk d .black x a y) := by
  cases d <;> rfl

lemma Hole.plug_blacken (h : Hole p c n) (ht : RB c n t) (hne : t ≠ .nil) :
    Balanced (Rbtree.plug p t).blacken := by
  obtain ⟨m, hm⟩ := h.plug ht
  cases m with
  | zero =>
    cases hs : Rbtree.plug p t with
    | nil => exact absurd hs (plug_ne_nil hne)
    | node =>
      rw [hs] at hm
      cases hm
  | succ m => exact ⟨m + 1, _, hm.blacken_black, hm⟩

end

variable {d : Dir} {x y l r : Tree α} {a : α}

/-! ### Insertion -/

lemma rotate_insert {n : ℕ} {q : Crumb α} {b : α} {t u : Tree α} (ht : RB .red n t)
    (hs : RB .black n q.other) (hu : RB .black n u) :
    ∃ s s' top, straighten d q t = some s ∧ s.blacken = some s' ∧
      rotate d.flip (mk d .red s' b u) = some top ∧ RB .black (n + 1) top := by
  unfold straighten
  by_cases hd : q.dir = d
  · rw [if_pos hd, hd]
    exact ⟨_, _, _, rfl, blacken_mk, rotate_flip_mk, .mk_black ht (.mk_red hs hu)⟩
  · obtain ⟨x, a, y, rfl, hx, hy⟩ := ht.exists_of_red d
    rw [if_neg hd, eq_flip_of_ne hd, mk_flip]
    exact ⟨_, _, _, rotate_mk, blacken_mk, rotate_flip_mk,
      .mk_black (.mk_red hs hx) (.mk_red hy hu)⟩

/-- `rb_insert_color` restores the balance after a red node was put at the place. -/
theorem rbInsertColor_balanced {t : Tree α} {n : ℕ} : {p : Path α} → Hole p .black n → RB .red n t →
      Balanced (rbInsertColor p t)
  | [], _, ht => ⟨n + 1, _, ht.blacken_red, ht.setBlack_red⟩
  | q :: p, hp, ht => by
    have hne : t ≠ .nil := by rintro rfl; cases ht
    cases hp with
    | black hp hs =>
      rw [rbInsertColor_black rfl]
      exact (Hole.black hp hs).plug_blacken ht hne
    | red hp hs =>
      -- the parent is red, so there is a black parent above it
      cases hp with
      | @black _ _ c' _ _ _ _ hp hu =>
        cases c' with
        | red =>
          rw [rbInsertColor_recolor rfl hu.isRed_eq]
          exact rbInsertColor_balanced hp (.mk_red (.mk_black ht hs) hu.setBlack_red)
        | black =>
          obtain ⟨s, s', top, hs, hs', htop, hbal⟩ :=
            rotate_insert (q := ⟨_, .red, _, _⟩) ht hs hu
          rw [rbInsertColor_rotate rfl hu.isRed_eq, hs, bind_some, hs', bind_some, htop, bind_some]
          have hne : top ≠ .nil := by rintro rfl; cases hbal
          exact hp.plug_blacken hbal hne

/-- Insertion at an empty place of a balanced tree. -/
theorem rbInsert_balanced {p : Path α} (hp : Hole p .black 0) (a : α) : Balanced (rbInsert p a) :=
  rbInsertColor_balanced hp (.red .nil .nil)

/-! ### Removal -/

section

variable {c : Color} {n : ℕ} {q : Crumb α} {t : Tree α} {p : Path α}

@[simp] lemma setBlack_mk : (mk d c x a y).setBlack = mk d .black x a y := by
  cases d <;> rfl

@[simp] lemma setRed_mk : (mk d c x a y).setRed = mk d .red x a y := by
  cases d <;> rfl

lemma RB.mk_color (hx : RB .black (n + 1) x) (hy : RB .black (n + 1) y) :
    (c = .red → RB .red (n + 1) (mk d c x a y)) ∧
      (c = .black → RB .black (n + 2) (mk d c x a y)) := by
  constructor
  · rintro rfl
    exact .mk_red hx hy
  · rintro rfl
    exact .mk_black hx hy

/-- The body of the loop of `__rb_erase_color`: either both sides of the parent have lost a black
node, or the height is restored. -/
lemma eraseStep_cases (ht : RB .black n t) (ho : RB .black (n + 1) q.other) :
    (∃ o, eraseStep q t = some (.inl (mk q.dir q.color t q.val o)) ∧ RB .red n o) ∨
      ∃ top, eraseStep q t = some (.inr top) ∧ (q.color = .red → RB .red (n + 1) top) ∧
        (q.color = .black → RB .black (n + 2) top) := by
  obtain ⟨c, near, b, c', far, hother, hnear, hfar⟩ := ho.exists_of_black q.dir
  have hsplit : q.other.split q.dir = some (.black, near, b, far) := by rw [hother, split_mk]
  cases c' with
  | red =>
    right
    have hstep : eraseStep q t =
        some (.inr (mk q.dir q.color (mk q.dir .black t q.val near) b far.setBlack)) := by
      simp [eraseStep, hsplit, straightenOther, hfar.isRed_eq, hfar.blacken_red]
    exact ⟨_, hstep, RB.mk_color (.mk_black ht hnear) hfar.setBlack_red⟩
  | black =>
    cases c with
    | red =>
      right
      obtain ⟨x, e, y, rfl, hx, hy⟩ := hnear.exists_of_red q.dir
      have hstep : eraseStep q t = some (.inr (mk q.dir q.color (mk q.dir .black t q.val x) e
          (mk q.dir .black y b far))) := by
        simp [eraseStep, hsplit, straightenOther, hnear.isRed_eq, hfar.isRed_eq]
      exact ⟨_, hstep, RB.mk_color (.mk_black ht hx) (.mk_black hy hfar)⟩
    | black =>
      left
      refine ⟨q.other.setRed, ?_, ?_⟩
      · simp [eraseStep, hsplit, hnear.isRed_eq, hfar.isRed_eq]
      · rw [hother, setRed_mk]
        exact .mk_red hnear hfar

lemma isRed_mk_red : (mk d .red x a y).isRed = true := by cases d <;> rfl

lemma isRed_mk_black : (mk d .black x a y).isRed = false := by cases d <;> rfl

lemma rbEraseColor_red (ht : t.isRed = true) : rbEraseColor p t = some (plug p t.setBlack) := by
  cases p with
  | nil => rfl
  | cons =>
    unfold rbEraseColor
    rw [if_pos ht]

lemma rbEraseColor_black (ht : RB .black n t) (ho : RB .black (n + 1) q.other) :
    rbEraseColor (q :: p) t = (eraseStep q t).bind fun r =>
      r.elim (rbEraseColor p) fun t => some (plug p t).setBlack := by
  obtain ⟨_, near, b, _, far, hother, _, _⟩ := ho.exists_of_black q.dir
  have hsplit : q.other.split q.dir = some (.black, near, b, far) := by rw [hother, split_mk]
  conv_lhs => unfold rbEraseColor
  simp only [ht.isRed_eq, hsplit]
  rcases eraseStep q t with - | r | r <;> rfl

lemma rbEraseColor_turn {b : α} (ht : RB .black n t) (ho : q.other = mk q.dir .red x b y) :
    rbEraseColor (q :: p) t = (eraseStep { q with color := .red, other := x } t).bind fun r =>
      r.elim (fun t => some (plug (⟨q.dir, .black, b, y⟩ :: p) t.setBlack))
        fun t => some (plug (⟨q.dir, .black, b, y⟩ :: p) t).setBlack := by
  have hsplit : q.other.split q.dir = some (.red, x, b, y) := by rw [ho, split_mk]
  conv_lhs => unfold rbEraseColor
  simp only [ht.isRed_eq, hsplit]
  rcases eraseStep { q with color := .red, other := x } t with - | r | r <;> rfl

lemma Hole.balanced_setBlack (hp : Hole p c n) (ht : RB c n t) :
    Balanced (some (Rbtree.plug p t).setBlack) := by
  obtain ⟨m, hm⟩ := hp.plug ht
  exact hm.balanced_setBlack

/-- `__rb_erase_color` restores the balance when a black node is missing at the place. -/
theorem rbEraseColor_balanced (hp : Hole p .black (n + 1)) (ht : RB c n t) :
    Balanced (rbEraseColor p t) := by
  induction p generalizing n t c with
  | nil => exact ht.balanced_setBlack
  | cons q p ih =>
    cases c with
    | red =>
      rw [rbEraseColor_red ht.isRed_eq]
      exact hp.balanced ht.setBlack_red
    | black =>
      cases hp with
      | red hp ho =>
        rw [rbEraseColor_black ht ho]
        obtain ⟨o, hstep, ho'⟩ | ⟨top, hstep, htop, -⟩ :=
          eraseStep_cases (q := ⟨_, .red, _, _⟩) ht ho
        · -- the parent is red and takes the missing black
          rw [hstep, bind_some, Sum.elim_inl, rbEraseColor_red isRed_mk_red, setBlack_mk]
          exact hp.black_of_red.balanced (.mk_black ht ho')
        · rw [hstep]
          exact hp.balanced_setBlack (htop rfl)
      | @black _ _ c' _ d a _ hp ho =>
        cases c' with
        | red =>
          obtain ⟨x, b, y, rfl, hx, hy⟩ := ho.exists_of_red d
          have habove : Hole (⟨d, .black, b, y⟩ :: p) .red (n + 1) := .black hp hy
          rw [rbEraseColor_turn ht rfl]
          obtain ⟨o, hstep, ho'⟩ | ⟨top, hstep, htop, -⟩ :=
            eraseStep_cases (q := ⟨d, .red, a, x⟩) ht hx
          · rw [hstep, bind_some, Sum.elim_inl, setBlack_mk]
            exact habove.black_of_red.balanced (.mk_black ht ho')
          · rw [hstep]
            exact habove.balanced_setBlack (htop rfl)
        | black =>
          rw [rbEraseColor_black ht ho]
          obtain ⟨o, hstep, ho'⟩ | ⟨top, hstep, -, htop⟩ :=
            eraseStep_cases (q := ⟨_, .black, _, _⟩) ht ho
          · rw [hstep]
            exact ih hp (.mk_black ht ho')
          · rw [hstep]
            exact hp.balanced_setBlack (htop rfl)

lemma unlink_balanced (hp : Hole p c n) (ht : RB c n (.node c l a r)) {child : Tree α}
    (hchild : child = l ∨ child = r) : Balanced (unlink c p child) := by
  cases ht with
  | red =>
    have hbal : RB .black n child := by rcases hchild with rfl | rfl <;> assumption
    exact hp.black_of_red.balanced hbal
  | @black _ _ n _ _ _ hl hr =>
    obtain ⟨c', hbal⟩ : ∃ c', RB c' n child := by
      rcases hchild with rfl | rfl
      exacts [⟨_, hl⟩, ⟨_, hr⟩]
    exact rbEraseColor_balanced hp hbal

lemma leftmost_balanced {q : Path α} (hp : Hole (q ++ p) c n) (ht : RB c n t) (hne : t ≠ .nil) :
    ∃ c' a child q' m, leftmost t q = some (c', a, child, q') ∧ Hole (q' ++ p) c' m ∧
      RB c' m (.node c' .nil a child) := by
  induction t, q using leftmost.induct generalizing c n with
  | case1 => exact absurd rfl hne
  | case2 c1 a r q =>
    obtain rfl : c1 = c := by cases ht <;> rfl
    exact ⟨c1, a, r, q, n, by rw [leftmost], hp, ht⟩
  | case3 _ _ _ _ _ _ _ _ ih =>
    rw [leftmost]
    cases ht with
    | red hl hr => exact ih (.red hp hr) hl (by simp)
    | black hl hr => exact ih (.black hp hr) hl (by simp)

lemma Hole.right_child (hp : Hole p c n) (ht : RB c n (.node c l a r)) :
    ∃ c' m, RB c' m r ∧ ∀ b, Hole (⟨.right, c, b, l⟩ :: p) c' m := by
  cases ht with
  | red hl hr => exact ⟨_, _, hr, fun _ => .red hp hl⟩
  | black hl hr => exact ⟨_, _, hr, fun _ => .black hp hl⟩

/-- Removal of a node of a balanced tree. -/
theorem rbErase_balanced (hp : Hole p c n) (ht : RB c n (.node c l a r)) :
    Balanced (rbErase p (.node c l a r)) := by
  unfold rbErase
  split
  · simp_all
  · next heq =>
    cases heq
    exact unlink_balanced hp ht (.inr rfl)
  · next heq =>
    cases heq
    exact unlink_balanced hp ht (.inl rfl)
  · next _ hr heq =>
    cases heq
    obtain ⟨cr, k, hr', hright⟩ := hp.right_child ht
    obtain ⟨c', a', child, q, -, hmin, -, -⟩ :=
      leftmost_balanced (q := []) (hright a) hr' hr
    -- the same search, below the node with the value that replaces its own
    obtain ⟨c1, a1, child1, q1, m, hmin', hq, hchild⟩ :=
      leftmost_balanced (q := []) (hright a') hr' hr
    rw [hmin, Option.some.injEq, Prod.mk.injEq, Prod.mk.injEq, Prod.mk.injEq] at hmin'
    obtain ⟨rfl, rfl, rfl, rfl⟩ := hmin'
    simp only [hmin, bind_eq_bind, bind_some]
    exact unlink_balanced hq hchild (.inr rfl)

end

end LklPort.Rbtree
