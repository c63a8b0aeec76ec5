import Mathlib.Algebra.Group.Nat.Defs
import Mathlib.Tactic.Common

/-!
# Red-black trees

`lib/rbtree.c` links and unlinks nodes of trees whose order is the business of the callers, and
restores the balance on the way from the place of the change to the root. A place in a tree is
given here by the path of its parents, the nearest one first, and a loop that follows parent
pointers is a recursion over that path. Each of the two mirrored halves of a C function is the
one Lean function at one of the two sides. An access through a `NULL` pointer is `none`.
-/

namespace LklPort.Rbtree

open Option

inductive Color where
  | red
  | black
  deriving DecidableEq

/-- A side of a node. -/
inductive Dir where
  | left
  | right
  deriving DecidableEq

def Dir.flip : Dir → Dir
  | .left => .right
  | .right => .left

inductive Tree (α : Type*) where
  | nil
  | node (c : Color) (l : Tree α) (a : α) (r : Tree α)

variable {α : Type*}

namespace Tree

/-- The node with `x` as its child on the side `d` and `y` on the other one. -/
def mk (d : Dir) (c : Color) (x : Tree α) (a : α) (y : Tree α) : Tree α :=
  match d with
  | .left => .node c x a y
  | .right => .node c y a x

/-- The parts of a node, the child on the side `d` first. -/
def split (d : Dir) : Tree α → Option (Color × Tree α × α × Tree α)
  | .nil => none
  | .node c l a r =>
    match d with
    | .left => some (c, l, a, r)
    | .right => some (c, r, a, l)

/-- `node && rb_is_red(node)`. -/
def isRed : Tree α → Bool
  | .node .red _ _ _ => true
  | .nil | .node .black _ _ _ => false

/-- `if (node) rb_set_black(node)`. -/
def setBlack : Tree α → Tree α
  | .nil => .nil
  | .node _ l a r => .node .black l a r

/-- `rb_set_black(node)`. -/
def blacken : Tree α → Option (Tree α)
  | .nil => none
  | .node _ l a r => some (.node .black l a r)

/-- `rb_set_red(node)`. -/
def setRed : Tree α → Tree α
  | .nil => .nil
  | .node _ l a r => .node .red l a r

/-- The values in order. -/
def toList : Tree α → List α
  | .nil => []
  | .node _ l a r => l.toList ++ a :: r.toList

/-- `__rb_rotate_left` and `__rb_rotate_right`: the child on the other side than `d` takes the
place of its parent, which becomes its child on the side `d`. -/
def rotate (d : Dir) (t : Tree α) : Option (Tree α) :=
  match t.split d with
  | none => none
  | some (c, x, a, t') =>
    match t'.split d with
    | none => none
    | some (c', y, b, z) => some (mk d c' (mk d c x a y) b z)

end Tree

open LklPort.Rbtree.Tree (mk rotate)

/-- A parent: the place is its child on the side `dir`. -/
structure Crumb (α : Type*) where
  dir : Dir
  color : Color
  val : α
  other : Tree α

abbrev Path (α : Type*) := List (Crumb α)

/-- The whole tree, with `t` at the place. -/
def plug : Path α → Tree α → Tree α
  | [], t => t
  | q :: p, t => plug p (mk q.dir q.color t q.val q.other)

/-! ### Insertion -/

/-- The rotation of the parent in `rb_insert_color`, if the node is not on the side `d` of it. The
node and the parent change their parts. -/
def straighten (d : Dir) (q : Crumb α) (t : Tree α) : Option (Tree α) :=
  if q.dir = d then some (mk q.dir .red t q.val q.other)
  else rotate d (mk q.dir .red t q.val q.other)

/-- `rb_insert_color`, for the node at the root of `t`. -/
def rbInsertColor : Path α → Tree α → Option (Tree α)
  | [], t => t.blacken
  | q :: p, t =>
    if q.color = .black then (plug (q :: p) t).blacken
    else
      match p with
      | [] => none
      | g :: p =>
        -- `q` is the parent, `g` its parent, and `g.other` the uncle
        if g.other.isRed then
          rbInsertColor p (mk g.dir .red (mk q.dir .black t q.val q.other) g.val g.other.setBlack)
        else do
          let parent ← straighten g.dir q t
          let parent ← parent.blacken
          let top ← rotate g.dir.flip (mk g.dir .red parent g.val g.other)
          (plug p top).blacken

/-- `rb_link_node` at an empty place, and `rb_insert_color`. -/
def rbInsert (p : Path α) (a : α) : Option (Tree α) := rbInsertColor p (.node .red .nil a .nil)

/-! ### Removal -/

/-- The rotation of `other` in `__rb_erase_color`, if its child away from the node is not red. -/
def straightenOther (q : Crumb α) (near : Tree α) (b : α) (far : Tree α) : Option (Tree α) :=
  if far.isRed then some q.other
  else near.blacken.bind fun near => rotate q.dir.flip (mk q.dir .red near b far)

/-- The body of the loop of `__rb_erase_color` for the node `t` below `q`, when `other` is black.
The loop goes on with the first kind of result, and ends with the second. -/
def eraseStep (q : Crumb α) (t : Tree α) : Option (Tree α ⊕ Tree α) :=
  match q.other.split q.dir with
  | none => none
  | some (_, near, b, far) =>
    if near.isRed = false ∧ far.isRed = false then
      some (.inl (mk q.dir q.color t q.val q.other.setRed))
    else do
      let other ← straightenOther q near b far
      let (_, y, b, z) ← other.split q.dir
      let z ← z.blacken
      let top ← rotate q.dir (mk q.dir .black t q.val (mk q.dir q.color y b z))
      some (.inr top)

def rbEraseColor : Path α → Tree α → Option (Tree α)
  | [], t => some t.setBlack
  | q :: p, t =>
    if t.isRed then some (plug (q :: p) t.setBlack)
    else
      match q.other.split q.dir with
      | none => none
      | some (.red, near, b, far) =>
        -- `other` is rotated above the parent, which is red and ends the loop when it is next
        let above : Crumb α := ⟨q.dir, .black, b, far⟩
        match eraseStep { q with color := .red, other := near } t with
        | none => none
        | some (.inl t) => some (plug (above :: p) t.setBlack)
        | some (.inr t) => some (plug (above :: p) t).setBlack
      | some (.black, _, _, _) =>
        match eraseStep q t with
        | none => none
        | some (.inl t) => rbEraseColor p t
        | some (.inr t) => some (plug p t).setBlack

/-- A node of the colour `c` leaves its place to `child`. -/
def unlink (c : Color) (p : Path α) (child : Tree α) : Option (Tree α) :=
  if c = .black then rbEraseColor p child else some (plug p child)

/-- The leftmost node of a tree: its colour, its value, its right child and its path. -/
def leftmost : Tree α → Path α → Option (Color × α × Tree α × Path α)
  | .nil, _ => none
  | .node c .nil a r, p => some (c, a, r, p)
  | .node c l@(.node _ _ _ _) a r, p => leftmost l (⟨.left, c, a, r⟩ :: p)

/-- `rb_erase`, of the node at the root of `t`. A node with two children is replaced by the next
one in order, which takes over its colour. -/
def rbErase (p : Path α) : Tree α → Option (Tree α)
  | .nil => none
  | .node c .nil _ r => unlink c p r
  | .node c l _ .nil => unlink c p l
  | .node c l _ r => do
    let (c', a', child, q) ← leftmost r []
    unlink c' (q ++ ⟨.right, c, a', l⟩ :: p) child

variable {c' : Color}

/-! ### The order of the values -/

section

variable {d : Dir} {c : Color} {x y t t' : Tree α} {a : α} {p : Path α}

@[simp] lemma split_mk : (mk d c x a y).split d = some (c, x, a, y) := by cases d <;> rfl

lemma mk_flip : mk d.flip c x a y = mk d c y a x := by cases d <;> rfl

lemma eq_flip_of_ne {d' : Dir} (h : d ≠ d') : d = d'.flip := by
  cases d <;> cases d' <;> simp_all [Dir.flip]

lemma eq_red_of_ne (h : c ≠ .black) : c = .red := by cases c <;> simp_all

lemma ite_left_eq {p : Prop} [Decidable p] (h : p ↔ d = .left) :
    (if p then Dir.left else .right) = d := by
  cases d <;> simp [h]

lemma eq_mk_of_split (h : t.split d = some (c, x, a, y)) : t = mk d c x a y := by
  cases t with
  | nil => simp [Tree.split] at h
  | node =>
    cases d <;>
    · obtain ⟨rfl, rfl, rfl, rfl⟩ := h
      rfl

@[simp] lemma rotate_mk {b : α} {z : Tree α} :
    rotate d (mk d c x a (mk d c' y b z)) = some (mk d c' (mk d c x a y) b z) := by
  simp [rotate]

@[simp] lemma rotate_flip_mk {b : α} {z : Tree α} :
    rotate d.flip (mk d c (mk d c' x a y) b z) = some (mk d c' x a (mk d c y b z)) := by
  cases d <;> rfl

@[simp] lemma toList_setBlack : t.setBlack.toList = t.toList := by cases t <;> rfl

@[simp] lemma toList_setRed : t.setRed.toList = t.toList := by cases t <;> rfl

lemma toList_of_blacken (h : t.blacken = some t') : t'.toList = t.toList := by
  cases t with
  | nil => simp [Tree.blacken] at h
  | node =>
    cases h
    rfl

lemma toList_mk_congr {y' : Tree α} (hx : t.toList = t'.toList) (hy : y.toList = y'.toList) :
    (mk d c t a y).toList = (mk d c' t' a y').toList := by
  cases d <;> simp [mk, Tree.toList, hx, hy]

lemma toList_plug_congr (h : t.toList = t'.toList) : (plug p t).toList = (plug p t').toList := by
  induction p generalizing t t' with
  | nil => exact h
  | cons _ _ ih => exact ih (toList_mk_congr h rfl)

lemma toList_of_rotate (h : rotate d t = some t') : t'.toList = t.toList := by
  unfold rotate at h
  split at h
  · simp at h
  · next c x a s hs =>
    split at h
    · simp at h
    · next c' y b z hz =>
      cases h
      rw [eq_mk_of_split hs, eq_mk_of_split hz]
      cases d <;> simp [mk, Tree.toList]

/-! ### The loops keep the order -/

lemma rbInsertColor_black {q : Crumb α} (hq : q.color = .black) :
    rbInsertColor (q :: p) t = (plug (q :: p) t).blacken := by
  unfold rbInsertColor
  rw [if_pos hq]

lemma rbInsertColor_recolor {q g : Crumb α} (hq : q.color = .red) (hg : g.other.isRed = true) :
    rbInsertColor (q :: g :: p) t = rbInsertColor p
      (mk g.dir .red (mk q.dir .black t q.val q.other) g.val g.other.setBlack) := by
  conv_lhs => unfold rbInsertColor
  simp [hq, hg]

lemma rbInsertColor_rotate {q g : Crumb α} (hq : q.color = .red) (hg : g.other.isRed = false) :
    rbInsertColor (q :: g :: p) t =
      (straighten g.dir q t).bind fun parent =>
        parent.blacken.bind fun parent =>
          (rotate g.dir.flip (mk g.dir .red parent g.val g.other)).bind fun top =>
            (plug p top).blacken := by
  conv_lhs => unfold rbInsertColor
  simp [hq, hg]

theorem toList_rbInsertColor {t t' : Tree α} :
    {p : Path α} → rbInsertColor p t = some t' → t'.toList = (plug p t).toList
  | [], h => toList_of_blacken h
  | [q], h => by
    by_cases hq : q.color = .black
    · rw [rbInsertColor_black hq] at h
      exact toList_of_blacken h
    · simp [rbInsertColor, hq] at h
  | q :: g :: p, h => by
    by_cases hq : q.color = .black
    · rw [rbInsertColor_black hq] at h
      exact toList_of_blacken h
    have hq := eq_red_of_ne hq
    by_cases hg : g.other.isRed = true
    · rw [rbInsertColor_recolor hq hg] at h
      rw [toList_rbInsertColor h]
      exact toList_plug_congr (toList_mk_congr (toList_mk_congr rfl rfl) toList_setBlack)
    · rw [rbInsertColor_rotate hq (by simpa using hg)] at h
      simp only [bind_eq_some_iff] at h
      obtain ⟨s, hs, s', hs', top, htop, h⟩ := h
      rw [toList_of_blacken h]
      apply toList_plug_congr
      rw [toList_of_rotate htop]
      refine toList_mk_congr ?_ rfl
      rw [toList_of_blacken hs']
      unfold straighten at hs
      split_ifs at hs with hd
      · cases hs
        exact toList_mk_congr rfl rfl
      · rw [toList_of_rotate hs]
        exact toList_mk_congr rfl rfl

lemma toList_eraseStep {q : Crumb α} {r : Tree α ⊕ Tree α} (h : eraseStep q t = some r) :
    (r.elim id id).toList = (mk q.dir q.color t q.val q.other).toList := by
  unfold eraseStep at h
  split at h
  · simp at h
  next c near b far hother =>
  have hq := eq_mk_of_split hother
  split_ifs at h with hred
  · cases h
    exact toList_mk_congr rfl toList_setRed
  · simp only [bind_eq_bind, bind_eq_some_iff] at h
    obtain ⟨s, hs, ⟨c', y, b', z⟩, hsplit, z', hz', top, htop, h⟩ := h
    cases h
    have hs' : s.toList = q.other.toList := by
      unfold straightenOther at hs
      split_ifs at hs with hfar
      · cases hs
        rfl
      · simp only [bind_eq_some_iff] at hs
        obtain ⟨n, hn, hs⟩ := hs
        rw [toList_of_rotate hs, hq]
        exact toList_mk_congr (toList_of_blacken hn) rfl
    rw [Sum.elim_inr, id, toList_of_rotate htop]
    apply toList_mk_congr rfl
    rw [← hs', eq_mk_of_split hsplit]
    exact toList_mk_congr rfl (toList_of_blacken hz')

theorem toList_rbEraseColor {t t' : Tree α} {p : Path α} (h : rbEraseColor p t = some t') :
    t'.toList = (plug p t).toList := by
  induction p generalizing t with
  | nil =>
    cases h
    exact toList_setBlack
  | cons q _ ih =>
    unfold rbEraseColor at h
    split_ifs at h with hred
    · cases h
      exact toList_plug_congr toList_setBlack
    split at h
    · simp at h
    · next near b far hother =>
      have hq := eq_mk_of_split hother
      -- the rotation of `other` above the parent
      have hturn (s : Tree α) :
          (mk q.dir .black (mk q.dir .red s q.val near) b far).toList =
            (mk q.dir q.color s q.val q.other).toList := by
        rw [hq]
        cases q.dir <;> simp [mk, Tree.toList]
      split at h
      · simp at h
      · next s hs =>
        cases h
        have hstep := toList_eraseStep hs
        rw [plug]
        apply toList_plug_congr
        rw [← hturn]
        exact toList_mk_congr (toList_setBlack.trans hstep) rfl
      · next s hs =>
        cases h
        have hstep := toList_eraseStep hs
        rw [toList_setBlack, plug]
        apply toList_plug_congr
        rw [← hturn]
        exact toList_mk_congr hstep rfl
    · split at h
      · simp at h
      · next s hs =>
        rw [ih h]
        exact toList_plug_congr (toList_eraseStep hs)
      · next s hs =>
        cases h
        rw [toList_setBlack]
        exact toList_plug_congr (toList_eraseStep hs)

lemma toList_unlink (h : unlink c p t = some t') : t'.toList = (plug p t).toList := by
  unfold unlink at h
  split_ifs at h with hc
  · exact toList_rbEraseColor h
  · cases h
    rfl

end

/-! ### The values around a place -/

/-- The values before the place. -/
def before : Path α → List α
  | [] => []
  | q :: p =>
    match q.dir with
    | .left => before p
    | .right => before p ++ (q.other.toList ++ [q.val])

/-- The values after the place. -/
def after : Path α → List α
  | [] => []
  | q :: p =>
    match q.dir with
    | .left => q.val :: q.other.toList ++ after p
    | .right => after p

section

variable {c : Color} {l r t : Tree α} {a : α} {p q : Path α}

lemma toList_plug : (plug p t).toList = before p ++ t.toList ++ after p := by
  induction p generalizing t with
  | nil => simp [plug, before, after]
  | cons q _ ih =>
    rw [plug, ih]
    cases hd : q.dir <;> simp [before, after, hd, mk, Tree.toList]

lemma plug_append : plug (q ++ p) t = plug p (plug q t) := by
  induction q generalizing t with
  | nil => rfl
  | cons _ _ ih => exact ih

/-- Insertion puts the value at the place. -/
theorem toList_rbInsert (h : rbInsert p a = some t) : t.toList = before p ++ a :: after p := by
  rw [toList_rbInsertColor h, toList_plug]
  simp [Tree.toList]

lemma leftmost_spec {a' : α} {child : Tree α} {q' : Path α}
    (h : leftmost r q = some (c', a', child, q')) :
    plug q' (.node c' .nil a' child) = plug q r ∧ before q' = before q := by
  induction r, q using leftmost.induct with
  | case1 => simp [leftmost] at h
  | case2 =>
    simp only [leftmost, Option.some.injEq, Prod.mk.injEq] at h
    obtain ⟨rfl, rfl, rfl, rfl⟩ := h
    exact ⟨rfl, rfl⟩
  | case3 _ _ _ _ _ _ _ _ ih =>
    rw [leftmost] at h
    obtain ⟨hplug, hbefore⟩ := ih h
    exact ⟨hplug, hbefore⟩

/-- Removal takes the value at the place away. -/
theorem toList_rbErase (h : rbErase p (.node c l a r) = some t) :
    t.toList = before p ++ (l.toList ++ r.toList) ++ after p := by
  unfold rbErase at h
  split at h
  · simp_all
  · next heq =>
    cases heq
    rw [toList_unlink h, toList_plug]
    simp [Tree.toList]
  · next heq =>
    cases heq
    rw [toList_unlink h, toList_plug]
    simp [Tree.toList]
  · next heq =>
    cases heq
    simp only [bind_eq_bind, bind_eq_some_iff] at h
    obtain ⟨⟨c', a', child, q⟩, hmin, h⟩ := h
    obtain ⟨hplug, hbefore⟩ := leftmost_spec hmin
    have hr : r.toList = a' :: (child.toList ++ after q) := by
      have hlist := congrArg Tree.toList hplug
      rw [toList_plug, hbefore] at hlist
      simpa [plug, before, Tree.toList] using hlist.symm
    have hq : (plug q child).toList = child.toList ++ after q := by
      rw [toList_plug, hbefore]
      simp [before]
    rw [toList_unlink h, plug_append, plug, toList_plug]
    simp [mk, Tree.toList, hq, hr]

end

end LklPort.Rbtree
