import LklPort.Program.Basic
import LklPort.Rbtree.Basic
import Mathlib.Data.List.Nodup
import Mathlib.Data.List.Perm.Basic

/-!
# Red-black trees in memory

The functions of `lib/rbtree.c` on nodes that are linked by pointers, where the parent and the
colour of a node share a word. A program fails if it reads or writes through `NULL`. Each of the
two mirrored halves of a C function is the one Lean function at one of the two sides.
-/

namespace LklPort.Rbtree.Heap

open Program

/-- An address, or 0 for `NULL`. -/
abbrev Ptr := BitVec 64

/-- A `struct rb_node`. -/
structure RbNode where
  parentColor : BitVec 64
  right : Ptr
  left : Ptr

/-- The nodes in memory, and the pointer of the `struct rb_root`. -/
structure Mem where
  node : Ptr → RbNode
  root : Ptr

def RbNode.child (d : Dir) (n : RbNode) : Ptr :=
  match d with
  | .left => n.left
  | .right => n.right

def RbNode.setChild (d : Dir) (q : Ptr) (n : RbNode) : RbNode :=
  match d with
  | .left => { n with left := q }
  | .right => { n with right := q }

def RbNode.setParent (q : Ptr) (n : RbNode) : RbNode :=
  { n with parentColor := (n.parentColor &&& 3) ||| q }

def Mem.update (m : Mem) (p : Ptr) (f : RbNode → RbNode) : Mem :=
  { m with node := Function.update m.node p (f (m.node p)) }

/-! ### Nodes -/

/-- A node is read. -/
def load (p : Ptr) : Program Mem RbNode :=
  if p = 0 then fail else do
    let m ← read
    return m.node p

/-- A node is changed. -/
def store (p : Ptr) (f : RbNode → RbNode) : Program Mem Unit :=
  if p = 0 then fail else write fun m => m.update p f

/-- `root->rb_node`. -/
def root : Program Mem Ptr := do
  let m ← read
  return m.root

def setRoot (p : Ptr) : Program Mem Unit := write fun m => { m with root := p }

def child (d : Dir) (p : Ptr) : Program Mem Ptr := do
  let n ← load p
  return n.child d

def setChild (d : Dir) (p q : Ptr) : Program Mem Unit := store p (RbNode.setChild d q)

def rbParent (p : Ptr) : Program Mem Ptr := do
  let n ← load p
  return n.parentColor &&& ~~~3

def rbColor (p : Ptr) : Program Mem (BitVec 64) := do
  let n ← load p
  return n.parentColor &&& 1

def rbSetRed (p : Ptr) : Program Mem Unit :=
  store p fun n => { n with parentColor := n.parentColor &&& ~~~1 }

def rbSetBlack (p : Ptr) : Program Mem Unit :=
  store p fun n => { n with parentColor := n.parentColor ||| 1 }

def rbSetParent (p q : Ptr) : Program Mem Unit := store p (RbNode.setParent q)

def rbSetColor (p : Ptr) (color : BitVec 64) : Program Mem Unit :=
  store p fun n => { n with parentColor := (n.parentColor &&& ~~~1) ||| color }

def rbIsRed (p : Ptr) : Program Mem Bool := do
  let color ← rbColor p
  return decide (color = 0)

/-- `p && rb_is_red(p)`, the negation of `!p || rb_is_black(p)`. -/
def redAt (p : Ptr) : Program Mem Bool := if p = 0 then pure false else rbIsRed p

/-- `if (p) rb_set_parent(p, q)`. -/
def reparent (p q : Ptr) : Program Mem Unit := if p = 0 then pure () else rbSetParent p q

/-- The pointer of `parent` to `old`, or that of the root, becomes one to `new`. The side `d` of
the parent is looked at first. -/
def relink (d : Dir) (old new parent : Ptr) : Program Mem Unit :=
  if parent = 0 then setRoot new
  else do
    let p ← child d parent
    if p = old then setChild d parent new else setChild d.flip parent new

/-- More rounds than there are nodes. -/
def rounds : ℕ := 2 ^ 64

/-- `__rb_rotate_left` and `__rb_rotate_right`. -/
def rbRotate (d : Dir) (node : Ptr) : Program Mem Unit := do
  let right ← child d.flip node
  let parent ← rbParent node
  let inner ← child d right
  setChild d.flip node inner
  reparent inner node
  setChild d right node
  rbSetParent right parent
  relink d node right parent
  rbSetParent node right

/-! ### Insertion -/

/-- A place for a new node: a child of a node, or the root of an empty tree. -/
abbrev Link := Option (Ptr × Dir)

def rbLinkNode (node : Ptr) (link : Link) : Program Mem Unit := do
  store node fun _ => ⟨(link.map Prod.fst).getD 0, 0, 0⟩
  match link with
  | none => setRoot node
  | some (parent, d) => setChild d parent node

/-- The last part of the loop of `rb_insert_color`. -/
def insertColorEnd (d : Dir) (node parent gparent : Ptr) : Program Mem (Ptr ⊕ Unit) := do
  rbSetBlack parent
  rbSetRed gparent
  rbRotate d.flip gparent
  return .inl node

/-- The loop of `rb_insert_color` below a red parent, which is on the side `d` of `gparent`. -/
def insertColorRed (d : Dir) (node parent gparent : Ptr) : Program Mem (Ptr ⊕ Unit) := do
  let uncle ← child d.flip gparent
  let red ← redAt uncle
  if red then do
    rbSetBlack uncle
    rbSetBlack parent
    rbSetRed gparent
    return .inl gparent
  else do
    let inner ← child d.flip parent
    if inner = node then do
      rbRotate d parent
      insertColorEnd d parent node gparent
    else insertColorEnd d node parent gparent

/-- The loop of `rb_insert_color`. -/
def insertColorBody (node : Ptr) : Program Mem (Ptr ⊕ Unit) := do
  let parent ← rbParent node
  let red ← redAt parent
  if red = false then return .inr ()
  else do
    let gparent ← rbParent parent
    let left ← child .left gparent
    insertColorRed (if parent = left then .left else .right) node parent gparent

def rbInsertColor (node : Ptr) : Program Mem Unit := do
  loop insertColorBody rounds node
  let p ← root
  rbSetBlack p

/-! ### Removal -/

/-- The last part of the loop of `__rb_erase_color`. -/
def eraseColorEnd (d : Dir) (parent other : Ptr) : Program Mem ((Ptr × Ptr) ⊕ Ptr) := do
  let color ← rbColor parent
  rbSetColor other color
  rbSetBlack parent
  let far ← child d.flip other
  rbSetBlack far
  rbRotate d parent
  let p ← root
  return .inr p

/-- The loop of `__rb_erase_color` below a black `other`. -/
def eraseColorOther (d : Dir) (parent other : Ptr) : Program Mem ((Ptr × Ptr) ⊕ Ptr) := do
  let near ← child d other
  let nearRed ← redAt near
  let far ← child d.flip other
  let farRed ← redAt far
  if nearRed = false ∧ farRed = false then do
    rbSetRed other
    let up ← rbParent parent
    return .inl (parent, up)
  else if farRed = false then do
    rbSetBlack near
    rbSetRed other
    rbRotate d.flip other
    let other ← child d.flip parent
    eraseColorEnd d parent other
  else eraseColorEnd d parent other

/-- The loop of `__rb_erase_color` for a node on the side `d` of its parent. -/
def eraseColorSide (d : Dir) (parent : Ptr) : Program Mem ((Ptr × Ptr) ⊕ Ptr) := do
  let other ← child d.flip parent
  let red ← rbIsRed other
  if red then do
    rbSetBlack other
    rbSetRed parent
    rbRotate d parent
    let other ← child d.flip parent
    eraseColorOther d parent other
  else eraseColorOther d parent other

/-- The loop of `__rb_erase_color`, for a node that may be `NULL` and its parent. It ends with the
node that is to become black. -/
def eraseColorBody (x : Ptr × Ptr) : Program Mem ((Ptr × Ptr) ⊕ Ptr) := do
  let red ← redAt x.1
  let top ← root
  if red = true ∨ x.1 = top then return .inr x.1
  else do
    let left ← child .left x.2
    eraseColorSide (if left = x.1 then .left else .right) x.2

def rbEraseColor (node parent : Ptr) : Program Mem Unit := do
  let node ← loop eraseColorBody rounds (node, parent)
  if node = 0 then pure () else rbSetBlack node

/-- The way down on one side. -/
def descendBody (d : Dir) (p : Ptr) : Program Mem (Ptr ⊕ Ptr) := do
  let q ← child d p
  if q = 0 then return .inr p else return .inl q

def descend (d : Dir) (p : Ptr) : Program Mem Ptr := loop (descendBody d) rounds p

/-- `rb_erase` of a node with at most one child. -/
def eraseOne (node child : Ptr) : Program Mem Unit := do
  let parent ← rbParent node
  let color ← rbColor node
  reparent child parent
  relink .left node child parent
  if color = 1 then rbEraseColor child parent else pure ()

/-- The successor `node` of `old` leaves its place, in `rb_erase`. The parent of its child is
returned. -/
def pullOut (node old child parent : Ptr) : Program Mem Ptr :=
  if parent = old then return node
  else do
    reparent child parent
    setChild .left parent child
    let right ← Heap.child .right old
    setChild .right node right
    rbSetParent right node
    return parent

/-- `rb_erase` of a node with two children. -/
def eraseTwo (old : Ptr) : Program Mem Unit := do
  let right ← child .right old
  let node ← descend .left right
  let up ← rbParent old
  relink .left old node up
  let child ← Heap.child .right node
  let parent ← rbParent node
  let color ← rbColor node
  let parent ← pullOut node old child parent
  let n ← load old
  store node fun x => { x with parentColor := n.parentColor }
  setChild .left node n.left
  rbSetParent n.left node
  if color = 1 then rbEraseColor child parent else pure ()

def rbErase (node : Ptr) : Program Mem Unit := do
  let left ← child .left node
  let right ← child .right node
  if left = 0 then eraseOne node right
  else if right = 0 then eraseOne node left
  else eraseTwo node

/-! ### Replacement -/

def rbReplaceNode (victim new : Ptr) : Program Mem Unit := do
  let parent ← rbParent victim
  relink .left victim new parent
  let left ← child .left victim
  reparent left new
  let right ← child .right victim
  reparent right new
  let n ← load victim
  store new fun _ => n

/-! ### Walking -/

/-- `rb_first` and `rb_last`. -/
def rbEnd (d : Dir) : Program Mem Ptr := do
  let n ← root
  if n = 0 then return 0 else descend d n

def rbFirst : Program Mem Ptr := rbEnd .left

def rbLast : Program Mem Ptr := rbEnd .right

/-- The way up as long as the node is the child on the side `d`. -/
def climbBody (d : Dir) (node : Ptr) : Program Mem (Ptr ⊕ Ptr) := do
  let parent ← rbParent node
  if parent = 0 then return .inr 0
  else do
    let p ← child d parent
    if node = p then return .inl parent else return .inr parent

/-- `rb_next` and `rb_prev`. -/
def rbStep (d : Dir) (node : Ptr) : Program Mem Ptr := do
  let parent ← rbParent node
  if parent = node then return 0
  else do
    let p ← child d node
    if p = 0 then loop (climbBody d) rounds node else descend d.flip p

def rbNext (node : Ptr) : Program Mem Ptr := rbStep .right node

def rbPrev (node : Ptr) : Program Mem Ptr := rbStep .left node

/-!
## Trees in memory

`Layout` says that the nodes in memory are those of a tree, with the pointers and colours of the
tree. A place in a tree, as the loops have it, is a path and the tree below it: `Place`. The
primitive operations are followed here from place to place.
-/

open List
open LklPort.Rbtree.Tree (mk)

attribute [local simp] Tree.toList

/-! ### The word with the parent and the colour -/

def bit : Color → BitVec 64
  | .red => 0
  | .black => 1

def pack (p : Ptr) (c : Color) : BitVec 64 := p ||| bit c

/-- A pointer to a `long`, or `NULL`. -/
def Aligned (p : Ptr) : Prop := p &&& 7 = 0

section Words

variable {p q : Ptr} {c c' : Color}

lemma aligned_zero : Aligned 0 := rfl

lemma and_not_of_and_eq_zero {k : BitVec 64} (h : p &&& k = 0) : p &&& ~~~k = p := by
  ext i hi
  have hbit := congrArg (fun x : BitVec 64 => x[i]) h
  simpa using hbit

section

variable (h : Aligned p)

include h

lemma Aligned.and_three : p &&& 3 = 0 := by
  have hmask : (3 : BitVec 64) = 7 &&& 3 := rfl
  rw [hmask, ← BitVec.and_assoc, h]
  rfl

lemma Aligned.and_one : p &&& 1 = 0 := by
  have hmask : (1 : BitVec 64) = 7 &&& 1 := rfl
  rw [hmask, ← BitVec.and_assoc, h]
  rfl

lemma pack_parent : pack p c &&& ~~~3 = p := by
  have hbit : bit c &&& ~~~3 = 0 := by cases c <;> rfl
  rw [pack, BitVec.and_or_distrib_right, and_not_of_and_eq_zero h.and_three, hbit]
  exact BitVec.or_zero

lemma pack_color : pack p c &&& 1 = bit c := by
  have hbit : bit c &&& 1 = bit c := by cases c <;> rfl
  rw [pack, BitVec.and_or_distrib_right, h.and_one, hbit]
  exact BitVec.zero_or

lemma pack_setParent : (pack p c &&& 3) ||| q = pack q c := by
  have hbit : bit c &&& 3 = bit c := by cases c <;> rfl
  have hzero : 0 ||| bit c = bit c := BitVec.zero_or
  rw [pack, BitVec.and_or_distrib_right, h.and_three, hbit, hzero, BitVec.or_comm, pack]

lemma pack_setRed : pack p c &&& ~~~1 = pack p .red := by
  have hbit : bit c &&& ~~~1 = bit .red := by cases c <;> rfl
  rw [pack, BitVec.and_or_distrib_right, and_not_of_and_eq_zero h.and_one, hbit, pack]

end

lemma pack_setBlack : pack p c ||| 1 = pack p .black := by
  have hbit : bit c ||| 1 = bit .black := by cases c <;> rfl
  rw [pack, BitVec.or_assoc, hbit, pack]

lemma pack_setColor (h : Aligned p) : (pack p c &&& ~~~1) ||| bit c' = pack p c' := by
  have hbit : bit .red ||| bit c' = bit c' := by cases c' <;> rfl
  rw [pack_setRed h, pack, BitVec.or_assoc, hbit, pack]

lemma bit_eq_one : bit c = 1 ↔ c = .black := by cases c <;> decide

end Words

/-! ### Records -/

/-- The node with the child `x` on the side `d` and `y` on the other one. -/
def RbNode.of (d : Dir) (w : BitVec 64) (x y : Ptr) : RbNode :=
  match d with
  | .left => ⟨w, y, x⟩
  | .right => ⟨w, x, y⟩

section Records

variable {d : Dir} {w : BitVec 64} {x y q : Ptr} {p : Ptr} {c : Color}

@[simp] lemma of_child : (RbNode.of d w x y).child d = x := by cases d <;> rfl

@[simp] lemma of_child_flip : (RbNode.of d w x y).child d.flip = y := by cases d <;> rfl

@[simp] lemma of_setChild : (RbNode.of d w x y).setChild d q = RbNode.of d w q y := by
  cases d <;> rfl

@[simp] lemma of_setChild_flip : (RbNode.of d w x y).setChild d.flip q = RbNode.of d w x q := by
  cases d <;> rfl

@[simp] lemma of_parentColor : (RbNode.of d w x y).parentColor = w := by cases d <;> rfl

lemma of_setParent (h : Aligned p) :
    (RbNode.of d (pack p c) x y).setParent q = RbNode.of d (pack q c) x y := by
  rw [RbNode.setParent, of_parentColor, pack_setParent h]
  cases d <;> rfl

lemma flip_of : RbNode.of d.flip w x y = RbNode.of d w y x := by cases d <;> rfl

end Records

/-! ### Layouts -/

/-- The address of a node. -/
structure Good (p : Ptr) : Prop where
  ne_zero : p ≠ 0
  aligned : Aligned p

/-- The pointer to a tree. -/
def ptr : Tree Ptr → Ptr
  | .nil => 0
  | .node _ _ a _ => a

/-- The memory has the tree, below `par`. -/
def Layout (node : Ptr → RbNode) : Ptr → Tree Ptr → Prop
  | _, .nil => True
  | par, .node c l a r =>
    Good a ∧ node a = RbNode.of .left (pack par c) (ptr l) (ptr r) ∧ Layout node a l ∧
      Layout node a r

/-- The parent of a place. -/
def above : Path Ptr → Ptr
  | [] => 0
  | q :: _ => q.val

/-- The side of its parent that a place is on. -/
def side : Path Ptr → Dir
  | [] => .left
  | q :: _ => q.dir

/-- The nodes around a place. -/
def nodes : Path Ptr → List Ptr
  | [] => []
  | q :: p => q.val :: (q.other.toList ++ nodes p)

attribute [local simp] nodes

/-- The memory has the nodes around a place, with the pointer `x` at the place. -/
def PathLayout (node : Ptr → RbNode) : Ptr → Path Ptr → Prop
  | _, [] => True
  | x, q :: p =>
    Good q.val ∧ node q.val = RbNode.of q.dir (pack (above p) q.color) x (ptr q.other) ∧
      Layout node q.val q.other ∧ PathLayout node q.val p

/-- The root of the tree with the pointer `x` at the place. -/
def top : Path Ptr → Ptr → Ptr
  | [], x => x
  | q :: p, _ => top p q.val

/-- The memory has the tree `plug p t`. -/
structure Place (m : Mem) (p : Path Ptr) (t : Tree Ptr) : Prop where
  intro ::
  path : PathLayout m.node (ptr t) p
  tree : Layout m.node (above p) t
  root : m.root = top p (ptr t)
  nodup : (t.toList ++ nodes p).Nodup

section Layouts

variable {node node' : Ptr → RbNode} {par par' x x' : Ptr} {t : Tree Ptr} {p : Path Ptr}
  {d : Dir} {c : Color} {a : Ptr} {y z : Tree Ptr}

@[simp] lemma ptr_mk : ptr (mk d c y a z) = a := by cases d <;> rfl

lemma layout_mk : Layout node par (mk d c y a z) ↔
    Good a ∧ node a = RbNode.of d (pack par c) (ptr y) (ptr z) ∧ Layout node a y ∧
      Layout node a z := by
  cases d with
  | left => rfl
  | right =>
    show _ ∧ _ ∧ _ ∧ _ ↔ _ ∧ _ ∧ _ ∧ _
    rw [and_comm (a := Layout node a z), ← flip_of]
    rfl

lemma toList_mk_perm : (mk d c y a z).toList.Perm (a :: (y.toList ++ z.toList)) := by
  cases d with
  | left => exact perm_middle
  | right => exact List.perm_middle.trans (List.perm_append_comm.cons a)

section

variable (ht : Layout node par t)

include ht

lemma ptr_eq_zero : ptr t = 0 ↔ t = .nil := by
  cases t with
  | nil => simp [ptr]
  | node => simpa [ptr] using ht.1.ne_zero

lemma ptr_mem (h : ptr t ≠ 0) : ptr t ∈ t.toList := by
  cases t with
  | nil => exact absurd rfl h
  | node => simp [ptr]

lemma Layout.good {e : Ptr} (he : e ∈ t.toList) : Good e := by
  induction t generalizing par with
  | nil => simp at he
  | node _ _ _ _ ihl ihr =>
    obtain ⟨ha, -, hl, hr⟩ := ht
    rw [Tree.toList, mem_append, mem_cons] at he
    rcases he with he | rfl | he
    · exact ihl hl he
    · exact ha
    · exact ihr hr he

lemma Layout.congr (h : ∀ e ∈ t.toList, node' e = node e) : Layout node' par t := by
  induction t generalizing par with
  | nil => trivial
  | node _ _ a _ ihl ihr =>
    obtain ⟨ha, hrec, hl, hr⟩ := ht
    refine ⟨ha, ?_, ihl hl ?_, ihr hr ?_⟩
    · rw [h a (by simp), hrec]
    · intro e he
      exact h e (by simp [he])
    · intro e he
      exact h e (by simp [he])

lemma Layout.reparent (hpar : Aligned par) (hn : t.toList.Nodup)
    (h : ∀ e ∈ t.toList, node' e = if e = ptr t then (node e).setParent par' else node e) :
    Layout node' par' t := by
  cases t with
  | nil => trivial
  | node _ _ a =>
    obtain ⟨ha, hrec, hl, hr⟩ := ht
    rw [Tree.toList, nodup_middle, nodup_cons, mem_append, not_or] at hn
    refine ⟨ha, ?_, hl.congr ?_, hr.congr ?_⟩
    · rw [h a (by simp), ptr, if_pos rfl, hrec, of_setParent hpar]
    · intro e he
      rw [h e (by simp [he]), ptr, if_neg (ne_of_mem_of_not_mem he hn.1.1)]
    · intro e he
      rw [h e (by simp [he]), ptr, if_neg (ne_of_mem_of_not_mem he hn.1.2)]

end

lemma aligned_above (hp : PathLayout node x p) : Aligned (above p) := by
  cases p with
  | nil => exact aligned_zero
  | cons => exact hp.1.aligned

lemma above_mem (h : p ≠ []) : above p ∈ nodes p := by
  cases p with
  | nil => exact absurd rfl h
  | cons => simp [above]

section

variable (hp : PathLayout node x p)

include hp

lemma PathLayout.good {e : Ptr} (he : e ∈ nodes p) : Good e := by
  induction p generalizing x with
  | nil => simp at he
  | cons _ _ ih =>
    obtain ⟨hq, -, ho, hp⟩ := hp
    rw [nodes, mem_cons, mem_append] at he
    rcases he with rfl | he | he
    · exact hq
    · exact ho.good he
    · exact ih hp he

lemma PathLayout.congr (h : ∀ e ∈ nodes p, node' e = node e) : PathLayout node' x p := by
  induction p generalizing x with
  | nil => trivial
  | cons q _ ih =>
    obtain ⟨hq, hrec, ho, hp⟩ := hp
    refine ⟨hq, ?_, ho.congr ?_, ih hp ?_⟩
    · rw [h q.val (by simp), hrec]
    · intro e he
      exact h e (by simp [he])
    · intro e he
      exact h e (by simp [he])

lemma PathLayout.relink (hn : (nodes p).Nodup) (h : ∀ e ∈ nodes p,
      node' e = if e = above p then (node e).setChild (side p) x' else node e) :
    PathLayout node' x' p := by
  cases p with
  | nil => trivial
  | cons q =>
    obtain ⟨hq, hrec, ho, hp⟩ := hp
    rw [nodes, nodup_cons, mem_append, not_or] at hn
    refine ⟨hq, ?_, ho.congr ?_, hp.congr ?_⟩
    · rw [h q.val (by simp), above, side, if_pos rfl, hrec, of_setChild]
    · intro e he
      rw [h e (by simp [he]), above, if_neg (ne_of_mem_of_not_mem he hn.1.1)]
    · intro e he
      rw [h e (by simp [he]), above, if_neg (ne_of_mem_of_not_mem he hn.1.2)]

end

end Layouts

/-! ### Moving around -/

section Moving

variable {m : Mem} {p : Path Ptr} {t : Tree Ptr} {q : Crumb Ptr}

lemma place_cons : Place m (q :: p) t ↔ Place m p (mk q.dir q.color t q.val q.other) := by
  have hperm : (t.toList ++ nodes (q :: p)).Perm
      ((mk q.dir q.color t q.val q.other).toList ++ nodes p) := by
    refine (List.perm_middle.trans ?_)
    rw [← append_assoc, ← cons_append]
    exact (toList_mk_perm.symm).append_right _
  constructor
  · rintro ⟨⟨hq, hrec, ho, hp⟩, ht, hroot, hn⟩
    exact ⟨by rwa [ptr_mk], layout_mk.mpr ⟨hq, hrec, ht, ho⟩, by rwa [ptr_mk],
      hperm.nodup_iff.mp hn⟩
  · rintro ⟨hp, ht, hroot, hn⟩
    rw [ptr_mk] at hp hroot
    obtain ⟨hq, hrec, ht, ho⟩ := layout_mk.mp ht
    exact ⟨⟨hq, hrec, ho, hp⟩, ht, hroot, hperm.nodup_iff.mpr hn⟩

lemma place_near {x y : Tree Ptr} {a : Ptr} {c : Color} {d : Dir} :
    Place m p (mk d c x a y) ↔ Place m (⟨d, c, a, y⟩ :: p) x := by
  rw [place_cons]

lemma place_far {x y : Tree Ptr} {a : Ptr} {c : Color} {d : Dir} :
    Place m p (mk d c x a y) ↔ Place m (⟨d.flip, c, a, x⟩ :: p) y := by
  rw [place_cons, mk_flip]

lemma place_plug : Place m [] (plug p t) ↔ Place m p t := by
  induction p generalizing t with
  | nil => rfl
  | cons _ _ ih => rw [plug, ih, place_cons]

lemma place_append {q : Path Ptr} : Place m (q ++ p) t ↔ Place m p (plug q t) := by
  rw [← place_plug, plug_append, place_plug]

lemma nodes_append (q p : Path Ptr) : nodes (q ++ p) = nodes q ++ nodes p := by
  induction q with
  | nil => rfl
  | cons _ _ ih => simp [ih]

lemma toList_plug_perm : (plug p t).toList.Perm (t.toList ++ nodes p) := by
  induction p generalizing t with
  | nil => simp [plug]
  | cons _ _ ih =>
    refine ih.trans ((toList_mk_perm.append_right _).trans ?_)
    rw [cons_append, append_assoc]
    exact List.perm_middle.symm

lemma ptr_plug : ptr (plug p t) = top p (ptr t) := by
  induction p generalizing t with
  | nil => rfl
  | cons _ _ ih => rw [plug, ih, ptr_mk, top]

lemma top_mem (h : p ≠ []) (u : Ptr) : top p u ∈ nodes p := by
  induction p generalizing u with
  | nil => exact absurd rfl h
  | cons q p ih =>
    cases p with
    | nil => simp [top]
    | cons =>
      rw [nodes, mem_cons, mem_append]
      exact .inr (.inr (ih (by simp) q.val))

end Moving

end LklPort.Rbtree.Heap
