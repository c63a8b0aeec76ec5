import LklPort.Machine.Basic
import LklPort.Words.Align

/-!
# The resource tree

`kernel/resource.c` keeps the ranges of addresses in use as a tree of `struct resource`. The
children of a node are linked through `sibling` in the order of their addresses, and every node
has a pointer to its parent. Addresses are 64-bit words.

A result `none` of a function means that it went wrong: it followed a pointer that leads nowhere,
or a loop over the nodes did not end within as many rounds as there are nodes.
-/

namespace LklPort.Resource

open Machine

/-- `struct resource`. -/
structure Res where
  start : ℕ
  end_ : ℕ
  parent : Option ℕ
  child : Option ℕ
  sibling : Option ℕ
  deriving DecidableEq

/-- The resources, numbered from 0 to `size - 1`. `root` is the root of the tree. -/
structure Mem where
  size : ℕ
  root : ℕ
  res : ℕ → Res

def Mem.modify (m : Mem) (n : ℕ) (f : Res → Res) : Mem :=
  { m with res := Function.update m.res n (f (m.res n)) }

def Mem.setParent (m : Mem) (n : ℕ) (v : Option ℕ) : Mem :=
  m.modify n fun r => { r with parent := v }

def Mem.setChild (m : Mem) (n : ℕ) (v : Option ℕ) : Mem :=
  m.modify n fun r => { r with child := v }

def Mem.setSibling (m : Mem) (n : ℕ) (v : Option ℕ) : Mem :=
  m.modify n fun r => { r with sibling := v }

/-- A pointer to a pointer: the field `child` or the field `sibling` of a node. -/
inductive Link where
  | child (n : ℕ)
  | sibling (n : ℕ)

def Link.get (m : Mem) : Link → Option ℕ
  | .child n => (m.res n).child
  | .sibling n => (m.res n).sibling

def Link.set (m : Mem) (v : Option ℕ) : Link → Mem
  | .child n => m.setChild n v
  | .sibling n => m.setSibling n v

/-- `start + size - 1`. -/
def lastOf (start size : ℕ) : ℕ := (start + size + (2 ^ 64 - 1)) % 2 ^ 64

/-! ### Requests and releases -/

/-- The loop of `__request_resource`: where the new node belongs, or the node it conflicts with. -/
def requestAt (m : Mem) (start end_ : ℕ) : (rounds : ℕ) → Link → Option (Link ⊕ ℕ)
  | 0, _ => none
  | rounds + 1, p =>
    match p.get m with
    | none => some (.inl p)
    | some tmp =>
      if (m.res tmp).start > end_ then some (.inl p)
      else if (m.res tmp).end_ < start then requestAt m start end_ rounds (.sibling tmp)
      else some (.inr tmp)

/-- The node is linked in at `p`. -/
def linkAt (m : Mem) (root new : ℕ) (p : Link) : Mem :=
  let m := m.setSibling new (p.get m)
  let m := p.set m (some new)
  m.setParent new (some root)

/-- `__request_resource`. The first part of the result is the node in conflict. -/
def requestResource (m : Mem) (root new : ℕ) : Option (Option ℕ × Mem) :=
  let start := (m.res new).start
  let end_ := (m.res new).end_
  if end_ < start then some (some root, m)
  else if start < (m.res root).start then some (some root, m)
  else if end_ > (m.res root).end_ then some (some root, m)
  else
    match requestAt m start end_ (m.size + 1) (.child root) with
    | none => none
    | some (.inl p) => some (none, linkAt m root new p)
    | some (.inr tmp) => some (some tmp, m)

/-- The loop of `__release_resource`. There is no link where the source returns `-EINVAL`. -/
def releaseAt (m : Mem) (old : ℕ) : (rounds : ℕ) → Link → Option (Option Link)
  | 0, _ => none
  | rounds + 1, p =>
    match p.get m with
    | none => some none
    | some tmp => if tmp = old then some (some p) else releaseAt m old rounds (.sibling tmp)

/-- `__release_resource`. The result is `false` for `-EINVAL`. -/
def releaseResource (m : Mem) (old : ℕ) : Option (Bool × Mem) :=
  match (m.res old).parent with
  | none => none
  | some parent =>
    match releaseAt m old (m.size + 1) (.child parent) with
    | none => none
    | some none => some (false, m)
    | some (some p) =>
      let m := p.set m (m.res old).sibling
      some (true, m.setParent old none)

/-! ### Insertion -/

/-- How the first loop of `__insert_resource` ends: with a result, or at a node `first` below
`parent` that the new node does not fit into. -/
inductive Descent where
  | result (conflict : Option ℕ) (m : Mem)
  | stop (parent first : ℕ)

/-- The first loop of `__insert_resource`. -/
def descend (m : Mem) (new : ℕ) : (rounds parent : ℕ) → Option Descent
  | 0, _ => none
  | rounds + 1, parent =>
    match requestResource m parent new with
    | none => none
    | some (none, m) => some (.result none m)
    | some (some first, m) =>
      if first = parent then some (.result (some first) m)
      else if (m.res first).start > (m.res new).start ∨
          (m.res first).end_ < (m.res new).end_ then some (.stop parent first)
      else if (m.res first).start = (m.res new).start ∧
          (m.res first).end_ = (m.res new).end_ then some (.stop parent first)
      else descend m new rounds first

/-- The second loop of `__insert_resource`: the last node that becomes a child of the new one, or
one that overlaps it only in part. -/
def lastCovered (m : Mem) (new : ℕ) : (rounds next : ℕ) → Option (ℕ ⊕ ℕ)
  | 0, _ => none
  | rounds + 1, next =>
    if (m.res next).start < (m.res new).start ∨ (m.res next).end_ > (m.res new).end_ then
      some (.inr next)
    else
      match (m.res next).sibling with
      | none => some (.inl next)
      | some sibling =>
        if (m.res sibling).start > (m.res new).end_ then some (.inl next)
        else lastCovered m new rounds sibling

/-- The nodes of a list get a new parent. -/
def adopt (new : ℕ) : (rounds : ℕ) → Option ℕ → Mem → Option Mem
  | 0, _, _ => none
  | _ + 1, none, m => some m
  | rounds + 1, some next, m =>
    adopt new rounds (m.res next).sibling (m.setParent next (some new))

/-- `while (next->sibling != node) next = next->sibling`. -/
def predecessor (m : Mem) (node : ℕ) : (rounds next : ℕ) → Option ℕ
  | 0, _ => none
  | rounds + 1, next =>
    if (m.res next).sibling = some node then some next
    else
      match (m.res next).sibling with
      | none => none
      | some sibling => predecessor m node rounds sibling

/-- The new node takes the place of `first` below `parent`. -/
def replaceFirst (m : Mem) (parent first new : ℕ) : Option Mem :=
  if (m.res parent).child = some first then
    some (m.setChild parent (some new))
  else
    match (m.res parent).child with
    | none => none
    | some next =>
      match predecessor m first (m.size + 1) next with
      | none => none
      | some next => some (m.setSibling next (some new))

/-- The end of `__insert_resource`: the nodes from `first` to `next` become children of `new`. -/
def regroup (m : Mem) (parent first next new : ℕ) : Option Mem :=
  let m := m.setParent new (some parent)
  let m := m.setSibling new (m.res next).sibling
  let m := m.setChild new (some first)
  let m := m.setSibling next none
  match adopt new (m.size + 1) (some first) m with
  | none => none
  | some m => replaceFirst m parent first new

def insertResource (m : Mem) (parent new : ℕ) : Option (Option ℕ × Mem) :=
  match descend m new (m.size + 1) parent with
  | none => none
  | some (.result conflict m) => some (conflict, m)
  | some (.stop parent first) =>
    match lastCovered m new (m.size + 1) first with
    | none => none
    | some (.inr conflict) => some (some conflict, m)
    | some (.inl next) =>
      match regroup m parent first next new with
      | none => none
      | some m => some (none, m)

/-- The new node is made to cover the one it conflicts with. -/
def cover (m : Mem) (new conflict : ℕ) : Mem :=
  let m := m.modify new fun r =>
    if (m.res conflict).start < r.start then { r with start := (m.res conflict).start } else r
  m.modify new fun r =>
    if (m.res conflict).end_ > r.end_ then { r with end_ := (m.res conflict).end_ } else r

/-- The loop of `insert_resource_expand_to_fit`. -/
def expandLoop (root new : ℕ) : (rounds : ℕ) → Mem → Option Mem
  | 0, _ => none
  | rounds + 1, m =>
    match insertResource m root new with
    | none => none
    | some (none, m) => some m
    | some (some conflict, m) =>
      if conflict = root then some m else expandLoop root new rounds (cover m new conflict)

/-- `insert_resource_expand_to_fit`. In every round the new node grows, and it stays inside the
root. -/
def insertResourceExpandToFit (m : Mem) (root new : ℕ) : Option Mem :=
  if (m.res new).parent.isSome then some m
  else expandLoop root new ((m.res new).start + (m.res root).end_ + 1) m

/-! ### Allocation -/

/-- The arguments of `allocate_resource` other than the nodes. -/
structure Wish where
  size : ℕ
  min : ℕ
  max : ℕ
  align : ℕ
  alignf : Option (Res → ℕ → ℕ → ℕ)

/-- The part of the loop of `find_resource` that fits `tmp` to the wish. -/
def Wish.fit (w : Wish) (tmp : Res) : Res :=
  let tmp := if tmp.start < w.min then { tmp with start := w.min } else tmp
  let tmp := if tmp.end_ > w.max then { tmp with end_ := w.max } else tmp
  let tmp := { tmp with start := Words.align tmp.start w.align }
  match w.alignf with
  | none => tmp
  | some f => { tmp with start := f tmp w.size w.align }

/-- Where the gap before `this` ends. -/
def gapEnd (m : Mem) (root : ℕ) : Option ℕ → ℕ
  | some this => ((m.res this).start + (2 ^ 64 - 1)) % 2 ^ 64
  | none => (m.res root).end_

/-- The loop of `find_resource`: the range for the new node, or none for `-EBUSY`. -/
def findLoop (m : Mem) (root : ℕ) (w : Wish) :
    (rounds : ℕ) → Res → Option ℕ → Option (Option (ℕ × ℕ))
  | 0, _, _ => none
  | rounds + 1, tmp, this =>
    let tmp := w.fit { tmp with end_ := gapEnd m root this }
    if tmp.start < tmp.end_ ∧ tmp.end_ - tmp.start ≥ (w.size + (2 ^ 64 - 1)) % 2 ^ 64 then
      some (some (tmp.start, lastOf tmp.start w.size))
    else
      match this with
      | none => some none
      | some this =>
        findLoop m root w rounds { tmp with start := ((m.res this).end_ + 1) % 2 ^ 64 }
          (m.res this).sibling

/-- `find_resource`. A child that starts at 0 is skipped. -/
def findResource (m : Mem) (root new : ℕ) (w : Wish) : Option (Option (ℕ × ℕ)) :=
  let tmp := { m.res new with start := (m.res root).start }
  match (m.res root).child with
  | none => findLoop m root w (m.size + 1) tmp none
  | some this =>
    if (m.res this).start = 0 then
      findLoop m root w (m.size + 1) { tmp with start := ((m.res this).end_ + 1) % 2 ^ 64 }
        (m.res this).sibling
    else findLoop m root w (m.size + 1) tmp (some this)

/-- The caller or `find_resource` sets the range of a node. -/
def setRange (m : Mem) (n start end_ : ℕ) : Mem :=
  m.modify n fun r => { r with start := start, end_ := end_ }

/-- `allocate_resource`. The result is `false` for `-EBUSY`. -/
def allocateResource (m : Mem) (root new : ℕ) (w : Wish) : Option (Bool × Mem) :=
  match findResource m root new w with
  | none => none
  | some none => some (false, m)
  | some (some (start, end_)) =>
    match requestResource (setRange m new start end_) root new with
    | none => none
    | some (conflict, m) => some (conflict.isNone, m)

/-! ### Changes of a range -/

/-- The children of `res` lie inside the new range. -/
def childrenInside (m : Mem) (start end_ : ℕ) : (rounds : ℕ) → Option ℕ → Option Bool
  | 0, _ => none
  | _ + 1, none => some true
  | rounds + 1, some tmp =>
    if (m.res tmp).start < start ∨ (m.res tmp).end_ > end_ then some false
    else childrenInside m start end_ rounds (m.res tmp).sibling

/-- The new start is behind the node before `res`. -/
def behindPrevious (m : Mem) (parent res start : ℕ) : Option Bool :=
  if (m.res parent).child = some res then some true
  else
    match (m.res parent).child with
    | none => none
    | some tmp =>
      match predecessor m res (m.size + 1) tmp with
      | none => none
      | some tmp => some (start > (m.res tmp).end_)

/-- The checks of `adjust_resource`. -/
def adjustable (m : Mem) (parent res start end_ : ℕ) : Option Bool :=
  if start < (m.res parent).start ∨ end_ > (m.res parent).end_ then some false
  else
    match childrenInside m start end_ (m.size + 1) (m.res res).child with
    | none => none
    | some false => some false
    | some true =>
      if (m.res res).sibling.any (fun sibling => (m.res sibling).start ≤ end_) then some false
      else behindPrevious m parent res start

/-- `adjust_resource`. The result is `false` for `-EBUSY`. -/
def adjustResource (m : Mem) (res start size : ℕ) : Option (Bool × Mem) :=
  match (m.res res).parent with
  | none => none
  | some parent =>
    match adjustable m parent res start (lastOf start size) with
    | none => none
    | some false => some (false, m)
    | some true => some (true, setRange m res start (lastOf start size))

/-! ### Runs -/

/-- A call. The caller of the first, third and fourth has set the range of the new node. -/
inductive Action where
  | request (root new start end_ : ℕ)
  | release (old : ℕ)
  | insert (parent new start end_ : ℕ)
  | expand (root new start end_ : ℕ)
  | allocate (root new : ℕ) (w : Wish)
  | adjust (res start size : ℕ)

/-- The node is in the tree. -/
def Mem.Linked (m : Mem) (n : ℕ) : Prop := n = m.root ∨ (m.res n).parent.isSome = true
  deriving Decidable

/-- What a call returns (`false` for a conflict or an error) and the memory it leaves. -/
def call (m : Mem) : Action → Option (Bool × Mem)
  | .request root new start end_ =>
    (requestResource (setRange m new start end_) root new).map fun r => (r.1.isNone, r.2)
  | .release old => releaseResource m old
  | .insert parent new start end_ =>
    (insertResource (setRange m new start end_) parent new).map fun r => (r.1.isNone, r.2)
  | .expand root new start end_ =>
    (insertResourceExpandToFit (setRange m new start end_) root new).map fun m => (true, m)
  | .allocate root new w => allocateResource m root new w
  | .adjust res start size => adjustResource m res start size

/-- New nodes are not in the tree, what is released is a leaf, and the range of the root is not
changed. -/
def Allowed (m : Mem) : Action → Prop
  | .request root new _ _ | .insert root new _ _ | .expand root new _ _ | .allocate root new _ =>
    m.Linked root ∧ ¬ m.Linked new ∧ new < m.size
  | .release old => m.Linked old ∧ old ≠ m.root ∧ (m.res old).child = none
  | .adjust res _ _ => m.Linked res ∧ res ≠ m.root

instance (m : Mem) (a : Action) : Decidable (Allowed m a) := by
  cases a <;> dsimp only [Allowed] <;> infer_instance

/-- Calls one after another, from a given tree. -/
def machine (m₀ : Mem) : Machine Mem Action where
  init := m₀
  guard := Allowed
  next m a := match call m a with
    | some r => r.2
    | none => m

instance (m₀ m : Mem) (a : Action) : Decidable ((machine m₀).guard m a) :=
  inferInstanceAs (Decidable (Allowed m a))

end LklPort.Resource
