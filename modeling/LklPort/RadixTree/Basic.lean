import Mathlib.Algebra.Group.Nat.Defs
import Mathlib.Data.BitVec

/-!
# Radix trees

A radix tree maps indices to items. A node of height `h` has 64 slots, one for each value of the
`h`-th group of six bits of the index, and an item hangs in a slot of a node of height 1. The tree
is as high as its largest index needs; a tree with the index 0 alone has no node. Each slot has two
tag bits. The bit of a slot with an item is the item's tag, and the bit of another slot says that
there is an item with this tag below. The bits of the whole tree are in its root.

A pointer in a slot does not say whether it points to a node or to an item, the code knows it from
the height. Here it does, and the functions return `none` if the code would take the one for the
other, dereference `NULL` or run into a `BUG_ON`.

A list of Booleans says which of the next allocations succeed.
-/

namespace LklPort.RadixTree

open Function

/-- An `unsigned long`. -/
abbrev Index := BitVec 64

/-- A slot of a node, one of `RADIX_TREE_MAP_SIZE`. -/
abbrev Offset := Fin 64

/-- A tag, one of `RADIX_TREE_MAX_TAGS`. -/
abbrev Tag := Fin 2

scoped instance neZero_offset : NeZero 64 := ⟨by decide⟩

scoped instance neZero_tag : NeZero 2 := ⟨by decide⟩

/-- A `struct radix_tree_node`, with pointers of type `P`. -/
structure Node (P : Type) where
  height : ℕ
  count : ℕ
  slots : Offset → Option P
  tags : Tag → Offset → Bool

/-- A pointer to an item or a node. -/
inductive Ptr (α : Type) where
  | item (a : α)
  | node (n : Node (Ptr α))

/-- A `struct radix_tree_root`. -/
structure Root (α : Type) where
  height : ℕ
  /-- The tag bits of `gfp_mask`. -/
  tags : Tag → Bool
  /-- The pointer and its low bit, which is set for a node. -/
  rnode : Option (Bool × Ptr α)

/-- `RADIX_TREE_INIT`. -/
def init (α : Type) : Root α := ⟨0, fun _ => false, none⟩

/-- `__maxindex`, the contents of the table of `radix_tree_maxindex`. -/
def maxindex (height : ℕ) : ℕ :=
  let shift : ℤ := 64 - 6 * height
  if shift < 0 then 2 ^ 64 - 1
  else if 64 ≤ shift then 0
  else (2 ^ 64 - 1) / 2 ^ shift.toNat

/-- The slot for an index in a node of height `h + 1`. -/
def offset (index : Index) (h : ℕ) : Offset :=
  ⟨index.toNat / 2 ^ (6 * h) % 64, Nat.mod_lt _ (by decide)⟩

def emptyNode {P : Type} (height : ℕ) : Node P := ⟨height, 0, fun _ => none, fun _ _ => false⟩

/-- `tag_set` and `tag_clear`. -/
def Node.setTag {P : Type} (n : Node P) (t : Tag) (o : Offset) (value : Bool) : Node P :=
  { n with tags := update n.tags t (update (n.tags t) o value) }

def Node.anyTagSet {P : Type} (n : Node P) (t : Tag) : Bool := decide (∃ o, n.tags t o = true)

/-- `radix_tree_node_rcu_free`, before the node goes back to the slab. -/
def Node.rcuFree {P : Type} (n : Node P) : Node P :=
  { ((n.setTag 0 0 false).setTag 1 0 false) with
    slots := update n.slots 0 none
    count := 0 }

/-- `radix_tree_node_alloc`. The nodes in the slab are empty. -/
def nodeAlloc : List Bool → Bool × List Bool
  | [] => (false, [])
  | ok :: allocs => (ok, allocs)

variable {α : Type}

/-! ### Insertion -/

/-- The height that `radix_tree_extend` needs, from `height` on. -/
def growHeight (index : Index) : ℕ → ℕ → ℕ
  | 0, height => height
  | rounds + 1, height =>
    if maxindex height < index.toNat then growHeight index rounds (height + 1) else height

/-- The tree under a new node, in one round of `radix_tree_extend`. -/
def grow (root : Root α) : Root α :=
  let node : Node (Ptr α) :=
    { height := root.height + 1
      count := 1
      slots := update (fun _ => none) 0 (root.rnode.map Prod.snd)
      tags := fun t o => decide (o = 0) && root.tags t }
  { root with height := root.height + 1, rnode := some (true, .node node) }

/-- The loop of `radix_tree_extend`. -/
def extendLoop : ℕ → Root α → List Bool → Bool × Root α × List Bool
  | 0, root, allocs => (true, root, allocs)
  | rounds + 1, root, allocs =>
    match nodeAlloc allocs with
    | (false, allocs) => (false, root, allocs)
    | (true, allocs) => extendLoop rounds (grow root) allocs

/-- `radix_tree_extend`, where `false` is `-ENOMEM`. -/
def extend (root : Root α) (index : Index) (allocs : List Bool) : Bool × Root α × List Bool :=
  let height := growHeight index 11 (root.height + 1)
  match root.rnode with
  | none => (true, { root with height := height }, allocs)
  | some _ => extendLoop (height - root.height) root allocs

/-- The results of `radix_tree_insert`. -/
inductive Ret where
  | ok
  | enomem
  | eexist
  deriving DecidableEq

/-- A child node is added if the slot is empty. -/
def childNode (h : ℕ) (slot : Option (Ptr α)) (allocs : List Bool) : Option (Ptr α) × List Bool :=
  match slot with
  | some p => (some p, allocs)
  | none =>
    match nodeAlloc allocs with
    | (false, allocs) => (none, allocs)
    | (true, allocs) => (some (.node (emptyNode h)), allocs)

/-- The loop of `radix_tree_insert`, from a slot on that has `h` levels below it, with the contents
of the slot afterwards. -/
def insertDown (index : Index) (a : α) :
    ℕ → Option (Ptr α) → List Bool → Option (Ret × Option (Ptr α) × List Bool)
  | 0, some p, allocs => some (.eexist, some p, allocs)
  | 0, none, allocs => some (.ok, some (.item a), allocs)
  | h + 1, slot, allocs =>
    match childNode (h + 1) slot allocs with
    | (none, allocs) => some (.enomem, none, allocs)
    | (some (.item _), _) => none
    | (some (.node n), allocs) =>
      let o := offset index h
      match insertDown index a h (n.slots o) allocs with
      | none => none
      | some (r, child, allocs) =>
        if h = 0 ∧ r = .ok ∧ (n.tags 0 o ∨ n.tags 1 o) then none
        else
          let count :=
            if (n.slots o).isNone ∧ child.isSome then n.count + 1 else n.count
          some (r, some (.node { n with slots := update n.slots o child, count := count }), allocs)

/-- `radix_tree_insert` in a tree that is high enough. -/
def insertItem (root : Root α) (index : Index) (a : α) (allocs : List Bool) :
    Option (Ret × Root α) :=
  match insertDown index a root.height (root.rnode.map Prod.snd) allocs with
  | none => none
  | some (r, rnode, _) =>
    if root.height = 0 ∧ r = .ok ∧ (root.tags 0 ∨ root.tags 1) then none
    else
      -- a new node is marked, an old pointer stays as it is
      let bit := (root.rnode.map Prod.fst).getD (decide (0 < root.height))
      some (r, { root with rnode := rnode.map fun p => (bit, p) })

/-- `radix_tree_insert`. -/
def insert (root : Root α) (index : Index) (a : α) (allocs : List Bool) : Option (Ret × Root α) :=
  if maxindex root.height < index.toNat then
    match extend root index allocs with
    | (false, root, _) => some (.enomem, root)
    | (true, root, allocs) => insertItem root index a allocs
  else insertItem root index a allocs

/-! ### Lookup -/

/-- The loop of `radix_tree_lookup_element`, from a pointer on with `h` levels below it. -/
def lookupDown (index : Index) : ℕ → Ptr α → Option (Option α)
  | 0, .item a => some (some a)
  | 0, .node _ => none
  | _ + 1, .item _ => none
  | h + 1, .node n =>
    match n.slots (offset index h) with
    | none => some none
    | some p => lookupDown index h p

/-- `radix_tree_lookup`. -/
def lookup (root : Root α) (index : Index) : Option (Option α) :=
  match root.rnode with
  | none => some none
  | some (false, p) => if 0 < index.toNat then some none else lookupDown index 0 p
  | some (true, .item _) => none
  | some (true, .node n) =>
    if maxindex n.height < index.toNat then some none else lookupDown index n.height (.node n)

/-! ### Tags -/

/-- The loop of `radix_tree_tag_set`. -/
def tagSetDown (index : Index) (t : Tag) : ℕ → Ptr α → Option (α × Ptr α)
  | 0, .item a => some (a, .item a)
  | 0, .node _ => none
  | _ + 1, .item _ => none
  | h + 1, .node n =>
    match n.slots (offset index h) with
    | none => none
    | some p =>
      match tagSetDown index t h p with
      | none => none
      | some (a, p) =>
        some (a, .node { n.setTag t (offset index h) true with
          slots := update n.slots (offset index h) (some p) })

/-- `radix_tree_tag_set`. -/
def tagSet (root : Root α) (index : Index) (t : Tag) : Option (Option α × Root α) :=
  if maxindex root.height < index.toNat then none
  else
    match root.rnode with
    | none => if root.height = 0 then some (none, root) else none
    | some (bit, p) =>
      match tagSetDown index t root.height p with
      | none => none
      | some (a, p) =>
        some (some a, { root with
          rnode := some (bit, p)
          tags := update root.tags t true })

/-- The loops of `radix_tree_tag_clear`: on the way up, the last component says that no item below
has the tag any more and the bits above are to be looked at. -/
def tagClearDown (index : Index) (t : Tag) : ℕ → Ptr α → Option (Option α × Ptr α × Bool)
  | 0, .item a => some (some a, .item a, true)
  | 0, .node _ => none
  | _ + 1, .item _ => none
  | h + 1, .node n =>
    match n.slots (offset index h) with
    | none => some (none, .node n, false)
    | some p =>
      match tagClearDown index t h p with
      | none => none
      | some (r, p, up) =>
        let n := { n with slots := update n.slots (offset index h) (some p) }
        if up ∧ n.tags t (offset index h) then
          let n := n.setTag t (offset index h) false
          some (r, .node n, !n.anyTagSet t)
        else some (r, .node n, false)

/-- `radix_tree_tag_clear`. -/
def tagClear (root : Root α) (index : Index) (t : Tag) : Option (Option α × Root α) :=
  if maxindex root.height < index.toNat then some (none, root)
  else
    match root.rnode with
    | none => some (none, root)
    | some (bit, p) =>
      match tagClearDown index t root.height p with
      | none => none
      | some (r, p, up) =>
        some (r, { root with
          rnode := some (bit, p)
          tags := if up then update root.tags t false else root.tags })

/-- The loop of `radix_tree_tag_get`, which finds the bit of the item in its node. -/
def tagGetDown (index : Index) (t : Tag) : ℕ → Option (Ptr α) → Option Bool
  | 0, _ => none
  | _ + 1, none => some false
  | _ + 1, some (.item _) => none
  | h + 1, some (.node n) =>
    if h = 0 then some (n.tags t (offset index h))
    else tagGetDown index t h (n.slots (offset index h))

/-- `radix_tree_tag_get`. -/
def tagGet (root : Root α) (index : Index) (t : Tag) : Option Bool :=
  if root.tags t = false then some false
  else
    match root.rnode with
    | none => some false
    | some (false, _) => some (decide (index = 0))
    | some (true, .item _) => none
    | some (true, .node n) =>
      if maxindex n.height < index.toNat then some false
      else tagGetDown index t n.height (some (.node n))

/-! ### Deletion -/

/-- What the loop of `radix_tree_delete` has done when it is finished with a node. -/
inductive Removed (α : Type) where
  /-- The node is empty and was freed, or it was the item. -/
  | freed
  /-- The node is still used. The loop has stopped here or at a node below. -/
  | kept (p : Ptr α) (here : Bool)

/-- The loop of `radix_tree_delete` that frees the nodes that are not needed any more. The list has
the nodes that it frees. -/
def removeDown (index : Index) : ℕ → Ptr α → Option (Removed α × List (Node (Ptr α)))
  | 0, .item _ => some (.freed, [])
  | 0, .node _ => none
  | _ + 1, .item _ => none
  | h + 1, .node n =>
    match n.slots (offset index h) with
    | none => none
    | some p =>
      match removeDown index h p with
      | none => none
      | some (.freed, nodes) =>
        let n := { n with
          slots := update n.slots (offset index h) none
          count := n.count - 1 }
        if n.count ≠ 0 then some (.kept (.node n) true, nodes)
        else some (.freed, nodes ++ [n])
      | some (.kept p _, nodes) =>
        some (.kept (.node { n with
          slots := update n.slots (offset index h) (some p) }) false, nodes)

/-- `radix_tree_shrink`, with the nodes that it frees. -/
def shrink : ℕ → Root α → Option (Root α × List (Node (Ptr α)))
  | 0, root => some (root, [])
  | h + 1, root =>
    match root.rnode with
    | some (true, .node n) =>
      if n.count ≠ 1 then some (root, [])
      else
        match n.slots 0 with
        | none => some (root, [])
        | some p =>
          match shrink h { root with height := h, rnode := some (decide (0 < h), p) } with
          | none => none
          | some (root, nodes) => some (root, n :: nodes)
    | _ => none

/-- The tag of an item that is to be deleted is cleared. -/
def clearForDelete (root : Root α) (index : Index) (t : Tag) : Option (Root α) :=
  match tagGetDown index t root.height (root.rnode.map Prod.snd) with
  | none => none
  | some false => some root
  | some true => (tagClear root index t).map Prod.snd

/-- The last part of `radix_tree_delete`. -/
def remove (root : Root α) (index : Index) : Option (Root α × List (Node (Ptr α))) :=
  match root.rnode with
  | none => none
  | some (bit, p) =>
    match removeDown index root.height p with
    | none => none
    | some (.freed, nodes) => some (⟨0, fun _ => false, none⟩, nodes)
    | some (.kept p here, nodes) =>
      let root := { root with rnode := some (bit, p) }
      if here then
        match shrink root.height root with
        | none => none
        | some (root, nodes') => some (root, nodes ++ nodes')
      else some (root, nodes)

/-- `radix_tree_delete`, with the nodes that it frees. -/
def delete (root : Root α) (index : Index) : Option (Option α × Root α × List (Node (Ptr α))) :=
  if maxindex root.height < index.toNat then some (none, root, [])
  else
    match root.rnode with
    | none =>
      if root.height = 0 then some (none, { root with tags := fun _ => false }, [])
      else some (none, root, [])
    | some (_, p) =>
      match lookupDown index root.height p with
      | none => none
      | some none => some (none, root, [])
      | some (some a) =>
        if root.height = 0 then
          some (some a, { root with tags := fun _ => false, rnode := none }, [])
        else
          match (clearForDelete root index 0).bind fun root => clearForDelete root index 1 with
          | none => none
          | some root => (remove root index).map fun r => (some a, r.1, r.2)

end LklPort.RadixTree
