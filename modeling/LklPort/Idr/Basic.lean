import Mathlib.Algebra.Group.Nat.Defs
import Mathlib.Data.List.FinRange
import LklPort.Machine.Basic

/-!
# Small identifiers for pointers

An `idr` maps integers to pointers and finds integers that are not in use. It is a tree of layers
with 64 slots each. A layer at distance `l` from the leaves has one slot for each value of the
`l`-th group of six bits of the identifier. The bit of a slot says that there is no space left in
it: in a leaf because it holds a pointer, above because the layer in it is full.

Identifiers are C integers, that is 32-bit words in two's complement. A function of the model has
no result (`none`) where the source runs into a `BUG_ON`, takes a pointer of the user for a layer,
or does not leave a loop within the given number of rounds.
-/

namespace LklPort.Idr

open Machine Function

/-- An `int`. -/
abbrev Id := BitVec 32

/-- A slot of a layer, one of `IDR_SIZE`. -/
abbrev Slot := Fin 64

def idrBits : ℕ := 6

/-- `MAX_LEVEL`, from `MAX_ID_SHIFT`. -/
def maxLevel : ℕ := (31 + idrBits - 1) / idrBits

def idrFreeMax : ℕ := maxLevel + maxLevel

/-- A `struct idr_layer`, with pointers of type `P`. -/
structure Layer (P : Type) where
  bitmap : Slot → Bool
  ary : Slot → Option P
  count : ℕ
  layer : ℕ

/-- A pointer of the user or to a layer. -/
inductive Ptr (α : Type) where
  | item (a : α)
  | node (p : Layer (Ptr α))

/-- A `struct idr`. The layers in the free list are all empty, only their number matters. -/
structure Handle (α : Type) where
  top : Option (Layer (Ptr α))
  layers : ℕ
  free : ℕ

/-- `IDR_INIT`. -/
def init (α : Type) : Handle α := ⟨none, 0, 0⟩

/-- A layer from the free list. -/
def emptyLayer {P : Type} (l : ℕ) : Layer P := ⟨fun _ => false, fun _ => none, 0, l⟩

namespace Layer

variable {P : Type} (p : Layer P)

/-- `p->bitmap == IDR_FULL`. -/
def full : Bool := decide (∀ o, p.bitmap o = true)

def setBit (o : Slot) (b : Bool) : Layer P := { p with bitmap := update p.bitmap o b }

def setAry (o : Slot) (c : Option P) : Layer P := { p with ary := update p.ary o c }

end Layer

/-! ### Identifiers -/

/-- `(id >> (IDR_BITS * l)) & IDR_MASK`. -/
def slot (id : Id) (l : ℕ) : Slot :=
  ⟨(id.sshiftRight (idrBits * l)).toNat % 64, Nat.mod_lt _ (by decide)⟩

/-- `(id | ((1 << (IDR_BITS * l)) - 1)) + 1`. -/
def bump (id : Id) (l : ℕ) : Id := (id ||| ((1#32 <<< (idrBits * l)) - 1)) + 1

/-- `((id >> sh) ^ n ^ m) << sh` if `m != n`. -/
def withSlot (id : Id) (l : ℕ) (m : Slot) : Id :=
  let n := slot id l
  if m ≠ n then
    ((id.sshiftRight (idrBits * l)) ^^^ BitVec.ofNat 32 n ^^^ BitVec.ofNat 32 m) <<< (idrBits * l)
  else id

/-- `id >= 1 << (layers * IDR_BITS)`. -/
def beyond (id : Id) (layers : ℕ) : Bool := (1#32 <<< (layers * idrBits)).sle id

/-- `id & MAX_ID_MASK`. -/
def masked (id : Id) : Id := id &&& 0x7fffffff#32

/-- `find_next_bit(&bm, IDR_SIZE, n)`, where `bm` is the complement of the bit map. -/
def findNext (bitmap : Slot → Bool) (n : Slot) : Option Slot :=
  (List.finRange 64).find? fun o => decide (n ≤ o) && !bitmap o

variable {α : Type}

/-! ### The search -/

/-- An entry of the array `pa`: a layer, and the slot of it that was entered. -/
structure Frame (α : Type) where
  node : Layer (Ptr α)
  slot : Slot

/-- The layer of a frame, when `p` is what is now in the slot. -/
def Frame.fill (f : Frame α) (p : Layer (Ptr α)) : Layer (Ptr α) :=
  f.node.setAry f.slot (some (.node p))

/-- The top layer, when `p` is the layer below the frames. -/
def plug : Layer (Ptr α) → List (Frame α) → Layer (Ptr α)
  | p, [] => p
  | p, f :: pa => plug (f.fill p) pa

/-- The results of `sub_alloc`, with the top layer and the free layers that are left. -/
inductive Found (α : Type) where
  /-- An identifier, the leaf for it and the layers above. -/
  | slot (id : Id) (leaf : Layer (Ptr α)) (pa : List (Frame α)) (free : ℕ)
  /-- `IDR_NEED_TO_GROW`, with the new `starting_id`. -/
  | grow (id : Id) (top : Layer (Ptr α)) (free : ℕ)
  /-- `IDR_NOMORE_SPACE`. -/
  | noSpace (top : Layer (Ptr α)) (free : ℕ)
  /-- There is no free layer. -/
  | noMemory (top : Layer (Ptr α)) (free : ℕ)

/-- The loop of `sub_alloc` at the layer `p`, which is at distance `l` from the leaves. -/
def subAllocLoop (layers : ℕ) : ℕ → Id → ℕ → Layer (Ptr α) → List (Frame α) → ℕ → Option (Found α)
  | 0, _, _, _, _, _ => none
  | rounds + 1, id, l, p, pa, free =>
    match findNext p.bitmap (slot id l) with
    | none =>
      -- no space available go back to previous layer
      let oid := id
      let id := bump id (l + 1)
      if beyond id layers then some (.grow id (plug p pa) free)
      else
        match pa with
        | [] => none
        | f :: pa =>
          if oid.sshiftRight (idrBits * (l + 2)) = id.sshiftRight (idrBits * (l + 2)) then
            subAllocLoop layers rounds id (l + 1) (f.fill p) pa free
          else subAllocLoop layers rounds id (layers - 1) (plug (f.fill p) pa) [] free
    | some m =>
      let id := withSlot id l m
      if 2 ^ 31 ≤ id.toNat then some (.noSpace (plug p pa) free)
      else
        match l with
        | 0 => some (.slot id p pa free)
        | l + 1 =>
          match p.ary m with
          | some (.item _) => none
          | some (.node c) => subAllocLoop layers rounds id l c (⟨p, m⟩ :: pa) free
          | none =>
            match free with
            | 0 => some (.noMemory (plug p pa) 0)
            | free + 1 =>
              let p := { p.setAry m (some (.node (emptyLayer l))) with count := p.count + 1 }
              subAllocLoop layers rounds id l (emptyLayer l) (⟨p, m⟩ :: pa) free

def subAlloc (layers : ℕ) (id : Id) (top : Layer (Ptr α)) (free : ℕ) : Option (Found α) :=
  subAllocLoop layers ((layers + 1) * (layers + 1)) id (layers - 1) top [] free

/-- The layer above `p`, in a tree that grows to `layers + 1` layers. -/
def layerAbove (p : Layer (Ptr α)) (layers : ℕ) : Layer (Ptr α) where
  bitmap := update (fun _ => false) 0 p.full
  ary := update (fun _ => none) 0 (some (.node p))
  count := 1
  layer := layers

/-- How the loop of `idr_get_empty_slot` that adds layers ends. -/
inductive Grown (α : Type) where
  | done (layers : ℕ) (p : Layer (Ptr α)) (free : ℕ)
  /-- There is no free layer. Those that were taken are back in the free list. -/
  | noMemory (free : ℕ)

/-- The loop of `idr_get_empty_slot` that adds layers, `built` of which are new. -/
def growLoop (id : Id) : ℕ → (layers : ℕ) → Layer (Ptr α) → (free built : ℕ) → Option (Grown α)
  | 0, _, _, _, _ => none
  | rounds + 1, layers, p, free, built =>
    if layers < maxLevel - 1 ∧ beyond id layers then
      if p.count = 0 then
        -- the tree is empty, it grows by moving the top node upwards
        growLoop id rounds (layers + 1) { p with layer := p.layer + 1 } free built
      else
        match free with
        | 0 => some (.noMemory built)
        | free + 1 => growLoop id rounds (layers + 1) (layerAbove p layers) free (built + 1)
    else some (.done layers p free)

/-- What `idr_get_empty_slot` starts with: the top layer, perhaps a new one. -/
def startLayer (idr : Handle α) : Option (ℕ × Layer (Ptr α) × ℕ) :=
  match idr.top with
  | some p => some (idr.layers, p, idr.free)
  | none =>
    match idr.free with
    | 0 => none
    | free + 1 => some (1, emptyLayer 0, free)

/-- The results of `idr_get_new_above`. -/
inductive Ret where
  | ok (id : Id)
  | eagain
  | enospc
  deriving DecidableEq

/-- `idr_mark_full`, for the layer `p` at distance `l` from the leaves. -/
def markFull (id : Id) : ℕ → Layer (Ptr α) → List (Frame α) → Layer (Ptr α)
  | l, p, [] => p.setBit (slot id l) true
  | l, p, f :: pa =>
    let p := p.setBit (slot id l) true
    if p.full then markFull id (l + 1) (f.fill p) pa else plug p (f :: pa)

/-- `idr_get_new_above_int`, when a slot was found. -/
def install (a : α) (id : Id) (leaf : Layer (Ptr α)) (pa : List (Frame α)) : Layer (Ptr α) :=
  markFull id 0 { leaf.setAry (slot id 0) (some (.item a)) with count := leaf.count + 1 } pa

/-- `idr_get_empty_slot` and `idr_get_new_above_int`, in the round `build_up` of the first. -/
def getNewAboveLoop (a : α) : ℕ → Handle α → Id → Option (Ret × Handle α)
  | 0, _, _ => none
  | rounds + 1, idr, id =>
    match startLayer idr with
    | none => some (.eagain, idr)
    | some (layers, p, free) =>
      match growLoop id maxLevel layers p free 0 with
      | none => none
      | some (.noMemory free) => some (.eagain, { idr with free := free })
      | some (.done layers p free) =>
        match subAlloc layers id p free with
        | none => none
        | some (.noMemory top free) => some (.eagain, ⟨some top, layers, free⟩)
        | some (.noSpace top free) => some (.enospc, ⟨some top, layers, free⟩)
        | some (.grow id top free) => getNewAboveLoop a rounds ⟨some top, layers, free⟩ id
        | some (.slot id leaf pa free) =>
          some (.ok id, ⟨some (install a id leaf pa), layers, free⟩)

/-- `idr_get_new_above`. Every round but the last one adds a layer. -/
def getNewAbove (idr : Handle α) (a : α) (startingId : Id) : Option (Ret × Handle α) :=
  getNewAboveLoop a maxLevel idr startingId

/-- `idr_pre_get`, when `memory` allocations would succeed. -/
def preGet (idr : Handle α) (memory : ℕ) : Handle α :=
  { idr with free := max idr.free (min (idr.free + memory) idrFreeMax) }

/-! ### Lookup and replacement -/

/-- The loop of `idr_find`. -/
def findDown (id : Id) : ℕ → Layer (Ptr α) → Option (Option α)
  | l, p =>
    if p.layer ≠ l then none
    else
      match p.ary (slot id l), l with
      | none, _ => some none
      | some (.item a), 0 => some (some a)
      | some (.node c), l + 1 => findDown id l c
      | _, _ => none

/-- `idr_find`. -/
def find (idr : Handle α) (id : Id) : Option (Option α) :=
  match idr.top with
  | none => some none
  | some p =>
    if beyond (masked id) (p.layer + 1) then some none else findDown (masked id) p.layer p

/-- The loop of `idr_replace`, with the layers afterwards. -/
def replaceDown (id : Id) (a : α) : ℕ → Layer (Ptr α) → Option (Bool × Layer (Ptr α))
  | 0, p =>
    if p.bitmap (slot id 0) then some (true, p.setAry (slot id 0) (some (.item a)))
    else some (false, p)
  | l + 1, p =>
    match p.ary (slot id (l + 1)) with
    | none => some (false, p)
    | some (.item _) => none
    | some (.node c) =>
      match replaceDown id a l c with
      | none => none
      | some (r, c) => some (r, p.setAry (slot id (l + 1)) (some (.node c)))

/-- `idr_replace`. The result is `false` for `-EINVAL` and `-ENOENT`. -/
def replace (idr : Handle α) (a : α) (id : Id) : Option (Bool × Handle α) :=
  match idr.top with
  | none => some (false, idr)
  | some p =>
    if beyond (masked id) (p.layer + 1) then some (false, idr)
    else
      match replaceDown (masked id) a p.layer p with
      | none => none
      | some (r, p) => some (r, { idr with top := some p })

/-! ### Removal -/

/-- What `sub_remove` has done with a layer. -/
inductive Removed (α : Type) where
  /-- Its count has become 0, and it was freed. -/
  | freed
  | kept (p : Layer (Ptr α))
  /-- The identifier is not allocated, which gives a warning. -/
  | warning (p : Layer (Ptr α))

/-- A slot of a layer has become empty. -/
def dropSlot (p : Layer (Ptr α)) (o : Slot) : Removed α :=
  let p := { p.setAry o none with count := p.count - 1 }
  if p.count = 0 then .freed else .kept p

/-- `sub_remove`, for a layer at distance `l` from the leaves. -/
def removeDown (id : Id) : ℕ → Layer (Ptr α) → Option (Removed α)
  | 0, p =>
    if p.bitmap (slot id 0) then some (dropSlot (p.setBit (slot id 0) false) (slot id 0))
    else some (.warning p)
  | l + 1, p =>
    let o := slot id (l + 1)
    let p := p.setBit o false
    match p.ary o with
    | none => some (.warning p)
    | some (.item _) => none
    | some (.node c) =>
      match removeDown id l c with
      | none => none
      | some .freed => some (dropSlot p o)
      | some (.kept c) => some (.kept (p.setAry o (some (.node c))))
      | some (.warning c) => some (.warning (p.setAry o (some (.node c))))

def subRemove (idr : Handle α) (id : Id) : Option (Handle α) :=
  match idr.top with
  | none => some idr
  | some p =>
    match removeDown id (idr.layers - 1) p with
    | none => none
    | some .freed => some { idr with top := none, layers := 0 }
    | some (.kept p) => some { idr with top := some p }
    | some (.warning p) => some { idr with top := some p }

/-- The tree shrinks if the top layer has only its leftmost slot in use. -/
def shrink (idr : Handle α) : Option (Handle α) :=
  match idr.top with
  | none => some idr
  | some p =>
    if p.count = 1 ∧ 1 < idr.layers then
      match p.ary 0 with
      | none => some idr
      | some (.item _) => none
      | some (.node c) => some { idr with top := some c, layers := idr.layers - 1 }
    else some idr

/-- `idr_remove`. -/
def remove (idr : Handle α) (id : Id) : Option (Handle α) :=
  match subRemove idr (masked id) with
  | none => none
  | some idr =>
    match shrink idr with
    | none => none
    | some idr => some { idr with free := min idr.free (idrFreeMax - 1) }

/-! ### Runs -/

inductive Action (α : Type) where
  | preGet (memory : ℕ)
  | getNewAbove (a : α) (startingId : Id)
  | replace (a : α) (id : Id)
  | remove (id : Id)

/-- Identifiers are not negative, and only those in use are replaced or removed. -/
def Allowed (idr : Handle α) : Action α → Prop
  | .preGet _ => True
  | .getNewAbove _ startingId => startingId.toNat < 2 ^ 31
  | .replace _ id | .remove id => id.toNat < 2 ^ 31 ∧ ∃ a, find idr id = some (some a)

/-- The `idr` after a call. -/
def step (idr : Handle α) : Action α → Option (Handle α)
  | .preGet memory => some (preGet idr memory)
  | .getNewAbove a startingId => (getNewAbove idr a startingId).map Prod.snd
  | .replace a id => (replace idr a id).map Prod.snd
  | .remove id => remove idr id

def machine (α : Type) : Machine (Handle α) (Action α) where
  init := init α
  guard := Allowed
  next idr a := (step idr a).getD idr

end LklPort.Idr
