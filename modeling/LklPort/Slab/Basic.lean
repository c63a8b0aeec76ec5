import Mathlib.Algebra.Ring.Nat
import LklPort.Machine.Basic
import LklPort.Rbtree.Search

/-!
# The slab allocator on host memory

With `CONFIG_LKL_SLAB` the kernel's small allocations are host allocations, see
`arch/lkl/kernel/mem.c`. The records of the blocks lie apart from the blocks, in a red-black tree
that is ordered by the addresses of the blocks. Both the records and the blocks come from
`mem_alloc`, which takes an `unsigned int`, while sizes are of type `size_t`.

An action is a call of one of the allocator's functions, with what `mem_alloc` returns in it, or
the end of the grace period of a block that was freed with `call_rcu`.
-/

namespace LklPort.Slab

/-- `struct mem_block_meta`, at the address `self`. -/
structure MemBlockMeta where
  self : ℕ
  block : ℕ
  size : ℕ
  deriving DecidableEq

/-- What a region of host memory was asked for: a record, a block, or the `struct mem_block_rcu`
of a block. -/
inductive Use where
  | record (block : ℕ)
  | block
  | rcu (block : ℕ)
  deriving DecidableEq

/-- A region that the host gave out. -/
structure Region where
  addr : ℕ
  len : ℕ
  use : Use
  deriving DecidableEq

/-- `struct kmem_cache`. Of the constructor only its presence is kept. -/
structure KmemCache where
  size : ℕ
  flags : ℕ
  name : String
  ctor : Bool

/-- `struct mem_block_rcu`, at the address `self`. -/
structure MemBlockRcu where
  self : ℕ
  block : ℕ
  deriving DecidableEq

/-- Why the kernel has stopped. -/
inductive Halt where
  | bug
  | panic (msg : String)
  | nullPointer
  deriving DecidableEq

/-- A block that was given out, with the size that was requested. -/
structure Block where
  ptr : ℕ
  size : ℕ
  deriving DecidableEq

structure State where
  metaTree : Rbtree.Tree MemBlockMeta
  /-- The regions that the host gave out and did not get back. -/
  host : List Region
  /-- The `struct kmem_cache` at an address. -/
  caches : ℕ → Option KmemCache
  /-- The blocks whose grace period has not ended. -/
  rcu : List MemBlockRcu
  /-- The calls of constructors, with the pointers they got. -/
  ctorCalls : List (Option ℕ)
  halt : Option Halt
  /-- History: the blocks that were given out and not taken back. -/
  live : List Block
  /-- History: the size that was given to `kmem_cache_create` for the cache at an address. -/
  requested : ℕ → ℕ

/-! ### Host memory -/

/-- The range of `unsigned int`. -/
def uintRange : ℕ := 2 ^ 32

/-- `sizeof(struct mem_block_meta)`, `sizeof(struct kmem_cache)` and
`sizeof(struct mem_block_rcu)`. -/
def sizeofMeta : ℕ := 40

@[inherit_doc sizeofMeta] def sizeofCache : ℕ := 32

@[inherit_doc sizeofMeta] def sizeofRcu : ℕ := 24

/-- `lkl_nops->mem_alloc(size)`, which gives the region at `a`. -/
def State.memAlloc (s : State) (size : ℕ) (use : Use) (a : ℕ) : State :=
  { s with host := ⟨a, size % uintRange, use⟩ :: s.host }

/-- `lkl_nops->mem_free(a)`. -/
def State.memFree (s : State) (a : ℕ) : State :=
  { s with host := s.host.filter (·.addr ≠ a) }

/-- No byte is in both of the regions. -/
def Apart (a len : ℕ) (r : Region) : Prop :=
  len = 0 ∨ r.len = 0 ∨ a + len ≤ r.addr ∨ r.addr + r.len ≤ a
  deriving Decidable

/-- What `mem_alloc` may return for `size` bytes: `NULL`, or a pointer to a fresh region that is
disjoint from the others. -/
def HostOk (host : List Region) (size : ℕ) (o : Option ℕ) : Prop :=
  ∀ a ∈ o, a ≠ 0 ∧ ∀ r ∈ host, r.addr ≠ a ∧ Apart a (size % uintRange) r
  deriving Decidable

/-! ### Blocks and their records -/

/-- `mem_block_find_meta`. One of two different addresses is the smaller one, so the branch for
`b != mbm->block` is never taken. -/
def memBlockFindMeta (t : Rbtree.Tree MemBlockMeta) (b : ℕ) : Option MemBlockMeta :=
  Rbtree.find MemBlockMeta.block b t

/-- `mem_block_insert_meta`. There is no result at the `BUG()`. -/
def memBlockInsertMeta (t : Rbtree.Tree MemBlockMeta) (mbm : MemBlockMeta) :
    Option (Rbtree.Tree MemBlockMeta) :=
  Rbtree.insert MemBlockMeta.block mbm t

/-- `alloc_mem_block`, where `mem_alloc` returns `m` for the record and then `b` for the block. -/
def allocMemBlock (s : State) (size : ℕ) (m b : Option ℕ) : State × Option ℕ :=
  match m with
  | none => (s, none)
  | some self =>
    let s := s.memAlloc sizeofMeta (.record (b.getD 0)) self
    match b with
    | none => (s.memFree self, none)
    | some block =>
      let s := s.memAlloc size .block block
      match memBlockInsertMeta s.metaTree ⟨self, block, size⟩ with
      | none => ({ s with halt := some .bug }, none)
      | some t => ({ s with metaTree := t }, some block)

/-- A block has been given out. -/
def State.give (s : State) (size : ℕ) : Option ℕ → State
  | none => s
  | some p => { s with live := ⟨p, size⟩ :: s.live }

/-- `free_mem_block`. What the block held is lost. -/
def freeMemBlock (s : State) (b : ℕ) : State :=
  match memBlockFindMeta s.metaTree b, Rbtree.erase MemBlockMeta.block b s.metaTree with
  | some mbm, some t =>
    let s := { s with metaTree := t, caches := Function.update s.caches b none,
                      live := s.live.filter (·.ptr ≠ b) }
    (s.memFree mbm.self).memFree b
  | _, _ => { s with halt := some .bug }

/-- There is no result at the `BUG_ON()`. -/
def ksize (s : State) (b : ℕ) : Option ℕ := (memBlockFindMeta s.metaTree b).map (·.size)

def kmalloc (s : State) (size : ℕ) (m b : Option ℕ) : State :=
  let (s, p) := allocMemBlock s size m b
  s.give size p

def kfree (s : State) (p : ℕ) : State := if p = 0 then s else freeMemBlock s p

/-! ### Caches -/

def SLAB_PANIC : ℕ := 0x00040000

def SLAB_DESTROY_BY_RCU : ℕ := 0x00080000

def kmemCacheCreate (s : State) (name : String) (size flags : ℕ) (ctor : Bool)
    (m b : Option ℕ) : State :=
  match allocMemBlock s sizeofCache m b with
  | (s, some c) =>
    { s.give sizeofCache (some c) with
      caches := Function.update s.caches c (some ⟨size % uintRange, flags, name, ctor⟩)
      requested := Function.update s.requested c size }
  | (s, none) =>
    if flags &&& SLAB_PANIC ≠ 0 then
      { s with halt := s.halt <|> some (.panic ("Cannot create slab cache " ++ name ++ "\n")) }
    else s

def kmemCacheDestroy (s : State) (c : ℕ) : State := freeMemBlock s c

/-- The constructor is called on what the allocation returned, `NULL` or not. -/
def kmemCacheAlloc (s : State) (c : ℕ) (m b : Option ℕ) : State :=
  match s.caches c with
  | none => s
  | some cache =>
    let (s, p) := allocMemBlock s cache.size m b
    let s := s.give (s.requested c) p
    if cache.ctor then { s with ctorCalls := p :: s.ctorCalls } else s

/-- The block of a cache with `SLAB_DESTROY_BY_RCU` is freed later. `mem_alloc` returns `mbr` for
the `struct mem_block_rcu`, which is written without regard to `NULL`. -/
def kmemCacheFree (s : State) (c b : ℕ) (mbr : Option ℕ) : State :=
  match s.caches c with
  | none => s
  | some cache =>
    if cache.flags &&& SLAB_DESTROY_BY_RCU ≠ 0 then
      match mbr with
      | none => { s with halt := some .nullPointer }
      | some self =>
        let s := s.memAlloc sizeofRcu (.rcu b) self
        { s with rcu := ⟨self, b⟩ :: s.rcu }
    else freeMemBlock s b

/-- `kmem_rcu_free`, for an entry that is taken from the list. -/
def kmemRcuFree (s : State) (mbr : MemBlockRcu) : State :=
  let s := { s with rcu := s.rcu.filter (· ≠ mbr) }
  (freeMemBlock s mbr.block).memFree mbr.self

/-! ### The machine -/

inductive Act where
  | kmalloc (size : ℕ) (m b : Option ℕ)
  | kfree (p : ℕ)
  | kmemCacheCreate (name : String) (size flags : ℕ) (ctor : Bool) (m b : Option ℕ)
  | kmemCacheDestroy (c : ℕ)
  | kmemCacheAlloc (c : ℕ) (m b : Option ℕ)
  | kmemCacheFree (c p : ℕ) (mbr : Option ℕ)
  | kmemRcuFree (mbr : MemBlockRcu)

/-- The pointer may be freed: its block is given out, and not freed with `call_rcu`. -/
def Freeable (s : State) (p : ℕ) : Prop := (∃ b ∈ s.live, b.ptr = p) ∧ ∀ r ∈ s.rcu, r.block ≠ p
  deriving Decidable

/-- What the host may return for a record and then for a block of `size` bytes. -/
def BlockOk (s : State) (size : ℕ) (m b : Option ℕ) : Prop :=
  HostOk s.host sizeofMeta m ∧
    ∀ self ∈ m, HostOk (⟨self, sizeofMeta, .record (b.getD 0)⟩ :: s.host) size b
  deriving Decidable

/-- The contract of the callers and of the host. -/
def Contract (s : State) : Act → Prop
  | .kmalloc size m b => size < 2 ^ 64 ∧ BlockOk s size m b
  | .kfree p => p = 0 ∨ Freeable s p
  | .kmemCacheCreate _ size _ _ m b => size < 2 ^ 64 ∧ BlockOk s sizeofCache m b
  | .kmemCacheDestroy c => Freeable s c
  | .kmemCacheAlloc c m b => ∃ cache ∈ s.caches c, BlockOk s cache.size m b
  | .kmemCacheFree c p mbr => (s.caches c).isSome ∧ Freeable s p ∧ HostOk s.host sizeofRcu mbr
  | .kmemRcuFree mbr => mbr ∈ s.rcu

def apply (s : State) : Act → State
  | .kmalloc size m b => kmalloc s size m b
  | .kfree p => kfree s p
  | .kmemCacheCreate name size flags ctor m b => kmemCacheCreate s name size flags ctor m b
  | .kmemCacheDestroy c => kmemCacheDestroy s c
  | .kmemCacheAlloc c m b => kmemCacheAlloc s c m b
  | .kmemCacheFree c p mbr => kmemCacheFree s c p mbr
  | .kmemRcuFree mbr => kmemRcuFree s mbr

def init : State := ⟨.nil, [], fun _ => none, [], [], none, [], fun _ => 0⟩

/-- The allocator, as long as the kernel has not stopped. -/
def machine : Machine State Act where
  init := init
  guard s a := s.halt = none ∧ Contract s a
  next := apply

instance (s : State) (a : Act) : Decidable (machine.guard s a) := by
  cases a <;> dsimp only [machine, Contract] <;> infer_instance

end LklPort.Slab
