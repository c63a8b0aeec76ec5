import LklPort.Words.Align
import LklPort.Words.Bitmap

/-!
# Boot memory

Before the page allocator is up, `mm/bootmem.c` keeps one bit for each page of a node: a page is
marked when it is reserved or allocated. Allocations are rounded to pages, but the next one may
start in the rest of the page where the last one ended.

The functions are those for a single node, which is all that this kernel has. Addresses are
physical ones. `node_bootmem_map` is set when the node is registered, so the tests for `NULL` are
left out. A call that runs into a `BUG` has no result.
-/

namespace LklPort.Bootmem

open Words (Bitmap align singleBit)

/-- The number of values of an `unsigned long`. -/
def ulongRange : ℕ := 2 ^ 64

def PAGE_SIZE : ℕ := 4096

def BITS_PER_LONG : ℕ := 64

def pfnUp (x : ℕ) : ℕ := (x + (PAGE_SIZE - 1)) % ulongRange / PAGE_SIZE

def pfnDown (x : ℕ) : ℕ := x / PAGE_SIZE

def pfnPhys (x : ℕ) : ℕ := x * PAGE_SIZE % ulongRange

/-- `bootmem_data_t`. The bit map lies in the pages from `mapPfn` on. -/
structure Node where
  minPfn : ℕ
  lowPfn : ℕ
  map : Bitmap
  mapPfn : ℕ
  lastEndOff : ℕ
  hintIdx : ℕ

/-! ### Registration -/

def bootmapBytes (pages : ℕ) : ℕ := align ((pages + 7) / 8) 8

def bootmemBootmapPages (pages : ℕ) : ℕ := align (bootmapBytes pages) PAGE_SIZE / PAGE_SIZE

/-- `init_bootmem_core`, which marks all pages of the node, and the size of the map. The words of
the memory after the map are left as they were. -/
def initBootmemCore (mapstart start stop : ℕ) (memory : Bitmap) : Node × ℕ :=
  let mapsize := bootmapBytes (stop - start)
  ({ minPfn := start, lowPfn := stop
     map := fun w => if w < mapsize / 8 then BitVec.allOnes 64 else memory w
     mapPfn := mapstart, lastEndOff := 0, hintIdx := 0 }, mapsize)

/-! ### Marking -/

namespace Node

/-- A page of the node is marked in the bit map. -/
def marked (n : Node) (pfn : ℕ) : Bool := n.map.test (pfn - n.minPfn)

def free (n : Node) (sidx eidx : ℕ) : Option Node :=
  (n.map.clearRun (eidx - sidx) sidx).map fun map =>
    { n with map := map, hintIdx := if n.hintIdx > sidx then sidx else n.hintIdx }

/-- What `__reserve` returns: zero or `-EBUSY`. -/
inductive Reserved where
  | ok (n : Node)
  | busy (n : Node)

/-- The loop of `__reserve`, for `k` bits from `idx` on. -/
def reserveFrom (n : Node) (sidx : ℕ) (exclusive : Bool) : (k idx : ℕ) → Option Reserved
  | 0, _ => some (.ok n)
  | k + 1, idx =>
    if n.map.test idx && exclusive then (n.free sidx idx).map .busy
    else reserveFrom { n with map := n.map.set idx } sidx exclusive k (idx + 1)

def reserve (n : Node) (sidx eidx : ℕ) (exclusive : Bool) : Option Reserved :=
  n.reserveFrom sidx exclusive (eidx - sidx) sidx

/-- `mark_bootmem` on the only node: the pages must begin in the node, and must not end after
it. -/
def InNode (n : Node) (start stop : ℕ) : Prop :=
  n.minPfn ≤ start ∧ start < n.lowPfn ∧ stop ≤ n.lowPfn
  deriving Decidable

/-- `free_bootmem`. Partial pages are left as they are. -/
def freeBootmem (n : Node) (addr size : ℕ) : Option Node :=
  let start := pfnUp addr
  let stop := pfnDown ((addr + size) % ulongRange)
  if n.InNode start stop then n.free (start - n.minPfn) (stop - n.minPfn) else none

/-- `reserve_bootmem`. Partial pages are reserved, and a failure is followed by `mark_bootmem` to
free the pages before the first one. -/
def reserveBootmem (n : Node) (addr size : ℕ) (exclusive : Bool) : Option Reserved :=
  let start := pfnDown addr
  let stop := pfnUp ((addr + size) % ulongRange)
  if n.InNode start stop then
    match n.reserve (start - n.minPfn) (stop - n.minPfn) exclusive with
    | some (.busy n) => (n.free (start - n.minPfn) (start - n.minPfn)).map .busy
    | r => r
  else none

/-! ### Allocation -/

def alignIdx (n : Node) (idx step : ℕ) : ℕ :=
  (align (n.minPfn + idx) step + ulongRange - n.minPfn) % ulongRange

def alignOff (n : Node) (off a : ℕ) : ℕ :=
  (align (pfnPhys n.minPfn + off) a + ulongRange - pfnPhys n.minPfn) % ulongRange

/-- How a round of the search for free pages ends. -/
inductive Probe where
  | stop
  | again (sidx : ℕ)
  | found (sidx : ℕ)

/-- The loop of `alloc_bootmem_core` from `find_block` to the test of the last page. -/
def probe (n : Node) (size step midx sidx : ℕ) : Probe :=
  let sidx := n.alignIdx (n.map.findNextZeroBit midx sidx) step
  let eidx := sidx + pfnUp size
  if sidx ≥ midx ∨ eidx > midx then .stop
  else
    match n.map.firstSet (eidx - sidx) sidx with
    | some i =>
      let next := n.alignIdx i step
      .again (if next = i then next + step else next)
    | none => .found sidx

/-- The rounds of the search. There is no result if it takes more than the given number. -/
def findBlock (n : Node) (size step midx : ℕ) : (rounds sidx : ℕ) → Option (Option ℕ)
  | 0, _ => none
  | rounds + 1, sidx =>
    match n.probe size step midx sidx with
    | .stop => some none
    | .found sidx => some (some sidx)
    | .again sidx => findBlock n size step midx rounds sidx

/-- What `alloc_bootmem_core` returns. -/
inductive Allocated where
  | null
  | region (n : Node) (addr : ℕ)

/-- A call of `alloc_bootmem_core` that does not return. -/
inductive Trap where
  /-- One of the `BUG_ON`s about the arguments. -/
  | arguments
  /-- The `BUG` after `__reserve`. -/
  | reserve
  /-- The search goes on forever. -/
  | search

/-- The body of the loop of `alloc_bootmem_core` after the free pages have been found. -/
def takeBlock (n : Node) (size a sidx : ℕ) : Except Trap Allocated :=
  let startOff :=
    if n.lastEndOff % PAGE_SIZE ≠ 0 ∧ pfnDown n.lastEndOff + 1 = sidx then
      n.alignOff n.lastEndOff a
    else pfnPhys sidx
  let merge := if pfnDown startOff < sidx then 1 else 0
  let endOff := (startOff + size) % ulongRange
  let n := { n with lastEndOff := endOff, hintIdx := pfnUp endOff }
  match n.reserve (pfnDown startOff + merge) (pfnUp endOff) true with
  | some (.ok n) => .ok (.region n ((pfnPhys n.minPfn + startOff) % ulongRange))
  | _ => .error .reserve

/-- The search from `sidx` on, and from `fallback` on if it fails. -/
def search (n : Node) (size a step midx sidx : ℕ) (fallback : Option ℕ) : Except Trap Allocated :=
  match n.findBlock size step midx (midx + 1) sidx, fallback with
  | none, _ => .error .search
  | some (some sidx), _ => n.takeBlock size a sidx
  | some none, none => .ok .null
  | some none, some sidx =>
    match n.findBlock size step midx (midx + 1) (n.alignIdx sidx step) with
    | none => .error .search
    | some (some sidx) => n.takeBlock size a sidx
    | some none => .ok .null

/-- The first pfn after those that an allocation may use. -/
def maxPfn (n : Node) (limit : ℕ) : ℕ :=
  if pfnDown limit ≠ 0 ∧ n.lowPfn > pfnDown limit then pfnDown limit else n.lowPfn

/-- Where the search of an allocation starts. -/
def startPfn (n : Node) (step goal limit : ℕ) : ℕ :=
  if pfnDown goal ≠ 0 ∧ n.minPfn < pfnDown goal ∧ pfnDown goal < n.maxPfn limit then
    align (pfnDown goal) step
  else align n.minPfn step

def allocBootmemCore (n : Node) (size a goal limit : ℕ) : Except Trap Allocated :=
  if size = 0 ∨ singleBit a = false ∨ (limit ≠ 0 ∧ (goal + size) % ulongRange > limit) then
    .error .arguments
  else if n.maxPfn limit ≤ n.minPfn then .ok .null
  else
    let step := max (a / PAGE_SIZE) 1
    let sidx := n.startPfn step goal limit - n.minPfn
    let midx := n.maxPfn limit - n.minPfn
    if n.hintIdx > sidx then
      n.search size a step midx (n.alignIdx n.hintIdx step) (some sidx)
    else n.search size a step midx sidx none

end Node

/-! ### Calls -/

/-- A call of the boot memory allocator. -/
inductive Op where
  | free (addr size : ℕ)
  | reserve (addr size : ℕ) (exclusive : Bool)
  | alloc (size a goal limit : ℕ)

/-- The node after a call, if the call returns. -/
def Node.apply (n : Node) : Op → Option Node
  | .free addr size => n.freeBootmem addr size
  | .reserve addr size exclusive =>
    (n.reserveBootmem addr size exclusive).map fun
      | .ok n => n
      | .busy n => n
  | .alloc size a goal limit =>
    match n.allocBootmemCore size a goal limit with
    | .ok (.region n _) => some n
    | .ok .null => some n
    | .error _ => none

def Node.run (n : Node) : List Op → Option Node
  | [] => some n
  | op :: ops => (n.apply op).bind fun n => n.run ops

end LklPort.Bootmem
