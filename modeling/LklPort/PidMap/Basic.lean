import LklPort.Words.Bitmap
import LklPort.Machine.Basic

/-!
# Process identifiers

A namespace keeps the identifiers in use as a bit map of many pages. A page is allocated when the
search first needs it, and each page comes with the number of its bits that are clear.
`alloc_pidmap` looks for a clear bit behind the identifier it handed out last, page after page, and
goes round to `RESERVED_PIDS` at the end.
-/

namespace LklPort.Pid

open Words Machine

def bitsPerPage : ℕ := 32768

def reservedPids : ℕ := 300

def pidMaxLimit : ℕ := 4194304

/-- `struct pidmap`. The page is missing as long as it was not allocated. -/
structure PidMap where
  nrFree : ℤ
  page : Option Bitmap

/-- `struct pid_namespace`: its `pidmap` and `last_pid`. -/
structure Ns where
  map : ℕ → PidMap
  last : ℕ

/-- The namespace as `create_pid_namespace` leaves it. Only the bit of identifier 0 is set. -/
def Ns.init : Ns where
  map q :=
    if q = 0 then ⟨bitsPerPage - 1, some (Bitmap.set (fun _ => 0) 0)⟩ else ⟨bitsPerPage, none⟩
  last := 0

def mkPid (q offset : ℕ) : ℕ := q * bitsPerPage + offset

/-- The bits of a map. None is set as long as there is no page. -/
def PidMap.bits (map : PidMap) : Bitmap := map.page.getD fun _ => 0

/-- The bit of `pid` is set. -/
def Ns.used (ns : Ns) (pid : ℕ) : Bool :=
  (ns.map (pid / bitsPerPage)).bits.test (pid % bitsPerPage)

def Ns.setMap (ns : Ns) (q : ℕ) (m : PidMap) : Ns := { ns with map := Function.update ns.map q m }

def freePidmap (ns : Ns) (nr : ℕ) : Ns :=
  let map := ns.map (nr / bitsPerPage)
  ns.setMap (nr / bitsPerPage) ⟨map.nrFree + 1, map.page.map (·.clear (nr % bitsPerPage))⟩

def findNextOffset (page : Bitmap) (offset : ℕ) : ℕ := page.findNextZeroBit bitsPerPage offset

/-- The last map that holds an identifier below `pid_max`. -/
def lastMap (pidMax : ℕ) : ℕ := (pidMax - 1) / bitsPerPage

section Scan

variable (pidMax last : ℕ)

/-- The condition under which the inner loop of `alloc_pidmap` goes on with what
`find_next_offset` found. `final` says whether this is the iteration `max_scan`. -/
def goesOn (final : Bool) (q offset : ℕ) : Bool :=
  offset < bitsPerPage && mkPid q offset < pidMax &&
    (!final || mkPid q offset < last || (last + 1) % bitsPerPage == 0)

/-- The inner loop of `alloc_pidmap` on the page of map `q`: the offset whose bit it sets. The
loop sets the bit that `find_next_offset` found in its second round at the latest. -/
def scanPage (final : Bool) (q : ℕ) (page : Bitmap) : (rounds offset : ℕ) → Option ℕ
  | 0, _ => none
  | rounds + 1, offset =>
    if !page.test offset then some offset
    else
      let offset := findNextOffset page offset
      if goesOn pidMax last final q offset then scanPage final q page rounds offset else none

/-- One iteration of the loop of `alloc_pidmap` behind the allocation of the page. -/
def scanMap (final : Bool) (q offset : ℕ) (nrFree : ℤ) (page : Bitmap) : Option ℕ :=
  if nrFree ≠ 0 then scanPage pidMax last final q page (bitsPerPage + 1) offset else none

/-- The page of a map, allocated if it is missing. -/
def PidMap.getPage (map : PidMap) (memory : Bool) : Option Bitmap :=
  map.page.or (if memory then some fun _ => 0 else none)

/-- Marks the identifier at `offset` of map `q` as used and remembers it. -/
def Ns.take (ns : Ns) (q offset : ℕ) (page : Bitmap) : Ns where
  map := Function.update ns.map q ⟨(ns.map q).nrFree - 1, some (page.set offset)⟩
  last := mkPid q offset

/-- The loop of `alloc_pidmap` with `n` iterations left. `memory q` says whether there is memory
for the page of map `q`; there is no result where the source returns -1. -/
def allocLoop (maxScan : ℕ) (memory : ℕ → Bool) : (n i q offset : ℕ) → Ns → Option ℕ × Ns
  | 0, _, _, _, ns => (none, ns)
  | n + 1, i, q, offset, ns =>
    match (ns.map q).getPage (memory q) with
    | none => (none, ns)
    | some page =>
      match scanMap pidMax last (i == maxScan) q offset (ns.map q).nrFree page with
      | some offset => (some (mkPid q offset), ns.take q offset page)
      | none =>
        let ns := ns.setMap q { ns.map q with page := some page }
        if q < lastMap pidMax then allocLoop maxScan memory n (i + 1) (q + 1) 0 ns
        else if last = reservedPids then (none, ns)
        else allocLoop maxScan memory n (i + 1) 0 reservedPids ns

end Scan

/-- Where the search of `alloc_pidmap` starts. -/
def firstPid (pidMax last : ℕ) : ℕ := if last + 1 ≥ pidMax then reservedPids else last + 1

def maxScan (pidMax last : ℕ) : ℕ :=
  (pidMax + bitsPerPage - 1) / bitsPerPage -
    if firstPid pidMax last % bitsPerPage = 0 then 1 else 0

def allocPidmap (pidMax : ℕ) (memory : ℕ → Bool) (ns : Ns) : Option ℕ × Ns :=
  allocLoop pidMax ns.last (maxScan pidMax ns.last) memory (maxScan pidMax ns.last + 1) 0
    (firstPid pidMax ns.last / bitsPerPage) (firstPid pidMax ns.last % bitsPerPage) ns

/-- The namespace that `alloc_pidmap` leaves. -/
def Ns.alloc (ns : Ns) (pidMax : ℕ) (memory : ℕ → Bool) : Ns := (allocPidmap pidMax memory ns).2

/-! ### All levels of a namespace -/

/-- One level of `alloc_pid`: what `alloc_pidmap` did there, the namespaces above it, and what the
rest of the loop makes of them. If the rest fails, then the way back at `out_free` frees what was
allocated here. -/
def joinLevels : Option ℕ × Ns → List Ns → Option (List ℕ) × List Ns →
    Option (List ℕ) × List Ns
  | (none, ns), parents, _ => (none, ns :: parents)
  | (some nr, ns), _, (none, parents) => (none, freePidmap ns nr :: parents)
  | (some nr, ns), _, (some nrs, parents) => (some (nr :: nrs), ns :: parents)

/-- The loop of `alloc_pid` over a namespace and its parents. -/
def allocLevels (pidMax : ℕ) : List ((ℕ → Bool) × Ns) → Option (List ℕ) × List Ns
  | [] => (some [], [])
  | (memory, ns) :: parents =>
    joinLevels (allocPidmap pidMax memory ns) (parents.map Prod.snd) (allocLevels pidMax parents)

/-- `alloc_pid`. `slab` says whether there is memory for the `struct pid` itself. -/
def allocPid (pidMax : ℕ) (slab : Bool) (levels : List ((ℕ → Bool) × Ns)) :
    Option (List ℕ) × List Ns :=
  if slab then allocLevels pidMax levels else (none, levels.map Prod.snd)

/-! ### Runs -/

/-- What happens to a namespace: a call of `alloc_pidmap` under some `pid_max`, a call of
`free_pidmap`, or `last_pid` set to some other identifier. -/
inductive Action where
  | alloc (pidMax : ℕ) (memory : ℕ → Bool)
  | free (pid : ℕ)
  | setLast (pid : ℕ)

/-- Only identifiers that `alloc_pidmap` handed out are freed. -/
def machine : Machine Ns Action where
  init := .init
  guard ns
    | .alloc pidMax _ => reservedPids < pidMax ∧ pidMax ≤ pidMaxLimit
    | .free pid => pid ≠ 0 ∧ ns.used pid = true
    | .setLast pid => pid < pidMaxLimit
  next ns
    | .alloc pidMax memory => ns.alloc pidMax memory
    | .free pid => freePidmap ns pid
    | .setLast pid => { ns with last := pid }

instance (ns : Ns) (a : Action) : Decidable (machine.guard ns a) := by
  cases a <;> dsimp only [machine] <;> infer_instance

end LklPort.Pid
