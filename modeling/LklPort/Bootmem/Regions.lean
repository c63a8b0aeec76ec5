import LklPort.Machine.Basic
import LklPort.Bootmem.Alloc

/-!
# Regions of boot memory

The callers of the boot memory allocator free the memory of the machine once, reserve ranges of
it, and give back whole regions. Then no two regions share a byte and no region meets a reserved
page, as long as nobody reserves a page that a region has a part of: `reserve_bootmem` accepts
such a page, but the rest of the page is still open to the next region, and the mark goes with the
region that is given back.
-/

namespace LklPort.Bootmem

open List

open Words (Bitmap)

/-- A region that was given out. -/
structure Region where
  addr : ℕ
  size : ℕ
  deriving DecidableEq

/-- The byte at `x` is in the region. -/
def Region.Has (r : Region) (x : ℕ) : Prop := r.addr ≤ x ∧ x < r.addr + r.size

structure State where
  node : Node
  /-- History: the regions that were given out and not given back. -/
  live : List Region
  /-- History: the pages that are reserved, at first all of them. -/
  reserved : ℕ → Bool
  /-- History: the pages that were freed as memory of the machine. -/
  registered : ℕ → Bool

inductive Act where
  | freeMemory (addr size : ℕ)
  | freeRegion (r : Region)
  | reserve (addr size : ℕ) (exclusive : Bool)
  | alloc (size a goal limit : ℕ)

/-- The call that an action makes. -/
def Act.op : Act → Op
  | .freeMemory addr size => .free addr size
  | .freeRegion r => .free r.addr r.size
  | .reserve addr size exclusive => .reserve addr size exclusive
  | .alloc size a goal limit => .alloc size a goal limit

/-- The whole pages of a range, which `free_bootmem` frees. -/
def wholePages (addr size : ℕ) : List ℕ :=
  List.range' (pfnUp addr) (pfnDown ((addr + size) % ulongRange) - pfnUp addr)

/-- All pages that a range touches, which `reserve_bootmem` reserves. -/
def touchedPages (addr size : ℕ) : List ℕ :=
  List.range' (pfnDown addr) (pfnUp ((addr + size) % ulongRange) - pfnDown addr)

/-- What the callers keep to: memory of the node is freed once, and otherwise whole regions that
were not given back before. -/
def Contract (s : State) : Act → Prop
  | .freeMemory addr size => ∀ p ∈ wholePages addr size, s.registered p = false
  | .freeRegion r => r ∈ s.live
  | .reserve _ _ _ | .alloc _ _ _ _ => True

/-- The state after a call that returns. -/
def apply (s : State) : Act → State
  | .freeMemory addr size =>
    match s.node.freeBootmem addr size with
    | none => s
    | some n =>
      { s with node := n
               reserved := fun p => s.reserved p && !decide (p ∈ wholePages addr size)
               registered := fun p => s.registered p || decide (p ∈ wholePages addr size) }
  | .freeRegion r =>
    match s.node.freeBootmem r.addr r.size with
    | none => s
    | some n => { s with node := n, live := s.live.filter (· ≠ r) }
  | .reserve addr size exclusive =>
    match s.node.reserveBootmem addr size exclusive with
    | none => s
    | some (.busy n) => { s with node := n }
    | some (.ok n) =>
      { s with node := n
               reserved := fun p => s.reserved p || decide (p ∈ touchedPages addr size) }
  | .alloc size a goal limit =>
    match s.node.allocBootmemCore size a goal limit with
    | .ok (.region n addr) => { s with node := n, live := ⟨addr, size⟩ :: s.live }
    | _ => s

/-- The boot memory allocator, on the node with the pages from `start` to `stop`. A call that does
not return ends the run. -/
def machine (mapstart start stop : ℕ) (memory : Bitmap) : Machine State Act where
  init := ⟨(initBootmemCore mapstart start stop memory).1, [], fun _ => true, fun _ => false⟩
  guard s act := Contract s act ∧ (s.node.apply act.op).isSome = true
  next := apply

instance (mapstart start stop : ℕ) (memory : Bitmap) (s : State) (act : Act) :
    Decidable ((machine mapstart start stop memory).guard s act) := by
  cases act <;> dsimp only [machine, Contract] <;> infer_instance

/-! ### The law -/

/-- What a region owes to its caller. -/
structure RegionOk (s : State) (size a limit : ℕ) (n : Node) (addr : ℕ) : Prop where
  in_node : s.node.minPfn * PAGE_SIZE ≤ addr ∧ addr + size ≤ s.node.lowPfn * PAGE_SIZE
  below_limit : limit ≠ 0 → addr + size ≤ limit
  aligned : a ∣ addr
  apart_live : ∀ r ∈ s.live, ∀ x, Region.Has ⟨addr, size⟩ x → ¬ r.Has x
  apart_reserved : ∀ x, Region.Has ⟨addr, size⟩ x → s.reserved (x / PAGE_SIZE) = false
  marked : ∀ x, Region.Has ⟨addr, size⟩ x → n.marked (x / PAGE_SIZE) = true

/-- A call of `alloc_bootmem_core` returns a good region or none, or refuses its arguments. -/
def AllocLaw (s : State) (size a goal limit : ℕ) : Prop :=
  match s.node.allocBootmemCore size a goal limit with
  | .ok (.region n addr) => RegionOk s size a limit n addr
  | .ok .null | .error .arguments => True
  | .error .reserve | .error .search => False

/-- The address that `alloc_bootmem_core` returns. -/
def returned : Except Node.Trap Node.Allocated → Option ℕ
  | .ok (.region _ addr) => some addr
  | _ => none

variable {size addr x : ℕ} {n : Node} {r : Region}

lemma AllocLaw.regionOk {s : State} {a goal limit : ℕ} (h : AllocLaw s size a goal limit)
    (haddr : returned (s.node.allocBootmemCore size a goal limit) = some addr) :
    ∃ n, RegionOk s size a limit n addr := by
  unfold AllocLaw at h
  cases hcall : s.node.allocBootmemCore size a goal limit with
  | error => simp [hcall, returned] at haddr
  | ok r =>
    cases r with
    | null => simp [hcall, returned] at haddr
    | region n =>
      rw [hcall] at h haddr
      cases haddr
      exact ⟨n, h⟩

/-- No page that was given out is reserved by a call that is not exclusive, and the arguments of
allocations are sane. -/
def Careful (s : State) : Act → Prop
  | .reserve addr size exclusive => exclusive = true ∨
      ∀ p ∈ touchedPages addr size, s.node.marked p = false ∨ s.reserved p = true
  | .alloc size a _ limit => Node.Sane size a limit
  | .freeMemory _ _ | .freeRegion _ => True

instance (s : State) (act : Act) : Decidable (Careful s act) := by
  cases act <;> dsimp only [Careful] <;> infer_instance

/-! ### The invariant -/

/-- The page is given out: it is marked, but not reserved. -/
structure GivenOut (s : State) (p : ℕ) : Prop where
  ge : s.node.minPfn ≤ p
  lt : p < s.node.lowPfn
  marked : s.node.marked p = true
  registered : s.registered p = true
  not_reserved : s.reserved p = false

structure Inv (start stop : ℕ) (s : State) : Prop where
  minPfn : s.node.minPfn = start
  lowPfn : s.node.lowPfn = stop
  /-- A page that is not marked is free memory. -/
  free : ∀ p, start ≤ p → p < stop → s.node.marked p = false →
    s.registered p = true ∧ s.reserved p = false
  pos : ∀ r ∈ s.live, 0 < r.size
  given : ∀ r ∈ s.live, ∀ x, r.Has x → GivenOut s (x / 4096)
  apart : ∀ r ∈ s.live, ∀ r' ∈ s.live, ∀ x, r.Has x → r'.Has x → r = r'
  /-- The rest of the page where the last region ended is in no region. -/
  rest : s.node.lastEndOff % 4096 ≠ 0 →
    GivenOut s (start + s.node.lastEndOff / 4096) ∧
    ∀ r ∈ s.live, ∀ x, r.Has x →
      ¬ (start * 4096 + s.node.lastEndOff ≤ x ∧ x / 4096 = start + s.node.lastEndOff / 4096)

variable {start stop : ℕ} {s s' : State}

/-! ### Pages of a range -/

lemma Region.has_last (h : 0 < size) : Region.Has ⟨addr, size⟩ (addr + size - 1) := by
  simp only [Region.Has]
  omega

lemma mem_wholePages {p : ℕ} (h : addr + size + 4095 < 2 ^ 64) :
    p ∈ wholePages addr size ↔ addr ≤ p * 4096 ∧ (p + 1) * 4096 ≤ addr + size := by
  rw [wholePages, pfnUp_eq (by omega), Nat.mod_eq_of_lt (by rw [ulongRange]; omega), pfnDown,
    PAGE_SIZE, mem_range'_1]
  omega

lemma mem_touchedPages {p : ℕ} : p ∈ touchedPages addr size ↔
    pfnDown addr ≤ p ∧ p < pfnUp ((addr + size) % ulongRange) := by
  rw [touchedPages, mem_range'_1]
  omega

lemma marked_freeBootmem {n' : Node} (h : n.freeBootmem addr size = some n') :
    n'.minPfn = n.minPfn ∧ n'.lowPfn = n.lowPfn ∧ n'.lastEndOff = n.lastEndOff ∧
      ∀ p, n.minPfn ≤ p → n'.marked p = (n.marked p && !decide (p ∈ wholePages addr size)) := by
  obtain ⟨m, hint, rfl, -, -, htest⟩ := Node.freeBootmem_eq_some h
  refine ⟨rfl, rfl, rfl, fun p hp => ?_⟩
  simp only [Node.marked]
  rw [htest, Nat.add_sub_of_le hp]
  congr 2
  exact decide_eq_decide.2 (by rw [wholePages, mem_range'_1]; omega)

/-! ### Marking keeps the invariant -/

section

variable (hI : Inv start stop s)

include hI

/-- A step that only marks and frees pages keeps the invariant, if the pages with a part of a
region stay given out, and so does the page where the last region ended. -/
lemma Inv.of_marks (hmin : s'.node.minPfn = s.node.minPfn)
    (hlow : s'.node.lowPfn = s.node.lowPfn) (hlast : s'.node.lastEndOff = s.node.lastEndOff)
    (hlive : ∀ r ∈ s'.live, r ∈ s.live)
    (hfree : ∀ p, start ≤ p → p < stop → s'.node.marked p = false →
      s'.registered p = true ∧ s'.reserved p = false)
    (hkeep : ∀ r ∈ s'.live, ∀ x, r.Has x → GivenOut s' (x / 4096))
    (hrest : s.node.lastEndOff % 4096 ≠ 0 →
      GivenOut s' (start + s.node.lastEndOff / 4096)) : Inv start stop s' where
  minPfn := hmin.trans hI.minPfn
  lowPfn := hlow.trans hI.lowPfn
  free := hfree
  pos r hr := hI.pos r (hlive r hr)
  given := hkeep
  apart r hr r' hr' := hI.apart r (hlive r hr) r' (hlive r' hr')
  rest := by
    rw [hlast]
    exact fun hne => ⟨hrest hne, fun r hr => (hI.rest hne).2 r (hlive r hr)⟩

lemma Inv.freeMemory (hnew : ∀ p ∈ wholePages addr size, s.registered p = false)
    (hn : s.node.freeBootmem addr size = some n) (hs' : s' = { s with
      node := n
      reserved := fun p => s.reserved p && !decide (p ∈ wholePages addr size)
      registered := fun p => s.registered p || decide (p ∈ wholePages addr size) }) :
    Inv start stop s' := by
  obtain ⟨hmin, hlow, hlast, hmarked⟩ := marked_freeBootmem hn
  have hkeep (p : ℕ) (hp : GivenOut s p) : GivenOut s' p := by
    subst hs'
    have hout : p ∉ wholePages addr size := fun h => by
      have hreg := hp.registered
      simp [hnew p h] at hreg
    exact ⟨hmin ▸ hp.ge, hlow ▸ hp.lt, by simp [hmarked p hp.ge, hp.marked, hout],
      by simp [hp.registered], by simp [hp.not_reserved]⟩
  subst hs'
  refine hI.of_marks hmin hlow hlast (fun _ => id) (fun p hge hlt hclear => ?_)
    (fun r hr x hx => hkeep _ (hI.given r hr x hx)) fun hne => hkeep _ (hI.rest hne).1
  rw [hmarked p (hI.minPfn ▸ hge)] at hclear
  by_cases hin : p ∈ wholePages addr size
  · simp [hin]
  · have hold := hI.free p hge hlt (by simpa [hin] using hclear)
    simp [hin, hold]

lemma Inv.has_of_mem_wholePages (hstop : stop < 2 ^ 52) (hr : r ∈ s.live)
    (hx : x / 4096 ∈ wholePages r.addr r.size) : r.Has x := by
  have hpos := hI.pos r hr
  have hend := (hI.given r hr _ (Region.has_last hpos)).lt
  rw [hI.lowPfn] at hend
  rw [mem_wholePages (by omega)] at hx
  exact ⟨by omega, by omega⟩

lemma Inv.freeRegion (hstop : stop < 2 ^ 52) (hr : r ∈ s.live)
    (hn : s.node.freeBootmem r.addr r.size = some n) :
    Inv start stop { s with node := n, live := s.live.filter (· ≠ r) } := by
  obtain ⟨hmin, hlow, hlast, hmarked⟩ := marked_freeBootmem hn
  have hkeep {p : ℕ} (hp : GivenOut s p) (hout : p ∉ wholePages r.addr r.size) :
      GivenOut { s with node := n, live := s.live.filter (· ≠ r) } p :=
    ⟨hmin ▸ hp.ge, hlow ▸ hp.lt, by simp [hmarked p hp.ge, hp.marked, hout], hp.registered,
      hp.not_reserved⟩
  have hlive (r' : Region) (hr' : r' ∈ s.live.filter (· ≠ r)) : r' ∈ s.live ∧ r' ≠ r := by
    simpa using hr'
  refine hI.of_marks hmin hlow hlast (fun r' hr' => (hlive r' hr').1) (fun p hge hlt hclear => ?_)
    (fun r' hr' x hx => ?_) fun hne => ?_
  · rw [hmarked p (hI.minPfn ▸ hge)] at hclear
    by_cases hin : p ∈ wholePages r.addr r.size
    · have hhas : r.Has (p * 4096) :=
        hI.has_of_mem_wholePages hstop hr (by rwa [Nat.mul_div_cancel _ (by decide)])
      have hgiven := hI.given r hr _ hhas
      rw [Nat.mul_div_cancel _ (by decide)] at hgiven
      exact ⟨hgiven.registered, hgiven.not_reserved⟩
    · exact hI.free p hge hlt (by simpa [hin] using hclear)
  · obtain ⟨hr', hne⟩ := hlive r' hr'
    refine hkeep (hI.given r' hr' x hx) fun hin => hne ?_
    exact hI.apart r' hr' r hr x hx (hI.has_of_mem_wholePages hstop hr hin)
  · -- the last byte of the page is in no region
    obtain ⟨hgiven, hout⟩ := hI.rest hne
    refine hkeep hgiven fun hin => ?_
    have hbyte : ((start + s.node.lastEndOff / 4096) * 4096 + 4095) / 4096 =
        start + s.node.lastEndOff / 4096 := by omega
    exact hout r hr _ (hI.has_of_mem_wholePages hstop hr (by rwa [hbyte])) ⟨by omega, hbyte⟩

lemma Inv.reserve {m : Bitmap}
    (hpages : ∀ p ∈ touchedPages addr size, s.node.marked p = false ∨ s.reserved p = true)
    (hn : n = { s.node with map := m })
    (htest : ∀ j, m.test j = (s.node.map.test j || decide (pfnDown addr ≤ s.node.minPfn + j ∧
      s.node.minPfn + j < pfnUp ((addr + size) % ulongRange)))) (hs' : s' = { s with
      node := n
      reserved := fun p => s.reserved p || decide (p ∈ touchedPages addr size) }) :
    Inv start stop s' := by
  subst hn
  have hmarked (p : ℕ) (hp : s.node.minPfn ≤ p) : Node.marked { s.node with map := m } p =
      (s.node.marked p || decide (p ∈ touchedPages addr size)) := by
    simp only [Node.marked]
    rw [htest, Nat.add_sub_of_le hp]
    congr 1
    exact decide_eq_decide.2 mem_touchedPages.symm
  have hkeep {p : ℕ} (hp : GivenOut s p) : GivenOut s' p := by
    subst hs'
    have hout : p ∉ touchedPages addr size := fun h => by
      rcases hpages p h with hclear | hres
      · simp [hp.marked] at hclear
      · simp [hp.not_reserved] at hres
    exact ⟨hp.ge, hp.lt, by simp [hmarked p hp.ge, hp.marked], hp.registered,
      by simp [hp.not_reserved, hout]⟩
  subst hs'
  refine hI.of_marks rfl rfl rfl (fun _ => id) (fun p hge hlt hclear => ?_)
    (fun r hr x hx => hkeep (hI.given r hr x hx)) fun hne => hkeep (hI.rest hne).1
  rw [hmarked p (hI.minPfn ▸ hge), Bool.or_eq_false_iff] at hclear
  obtain ⟨hreg, hres⟩ := hI.free p hge hlt hclear.1
  exact ⟨hreg, by simp only [hres, hclear.2, Bool.or_self]⟩

lemma Inv.busy {m : Bitmap} {hint : ℕ} (htest : ∀ j, m.test j = s.node.map.test j) :
    Inv start stop { s with node := { s.node with map := m, hintIdx := hint } } := by
  have hmarked (p : ℕ) : Node.marked { s.node with map := m, hintIdx := hint } p =
      s.node.marked p := htest _
  have hkeep {p : ℕ} (hp : GivenOut s p) :
      GivenOut { s with node := { s.node with map := m, hintIdx := hint } } p :=
    ⟨hp.ge, hp.lt, (hmarked p).trans hp.marked, hp.registered, hp.not_reserved⟩
  refine hI.of_marks rfl rfl rfl (fun _ => id) (fun p hge hlt hclear => ?_)
    (fun r hr x hx => hkeep (hI.given r hr x hx)) fun hne => hkeep (hI.rest hne).1
  exact hI.free p hge hlt ((hmarked p).symm.trans hclear)

end

/-! ### Allocation keeps the invariant -/

section

variable {size a limit addr sidx : ℕ} {n : Node} (hI : Inv start stop s)
  (hg : Node.Granted s.node size a limit n addr sidx)

include hI hg

section

variable (hx : Region.Has ⟨addr, size⟩ x)

include hx

lemma Inv.has_granted :
    start + sidx ≤ x / 4096 ∧ x / 4096 < stop ∧ s.node.marked (x / 4096) = false ∨
      s.node.lastEndOff % 4096 ≠ 0 ∧ start * 4096 + s.node.lastEndOff ≤ x ∧
        x / 4096 = start + s.node.lastEndOff / 4096 := by
  obtain ⟨off, m, haddr, -, hend, hstart, -⟩ := hg.taken.exists_off
  have hfits := hg.fits
  have hmax := s.node.maxPfn_le_lowPfn limit
  obtain ⟨hge, hlt⟩ : addr ≤ x ∧ x < addr + size := hx
  rw [hI.minPfn] at haddr hfits
  rw [hI.lowPfn] at hmax
  by_cases hpage : start + sidx ≤ x / 4096
  · refine .inl ⟨hpage, by omega, hg.free _ ?_ ?_⟩
    · rw [hI.minPfn]
      omega
    · rw [hI.minPfn]
      omega
  · right
    rcases hstart with hoff | ⟨hoff, hne, hlast, hle⟩
    · omega
    · exact ⟨hne, by omega, by omega⟩

lemma Inv.apart_granted (hr : r ∈ s.live) : ¬ r.Has x := by
  intro hrx
  rcases hI.has_granted hg hx with ⟨-, -, hfree⟩ | ⟨hne, hge, hpage⟩
  · have hmarked := (hI.given r hr x hrx).marked
    simp [hfree] at hmarked
  · exact (hI.rest hne).2 r hr x hrx ⟨hge, hpage⟩

omit hx in
lemma Inv.rest_granted (hx : addr + size ≤ x) (hpage : x / 4096 = (addr + size - 1) / 4096)
    (hr : r ∈ s.live) : ¬ r.Has x := by
  intro hrx
  rcases hI.has_granted hg (Region.has_last hg.size_pos) with ⟨-, -, hfree⟩ | ⟨hne, hge, hlast⟩
  · have hmarked := (hI.given r hr x hrx).marked
    simp [hpage, hfree] at hmarked
  · exact (hI.rest hne).2 r hr x hrx ⟨by omega, hpage.trans hlast⟩

lemma Inv.marked_granted : n.marked (x / 4096) = true := by
  obtain ⟨off, m, haddr, rfl, -, -, htest⟩ := hg.taken.exists_off
  have hlt : x < addr + size := hx.2
  rw [hI.minPfn] at haddr
  simp only [Node.marked]
  rw [htest, hI.minPfn, Bool.or_eq_true]
  rcases hI.has_granted hg hx with ⟨hpage, -, -⟩ | ⟨hne, -, hlast⟩
  · exact .inr (decide_eq_true ⟨by omega, by omega⟩)
  · have hmarked := (hI.rest hne).1.marked
    rw [← hlast, Node.marked, hI.minPfn] at hmarked
    exact .inl hmarked

lemma Inv.givenOut_granted :
    GivenOut { s with node := n, live := ⟨addr, size⟩ :: s.live } (x / 4096) := by
  have hmarked := hI.marked_granted hg hx
  obtain ⟨off, m, -, rfl, -⟩ := hg.taken.exists_off
  rcases hI.has_granted hg hx with ⟨hge, hlt, hfree⟩ | ⟨hne, -, hpage⟩
  · obtain ⟨hreg, hres⟩ := hI.free _ (by omega) hlt hfree
    exact ⟨by simp only [hI.minPfn]; omega, by simp only [hI.lowPfn, hlt], hmarked, hreg, hres⟩
  · have hgiven := (hI.rest hne).1
    rw [hpage] at hmarked ⊢
    exact ⟨hgiven.ge, hgiven.lt, hmarked, hgiven.registered, hgiven.not_reserved⟩

end

lemma Inv.alloc : Inv start stop { s with node := n, live := ⟨addr, size⟩ :: s.live } := by
  have hnew {x : ℕ} (hx : Region.Has ⟨addr, size⟩ x) := hI.givenOut_granted hg hx
  have hpos := hg.size_pos
  obtain ⟨off, m, haddr, rfl, -, -, htest⟩ := hg.taken.exists_off
  rw [hI.minPfn] at haddr
  refine ⟨hI.minPfn, hI.lowPfn, fun p hge hlt hclear => ?_, ?_, ?_, ?_, fun hne => ⟨?_, ?_⟩⟩
  · simp only [Node.marked] at hclear
    rw [htest, Bool.or_eq_false_iff] at hclear
    exact hI.free p hge hlt hclear.1
  · exact List.forall_mem_cons.2 ⟨hpos, hI.pos⟩
  · refine List.forall_mem_cons.2 ⟨fun x => hnew, fun r hr x hx => ?_⟩
    have hold := hI.given r hr x hx
    refine ⟨hold.ge, hold.lt, ?_, hold.registered, hold.not_reserved⟩
    have hmarked := hold.marked
    simp only [Node.marked] at hmarked ⊢
    rw [htest, hmarked, Bool.true_or]
  · refine List.forall_mem_cons.2 ⟨?_, fun r hr => ?_⟩
    · refine List.forall_mem_cons.2 ⟨fun _ _ _ => rfl, fun r hr x hx hrx => ?_⟩
      exact absurd hrx (hI.apart_granted hg hx hr)
    · refine List.forall_mem_cons.2 ⟨fun x hrx hx => ?_, hI.apart r hr⟩
      exact absurd hrx (hI.apart_granted hg hx hr)
  · -- the page of the last byte
    have hlast := hnew (Region.has_last hpos)
    have hpage : (addr + size - 1) / 4096 = start + (off + size) / 4096 := by
      simp only at hne
      omega
    rwa [hpage] at hlast
  · simp only at hne ⊢
    refine List.forall_mem_cons.2 ⟨fun x hx => ?_, fun r hr x hrx => ?_⟩
    · obtain ⟨-, hlt⟩ : addr ≤ x ∧ x < addr + size := hx
      omega
    · rintro ⟨hge, hpage⟩
      exact hI.rest_granted hg (by omega) (by omega) hr hrx

lemma Inv.regionOk (hs : Node.Sane size a limit) : RegionOk s size a limit n addr := by
  have hend : addr + size ≤ s.node.maxPfn limit * 4096 := by
    obtain ⟨off, -, haddr, -, hend, -⟩ := hg.taken.exists_off
    have hfits := hg.fits
    omega
  have hmax := s.node.maxPfn_le_lowPfn limit
  refine ⟨⟨?_, ?_⟩, fun h0 => ?_, hg.taken.aligned, fun r hr x hx => hI.apart_granted hg hx hr,
    fun x hx => (hI.givenOut_granted hg hx).not_reserved, fun x => hI.marked_granted hg⟩
  · obtain ⟨off, -, haddr, -⟩ := hg.taken.exists_off
    rw [haddr]
    exact Nat.le_add_right _ _
  · exact hend.trans (Nat.mul_le_mul_right _ hmax)
  · exact hend.trans (Node.maxPfn_le_limit h0 hs.limit_page)

end

/-! ### Runs -/

variable {mapstart : ℕ} {memory : Bitmap}

lemma inv_init (hstop : stop < 2 ^ 52) :
    Inv start stop (machine mapstart start stop memory).init where
  minPfn := rfl
  lowPfn := rfl
  free p hge hlt hclear := by
    have hmarked : (machine mapstart start stop memory).init.node.marked p = true :=
      test_initBootmemCore hstop (show p - start < _ by omega)
    simp [hclear] at hmarked
  pos _ hr := absurd hr not_mem_nil
  given _ hr := absurd hr not_mem_nil
  apart _ hr := absurd hr not_mem_nil
  rest h := absurd rfl h

lemma Inv.apply (hstop : stop < 2 ^ 52) (hI : Inv start stop s) {act : Act}
    (hact : Contract s act) (hc : Careful s act) : Inv start stop (apply s act) := by
  cases act with
  | freeMemory addr size =>
    simp only [Bootmem.apply]
    cases hn : s.node.freeBootmem addr size with
    | none => exact hI
    | some => exact hI.freeMemory hact hn rfl
  | freeRegion r =>
    simp only [Bootmem.apply]
    cases hn : s.node.freeBootmem r.addr r.size with
    | none => exact hI
    | some => exact hI.freeRegion hstop hact hn
  | reserve addr size exclusive =>
    simp only [Bootmem.apply]
    cases hr : s.node.reserveBootmem addr size exclusive with
    | none => exact hI
    | some =>
      obtain ⟨hin, hspec⟩ := Node.reserveBootmem_spec hr
      cases hspec with
      | busy _ _ htest => exact hI.busy htest
      | ok htest hfree =>
        refine hI.reserve (fun p hp => ?_) rfl htest rfl
        rcases hc with hex | hpages
        · rw [mem_touchedPages] at hp
          have hge : s.node.minPfn ≤ p := le_trans hin.1 hp.1
          exact .inl (hfree hex _ (by rwa [Nat.add_sub_of_le hge]))
        · exact hpages p hp
  | alloc =>
    simp only [Bootmem.apply]
    rcases Node.allocBootmemCore_spec (hI.lowPfn ▸ hstop) hc with h | h | ⟨n, addr, _, h, hg⟩
    · rw [h]
      exact hI
    · rw [h]
      exact hI
    · rw [h]
      exact hI.alloc hg

theorem inv_of_reachable (hstop : stop < 2 ^ 52)
    (h : ((machine mapstart start stop memory).restrict Careful).Reachable s) :
    Inv start stop s := by
  refine h.invariant ?_ fun s act hI hact => ?_
  · exact inv_init hstop
  · exact hI.apply hstop hact.1.1 hact.2

/-- Two small regions that share a page, a large one, and two reservations; the first region is
given back. -/
def carefulRun : List Act :=
  [.freeMemory 8192 53248, .reserve 8192 100 true, .alloc 100 64 0 0, .alloc 200 64 0 0,
    .alloc 5000 8192 0 0, .freeRegion ⟨12288, 100⟩, .reserve 0x8000 1 false]

lemma carefulRun_admits : ((machine 0 2 16 fun _ => 0).restrict Careful).Admits
    (machine 0 2 16 fun _ => 0).init carefulRun := by
  decide +kernel

/-- A page that has a region in it is reserved. -/
def doubleReserve : List Act :=
  [.freeMemory 0 32768, .alloc 100 64 0 0, .reserve 0 4096 false]

end LklPort.Bootmem
