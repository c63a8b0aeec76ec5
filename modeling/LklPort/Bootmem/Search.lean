import LklPort.Bootmem.Nodes

/-!
# No free pages are missed

The search of `alloc_bootmem_core` starts at a hint, jumps over pages that are marked, and starts
again where the goal is if it fails. Whatever the hint says, it ends, and it fails only if there is
no run of free pages in the node for the region. `___alloc_bootmem_nopanic` asks one node after the
other, first from the goal on and then from the start of the nodes.

The slab allocator is not up yet and the port prefers no node, so that
`alloc_arch_preferred_bootmem` returns `NULL`.
-/

namespace LklPort.Bootmem

open List

open Words (IsPow align)
open Words.Bitmap (InRun)

/-! ### All nodes -/

/-- A pass of `___alloc_bootmem_nopanic` over the nodes: the nodes and the address of the region, if
there is one. -/
def allocNodes (size a goal limit : ℕ) : List Node → Except Node.Trap (Option (List Node × ℕ))
  | [] => .ok none
  | n :: nodes =>
    let next := (allocNodes size a goal limit nodes).map fun r =>
      r.map fun (nodes, addr) => (n :: nodes, addr)
    if goal ≠ 0 ∧ n.lowPfn ≤ pfnDown goal then next
    else if limit ≠ 0 ∧ n.minPfn ≥ pfnDown limit then .ok none
    else
      match n.allocBootmemCore size a goal limit with
      | .error t => .error t
      | .ok (.region n addr) => .ok (some (n :: nodes, addr))
      | .ok .null => next

def allocBootmemNopanic (nodes : List Node) (size a goal limit : ℕ) :
    Except Node.Trap (Option (List Node × ℕ)) :=
  match allocNodes size a goal limit nodes with
  | .ok none => if goal ≠ 0 then allocNodes size a 0 limit nodes else .ok none
  | r => r

/-! ### What the search looks for -/

/-- The number of pages of a region. -/
def pages (size : ℕ) : ℕ := (size + (PAGE_SIZE - 1)) / PAGE_SIZE

/-- The pages from index `s` on are free and have room for the region. They start at a multiple of
the alignment, and not before `first`. -/
structure Fits (n : Node) (size a limit first s : ℕ) : Prop where
  first_le : first ≤ n.minPfn + s
  aligned : max (a / PAGE_SIZE) 1 ∣ n.minPfn + s
  low : n.minPfn + s + pages size ≤ n.lowPfn
  limit : limit ≠ 0 → n.minPfn + s + pages size ≤ limit / PAGE_SIZE
  free : ∀ j, s ≤ j → j < s + pages size → n.map.test j = false

variable {n : Node} {size a goal limit first s : ℕ}

lemma pages_pos (h : 0 < size) : 0 < pages size := by
  simp only [pages, PAGE_SIZE]
  omega

lemma Fits.le_maxPfn (h : Fits n size a limit first s) :
    n.minPfn + s + pages size ≤ n.maxPfn limit := by
  unfold Node.maxPfn
  split_ifs with hlimit
  · apply h.limit
    rintro rfl
    exact hlimit.1 rfl
  · exact h.low

namespace Node

lemma room_of_fits (h0 : 0 < size) (h : Fits n size a limit first s) :
    Room n size (max (a / PAGE_SIZE) 1) (n.maxPfn limit - n.minPfn) s ∧ n.map.test s = false := by
  have hpos := pages_pos h0
  have hup : pfnUp size ≤ pages size := Nat.div_le_div_right (Nat.mod_le _ _)
  have hmax := h.le_maxPfn
  refine ⟨⟨h.aligned, by omega, by omega, fun j hj => h.free j hj.1 ?_⟩,
    h.free s (le_refl s) (by omega)⟩
  exact lt_of_lt_of_le hj.2 (Nat.add_le_add_left hup s)

/-! ### The region -/

/-- The pages that are reserved for the region end with those that were found, even if the
computation of the end overflows. -/
lemma pfnUp_end_le (size : ℕ) {off sidx : ℕ} (hoff : off ≤ sidx * 4096) (hsidx : sidx < 2 ^ 52) :
    pfnUp ((off + size) % ulongRange) ≤ sidx + pfnUp size := by
  simp only [pfnUp, PAGE_SIZE, ulongRange]
  omega

lemma takeBlock_of_free {sidx : ℕ} (ha : IsPow a) (hlow : n.minPfn + sidx < 2 ^ 52)
    (hdvd : max (a / PAGE_SIZE) 1 ∣ n.minPfn + sidx)
    (hfree : ∀ j, InRun sidx (pfnUp size) j → n.map.test j = false) :
    ∃ n' addr, n.takeBlock size a sidx = .ok (.region n' addr) := by
  obtain ⟨off, hoff, hle, hstart, -⟩ := exists_startOff ha hlow hdvd
  have hend := pfnUp_end_le size hle (by omega)
  unfold takeBlock
  simp only [hoff, firstPage_eq hle hstart]
  generalize pfnUp ((off + size) % ulongRange) = last at hend ⊢
  obtain ⟨m, hm, -⟩ := exists_reserve_ok (n := { n with
      lastEndOff := (off + size) % ulongRange, hintIdx := last }) fun (_ : true = true) j hj =>
    hfree j ⟨hj.1, by
      have hlt : j < sidx + (last - sidx) := hj.2
      omega⟩
  exact ⟨_, _, by rw [hm]⟩

/-- What the search returns: a region, or nothing if there are no free pages for it from the place
on where it starts. -/
inductive Complete (n : Node) (size a limit first : ℕ) : Except Trap Allocated → Prop where
  | region (n' : Node) (addr : ℕ) : Complete n size a limit first (.ok (.region n' addr))
  | null (hfits : ∀ s, ¬ Fits n size a limit first s) : Complete n size a limit first (.ok .null)

lemma allocBootmemCore_complete (ha : IsPow a) (hlow : n.lowPfn ≤ 2 ^ 52) (h0 : 0 < size)
    (hargs : limit ≠ 0 → (goal + size) % ulongRange ≤ limit) :
    Complete n size a limit (n.startPfn (max (a / PAGE_SIZE) 1) goal limit)
      (n.allocBootmemCore size a goal limit) := by
  have hadmit : ¬ (size = 0 ∨ Words.singleBit a = false ∨
      (limit ≠ 0 ∧ (goal + size) % ulongRange > limit)) := by
    rintro (h | h | ⟨hne, hgt⟩)
    · omega
    · simp [ha.singleBit] at h
    · exact absurd (hargs hne) (not_le.2 hgt)
  by_cases hempty : n.maxPfn limit ≤ n.minPfn
  · rw [allocBootmemCore, if_neg hadmit, if_pos hempty]
    refine .null fun s hs => ?_
    have hlt := (room_of_fits h0 hs).1.lt
    omega
  have hspec := allocBootmemCore_search ha hlow hadmit hempty
  have hmaxPfn := n.maxPfn_le_lowPfn limit
  generalize n.allocBootmemCore size a goal limit = out at hspec
  cases hspec with
  | null h =>
    refine .null fun s hs => ?_
    obtain ⟨hroom, hclear⟩ := room_of_fits h0 hs
    exact h s (Nat.sub_le_iff_le_add'.2 hs.first_le) hclear hroom
  | taken h =>
    have hlt := h.lt
    obtain ⟨n', addr, htake⟩ := takeBlock_of_free ha (by omega) h.dvd h.free
    rw [htake]
    exact .region n' addr

end Node

lemma Fits.of_no_goal (ha : IsPow a) (hlow : n.lowPfn ≤ 2 ^ 52)
    (h : Fits n size a limit n.minPfn s) :
    Fits n size a limit (n.startPfn (max (a / PAGE_SIZE) 1) 0 limit) s := by
  obtain ⟨hpow, hmax⟩ := Node.isPow_step ha
  have hroom := h.low
  refine { h with first_le := ?_ }
  exact Words.align_le_of_dvd hpow (by omega) h.aligned h.first_le

/-! ### Any node -/

section

variable {nodes : List Node} (ha : IsPow a) (hlow : ∀ n ∈ nodes, n.lowPfn ≤ 2 ^ 52) (h0 : 0 < size)

include ha hlow h0

lemma allocNodes_spec (hsorted : nodes.Pairwise fun n n' => n.minPfn ≤ n'.minPfn)
    (hargs : limit ≠ 0 → (goal + size) % ulongRange ≤ limit) :
    ∃ r, allocNodes size a goal limit nodes = .ok r ∧
      (goal = 0 → r = none → ∀ n ∈ nodes, ∀ s, ¬ Fits n size a limit n.minPfn s) := by
  induction nodes with
  | nil => exact ⟨_, rfl, by simp⟩
  | cons n nodes ih =>
    obtain ⟨hle, hsorted⟩ := List.pairwise_cons.1 hsorted
    obtain ⟨r, hr, hnone⟩ := ih (fun m hm => hlow m (mem_cons_of_mem _ hm)) hsorted
    have hlowN := hlow n mem_cons_self
    have hcore := Node.allocBootmemCore_complete ha hlowN h0 hargs
    rw [allocNodes, hr]
    split_ifs with hskip hstop
    · exact ⟨_, rfl, fun hgoal => absurd hgoal hskip.1⟩
    · -- neither this node nor those behind it have pages below the limit
      refine ⟨_, rfl, fun _ _ m hm s hs => ?_⟩
      have hmin : n.minPfn ≤ m.minPfn := by
        rcases List.mem_cons.1 hm with rfl | hm
        · exact le_refl _
        · exact hle m hm
      have hpos := pages_pos h0
      have hend := hs.limit hstop.1
      have hgt : n.minPfn ≥ limit / PAGE_SIZE := hstop.2
      omega
    · generalize n.allocBootmemCore size a goal limit = out at hcore
      cases hcore with
      | region => exact ⟨_, rfl, fun _ => nofun⟩
      | null hfits =>
        refine ⟨_, rfl, fun hgoal hmap => ?_⟩
        subst hgoal
        exact List.forall_mem_cons.2 ⟨fun s hs => hfits s (hs.of_no_goal ha hlowN),
          hnone rfl (by simpa using hmap)⟩

end

/-- The search for free pages ends and misses none, whatever the bits, the hint and the end of the
last region of a node are. `alloc_bootmem_core` fails only if there are no free pages for the region
from where the goal is, and `___alloc_bootmem_nopanic` only if there are none in any node. -/
theorem alloc_bootmem_complete (size a goal limit : ℕ) (h0 : 0 < size) (ha : IsPow a)
    (hargs : limit ≠ 0 → (goal + size) % ulongRange ≤ limit) : (∀ n : Node, n.lowPfn ≤ 2 ^ 52 →
      ∃ r, n.allocBootmemCore size a goal limit = .ok r ∧
        (r = .null →
          ∀ s, ¬ Fits n size a limit (n.startPfn (max (a / PAGE_SIZE) 1) goal limit) s)) ∧
    ∀ nodes : List Node, nodes.Pairwise (fun n n' => n.minPfn ≤ n'.minPfn) →
      (∀ n ∈ nodes, n.lowPfn ≤ 2 ^ 52) → (limit ≠ 0 → size % ulongRange ≤ limit) →
      ∃ r, allocBootmemNopanic nodes size a goal limit = .ok r ∧
        (r = none → ∀ n ∈ nodes, ∀ s, ¬ Fits n size a limit n.minPfn s) := by
  refine ⟨fun n hlow => ?_, fun nodes hsorted hlow hlimit => ?_⟩
  · have hcore := Node.allocBootmemCore_complete ha hlow h0 hargs
    generalize n.allocBootmemCore size a goal limit = out at hcore ⊢
    cases hcore with
    | region => exact ⟨_, rfl, nofun⟩
    | null hfits => exact ⟨_, rfl, fun _ => hfits⟩
  · obtain ⟨r, hr, hnone⟩ := allocNodes_spec ha hlow h0 hsorted hargs
    obtain ⟨r', hr', hnone'⟩ := allocNodes_spec ha hlow h0 hsorted (by rwa [zero_add])
    unfold allocBootmemNopanic
    rw [hr]
    cases r with
    | some => exact ⟨_, rfl, nofun⟩
    | none =>
      by_cases hgoal : goal = 0
      · simp only [hgoal, ne_eq, not_true, if_false]
        exact ⟨_, rfl, fun _ => hnone hgoal rfl⟩
      · simp only [hr', ne_eq, hgoal, not_false_eq_true, if_true]
        exact ⟨_, rfl, hnone' rfl⟩

/-- No node has three free pages in a row. -/
theorem alloc_bootmem_complete_twoNodes :
    ∃ r, allocBootmemNopanic twoNodes 12288 4096 8192 0 = .ok r ∧
      (r = none → ∀ n ∈ twoNodes, ∀ s, ¬ Fits n 12288 4096 0 n.minPfn s) := by
  refine (alloc_bootmem_complete 12288 4096 8192 0 (by decide) ⟨12, by decide, rfl⟩ ?_).2
    twoNodes ?_ ?_ ?_
  · exact fun h => absurd rfl h
  · simp [twoNodes]
  · simp [twoNodes]
  · exact fun h => absurd rfl h

end LklPort.Bootmem
