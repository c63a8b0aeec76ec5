import LklPort.Bootmem.Regions
import LklPort.Bootmem.Search

/-!
# The end of boot memory

`mem_init_0` gives the pages of a block of host memory to the boot memory allocator, with the bit
map in the first ones. `free_all_bootmem` hands the pages that are not marked to the page
allocator, in blocks of 64 pages where a whole word of the map is clear, and then the pages of the
map itself.
-/

namespace LklPort.Bootmem

open List

open Words (Bitmap align)
open Words.Bitmap (InRun)

/-! ### Release -/

/-- The calls of `__free_pages_bootmem` for `k` bits of a word of the map, from the bit `off` on.
A call has a pfn and an order. -/
def releaseBits (start : ℕ) : (k off : ℕ) → BitVec 64 → List (ℕ × ℕ)
  | 0, _, _ => []
  | k + 1, off, vec =>
    if vec = 0 then []
    else if vec &&& 1 ≠ 0 then (start + off, 0) :: releaseBits start k (off + 1) (vec >>> 1)
    else releaseBits start k (off + 1) (vec >>> 1)

/-- The pages that the calls hand to the page allocator. -/
def pagesOf (calls : List (ℕ × ℕ)) : List ℕ := calls.flatMap fun c => List.range' c.1 (2 ^ c.2)

namespace Node

/-- `vec` in `free_all_bootmem_core`: the pages of a word of the map that are not marked. -/
def vec (n : Node) (start : ℕ) : BitVec 64 := ~~~n.map ((start - n.minPfn) / BITS_PER_LONG)

/-- The body of the loop of `free_all_bootmem_core`: the calls, and what is added to `count`. -/
def releaseWord (n : Node) (aligned : Bool) (start : ℕ) : List (ℕ × ℕ) × ℕ :=
  if aligned = true ∧ n.vec start = BitVec.allOnes 64 ∧ start + BITS_PER_LONG < n.lowPfn then
    ([(start, 6)], BITS_PER_LONG)
  else
    let calls := releaseBits start BITS_PER_LONG 0 (n.vec start)
    (calls, calls.length)

/-- The loop of `free_all_bootmem_core`, of at most `k` rounds. -/
def releaseFrom (n : Node) (aligned : Bool) : (k start : ℕ) → List (ℕ × ℕ) × ℕ
  | 0, _ => ([], 0)
  | k + 1, start =>
    if start < n.lowPfn then
      let word := n.releaseWord aligned start
      let rest := releaseFrom n aligned k (start + BITS_PER_LONG)
      (word.1 ++ rest.1, word.2 + rest.2)
    else ([], 0)

/-- The pages of the bit map. -/
def mapPages (n : Node) : List ℕ :=
  List.range' n.mapPfn (bootmemBootmapPages (n.lowPfn - n.minPfn))

/-- `free_all_bootmem_core`: the calls of `__free_pages_bootmem` and the returned count. -/
def freeAllBootmemCore (n : Node) : List (ℕ × ℕ) × ℕ :=
  let aligned := decide (n.minPfn % BITS_PER_LONG = 0)
  let words := n.releaseFrom aligned (n.lowPfn - n.minPfn) n.minPfn
  (words.1 ++ n.mapPages.map fun p => (p, 0), words.2 + n.mapPages.length)

end Node

/-! ### Host memory -/

structure Memory where
  physMem : ℕ
  physMemSize : ℕ
  maxLowPfn : ℕ
  node : Node

/-- `phys_mem_size` after the alignment of `phys_mem` to a page, for the block at `addr` of `size`
bytes. -/
def physMemSize (addr size : ℕ) : ℕ :=
  let physMem := align addr PAGE_SIZE
  let pad := (physMem + ulongRange - addr) % ulongRange
  if physMem ≠ addr then (size + ulongRange - pad) % ulongRange / PAGE_SIZE * PAGE_SIZE else size

/-- `mem_init_0` up to the reservation of the bit map. -/
def memSetup (addr size : ℕ) (memory : Bitmap) : Option Memory :=
  if addr = 0 then none
  else
    let maxLowPfn := physMemSize addr size / PAGE_SIZE
    let (n, bootmapSize) := initBootmemCore 0 0 maxLowPfn memory
    match n.freeBootmem 0 (physMemSize addr size) with
    | none => none
    | some n =>
      match n.reserveBootmem 0 bootmapSize false with
      | some (.ok n) | some (.busy n) =>
        some ⟨align addr PAGE_SIZE, physMemSize addr size, maxLowPfn, n⟩
      | none => none

/-- How `mem_init_0` ends. -/
inductive Boot where
  | bug
  | panic (msg : String)
  | up (m : Memory) (emptyZeroPage : ℕ)

/-- `mem_init_0`: the last step is `alloc_bootmem_pages(PAGE_SIZE)`. -/
def memInit0 (addr size : ℕ) (memory : Bitmap) : Boot :=
  match memSetup addr size memory with
  | none => .bug
  | some m =>
    match m.node.allocBootmemCore PAGE_SIZE PAGE_SIZE 0 0 with
    | .ok (.region n page) => .up { m with node := n } ((m.physMem + page) % ulongRange)
    | .ok .null => .panic "Out of memory"
    | .error _ => .bug

/-- A block that `mem_alloc` may return for `phys_mem_size`, an `unsigned int`, with room for an
aligned page. -/
structure HostBlock (addr size : ℕ) : Prop where
  ne_null : addr ≠ 0
  size_lt : size < 2 ^ 32
  in_memory : addr + size ≤ 2 ^ 64
  room : ∃ page, 4096 ∣ page ∧ addr ≤ page ∧ page + 4096 ≤ addr + size

/-- The regions that the calls return. -/
def Node.regions (n : Node) : List Op → List Region
  | [] => []
  | op :: ops =>
    (match op with
      | .alloc size a goal limit =>
        (returned (n.allocBootmemCore size a goal limit)).toList.map (⟨·, size⟩)
      | .free _ _ | .reserve _ _ _ => []) ++
    match n.apply op with
    | some n => n.regions ops
    | none => []

/-- An allocation with sane arguments. -/
def Op.SaneAlloc (op : Op) : Prop :=
  ∃ size a goal limit, op = .alloc size a goal limit ∧ Node.Sane size a limit

/-- What `free_all_bootmem` owes to the page allocator: every page that is not marked and every
page of the bit map, once, and their number. -/
structure ReleasedOnce (n : Node) : Prop where
  nodup : (pagesOf n.freeAllBootmemCore.1).Nodup
  mem_iff : ∀ pfn, pfn ∈ pagesOf n.freeAllBootmemCore.1 ↔
    (n.minPfn ≤ pfn ∧ pfn < n.lowPfn ∧ n.marked pfn = false) ∨ pfn ∈ n.mapPages
  count : n.freeAllBootmemCore.2 = (pagesOf n.freeAllBootmemCore.1).length

/-! ### The pages of a word -/

section

variable {start k off : ℕ}

lemma and_one_ne_zero_iff (x : BitVec 64) : x &&& 1 ≠ 0 ↔ x.getLsbD 0 = true := by
  have hone : x &&& 1 = (BitVec.ofBool (x.getLsbD 0)).setWidth 64 :=
    BitVec.and_one_eq_setWidth_ofBool_getLsbD
  rw [hone]
  cases x.getLsbD 0 <;> decide

lemma pagesOf_releaseBits (start k off : ℕ) (v : BitVec 64) :
    pagesOf (releaseBits start k off (v >>> off)) =
      ((List.range' off k).filter v.getLsbD).map (start + ·) := by
  induction k generalizing off with
  | zero => rfl
  | succ _ ih =>
    have hshift : v >>> off >>> 1 = v >>> (off + 1) := (BitVec.shiftRight_add ..).symm
    have hbit : (v >>> off).getLsbD 0 = v.getLsbD off := by simp
    rw [releaseBits, hshift, List.range'_succ]
    split_ifs with hzero hone
    · -- no bit is left
      have hnone (i : ℕ) (hi : off ≤ i) : v.getLsbD i = false := by
        have h := congrArg (fun x => BitVec.getLsbD x (i - off)) hzero
        simpa [Nat.add_sub_of_le hi] using h
      rw [List.filter_eq_nil_iff.2]
      · rfl
      · intro i hi
        have hle : off ≤ i := by
          simp only [mem_cons, mem_range'_1] at hi
          omega
        simp [hnone i hle]
    · rw [and_one_ne_zero_iff, hbit] at hone
      rw [filter_cons_of_pos hone, map_cons, ← ih]
      simp [pagesOf]
    · rw [and_one_ne_zero_iff, hbit] at hone
      rw [filter_cons_of_neg hone, ← ih]

lemma length_releaseBits (vec : BitVec 64) :
    (releaseBits start k off vec).length = (pagesOf (releaseBits start k off vec)).length := by
  induction k generalizing off vec with
  | zero => rfl
  | succ _ ih =>
    rw [releaseBits]
    split_ifs
    · rfl
    · simp only [pagesOf, flatMap_cons, length_append, length_cons,
        length_range'] at ih ⊢
      rw [ih]
      omega
    · exact ih _

lemma pagesOf_append (c c' : List (ℕ × ℕ)) : pagesOf (c ++ c') = pagesOf c ++ pagesOf c' :=
  flatMap_append

lemma pagesOf_map (l : List ℕ) : pagesOf (l.map fun p => (p, 0)) = l := by
  simp [pagesOf, flatMap_map]

end

namespace Node

variable {n : Node} {aligned : Bool} {start k : ℕ}

section

variable (hmin : n.minPfn ≤ start) (hdvd : 64 ∣ start - n.minPfn)

include hmin hdvd

lemma getLsbD_vec {i : ℕ} (hi : i < 64) : (n.vec start).getLsbD i = !n.marked (start + i) := by
  obtain ⟨w, hw⟩ := hdvd
  have hword : (start + i - n.minPfn) / 64 = (start - n.minPfn) / 64 := by omega
  have hmod : (start + i - n.minPfn) % 64 = i := by omega
  simp [vec, BITS_PER_LONG, marked, Bitmap.test, hword, hmod, hi]

lemma pagesOf_releaseWord : pagesOf (n.releaseWord aligned start).1 =
      (List.range' start 64).filter fun p => !n.marked p := by
  have hbits : (List.range' start 64).filter (fun p => !n.marked p) =
      ((List.range' 0 64).filter (n.vec start).getLsbD).map (start + ·) := by
    rw [show List.range' start 64 = (List.range' 0 64).map (start + ·) by
      rw [map_add_range', add_zero], filter_map]
    congr 1
    refine filter_congr fun i hi => ?_
    have hlt : i < 64 := by
      simp only [mem_range'_1] at hi
      omega
    rw [getLsbD_vec hmin hdvd hlt, Function.comp]
  unfold releaseWord
  split_ifs with hbulk
  · -- no page of the word is marked
    rw [hbits, List.filter_eq_self.2]
    · rfl
    · intro i hi
      have hlt : i < 64 := by
        simp only [mem_range'_1] at hi
        omega
      rw [hbulk.2.1, BitVec.getLsbD_allOnes]
      exact decide_eq_true hlt
  · have h := pagesOf_releaseBits start 64 0 (n.vec start)
    rw [hbits]
    exact h

end

lemma count_releaseWord :
    (n.releaseWord aligned start).2 = (pagesOf (n.releaseWord aligned start).1).length := by
  unfold releaseWord
  split_ifs
  · rfl
  · exact length_releaseBits _

lemma pagesOf_releaseFrom (hmin : n.minPfn ≤ start) (hdvd : 64 ∣ start - n.minPfn)
    (hk : n.lowPfn ≤ start + k) : pagesOf (n.releaseFrom aligned k start).1 =
      (List.range' start ((n.lowPfn - start + 63) / 64 * 64)).filter fun p => !n.marked p := by
  induction k generalizing start with
  | zero =>
    rw [show (n.lowPfn - start + 63) / 64 * 64 = 0 by omega]
    rfl
  | succ _ ih =>
    rw [releaseFrom]
    split_ifs with hlt
    · have hsplit : (n.lowPfn - start + 63) / 64 * 64 =
          64 + (n.lowPfn - (start + 64) + 63) / 64 * 64 := by omega
      rw [pagesOf_append, pagesOf_releaseWord hmin hdvd, hsplit, ← List.range'_append_1,
        filter_append]
      congr 1
      have hbits : BITS_PER_LONG = 64 := rfl
      exact ih (by omega) (by omega) (by omega)
    · rw [show (n.lowPfn - start + 63) / 64 * 64 = 0 by omega]
      rfl

lemma count_releaseFrom :
    (n.releaseFrom aligned k start).2 = (pagesOf (n.releaseFrom aligned k start).1).length := by
  induction k generalizing start with
  | zero => rfl
  | succ _ ih =>
    rw [releaseFrom]
    split_ifs
    · simp only [pagesOf_append, length_append, count_releaseWord, ih]
    · rfl

/-- The bits behind the last page of the node are set. -/
def Sealed (n : Node) : Prop :=
  ∀ j, n.lowPfn - n.minPfn ≤ j → j < (n.lowPfn - n.minPfn + 63) / 64 * 64 → n.map.test j = true

lemma pagesOf_freeAllBootmemCore (h : n.Sealed) : pagesOf n.freeAllBootmemCore.1 =
      ((List.range' n.minPfn (n.lowPfn - n.minPfn)).filter fun p => !n.marked p) ++
        n.mapPages := by
  have htail : (n.lowPfn - n.minPfn + 63) / 64 * 64 = n.lowPfn - n.minPfn +
      ((n.lowPfn - n.minPfn + 63) / 64 * 64 - (n.lowPfn - n.minPfn)) := by omega
  -- no page is freed behind the last one
  have hnil : (List.range' (n.minPfn + (n.lowPfn - n.minPfn))
      ((n.lowPfn - n.minPfn + 63) / 64 * 64 - (n.lowPfn - n.minPfn))).filter
        (fun p => !n.marked p) = [] := by
    rw [filter_eq_nil_iff]
    intro p hp
    simp only [mem_range'_1] at hp
    have hset := h (p - n.minPfn) (by omega) (by omega)
    simp [marked, hset]
  unfold freeAllBootmemCore
  rw [pagesOf_append, pagesOf_map, pagesOf_releaseFrom (le_refl _) (by simp) (by omega), htail,
    ← List.range'_append_1, filter_append, hnil, append_nil]

/-- The pages are released once if the bits behind the last page are set, and the pages of the bit
map are marked as far as they are in the node. -/
lemma releasedOnce (h : n.Sealed)
    (hmap : ∀ p ∈ n.mapPages, n.minPfn ≤ p → p < n.lowPfn → n.marked p = true) :
    ReleasedOnce n := by
  have hpages := pagesOf_freeAllBootmemCore h
  have hmem (p : ℕ) : p ∈ List.range' n.minPfn (n.lowPfn - n.minPfn) ↔
      n.minPfn ≤ p ∧ p < n.lowPfn := by
    rw [mem_range'_1]
    omega
  refine ⟨?_, fun p => ?_, ?_⟩
  · rw [hpages, nodup_append]
    refine ⟨List.Pairwise.filter _ nodup_range', nodup_range', fun p hp q hq hpq => ?_⟩
    obtain ⟨hrange, hclear⟩ := List.mem_filter.1 hp
    obtain ⟨hge, hlt⟩ := (hmem p).1 hrange
    simp [hmap p (hpq ▸ hq) hge hlt] at hclear
  · rw [hpages, mem_append, mem_filter, hmem, Bool.not_eq_true', and_assoc]
  · unfold freeAllBootmemCore
    simp only [pagesOf_append, pagesOf_map, length_append, count_releaseFrom]

end Node

/-! ### The calls keep the map sealed -/

/-- The node is the same but for its marks: none is lost behind the last page. -/
structure SameNode (n n' : Node) : Prop where
  minPfn : n'.minPfn = n.minPfn
  lowPfn : n'.lowPfn = n.lowPfn
  mapPfn : n'.mapPfn = n.mapPfn
  sealed : ∀ j, n.lowPfn - n.minPfn ≤ j → n.map.test j = true → n'.map.test j = true

/-- The node is the same, and no mark is lost. -/
structure MoreMarks (n n' : Node) : Prop extends SameNode n n' where
  marks : ∀ j, n.map.test j = true → n'.map.test j = true

variable {n : Node} {addr size a start stop : ℕ}

lemma MoreMarks.of_marks {m : Bitmap} {last hint : ℕ}
    (h : ∀ j, n.map.test j = true → m.test j = true) :
    MoreMarks n { n with map := m, lastEndOff := last, hintIdx := hint } :=
  ⟨⟨rfl, rfl, rfl, fun j _ => h j⟩, h⟩

variable {sidx goal limit pages : ℕ} {ops : List Op}

namespace Node

variable {n n' : Node}

lemma freeBootmem_sameNode (h : n.freeBootmem addr size = some n') : SameNode n n' := by
  obtain ⟨m, hint, rfl, hin, -, htest⟩ := freeBootmem_eq_some h
  refine ⟨rfl, rfl, rfl, fun j hj hset => ?_⟩
  have hout : ¬ (pfnUp addr ≤ n.minPfn + j ∧
      n.minPfn + j < pfnDown ((addr + size) % ulongRange)) := by
    unfold InNode at hin
    omega
  rw [htest, hset, decide_eq_false hout]
  rfl

lemma reserveBootmem_moreMarks {exclusive : Bool} {r : Reserved}
    (h : n.reserveBootmem addr size exclusive = some r) :
    ∃ n', (r = .ok n' ∨ r = .busy n') ∧ MoreMarks n n' := by
  cases (reserveBootmem_spec h).2 with
  | ok htest => exact ⟨_, .inl rfl, .of_marks fun j hj => by rw [htest, hj, Bool.true_or]⟩
  | busy _ _ htest => exact ⟨_, .inr rfl, .of_marks fun j hj => by rw [htest, hj]⟩

lemma takeBlock_moreMarks (h : n.takeBlock size a sidx = .ok (.region n' addr)) :
    MoreMarks n n' := by
  unfold takeBlock at h
  simp only at h
  split at h
  · next hr =>
    cases reserve_spec hr with
    | ok htest =>
      cases h
      exact .of_marks fun j hj => by rw [htest, hj, Bool.true_or]
  · cases h

lemma exists_takeBlock {step midx : ℕ} {fallback : Option ℕ}
    (h : n.search size a step midx sidx fallback = .ok (.region n' addr)) :
    ∃ s, n.takeBlock size a s = .ok (.region n' addr) := by
  unfold search at h
  split at h
  · cases h
  · exact ⟨_, h⟩
  · cases h
  · split at h
    · cases h
    · exact ⟨_, h⟩
    · cases h

lemma allocBootmemCore_moreMarks {goal limit : ℕ}
    (h : n.allocBootmemCore size a goal limit = .ok (.region n' addr)) : MoreMarks n n' := by
  unfold allocBootmemCore at h
  split_ifs at h with hargs hempty
  · cases h
  · simp only at h
    split_ifs at h
    all_goals
      obtain ⟨s, hs⟩ := exists_takeBlock h
      exact takeBlock_moreMarks hs

lemma alloc_moreMarks (h : n.apply (.alloc size a goal limit) = some n') : MoreMarks n n' := by
  simp only [apply] at h
  split at h
  · next halloc =>
    cases h
    exact allocBootmemCore_moreMarks halloc
  · cases h
    exact .of_marks fun _ => id
  · cases h

lemma apply_sameNode {op : Op} (h : n.apply op = some n') : SameNode n n' := by
  cases op with
  | free => exact freeBootmem_sameNode h
  | reserve =>
    simp only [apply, Option.map_eq_some_iff] at h
    obtain ⟨r, hr, rfl⟩ := h
    obtain ⟨n', rfl | rfl, hmarks⟩ := reserveBootmem_moreMarks hr
    · exact hmarks.toSameNode
    · exact hmarks.toSameNode
  | alloc => exact (alloc_moreMarks h).toSameNode

lemma Sealed.run (hs : n.Sealed) (h : n.run ops = some n') : n'.Sealed := by
  induction ops generalizing n with
  | nil =>
    cases h
    exact hs
  | cons _ _ ih =>
    obtain ⟨n1, hop, hrest⟩ := Option.bind_eq_some_iff.1 h
    have hsame := apply_sameNode hop
    refine ih (fun j hj hj' => ?_) hrest
    rw [hsame.minPfn, hsame.lowPfn] at hj hj'
    exact hsame.sealed j hj (hs j hj hj')

lemma run_moreMarks (hops : ∀ op ∈ ops, ∃ size a goal limit,
    op = .alloc size a goal limit) (h : n.run ops = some n') : MoreMarks n n' := by
  induction ops generalizing n with
  | nil =>
    cases h
    exact .of_marks fun _ => id
  | cons op _ ih =>
    obtain ⟨n1, hop, hrest⟩ := Option.bind_eq_some_iff.1 h
    obtain ⟨size, a, goal, limit, rfl⟩ := hops op mem_cons_self
    have h1 := alloc_moreMarks hop
    have h2 := ih (fun op hop => hops op (mem_cons_of_mem _ hop)) hrest
    exact ⟨⟨h2.minPfn.trans h1.minPfn, h2.lowPfn.trans h1.lowPfn, h2.mapPfn.trans h1.mapPfn,
      fun j _ hj => h2.marks j (h1.marks j hj)⟩, fun j hj => h2.marks j (h1.marks j hj)⟩

end Node

/-! ### Regions that were given out -/

section

variable {start stop : ℕ} {s : State} {n' : Node}

lemma apply_alloc (h : s.node.apply (.alloc size a goal limit) = some n') :
    (apply s (.alloc size a goal limit)).node = n' ∧
      (apply s (.alloc size a goal limit)).reserved = s.reserved ∧
      (apply s (.alloc size a goal limit)).live = (returned
        (s.node.allocBootmemCore size a goal limit)).toList.map (⟨·, size⟩) ++ s.live := by
  simp only [Node.apply] at h
  simp only [apply]
  split at h
  · next halloc =>
    cases h
    simp [halloc, returned]
  · next halloc =>
    cases h
    simp [halloc, returned]
  · cases h

lemma exists_inv_run (hstop : stop < 2 ^ 52) (hI : Inv start stop s)
    (hops : ∀ op ∈ ops, op.SaneAlloc) (h : s.node.run ops = some n') :
    ∃ s', Inv start stop s' ∧ s'.node = n' ∧ s'.reserved = s.reserved ∧
      ∀ r ∈ s.node.regions ops ++ s.live, r ∈ s'.live := by
  induction ops generalizing s with
  | nil =>
    cases h
    exact ⟨s, hI, rfl, rfl, fun r hr => hr⟩
  | cons op ops ih =>
    obtain ⟨n1, hop, hrest⟩ := Option.bind_eq_some_iff.1 h
    obtain ⟨size, a, goal, limit, rfl, hsane⟩ := hops op mem_cons_self
    obtain ⟨hn1, hres1, hlive1⟩ := apply_alloc hop
    have hI1 : Inv start stop (apply s (.alloc size a goal limit)) := hI.apply hstop trivial hsane
    obtain ⟨s', hI', hn', hres', hlive'⟩ := ih hI1
      (fun op hop => hops op (mem_cons_of_mem _ hop)) (hn1 ▸ hrest)
    refine ⟨s', hI', hn', hres'.trans hres1, fun r hr => hlive' r ?_⟩
    rw [hlive1, hn1]
    rw [Node.regions, hop] at hr
    simp only [List.mem_append] at hr ⊢
    tauto

end

/-! ### Registration -/

lemma isPow_page : Words.IsPow 4096 := ⟨12, by decide, rfl⟩

lemma bootmemBootmapPages_eq (h : pages < 2 ^ 52) :
    bootmemBootmapPages pages = ((pages + 63) / 64 * 8 + 4095) / 4096 := by
  rw [bootmemBootmapPages, bootmapBytes_eq h, PAGE_SIZE, Words.align_eq isPow_page (by omega)]
  omega

lemma sealed_initBootmemCore {mapstart : ℕ} {memory : Bitmap} (hstop : stop < 2 ^ 52) :
    (initBootmemCore mapstart start stop memory).1.Sealed :=
  fun _ _ => test_initBootmemCore hstop

/-! ### The block of the host -/

lemma HostBlock.aligned (h : HostBlock addr size) :
    addr ≤ align addr 4096 ∧ 4096 ∣ align addr 4096 ∧ align addr 4096 + 4096 ≤ addr + size := by
  obtain ⟨page, hdvd, hle, hfit⟩ := h.room
  have hmem := h.in_memory
  have hroom : addr + 4096 ≤ 2 ^ 64 := by omega
  have hup := Words.align_le_of_dvd isPow_page hroom hdvd hle
  exact ⟨Words.le_align isPow_page hroom, Words.dvd_align isPow_page hroom,
    le_trans (Nat.add_le_add_right hup 4096) hfit⟩

/-- The node after the set-up: the pages of the bit map are marked, and no other ones. -/
structure SetUp (pages : ℕ) (n : Node) : Prop where
  minPfn : n.minPfn = 0
  lowPfn : n.lowPfn = pages
  mapPfn : n.mapPfn = 0
  lastEndOff : n.lastEndOff = 0
  hintIdx : n.hintIdx = 0
  test : ∀ j < (pages + 63) / 64 * 64,
    n.map.test j = decide (j < bootmemBootmapPages pages ∨ pages ≤ j)

lemma Node.exists_freeBootmem (hstart : pfnUp addr = start)
    (hstop : pfnDown ((addr + size) % ulongRange) = stop) (hin : n.InNode start stop)
    (hset : ∀ j, InRun (start - n.minPfn) (stop - n.minPfn - (start - n.minPfn)) j →
      n.map.test j = true) :
    ∃ m hint, n.freeBootmem addr size = some { n with map := m, hintIdx := hint } ∧
      hint ≤ n.hintIdx ∧ ∀ j, m.test j = (n.map.test j &&
        !decide (InRun (start - n.minPfn) (stop - n.minPfn - (start - n.minPfn)) j)) := by
  obtain ⟨m, hint, hfree, h⟩ := exists_free _ _ hset
  refine ⟨m, hint, ?_, h⟩
  unfold freeBootmem
  simp only [hstart, hstop]
  rw [if_pos hin, hfree]

lemma Node.exists_reserveBootmem (hstart : pfnDown addr = start)
    (hstop : pfnUp ((addr + size) % ulongRange) = stop) (hin : n.InNode start stop) :
    ∃ m, n.reserveBootmem addr size false = some (.ok { n with map := m }) ∧
      ∀ j, m.test j = (n.map.test j ||
        decide (InRun (start - n.minPfn) (stop - n.minPfn - (start - n.minPfn)) j)) := by
  obtain ⟨m, hm, htest⟩ := exists_reserve_ok fun (h : false = true) => nomatch h
  refine ⟨m, ?_, htest⟩
  unfold reserveBootmem
  simp only [hstart, hstop]
  rw [if_pos hin, hm]

lemma exists_setUp (memory : Bitmap) (hpages : size / 4096 = pages) (h0 : 0 < pages)
    (hsize : size < 2 ^ 32) :
    ∃ n1 n, (initBootmemCore 0 0 pages memory).1.freeBootmem 0 size = some n1 ∧
      n1.reserveBootmem 0 (bootmapBytes pages) false = some (.ok n) ∧ SetUp pages n := by
  have hlow : pages < 2 ^ 52 := by omega
  have hbytes := bootmapBytes_eq hlow
  have hmapPages := bootmemBootmapPages_eq hlow
  -- the pages of the two calls
  have hfirst : pfnUp 0 = 0 := pfnUp_eq (by decide)
  have hlast : pfnDown ((0 + size) % ulongRange) = pages := by
    rw [zero_add, Nat.mod_eq_of_lt (by rw [ulongRange]; omega), pfnDown, PAGE_SIZE, hpages]
  have hmap : pfnUp ((0 + bootmapBytes pages) % ulongRange) = bootmemBootmapPages pages := by
    rw [zero_add, Nat.mod_eq_of_lt (by rw [ulongRange, hbytes]; omega), pfnUp_eq (by omega),
      hmapPages, hbytes]
  have hfit : bootmemBootmapPages pages ≤ pages := by omega
  obtain ⟨m1, hint, hfree, hhint, htest1⟩ :=
    Node.exists_freeBootmem (n := (initBootmemCore 0 0 pages memory).1) hfirst hlast
      ⟨le_refl 0, h0, le_refl pages⟩ fun j hj => by
        have hj' : j < 0 - 0 + (pages - 0 - (0 - 0)) := hj.2
        exact test_initBootmemCore hlow (by omega)
  obtain ⟨m2, hreserve, htest2⟩ := Node.exists_reserveBootmem
    (n := { (initBootmemCore 0 0 pages memory).1 with map := m1, hintIdx := hint })
    (show pfnDown 0 = 0 from rfl) hmap ⟨le_refl 0, h0, hfit⟩
  refine ⟨_, _, hfree, hreserve, rfl, rfl, rfl, rfl, Nat.le_zero.1 hhint, fun j hj => ?_⟩
  have hinit : (initBootmemCore 0 0 pages memory).1.map.test j = true :=
    test_initBootmemCore hlow (by rwa [Nat.sub_zero])
  rw [htest2, htest1, hinit]
  by_cases hlt : j < pages
  · simp [InRun, initBootmemCore, hlt, not_le.2 hlt]
  · simp [InRun, initBootmemCore, hlt, not_lt.1 hlt]

lemma HostBlock.physMemSize (h : HostBlock addr size) :
    4096 ≤ physMemSize addr size ∧ align addr 4096 + physMemSize addr size ≤ addr + size := by
  obtain ⟨hge, -, hfit⟩ := h.aligned
  have hmem := h.in_memory
  have hpage : align addr PAGE_SIZE = align addr 4096 := rfl
  unfold Bootmem.physMemSize
  simp only [hpage]
  split_ifs with hne
  · simp only [ulongRange, PAGE_SIZE]
    omega
  · omega

lemma exists_memSetup (memory : Bitmap) (h : HostBlock addr size) :
    ∃ m, memSetup addr size memory = some m ∧ 0 < m.maxLowPfn ∧ m.maxLowPfn < 2 ^ 52 ∧
      addr ≤ m.physMem ∧ m.physMem + m.maxLowPfn * 4096 ≤ addr + size ∧
      SetUp m.maxLowPfn m.node := by
  obtain ⟨hge, -, -⟩ := h.aligned
  obtain ⟨hpage, hend⟩ := h.physMemSize
  have hlt := h.size_lt
  generalize hsize : Bootmem.physMemSize addr size = memSize at *
  have hpages : memSize / 4096 * 4096 ≤ memSize := Nat.div_mul_le_self _ _
  have h0 : 0 < memSize / 4096 := by omega
  have h52 : memSize / 4096 < 2 ^ 52 := by omega
  obtain ⟨n1, n, hfree, hreserve, hsetup⟩ :=
    exists_setUp memory (rfl : memSize / 4096 = _) h0 (by omega)
  refine ⟨⟨align addr 4096, memSize, memSize / 4096, n⟩, ?_, h0, h52, hge,
    le_trans (Nat.add_le_add_left hpages _) hend, hsetup⟩
  unfold memSetup
  rw [if_neg h.ne_null, hsize]
  simp only [PAGE_SIZE]
  rw [hfree]
  have hbytes : (initBootmemCore 0 0 (memSize / 4096) memory).2 = bootmapBytes (memSize / 4096) :=
    rfl
  simp only [hbytes, hreserve]

namespace SetUp

variable {pages : ℕ} {n : Node} (h : SetUp pages n) (hpages : pages < 2 ^ 52)

include h

lemma sealed : n.Sealed := by
  intro j hj hj'
  rw [h.minPfn, h.lowPfn, Nat.sub_zero] at hj hj'
  rw [h.test j hj']
  exact decide_eq_true (.inr hj)

include hpages

lemma marked_mapPages (h0 : 0 < pages) {p : ℕ} (hp : p ∈ n.mapPages) :
    p < pages ∧ n.marked p = true := by
  have hmapPages := bootmemBootmapPages_eq hpages
  rw [Node.mapPages, h.mapPfn, h.lowPfn, h.minPfn, Nat.sub_zero, mem_range'_1, zero_add] at hp
  have hlt : p < pages := by omega
  refine ⟨hlt, ?_⟩
  rw [Node.marked, h.minPfn, Nat.sub_zero, h.test p (by omega)]
  exact decide_eq_true (.inl hp.2)

lemma exists_zeroPage (hroom : bootmemBootmapPages pages < pages) :
    ∃ n' addr, n.allocBootmemCore PAGE_SIZE PAGE_SIZE 0 0 = .ok (.region n' addr) := by
  have hlow : n.lowPfn ≤ 2 ^ 52 := h.lowPfn ▸ le_of_lt hpages
  have hcomplete : Node.Complete n PAGE_SIZE PAGE_SIZE 0 _
      (n.allocBootmemCore PAGE_SIZE PAGE_SIZE 0 0) :=
    Node.allocBootmemCore_complete isPow_page hlow (by decide) fun hne => absurd rfl hne
  generalize n.allocBootmemCore PAGE_SIZE PAGE_SIZE 0 0 = out at hcomplete
  cases hcomplete with
  | region n' addr => exact ⟨n', addr, rfl⟩
  | null hfits =>
    -- the first page behind those of the map is free
    refine absurd ⟨?_, one_dvd _, ?_, absurd rfl, fun j hj hj' => ?_⟩
      (hfits (bootmemBootmapPages pages))
    · rw [Node.startPfn, if_neg (by simp [pfnDown]), h.minPfn]
      exact Nat.zero_le _
    · rw [h.minPfn, h.lowPfn, zero_add]
      exact hroom
    · obtain rfl : j = bootmemBootmapPages pages := Nat.le_antisymm (Nat.le_of_lt_succ hj') hj
      rw [h.test _ (by omega)]
      exact decide_eq_false (by omega)

/-- The pages of the regions that were given out stay with their owners. -/
lemma not_released {ops : List Op} {n' : Node} (hops : ∀ op ∈ ops, op.SaneAlloc)
    (hrun : n.run ops = some n') (hreleased : ReleasedOnce n') {r : Region} (hr : r ∈ n.regions ops)
    {x : ℕ} (hx : r.Has x) : n'.marked (x / PAGE_SIZE) = true ∧
      x / PAGE_SIZE ∉ pagesOf n'.freeAllBootmemCore.1 := by
  have hI : Inv 0 pages ⟨n, [], fun p => decide (p < bootmemBootmapPages pages),
      fun _ => true⟩ := by
    refine ⟨h.minPfn, h.lowPfn, fun p _ hlt hclear => ⟨rfl, decide_eq_false fun hp => ?_⟩,
      fun _ hr => absurd hr not_mem_nil, fun _ hr => absurd hr not_mem_nil,
      fun _ hr => absurd hr not_mem_nil, absurd (by rw [h.lastEndOff])⟩
    rw [Node.marked, h.minPfn, Nat.sub_zero, h.test p (by omega),
      decide_eq_true (.inl hp)] at hclear
    cases hclear
  obtain ⟨s', hI', rfl, hreserved, hlive⟩ := exists_inv_run hpages hI hops hrun
  have hgiven := hI'.given r (hlive r (mem_append_left _ hr)) x hx
  refine ⟨hgiven.marked, fun hmem => ?_⟩
  rcases (hreleased.mem_iff _).1 hmem with ⟨-, -, hclear⟩ | hmap
  · simp [show s'.node.marked (x / PAGE_SIZE) = true from hgiven.marked] at hclear
  · have hsame := (Node.run_moreMarks (fun op hop => by
      obtain ⟨size, a, goal, limit, hop, -⟩ := hops op hop
      exact ⟨size, a, goal, limit, hop⟩) hrun).toSameNode
    rw [Node.mapPages, hsame.mapPfn, hsame.lowPfn, hsame.minPfn, h.mapPfn, h.lowPfn, h.minPfn,
      mem_range'_1, Nat.zero_add, Nat.sub_zero] at hmap
    have hno := hgiven.not_reserved
    rw [hreserved] at hno
    exact of_decide_eq_false hno hmap.2

end SetUp

end LklPort.Bootmem
