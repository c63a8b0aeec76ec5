import LklPort.Bootmem.Alloc

/-!
# Boot memory of several nodes

The nodes are kept in a list in the order of their first pages. `mark_bootmem` walks through it and
marks the part of a range that lies in each node. If an exclusive reservation meets a page that is
marked already, the part in this node is undone by `__reserve`, and the parts in the nodes before
by a second walk, which frees them.
-/

namespace LklPort.Bootmem

open List Option

open Words (Bitmap)
open Words.Bitmap (InRun)

/-! ### The list of nodes -/

/-- The page is one of the node. -/
def Node.Has (n : Node) (pfn : ℕ) : Prop := n.minPfn ≤ pfn ∧ pfn < n.lowPfn
  deriving Decidable

/-- The nodes are in order, with or without gaps between them, and none is empty. -/
structure Sorted (nodes : List Node) : Prop where
  ordered : nodes.Pairwise fun n n' => n.lowPfn ≤ n'.minPfn
  nonempty : ∀ n ∈ nodes, n.minPfn < n.lowPfn

variable {n n' : Node} {nodes nodes' : List Node} {start stop pos : ℕ}

lemma Sorted.tail (h : Sorted (n :: nodes)) : Sorted nodes where
  ordered := (List.pairwise_cons.1 h.ordered).2
  nonempty m hm := h.nonempty m (mem_cons_of_mem _ hm)

lemma Sorted.head_le (h : Sorted (n :: nodes)) : ∀ m ∈ nodes, n.lowPfn ≤ m.minPfn :=
  (List.pairwise_cons.1 h.ordered).1

/-! ### Marking -/

/-- The walk of `mark_bootmem(start, stop, 0, 0)` over the nodes that are left, which frees the
pages. -/
def freeNodes (start stop : ℕ) : (pos : ℕ) → List Node → Option (List Node)
  | _, [] => none
  | pos, n :: nodes =>
    if n.Has pos then
      (n.free (pos - n.minPfn) (min n.lowPfn stop - n.minPfn)).bind fun n' =>
        if min n.lowPfn stop = stop then some (n' :: nodes)
        else (freeNodes start stop n.lowPfn nodes).map (n' :: ·)
    else if pos = start then (freeNodes start stop pos nodes).map (n :: ·)
    else none

/-- How the walk of a reservation ends: with all pages marked, or at a node where
`mark_bootmem_node` fails. -/
inductive Walk where
  | done (nodes : List Node)
  | failed (pos : ℕ) (nodes : List Node)

/-- The walk, after a node that it has passed. -/
def Walk.after (n : Node) : Walk → Walk
  | .done nodes => .done (n :: nodes)
  | .failed pos nodes => .failed pos (n :: nodes)

/-- The walk of `mark_bootmem(start, stop, 1, flags)` over the nodes that are left. -/
def reserveNodes (start stop : ℕ) (exclusive : Bool) : (pos : ℕ) → List Node → Option Walk
  | _, [] => none
  | pos, n :: nodes =>
    if n.Has pos then
      (n.reserve (pos - n.minPfn) (min n.lowPfn stop - n.minPfn) exclusive).bind fun
        | .busy n' => some (.failed pos (n' :: nodes))
        | .ok n' =>
          if min n.lowPfn stop = stop then some (.done (n' :: nodes))
          else (reserveNodes start stop exclusive n.lowPfn nodes).map (.after n')
    else if pos = start then (reserveNodes start stop exclusive pos nodes).map (.after n)
    else none

/-- What `reserve_bootmem` returns: zero or `-EBUSY`. -/
inductive Reservation where
  | ok (nodes : List Node)
  | busy (nodes : List Node)

/-- `mark_bootmem(start, stop, 1, flags)`. -/
def markBootmem (nodes : List Node) (start stop : ℕ) (exclusive : Bool) : Option Reservation :=
  (reserveNodes start stop exclusive start nodes).bind fun
    | .done nodes => some (.ok nodes)
    | .failed pos nodes => (freeNodes start pos start nodes).map .busy

def reserveBootmem (nodes : List Node) (addr size : ℕ) (exclusive : Bool) : Option Reservation :=
  markBootmem nodes (pfnDown addr) (pfnUp ((addr + size) % ulongRange)) exclusive

/-! ### What a walk does to a node -/

/-- The bit `j` of the node stands for one of the pages from `start` to `stop`. -/
def Node.In (n : Node) (start stop j : ℕ) : Prop :=
  start ≤ n.minPfn + j ∧ n.minPfn + j < stop ∧ n.minPfn + j < n.lowPfn
  deriving Decidable

/-- The node after the pages from `start` to `stop` were taken, all of which were free. -/
structure Reserves (start stop : ℕ) (n n' : Node) : Prop where
  minPfn : n'.minPfn = n.minPfn
  lowPfn : n'.lowPfn = n.lowPfn
  test : ∀ j, n'.map.test j = (n.map.test j || decide (n.In start stop j))
  free : ∀ j, n.In start stop j → n.map.test j = false

/-- The bits of the node are as they were. -/
structure SameBits (n n' : Node) : Prop where
  minPfn : n'.minPfn = n.minPfn
  lowPfn : n'.lowPfn = n.lowPfn
  map : n'.map = n.map

lemma SameBits.refl (n : Node) : SameBits n n := ⟨rfl, rfl, rfl⟩

lemma Reserves.of_sameBits (h : SameBits n n') (hin : ∀ j, ¬ n.In start stop j) :
    Reserves start stop n n' where
  minPfn := h.minPfn
  lowPfn := h.lowPfn
  test j := by simp [h.map, hin j]
  free j hj := absurd hj (hin j)

lemma Reserves.refl (hin : ∀ j, ¬ n.In start stop j) : Reserves start stop n n :=
  .of_sameBits (.refl n) hin

lemma Reserves.sameBits (h : Reserves start stop n n') (hin : ∀ j, ¬ n.In start stop j) :
    SameBits n n' where
  minPfn := h.minPfn
  lowPfn := h.lowPfn
  map := Bitmap.ext fun j => by simp [h.test, hin j]

lemma Reserves.congr {start' stop' : ℕ} (h : Reserves start stop n n')
    (hin : ∀ j, n.In start' stop' j ↔ n.In start stop j) : Reserves start' stop' n n' where
  minPfn := h.minPfn
  lowPfn := h.lowPfn
  test j := by rw [h.test, decide_eq_decide.2 (hin j)]
  free j hj := h.free j ((hin j).1 hj)

lemma inRun_iff_in (j : ℕ) :
    InRun (pos - n.minPfn) (min n.lowPfn stop - n.minPfn - (pos - n.minPfn)) j ↔
      n.In pos stop j := by
  unfold InRun Node.In
  omega

lemma Node.exists_reserves (n : Node) (pos stop : ℕ) :
    ∃ r, n.reserve (pos - n.minPfn) (min n.lowPfn stop - n.minPfn) true = some r ∧
      match r with
      | .ok n' => Reserves pos stop n n'
      | .busy n' => SameBits n n' := by
  obtain ⟨r, hr, hspec⟩ := n.exists_reserve (pos - n.minPfn) (min n.lowPfn stop - n.minPfn) true
  refine ⟨r, hr, ?_⟩
  cases hspec with
  | ok htest hfree =>
    refine ⟨rfl, rfl, fun j => ?_, fun j hj => hfree rfl j ((inRun_iff_in j).2 hj)⟩
    rw [htest]
    exact congrArg _ (decide_eq_decide.2 (inRun_iff_in j))
  | busy _ _ htest => exact ⟨rfl, rfl, Bitmap.ext htest⟩

lemma exists_free_of_reserves (h : Reserves pos stop n n') :
    ∃ n'', n'.free (pos - n'.minPfn) (min n'.lowPfn stop - n'.minPfn) = some n'' ∧
      SameBits n n'' := by
  rw [h.minPfn, h.lowPfn]
  obtain ⟨m, hint, hfree, -, htest⟩ := Node.exists_free _ _ fun j hj => by
    rw [h.test, decide_eq_true ((inRun_iff_in j).1 hj), Bool.or_true]
  refine ⟨_, hfree, h.minPfn, h.lowPfn, Bitmap.ext fun j => ?_⟩
  rw [htest, h.test]
  simp only [inRun_iff_in]
  by_cases hj : n.In pos stop j
  · simp [hj, h.free j hj]
  · simp [hj]

/-! ### The walks -/

/-- What the walk of an exclusive reservation does from `pos` on: it takes the pages, which were
free, or it takes those before the node where it fails, and to free these gives back all bits. -/
inductive WalkSpec (start stop pos : ℕ) (nodes : List Node) : Walk → Prop where
  | done {nodes' : List Node} (hres : List.Forall₂ (Reserves pos stop) nodes nodes') :
      WalkSpec start stop pos nodes (.done nodes')
  | failed {pos' : ℕ} {nodes' nodes'' : List Node} (hle : pos ≤ pos')
      (hres : List.Forall₂ (Reserves pos pos') nodes nodes')
      (hfree : freeNodes start pos' pos nodes' = some nodes'')
      (hsame : List.Forall₂ SameBits nodes nodes'') :
      WalkSpec start stop pos nodes (.failed pos' nodes')

lemma Node.not_in_self (n : Node) (pos j : ℕ) : ¬ n.In pos pos j := by
  unfold Node.In
  omega

lemma forall2_reserves_of_le {low : ℕ} (hle : pos ≤ low) (hnodes : ∀ m ∈ nodes, low ≤ m.minPfn)
    (h : List.Forall₂ (Reserves low stop) nodes nodes') :
    List.Forall₂ (Reserves pos stop) nodes nodes' := by
  apply ((forall₂_and_left _ _).2 ⟨hnodes, h⟩).imp
  rintro m m' ⟨hm, hres⟩
  refine hres.congr fun j => ?_
  unfold Node.In
  omega

lemma Reserves.has (h : Reserves start stop n n') (hpos : n.Has pos) : n'.Has pos := by
  unfold Node.Has
  rwa [h.minPfn, h.lowPfn]

lemma WalkSpec.failed_here (hpos : n.Has pos) (hsame : SameBits n n') :
    WalkSpec start stop pos (n :: nodes) (.failed pos (n' :: nodes)) := by
  have hres : Reserves pos pos n n' := .of_sameBits hsame (n.not_in_self pos)
  obtain ⟨n'', hfree, hsame'⟩ := exists_free_of_reserves hres
  refine .failed (le_refl _)
    (.cons hres (List.forall₂_same.2 fun m _ => .refl (m.not_in_self pos))) ?_
    (.cons hsame' (List.forall₂_same.2 fun m _ => .refl m))
  have hmin : min n'.lowPfn pos = pos := Nat.min_eq_right (le_of_lt (hres.has hpos).2)
  rw [freeNodes, if_pos (hres.has hpos), hfree, bind_some, if_pos hmin]

lemma WalkSpec.after_taken {w : Walk} (hs : Sorted (n :: nodes)) (hpos : n.Has pos)
    (hlow : n.lowPfn < stop) (hres : Reserves pos stop n n')
    (h : WalkSpec start stop n.lowPfn nodes w) :
    WalkSpec start stop pos (n :: nodes) (w.after n') := by
  have hle : pos ≤ n.lowPfn := le_of_lt hpos.2
  cases h with
  | done hnodes => exact .done (.cons hres (forall2_reserves_of_le hle hs.head_le hnodes))
  | @failed pos' nodes' _ hle' hnodes hfree hsame =>
    have hres' : Reserves pos pos' n n' := hres.congr fun j => by
      unfold Node.In
      omega
    obtain ⟨n'', hfree', hsame'⟩ := exists_free_of_reserves hres'
    have hfirst : freeNodes start pos' pos (n' :: nodes') = _ := if_pos (hres'.has hpos)
    rw [hfree', bind_some, hres'.lowPfn] at hfirst
    by_cases hend : min n.lowPfn pos' = pos'
    · -- the walk failed in the next node, so that this is the last one to be freed
      have heq : pos' = n.lowPfn := by omega
      subst heq
      rw [if_pos hend] at hfirst
      refine .failed hle (.cons hres' (forall2_reserves_of_le hle hs.head_le hnodes)) hfirst
        (.cons hsame' (hnodes.imp fun m m' h => h.sameBits (m.not_in_self _)))
    · rw [if_neg hend, hfree] at hfirst
      exact .failed (le_trans hle hle')
        (.cons hres' (forall2_reserves_of_le hle hs.head_le hnodes)) hfirst (.cons hsame' hsame)

lemma WalkSpec.after_skipped {w : Walk} (hlow : n.lowPfn ≤ start)
    (h : WalkSpec start stop start nodes w) :
    WalkSpec start stop start (n :: nodes) (w.after n) := by
  have hin (stop j : ℕ) : ¬ n.In start stop j := by
    unfold Node.In
    omega
  cases h with
  | done hnodes => exact .done (.cons (.refl (hin stop)) hnodes)
  | @failed pos' _ _ hle hnodes hfree hsame =>
    have hout : ¬ n.Has start := fun hhas => not_lt.2 hlow hhas.2
    refine .failed hle (.cons (.refl (hin pos')) hnodes) ?_ (.cons (.refl n) hsame)
    rw [freeNodes, if_neg hout, if_pos rfl, hfree]
    rfl

/-! ### Ranges that the nodes cover -/

/-- All pages of the range, and its first one even if it is empty, are pages of some node. -/
structure Covered (nodes : List Node) (start stop : ℕ) : Prop where
  le : start ≤ stop
  first : ∃ n ∈ nodes, n.Has start
  pages : ∀ pfn, start ≤ pfn → pfn < stop → ∃ n ∈ nodes, n.Has pfn

lemma Covered.tail (h : Covered (n :: nodes) start stop) (hpos : start ≤ pos)
    (hfirst : pos < stop ∨ pos = start) (hlow : n.lowPfn ≤ pos) : Covered nodes pos stop := by
  have hpage (pfn : ℕ) (hle : pos ≤ pfn) (hmem : ∃ m ∈ n :: nodes, m.Has pfn) :
      ∃ m ∈ nodes, m.Has pfn := by
    obtain ⟨m, hm, hhas⟩ := hmem
    rcases List.mem_cons.1 hm with rfl | hm
    · unfold Node.Has at hhas
      omega
    · exact ⟨m, hm, hhas⟩
  have hle := h.le
  refine ⟨by omega, hpage pos (le_refl _) ?_, fun pfn hle hlt =>
    hpage pfn hle (h.pages pfn (le_trans hpos hle) hlt)⟩
  rcases hfirst with hlt | rfl
  · exact h.pages pos hpos hlt
  · exact h.first

lemma Sorted.lowPfn_le (hs : Sorted (n :: nodes)) (hmem : ∃ m ∈ n :: nodes, m.Has pos)
    (hpos : ¬ n.Has pos) : n.lowPfn ≤ pos := by
  obtain ⟨m, hm, hhas⟩ := hmem
  rcases List.mem_cons.1 hm with rfl | hm
  · exact absurd hhas hpos
  · exact le_trans (hs.head_le m hm) hhas.1

lemma exists_reserveNodes (hs : Sorted nodes) (hcov : Covered nodes pos stop)
    (hpos : pos = start ∨ ∀ n ∈ nodes, pos ≤ n.minPfn) :
    ∃ w, reserveNodes start stop true pos nodes = some w ∧ WalkSpec start stop pos nodes w := by
  induction nodes generalizing pos with
  | nil =>
    obtain ⟨n, hn, -⟩ := hcov.first
    cases hn
  | cons n nodes ih =>
    rw [reserveNodes]
    by_cases hhas : n.Has pos
    · obtain ⟨r, hr, hspec⟩ := n.exists_reserves pos stop
      rw [if_pos hhas, hr, bind_some]
      cases r with
      | busy => exact ⟨_, rfl, .failed_here hhas hspec⟩
      | ok =>
        simp only
        split_ifs with hend
        · refine ⟨_, rfl, .done (.cons hspec (List.forall₂_same.2 fun m hm => ?_))⟩
          refine .refl fun j hj => ?_
          have hle := hs.head_le m hm
          unfold Node.In at hj
          omega
        · have hcov' : Covered nodes n.lowPfn stop :=
            hcov.tail (le_of_lt hhas.2) (.inl (by omega)) (le_refl _)
          obtain ⟨w, hw, hwalk⟩ := ih hs.tail hcov' (.inr hs.head_le)
          exact ⟨_, by rw [hw, map_some], .after_taken hs hhas (by omega) hspec hwalk⟩
    · have hlow := hs.lowPfn_le hcov.first hhas
      have hne := hs.nonempty n mem_cons_self
      obtain rfl : pos = start := by
        refine hpos.resolve_right fun hle => ?_
        have hmin := hle n mem_cons_self
        omega
      obtain ⟨w, hw, hwalk⟩ := ih hs.tail (hcov.tail (le_refl _) (.inr rfl) hlow) (.inl rfl)
      exact ⟨_, by rw [if_neg hhas, if_pos rfl, hw, map_some], .after_skipped hlow hwalk⟩

/-! ### An exclusive reservation -/

/-- An exclusive reservation of a range that the nodes cover returns. If it fails, then every bit
of every node is as it was, and if it does not, then the pages of the range, all of which were
free, are taken and no other ones. -/
theorem reserve_bootmem_exclusive (nodes : List Node) (addr size : ℕ) (hs : Sorted nodes)
    (hcov : Covered nodes (pfnDown addr) (pfnUp ((addr + size) % ulongRange))) :
    ∃ r, reserveBootmem nodes addr size true = some r ∧
      match r with
      | .busy nodes' => List.Forall₂ SameBits nodes nodes'
      | .ok nodes' =>
        List.Forall₂ (Reserves (pfnDown addr) (pfnUp ((addr + size) % ulongRange)))
          nodes nodes' := by
  unfold reserveBootmem markBootmem
  obtain ⟨w, hw, hwalk⟩ := exists_reserveNodes hs hcov (.inl rfl)
  rw [hw, bind_some]
  cases hwalk with
  | done hres => exact ⟨_, rfl, hres⟩
  | @failed _ _ nodes'' _ _ hfree hsame =>
    refine ⟨.busy nodes'', ?_, hsame⟩
    simp only [hfree, map_some]

/-- Two nodes of two pages. The last page of the second one is marked. -/
def twoNodes : List Node :=
  [{ minPfn := 1, lowPfn := 3, map := fun _ => 0, mapPfn := 0, lastEndOff := 0, hintIdx := 0 },
    { minPfn := 3, lowPfn := 5, map := fun _ => 2, mapPfn := 0, lastEndOff := 0, hintIdx := 0 }]

theorem reserve_bootmem_exclusive_twoNodes : ∃ r, reserveBootmem twoNodes 8192 12288 true = some r ∧
      match r with
      | .busy nodes' => List.Forall₂ SameBits twoNodes nodes'
      | .ok nodes' =>
        List.Forall₂ (Reserves (pfnDown 8192) (pfnUp ((8192 + 12288) % ulongRange)))
          twoNodes nodes' := by
  refine reserve_bootmem_exclusive twoNodes 8192 12288 ⟨?_, ?_⟩ ⟨by decide, ?_, ?_⟩
  · simp [twoNodes]
  · simp [twoNodes]
  · simp [twoNodes, Node.Has, pfnDown, PAGE_SIZE]
  · intro pfn hle hlt
    have hle' : 2 ≤ pfn := hle
    have hlt' : pfn < 5 := hlt
    by_cases h : pfn < 3
    · exact ⟨_, mem_cons_self, Nat.le_of_succ_le hle', h⟩
    · exact ⟨_, mem_cons_of_mem _ mem_cons_self, not_lt.1 h, hlt'⟩

end LklPort.Bootmem
