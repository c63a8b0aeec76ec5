import LklPort.Bootmem.Basic

/-!
# What the operations on boot memory do

Marking changes the bits of a run of pages and nothing else, and a failed exclusive reservation
leaves all bits as they were. The search for free pages ends, and what it finds is free and
aligned. A region that is taken there starts at the first of these pages or in the page before,
behind the end of the last region.
-/

namespace LklPort.Bootmem

open Words (Bitmap align IsPow)
open Words.Bitmap (InRun inRun_succ)

variable {x size rounds a : ℕ}

/-! ### Pages and addresses -/

lemma pfnUp_eq (h : x + 4095 < 2 ^ 64) : pfnUp x = (x + 4095) / 4096 := by
  simp only [pfnUp, PAGE_SIZE, ulongRange]
  rw [Nat.mod_eq_of_lt (by omega)]

lemma pfnPhys_eq (h : x * 4096 < 2 ^ 64) : pfnPhys x = x * 4096 :=
  Nat.mod_eq_of_lt h

lemma bootmapBytes_eq {pages : ℕ} (h : pages < 2 ^ 52) :
    bootmapBytes pages = (pages + 63) / 64 * 8 := by
  rw [bootmapBytes, Words.align_eq (a := 8) ⟨3, by decide, rfl⟩ (by omega)]
  omega

lemma test_initBootmemCore {mapstart start stop : ℕ} {memory : Bitmap} (hstop : stop < 2 ^ 52)
    {j : ℕ} (hj : j < (stop - start + 63) / 64 * 64) :
    (initBootmemCore mapstart start stop memory).1.map.test j = true := by
  have hword : j / 64 < bootmapBytes (stop - start) / 8 := by
    rw [bootmapBytes_eq (by omega)]
    omega
  simp only [initBootmemCore, Bitmap.test, hword, if_true, BitVec.getLsbD_allOnes]
  exact decide_eq_true (Nat.mod_lt _ (by decide))

variable {n' : Node} {addr off : ℕ}

namespace Node

variable {n : Node} {sidx eidx idx k : ℕ} {exclusive : Bool} {r : Reserved}

/-! ### Marking -/

lemma free_eq_some (h : n.free sidx eidx = some n') :
    ∃ m hint, n' = { n with map := m, hintIdx := hint } ∧ hint ≤ n.hintIdx ∧
      ∀ j, m.test j = (n.map.test j && !decide (InRun sidx (eidx - sidx) j)) := by
  obtain ⟨m, hm, rfl⟩ := Option.map_eq_some_iff.1 h
  refine ⟨m, _, rfl, ?_, fun j => Bitmap.test_clearRun hm⟩
  split_ifs with hlt
  · exact le_of_lt hlt
  · exact le_refl _

lemma exists_free (sidx eidx : ℕ) (h : ∀ j, InRun sidx (eidx - sidx) j → n.map.test j = true) :
    ∃ m hint, n.free sidx eidx = some { n with map := m, hintIdx := hint } ∧ hint ≤ n.hintIdx ∧
      ∀ j, m.test j = (n.map.test j && !decide (InRun sidx (eidx - sidx) j)) := by
  obtain ⟨m, hm⟩ := Bitmap.exists_clearRun h
  obtain ⟨n', hn'⟩ : ∃ n', n.free sidx eidx = some n' := ⟨_, by rw [free, hm, Option.map_some]⟩
  obtain ⟨m, hint, rfl, hspec⟩ := free_eq_some hn'
  exact ⟨m, hint, hn', hspec⟩

/-- What a reservation of the pages in `P` can do: it marks them, or, if it is exclusive and one of
them is marked, it leaves the bits as they are. -/
inductive ReserveSpec (n : Node) (P : ℕ → Prop) [DecidablePred P] (exclusive : Bool) :
    Reserved → Prop where
  | ok {m : Bitmap} (htest : ∀ j, m.test j = (n.map.test j || decide (P j)))
      (hfree : exclusive = true → ∀ j, P j → n.map.test j = false) :
      ReserveSpec n P exclusive (.ok { n with map := m })
  | busy {m : Bitmap} {hint : ℕ} (hex : exclusive = true) (hhint : hint ≤ n.hintIdx)
      (htest : ∀ j, m.test j = n.map.test j) (hset : ∃ j, P j ∧ n.map.test j = true) :
      ReserveSpec n P exclusive (.busy { n with map := m, hintIdx := hint })

lemma not_inRun_zero (j : ℕ) : ¬ InRun sidx 0 j := by
  unfold InRun
  omega

lemma exists_reserveFrom (sidx : ℕ) (exclusive : Bool) {m : Bitmap} {d : ℕ}
    (hm : ∀ j, m.test j = (n.map.test j || decide (InRun sidx d j)))
    (hfree : exclusive = true → ∀ j, InRun sidx d j → n.map.test j = false) :
    ∃ r, reserveFrom { n with map := m } sidx exclusive k (sidx + d) = some r ∧
      ReserveSpec n (InRun sidx (d + k)) exclusive r := by
  induction k generalizing d m with
  | zero => exact ⟨_, rfl, .ok hm hfree⟩
  | succ k ih =>
    have hlast : ¬ InRun sidx d (sidx + d) := fun h => lt_irrefl _ h.2
    have hd : sidx + d - sidx = d := Nat.add_sub_cancel_left _ _
    rw [reserveFrom]
    split_ifs with hset
    · -- a page was marked before: those that this call has marked are freed again
      obtain ⟨hset, hex⟩ : m.test (sidx + d) = true ∧ exclusive = true := by simpa using hset
      obtain ⟨m', hint, hn', hhint, htest⟩ :=
        exists_free (n := { n with map := m }) sidx (sidx + d) fun j hj => by
          rw [hm, decide_eq_true (hd ▸ hj), Bool.or_true]
      refine ⟨_, congrArg (Option.map _) hn', .busy hex hhint (fun j => ?_) ⟨sidx + d, ?_, ?_⟩⟩
      · rw [htest, hm, hd]
        by_cases hj : InRun sidx d j
        · simp [hj, hfree hex j hj]
        · simp [hj]
      · exact ⟨Nat.le_add_right _ _, by omega⟩
      · simpa [hm, hlast] using hset
    · have hrun (j : ℕ) : InRun sidx (d + 1) j ↔ InRun sidx d j ∨ sidx + d = j := by
        unfold InRun
        omega
      rw [show d + (k + 1) = d + 1 + k by omega]
      refine ih (d := d + 1) (fun j => ?_) (fun hex j hj => ?_)
      · rw [Bitmap.test_set, hm]
        simp [hrun, Bool.or_assoc]
      · rcases (hrun j).1 hj with hj | rfl
        · exact hfree hex j hj
        · simpa [hm, hlast, hex] using hset

lemma exists_reserve (n : Node) (sidx eidx : ℕ) (exclusive : Bool) :
    ∃ r, n.reserve sidx eidx exclusive = some r ∧
      ReserveSpec n (InRun sidx (eidx - sidx)) exclusive r := by
  have h := exists_reserveFrom (n := n) (m := n.map) (k := eidx - sidx) sidx exclusive
    (by simp [not_inRun_zero]) (fun _ j hj => absurd hj (not_inRun_zero j))
  rwa [zero_add] at h

lemma reserve_spec (h : n.reserve sidx eidx exclusive = some r) :
    ReserveSpec n (InRun sidx (eidx - sidx)) exclusive r := by
  obtain ⟨r', hr, hspec⟩ := n.exists_reserve sidx eidx exclusive
  cases h.symm.trans hr
  exact hspec

lemma exists_reserve_ok
    (h : exclusive = true → ∀ j, InRun sidx (eidx - sidx) j → n.map.test j = false) :
    ∃ m, n.reserve sidx eidx exclusive = some (.ok { n with map := m }) ∧
      ∀ j, m.test j = (n.map.test j || decide (InRun sidx (eidx - sidx) j)) := by
  obtain ⟨r, hr, hspec⟩ := n.exists_reserve sidx eidx exclusive
  cases hspec with
  | @ok m htest => exact ⟨m, hr, htest⟩
  | busy hex _ _ hset =>
    obtain ⟨j, hj, hset⟩ := hset
    simp [h hex j hj] at hset

lemma freeBootmem_eq_some (h : n.freeBootmem addr size = some n') :
    ∃ m hint, n' = { n with map := m, hintIdx := hint } ∧
      n.InNode (pfnUp addr) (pfnDown ((addr + size) % ulongRange)) ∧ hint ≤ n.hintIdx ∧
      ∀ j, m.test j = (n.map.test j && !decide (pfnUp addr ≤ n.minPfn + j ∧
        n.minPfn + j < pfnDown ((addr + size) % ulongRange))) := by
  unfold freeBootmem at h
  simp only at h
  split_ifs at h with hin
  obtain ⟨m, hint, rfl, hhint, htest⟩ := free_eq_some h
  refine ⟨m, hint, rfl, hin, hhint, fun j => ?_⟩
  rw [htest]
  congr 2
  unfold InRun
  exact decide_eq_decide.2 (by omega)

lemma reserveBootmem_spec (h : n.reserveBootmem addr size exclusive = some r) :
    n.InNode (pfnDown addr) (pfnUp ((addr + size) % ulongRange)) ∧
      ReserveSpec n (fun j => pfnDown addr ≤ n.minPfn + j ∧
        n.minPfn + j < pfnUp ((addr + size) % ulongRange)) exclusive r := by
  unfold reserveBootmem at h
  simp only at h
  split_ifs at h with hin
  have hrun (j : ℕ) : InRun (pfnDown addr - n.minPfn)
      (pfnUp ((addr + size) % ulongRange) - n.minPfn - (pfnDown addr - n.minPfn)) j ↔
      pfnDown addr ≤ n.minPfn + j ∧ n.minPfn + j < pfnUp ((addr + size) % ulongRange) := by
    unfold InRun
    omega
  refine ⟨hin, ?_⟩
  obtain ⟨r', hr, hspec⟩ := n.exists_reserve (pfnDown addr - n.minPfn)
    (pfnUp ((addr + size) % ulongRange) - n.minPfn) exclusive
  rw [hr] at h
  cases hspec with
  | ok htest hfree =>
    cases h
    refine .ok (fun j => ?_) fun hex j hj => hfree hex j ((hrun j).2 hj)
    rw [htest]
    exact congrArg _ (decide_eq_decide.2 (hrun j))
  | busy hex hhint htest hset =>
    simp only [Option.map_eq_some_iff] at h
    obtain ⟨n', hfree, rfl⟩ := h
    obtain ⟨m', hint', rfl, hhint', htest'⟩ := free_eq_some hfree
    refine .busy hex (le_trans hhint' hhint) (fun j => ?_) ?_
    · rw [htest', htest, Nat.sub_self]
      simp [not_inRun_zero]
    · simpa only [hrun] using hset

/-! ### The search -/

section

variable {size midx step : ℕ} (hstep : IsPow step) (hmax : step < 2 ^ 52)
  (hlow : n.minPfn + midx ≤ 2 ^ 52)

include hstep hmax

section

variable (hidx : n.minPfn + idx ≤ 2 ^ 52)

include hidx

lemma add_alignIdx : n.minPfn + n.alignIdx idx step = align (n.minPfn + idx) step := by
  have hle := Words.le_align (x := n.minPfn + idx) hstep (by omega)
  have hlt : align (n.minPfn + idx) step < 2 ^ 64 := BitVec.isLt _
  unfold alignIdx ulongRange
  omega

lemma le_alignIdx : idx ≤ n.alignIdx idx step := by
  have hle := Words.le_align (x := n.minPfn + idx) hstep (by omega)
  rw [← add_alignIdx hstep hmax hidx] at hle
  omega

lemma dvd_alignIdx : step ∣ n.minPfn + n.alignIdx idx step := by
  rw [add_alignIdx hstep hmax hidx]
  exact Words.dvd_align hstep (by omega)

lemma alignIdx_le_of_dvd {t : ℕ} (ht : step ∣ n.minPfn + t)
    (hle : idx ≤ t) : n.alignIdx idx step ≤ t := by
  have hge := Words.align_le_of_dvd (x := n.minPfn + idx) hstep (by omega) ht (by omega)
  rw [← add_alignIdx hstep hmax hidx] at hge
  omega

end

include hlow

lemma lt_next {i next : ℕ} (hi : i < midx)
    (hnext : next = if n.alignIdx i step = i then n.alignIdx i step + step else n.alignIdx i step) :
    i < next ∧ ∀ t, i < t → step ∣ n.minPfn + t → next ≤ t := by
  have hilow : n.minPfn + i ≤ 2 ^ 52 := by omega
  have hle := le_alignIdx hstep hmax hilow
  have hdvd := dvd_alignIdx hstep hmax hilow
  have hleast (t : ℕ) := alignIdx_le_of_dvd (t := t) hstep hmax hilow
  have hpos := hstep.pos
  generalize n.alignIdx i step = x at hnext hle hdvd hleast
  by_cases heq : x = i
  · rw [if_pos heq] at hnext
    refine ⟨by omega, fun t hlt ht => ?_⟩
    obtain ⟨d, hd⟩ : step ∣ n.minPfn + t - (n.minPfn + x) := Nat.dvd_sub ht hdvd
    have hd0 : d ≠ 0 := by
      rintro rfl
      omega
    have hmul := Nat.le_mul_of_pos_right step (Nat.pos_of_ne_zero hd0)
    omega
  · rw [if_neg heq] at hnext
    subst hnext
    exact ⟨by omega, fun t hlt ht => hleast t ht (le_of_lt hlt)⟩

/-- The pages from `s` on are free and have room for the region. -/
structure Room (n : Node) (size step midx s : ℕ) : Prop where
  dvd : step ∣ n.minPfn + s
  lt : s < midx
  fits : s + pfnUp size ≤ midx
  free : ∀ j, InRun s (pfnUp size) j → n.map.test j = false

/-- How a round of the search from `sidx` on ends. It passes no room that starts at a free page. -/
inductive ProbeSpec (n : Node) (size step midx sidx : ℕ) : Probe → Prop where
  | stop (h : ∀ s, sidx ≤ s → n.map.test s = false → ¬ Room n size step midx s) :
      ProbeSpec n size step midx sidx .stop
  | found {s : ℕ} (h : Room n size step midx s) : ProbeSpec n size step midx sidx (.found s)
  | again {next : ℕ} (hsidx : sidx < midx) (hnext : sidx < next)
      (h : ∀ s, sidx ≤ s → n.map.test s = false → Room n size step midx s → next ≤ s) :
      ProbeSpec n size step midx sidx (.again next)

lemma probe_spec (size sidx : ℕ) :
    ProbeSpec n size step midx sidx (n.probe size step midx sidx) := by
  have hz := n.map.findNextZeroBit_le midx sidx
  have hzlow : n.minPfn + n.map.findNextZeroBit midx sidx ≤ 2 ^ 52 := by omega
  have hle := le_alignIdx hstep hmax hzlow
  have hdvd := dvd_alignIdx hstep hmax hzlow
  have hpass (s : ℕ) (hs : sidx ≤ s) (hclear : n.map.test s = false)
      (hroom : Room n size step midx s) :
      n.alignIdx (n.map.findNextZeroBit midx sidx) step ≤ s := by
    refine alignIdx_le_of_dvd hstep hmax hzlow hroom.dvd (not_lt.1 fun hlt => ?_)
    simp [Bitmap.test_of_lt_findNextZeroBit hs hlt] at hclear
  have hsidx (hlt : n.alignIdx (n.map.findNextZeroBit midx sidx) step < midx) : sidx < midx := by
    by_contra hge
    rw [Bitmap.findNextZeroBit, if_pos (not_lt.1 hge)] at hle hlt
    exact absurd hlt (not_lt.2 hle)
  rw [probe]
  generalize n.alignIdx (n.map.findNextZeroBit midx sidx) step = first at *
  by_cases hstop : first ≥ midx ∨ first + pfnUp size > midx
  · rw [if_pos hstop]
    refine .stop fun s hs hclear hroom => ?_
    have := hpass s hs hclear hroom
    have := hroom.lt
    have := hroom.fits
    omega
  · rw [if_neg hstop, Nat.add_sub_cancel_left]
    obtain ⟨hlt, hfit⟩ := not_or.1 hstop
    cases hset : n.map.firstSet (pfnUp size) first with
    | none => exact .found ⟨hdvd, not_le.1 hlt, not_lt.1 hfit, Bitmap.firstSet_eq_none.1 hset⟩
    | some i =>
      obtain ⟨hi, htest⟩ := Bitmap.firstSet_eq_some hset
      have hmid : i < midx := lt_of_lt_of_le hi.2 (not_lt.1 hfit)
      obtain ⟨hnext, hleast⟩ := lt_next hstep hmax hlow hmid rfl
      have hsidx := hsidx (not_le.1 hlt)
      have hfrom := le_trans (Bitmap.le_findNextZeroBit hsidx) hle
      refine .again hsidx (lt_of_le_of_lt (le_trans hfrom hi.1) hnext) fun s hs hclear hroom =>
        hleast s (not_le.1 fun hge => ?_) hroom.dvd
      -- otherwise the marked page is one of the room
      have hrun : InRun s (pfnUp size) i :=
        ⟨hge, lt_of_lt_of_le hi.2 (Nat.add_le_add_right (hpass s hs hclear hroom) _)⟩
      simp [hroom.free i hrun] at htest

/-- What the rounds of the search from `sidx` on find. -/
inductive FindSpec (n : Node) (size step midx sidx : ℕ) : Option (Option ℕ) → Prop where
  | none (h : ∀ s, sidx ≤ s → n.map.test s = false → ¬ Room n size step midx s) :
      FindSpec n size step midx sidx (some none)
  | found {s : ℕ} (h : Room n size step midx s) : FindSpec n size step midx sidx (some (some s))

lemma findBlock_spec (h0 : 0 < rounds) (hr : midx < rounds + sidx) :
    FindSpec n size step midx sidx (n.findBlock size step midx rounds sidx) := by
  induction rounds generalizing sidx with
  | zero => exact absurd h0 (lt_irrefl 0)
  | succ rounds ih =>
    have hspec := probe_spec hstep hmax hlow size sidx
    rw [findBlock]
    generalize n.probe size step midx sidx = p at hspec
    cases hspec with
    | stop h => exact .none h
    | found h => exact .found h
    | @again next hsidx hnext hpass =>
      have hrest : FindSpec n size step midx next _ := ih (by omega) (by omega)
      simp only
      generalize n.findBlock size step midx rounds next = out at hrest
      cases hrest with
      | none h => exact .none fun s hs hclear hroom => h s (hpass s hs hclear hroom) hclear hroom
      | found h => exact .found h

/-- What the search does: it takes pages with room for the region, or there are none from `first`
on. -/
inductive SearchSpec (n : Node) (size a step midx first : ℕ) : Except Trap Allocated → Prop where
  | null (h : ∀ s, first ≤ s → n.map.test s = false → ¬ Room n size step midx s) :
      SearchSpec n size a step midx first (.ok .null)
  | taken {s : ℕ} (h : Room n size step midx s) :
      SearchSpec n size a step midx first (n.takeBlock size a s)

lemma search_spec (sidx : ℕ) (fallback : Option ℕ) :
    SearchSpec n size a step midx (fallback.getD sidx)
      (n.search size a step midx sidx fallback) := by
  have hfind (sidx : ℕ) :
      FindSpec n size step midx sidx (n.findBlock size step midx (midx + 1) sidx) :=
    findBlock_spec hstep hmax hlow (by omega) (by omega)
  have hfirst := hfind sidx
  unfold search
  generalize n.findBlock size step midx (midx + 1) sidx = out at hfirst
  cases hfirst with
  | found h => exact .taken h
  | none h =>
    cases fallback with
    | none => exact .null h
    | some sidx =>
      have hnext := hfind (n.alignIdx sidx step)
      simp only
      generalize n.findBlock size step midx (midx + 1) (n.alignIdx sidx step) = out at hnext
      cases hnext with
      | found h => exact .taken h
      | none h =>
        refine .null fun s hs hclear hroom => h s ?_ hclear hroom
        have hlt := hroom.lt
        exact alignIdx_le_of_dvd hstep hmax (by rw [Option.getD_some] at hs; omega) hroom.dvd hs

end

/-! ### Taking the pages -/

lemma isPow_step (ha : IsPow a) :
    IsPow (max (a / PAGE_SIZE) 1) ∧ max (a / PAGE_SIZE) 1 < 2 ^ 52 := by
  obtain ⟨k, hk, rfl⟩ := ha
  rw [PAGE_SIZE]
  rcases lt_or_ge k 12 with hlt | hge
  · rw [Nat.div_eq_of_lt (Nat.pow_lt_pow_right (by decide) hlt)]
    exact ⟨⟨0, by decide, rfl⟩, by decide⟩
  · rw [Nat.pow_div hge (by decide), Nat.max_eq_left (Nat.two_pow_pos _)]
    exact ⟨⟨k - 12, by omega, rfl⟩, Nat.pow_lt_pow_right (by decide) (by omega)⟩

lemma dvd_mul_page (ha : IsPow a) (h : max (a / PAGE_SIZE) 1 ∣ x) : a ∣ x * 4096 := by
  obtain ⟨k, hk, rfl⟩ := ha
  rw [PAGE_SIZE] at h
  rcases lt_or_ge k 12 with hlt | hge
  · exact Nat.dvd_mul_left_of_dvd (Nat.pow_dvd_pow 2 (le_of_lt hlt)) x
  · rw [Nat.pow_div hge (by decide), Nat.max_eq_left (Nat.two_pow_pos _)] at h
    rw [← Nat.sub_add_cancel hge, Nat.pow_add]
    exact Nat.mul_dvd_mul_right h _

lemma alignOff_spec (ha : IsPow a) (hx : x = (n.minPfn + sidx) * 4096) (hlow : x < 2 ^ 64)
    (hdvd : a ∣ x) (hoff : off < sidx * 4096) :
    a ∣ n.minPfn * 4096 + n.alignOff off a ∧ off ≤ n.alignOff off a ∧
      n.alignOff off a ≤ sidx * 4096 := by
  rw [alignOff, pfnPhys_eq (by omega), ulongRange]
  have htop := ha.add_le_of_dvd hdvd hlow
  have hxy : n.minPfn * 4096 + off ≤ x := by omega
  have hroom := le_trans (Nat.add_le_add_right hxy a) htop
  have hle := Words.le_align ha hroom
  have hge := Words.align_le_of_dvd ha hroom hdvd hxy
  have hd := Words.dvd_align ha hroom
  generalize align (n.minPfn * 4096 + off) a = y at hle hge hd ⊢
  have heq : (y + 2 ^ 64 - n.minPfn * 4096) % 2 ^ 64 = y - n.minPfn * 4096 := by
    omega
  have hsum : n.minPfn * 4096 + (y - n.minPfn * 4096) = y :=
    Nat.add_sub_of_le (le_trans (Nat.le_add_right _ off) hle)
  rw [heq, hsum]
  exact ⟨hd, by omega, by omega⟩

/-- A region that is taken at the free pages from `sidx` on. It begins at these pages, or in the
page before them, behind the end of the last region. -/
structure Taken (n : Node) (size a sidx : ℕ) (n' : Node) (addr : ℕ) : Prop where
  exists_off : ∃ off m, addr = n.minPfn * 4096 + off ∧
    n' = { n with map := m, lastEndOff := off + size, hintIdx := (off + size + 4095) / 4096 } ∧
    off + size ≤ (sidx + (size + 4095) / 4096) * 4096 ∧
    (off = sidx * 4096 ∨ off < sidx * 4096 ∧ n.lastEndOff % 4096 ≠ 0 ∧
      n.lastEndOff / 4096 + 1 = sidx ∧ n.lastEndOff ≤ off) ∧
    ∀ j, m.test j = (n.map.test j || decide (sidx ≤ j ∧ j < (off + size + 4095) / 4096))
  aligned : a ∣ addr

/-- Where a region starts that is taken at the free pages from `sidx` on: there, or in the page
before, behind the end of the last region. -/
lemma exists_startOff (ha : IsPow a) (hlow : n.minPfn + sidx < 2 ^ 52)
    (hdvd : max (a / PAGE_SIZE) 1 ∣ n.minPfn + sidx) :
    ∃ off, (if n.lastEndOff % PAGE_SIZE ≠ 0 ∧ pfnDown n.lastEndOff + 1 = sidx then
        n.alignOff n.lastEndOff a else pfnPhys sidx) = off ∧ off ≤ sidx * 4096 ∧
      (off = sidx * 4096 ∨ off < sidx * 4096 ∧ n.lastEndOff % 4096 ≠ 0 ∧
        n.lastEndOff / 4096 + 1 = sidx ∧ n.lastEndOff ≤ off) ∧
      a ∣ n.minPfn * 4096 + off := by
  obtain ⟨x, hx, hdvd'⟩ : ∃ x, x = (n.minPfn + sidx) * 4096 ∧ a ∣ x :=
    ⟨_, rfl, dvd_mul_page ha hdvd⟩
  split_ifs with hmerge
  · simp only [PAGE_SIZE, pfnDown] at hmerge
    have hlast : n.lastEndOff < sidx * 4096 := by omega
    obtain ⟨hd, hge, hle⟩ := alignOff_spec ha hx (by omega) hdvd' hlast
    exact ⟨_, rfl, hle, by omega, hd⟩
  · refine ⟨_, rfl, ?_⟩
    rw [pfnPhys_eq (by omega), ← add_mul, ← hx]
    exact ⟨le_refl _, .inl rfl, hdvd'⟩

lemma firstPage_eq {last : ℕ} (hle : off ≤ sidx * 4096)
    (hstart : off = sidx * 4096 ∨ off < sidx * 4096 ∧ last % 4096 ≠ 0 ∧
      last / 4096 + 1 = sidx ∧ last ≤ off) :
    pfnDown off + (if pfnDown off < sidx then 1 else 0) = sidx := by
  have hdown : pfnDown off = off / 4096 := rfl
  by_cases hlt : pfnDown off < sidx
  · rw [if_pos hlt]
    omega
  · rw [if_neg hlt]
    omega

lemma takeBlock_spec (ha : IsPow a) (hlow : n.lowPfn < 2 ^ 52) (hsize : size + 4095 < 2 ^ 64)
    (hdvd : max (a / PAGE_SIZE) 1 ∣ n.minPfn + sidx)
    (hfit : n.minPfn + sidx + pfnUp size ≤ n.lowPfn)
    (hfree : ∀ j, InRun sidx (pfnUp size) j → n.map.test j = false) :
    ∃ n' addr, n.takeBlock size a sidx = .ok (.region n' addr) ∧ Taken n size a sidx n' addr := by
  rw [pfnUp_eq hsize] at hfit hfree
  obtain ⟨off, hoff, hle, hstart, halign⟩ := exists_startOff ha (by omega) hdvd
  have hend : (off + size) % ulongRange = off + size := Nat.mod_eq_of_lt (by rw [ulongRange]; omega)
  have hup : pfnUp (off + size) = (off + size + 4095) / 4096 := pfnUp_eq (by omega)
  have hfirst := firstPage_eq hle hstart
  -- the pages that are reserved are some of those that were found
  have hrun (j : ℕ) : InRun sidx ((off + size + 4095) / 4096 - sidx) j ↔
      sidx ≤ j ∧ j < (off + size + 4095) / 4096 := by
    unfold InRun
    omega
  have hclear (j : ℕ) (hj : InRun sidx ((off + size + 4095) / 4096 - sidx) j) :
      n.map.test j = false := by
    obtain ⟨hge, hlt⟩ := (hrun j).1 hj
    exact hfree j ⟨hge, by omega⟩
  obtain ⟨m, hm, htest⟩ := exists_reserve_ok (n := { n with
    lastEndOff := off + size
    hintIdx := (off + size + 4095) / 4096 }) fun (_ : true = true) => hclear
  refine ⟨_, n.minPfn * 4096 + off, ?_, ⟨off, m, rfl, rfl, by omega, hstart, fun j => ?_⟩, halign⟩
  · unfold takeBlock
    simp only [hoff, hend, hup, hfirst, hm, pfnPhys_eq (x := n.minPfn) (by omega)]
    rw [Nat.mod_eq_of_lt (by rw [ulongRange]; omega)]
  · rw [htest]
    simp only [hrun]

/-! ### Allocation -/

/-- Arguments for which no address computation overflows, the alignment is a power of two, and
the limit does not vanish when it is rounded down to pages. -/
@[mk_iff] structure Sane (size a limit : ℕ) : Prop where
  size_room : size + 4095 < 2 ^ 64
  align_ne_zero : a ≠ 0
  align_lt : a < 2 ^ 64
  limit_page : limit = 0 ∨ 4096 ≤ limit

instance (size a limit : ℕ) : Decidable (Sane size a limit) :=
  decidable_of_iff _ (sane_iff size a limit).symm

variable {size a goal limit : ℕ}

lemma maxPfn_le_lowPfn (n : Node) (limit : ℕ) : n.maxPfn limit ≤ n.lowPfn := by
  unfold maxPfn
  split_ifs <;> omega

lemma maxPfn_le_limit (h0 : limit ≠ 0) (hpage : limit = 0 ∨ 4096 ≤ limit) :
    n.maxPfn limit * 4096 ≤ limit := by
  have hdown : pfnDown limit = limit / 4096 := rfl
  unfold maxPfn
  split_ifs <;> omega

/-- A region that is taken at free pages below the limit. -/
structure Granted (n : Node) (size a limit : ℕ) (n' : Node) (addr sidx : ℕ) : Prop where
  size_pos : 0 < size
  taken : Taken n size a sidx n' addr
  fits : n.minPfn + sidx + (size + 4095) / 4096 ≤ n.maxPfn limit
  free : ∀ j, sidx ≤ j → j < sidx + (size + 4095) / 4096 → n.map.test j = false

/-- The search of `alloc_bootmem_core`, if the arguments are not refused and the node has pages. -/
lemma allocBootmemCore_search (ha : IsPow a) (hlow : n.lowPfn ≤ 2 ^ 52)
    (hargs : ¬ (size = 0 ∨ Words.singleBit a = false ∨
      (limit ≠ 0 ∧ (goal + size) % ulongRange > limit)))
    (hempty : ¬ n.maxPfn limit ≤ n.minPfn) :
    SearchSpec n size a (max (a / PAGE_SIZE) 1) (n.maxPfn limit - n.minPfn)
      (n.startPfn (max (a / PAGE_SIZE) 1) goal limit - n.minPfn)
      (n.allocBootmemCore size a goal limit) := by
  obtain ⟨hpow, hmax⟩ := isPow_step ha
  have hmaxPfn := n.maxPfn_le_lowPfn limit
  rw [allocBootmemCore, if_neg hargs, if_neg hempty]
  simp only
  split_ifs
  · exact search_spec hpow hmax (by omega) _ (some _)
  · exact search_spec hpow hmax (by omega) _ none

/-- `alloc_bootmem_core` with sane arguments refuses them, fails, or takes a region. -/
theorem allocBootmemCore_spec (hlow : n.lowPfn < 2 ^ 52) (hs : Sane size a limit) :
    n.allocBootmemCore size a goal limit = .error .arguments ∨
      n.allocBootmemCore size a goal limit = .ok .null ∨
      ∃ n' addr s, n.allocBootmemCore size a goal limit = .ok (.region n' addr) ∧
        Granted n size a limit n' addr s := by
  by_cases hargs : size = 0 ∨ Words.singleBit a = false ∨
      (limit ≠ 0 ∧ (goal + size) % ulongRange > limit)
  · exact .inl (by rw [allocBootmemCore, if_pos hargs])
  by_cases hempty : n.maxPfn limit ≤ n.minPfn
  · exact .inr (.inl (by rw [allocBootmemCore, if_neg hargs, if_pos hempty]))
  have h0 : 0 < size := Nat.pos_of_ne_zero fun h => hargs (.inl h)
  have hbit : Words.singleBit a = true := by
    by_contra h
    exact hargs (.inr (.inl (by simpa using h)))
  have ha : IsPow a := Words.isPow_of_singleBit hbit hs.align_ne_zero hs.align_lt
  have hmaxPfn := n.maxPfn_le_lowPfn limit
  have hspec := allocBootmemCore_search ha (le_of_lt hlow) hargs hempty
  generalize n.allocBootmemCore size a goal limit = out at hspec
  cases hspec with
  | null => exact .inr (.inl rfl)
  | @taken s h =>
    have hfit := h.fits
    obtain ⟨n', addr, htake, htaken⟩ :=
      takeBlock_spec ha hlow hs.size_room h.dvd (by omega) h.free
    have hfree := h.free
    rw [pfnUp_eq hs.size_room] at hfit hfree
    exact .inr (.inr ⟨n', addr, s, htake, h0, htaken, by omega,
      fun j hj hj' => hfree j ⟨hj, hj'⟩⟩)

end Node

end LklPort.Bootmem
