import LklPort.PidMap.Search

/-!
# What `alloc_pidmap` and `alloc_pid` guarantee

An identifier that is handed out was free and is below `pid_max`, and the counts of the maps stay
right. The search is complete except for one identifier: the one handed out last. Its page is
looked at a second time, but then only identifiers before `last_pid` are taken. So a call fails
with `last_pid` free if no other identifier is, unless its bit is the first or the last of a page.
-/

namespace LklPort.Pid

open Words Machine Function

variable {pidMax last q offset x y i j z : ℕ} {memory : ℕ → Bool} {ns ns' : Ns}
  {r : Option ℕ × Ns} {levels : List ((ℕ → Bool) × Ns)}

/-! ### Bits and counts -/

@[simp] lemma mkPid_div (h : offset < bitsPerPage) : mkPid q offset / bitsPerPage = q := by
  unfold mkPid bitsPerPage at *
  omega

@[simp] lemma mkPid_mod (h : offset < bitsPerPage) : mkPid q offset % bitsPerPage = offset := by
  unfold mkPid bitsPerPage at *
  omega

lemma mkPid_div_mod (x : ℕ) : mkPid (x / bitsPerPage) (x % bitsPerPage) = x :=
  Nat.div_add_mod' x bitsPerPage

lemma eq_iff_div_mod : x = y ↔ x / bitsPerPage = y / bitsPerPage ∧
    x % bitsPerPage = y % bitsPerPage := by
  unfold bitsPerPage
  omega

lemma used_mkPid (h : offset < bitsPerPage) :
    ns.used (mkPid q offset) = (ns.map q).bits.test offset := by
  rw [Ns.used, mkPid_div h, mkPid_mod h]

lemma used_take (h : offset < bitsPerPage) :
    (ns.take q offset (ns.map q).bits).used x = (ns.used x || decide (x = mkPid q offset)) := by
  have hiff := eq_iff_div_mod (x := x) (y := mkPid q offset)
  rw [mkPid_div h, mkPid_mod h] at hiff
  unfold Ns.used Ns.take
  by_cases hq : x / bitsPerPage = q
  · subst hq
    simp [PidMap.bits, hiff, eq_comm]
  · simp [hiff, hq]

lemma counted_take (hc : Counted ns) (h : offset < bitsPerPage)
    (hclear : (ns.map q).bits.test offset = false) :
    Counted (ns.take q offset (ns.map q).bits) := by
  intro r
  unfold Ns.take
  by_cases hr : r = q
  · subst hr
    have hzeros := Bitmap.zeros_set h hclear
    simp only [update_self, hc r, PidMap.bits, Option.getD_some]
    unfold PidMap.bits at hzeros
    omega
  · simp only [update_of_ne hr]
    exact hc r

lemma bits_map_clear {map : PidMap} (n : ℤ) (h : map.page = some map.bits) :
    PidMap.bits ⟨n, map.page.map (·.clear offset)⟩ = map.bits.clear offset := by
  rw [h]
  rfl

lemma used_freePidmap (hy : ns.used y = true) :
    (freePidmap ns y).used x = (ns.used x && !decide (x = y)) := by
  have hpage := page_of_test hy
  have hiff := eq_iff_div_mod (x := x) (y := y)
  unfold Ns.used freePidmap Ns.setMap
  by_cases hq : x / bitsPerPage = y / bitsPerPage
  · simp only [hq, update_self, bits_map_clear _ hpage, Bitmap.test_clear, hiff, true_and]
    simp [eq_comm]
  · simp [hiff, hq]

lemma counted_freePidmap (hc : Counted ns) (hy : ns.used y = true) : Counted (freePidmap ns y) := by
  intro r
  have hpage := page_of_test hy
  unfold freePidmap Ns.setMap
  by_cases hr : r = y / bitsPerPage
  · subst hr
    have hmod : y % bitsPerPage < bitsPerPage := Nat.mod_lt _ (by decide)
    simp only [update_self, bits_map_clear _ hpage, hc _, Bitmap.zeros_clear hmod hy]
    rfl
  · simp only [update_of_ne hr]
    exact hc r

/-! ### The law -/

/-- What a call of `alloc_pidmap` on `ns` with outcome `r` is to guarantee. -/
structure AllocLaw (pidMax : ℕ) (memory : ℕ → Bool) (ns : Ns) (r : Option ℕ × Ns) : Prop where
  counted : Counted r.2
  found : ∀ pid, r.1 = some pid → (1 ≤ pid ∧ pid < pidMax) ∧ ns.used pid = false ∧
    ∀ x, r.2.used x = (ns.used x || decide (x = pid))
  unchanged : r.1 = none → ∀ x, r.2.used x = ns.used x
  complete : r.1 = none → (∀ x, reservedPids ≤ x → x < pidMax → ns.used x = true) ∨
    ∃ q, q ≤ lastMap pidMax ∧ (ns.map q).page = none ∧ memory q = false

/-- The only free identifier is `last_pid`, in the middle of a page and before the last one. -/
structure Stuck (pidMax : ℕ) (ns : Ns) : Prop where
  reserved : reservedPids ≤ ns.last
  lt : ns.last + 1 < pidMax
  first : ns.last % bitsPerPage ≠ 0
  final : (ns.last + 1) % bitsPerPage ≠ 0
  free : ns.used ns.last = false
  others : ∀ x, reservedPids ≤ x → x < pidMax → x ≠ ns.last → ns.used x = true

lemma used_of_findAt_eq_none (hc : Counted ns) (h : findAt pidMax ns i = none)
    (hmap : mapAt pidMax ns.last i = x / bitsPerPage)
    (hoff : offsetAt pidMax ns.last i ≤ x % bitsPerPage) (hlt : x < pidMax)
    (hcond : i = maxScan pidMax ns.last → x < ns.last ∨ (ns.last + 1) % bitsPerPage = 0) :
    ns.used x = true := by
  obtain ⟨-, hall⟩ := findAt_eq_none hc h
  rw [hmap] at hall
  apply hall _ hoff
  have hmod : x % bitsPerPage < bitsPerPage := Nat.mod_lt _ (by decide)
  simp only [goesOn, mkPid_div_mod, Bool.and_eq_true, Bool.or_eq_true, decide_eq_true_eq,
    Bool.not_eq_true', beq_iff_eq, beq_eq_false_iff_ne]
  refine ⟨⟨hmod, hlt⟩, ?_⟩
  by_cases hi : i = maxScan pidMax ns.last
  · rcases hcond hi with h | h
    · exact .inl (.inr h)
    · exact .inr h
  · exact .inl (.inl hi)

lemma Stuck.page_ne_none (h : Stuck pidMax ns) (hq : q ≤ lastMap pidMax) :
    (ns.map q).page ≠ none := by
  have hused : ∃ y, y / bitsPerPage = q ∧ ns.used y = true := by
    obtain ⟨hres, hlt, hfirst, -, -, hothers⟩ := h
    by_cases h0 : q = 0
    · -- of 300 and 301 one is not `last_pid`
      by_cases hl : ns.last = reservedPids
      · refine ⟨reservedPids + 1, by rw [h0]; decide, hothers _ ?_ ?_ ?_⟩ <;> omega
      · exact ⟨reservedPids, by rw [h0]; decide, hothers _ le_rfl (by omega) (Ne.symm hl)⟩
    · refine ⟨q * bitsPerPage, Nat.mul_div_cancel _ (by decide), hothers _ ?_ ?_ ?_⟩
      · unfold reservedPids bitsPerPage at *
        omega
      · unfold lastMap bitsPerPage at *
        omega
      · rintro heq
        exact hfirst (by rw [← heq, Nat.mul_mod_left])
  obtain ⟨y, rfl, hy⟩ := hused
  rw [page_of_test hy]
  exact nofun

lemma Stuck.not_allocLaw (h : Stuck pidMax ns) : ¬ AllocLaw pidMax memory ns (none, ns) := by
  intro hlaw
  have hlt := h.lt
  rcases hlaw.complete rfl with hall | ⟨q, hq, hpage, -⟩
  · have hused := hall ns.last h.reserved (by omega)
    simp [h.free] at hused
  · exact h.page_ne_none hq hpage

lemma counted_init : Counted Ns.init := by
  intro q
  unfold Ns.init
  have hempty : Bitmap.zeros (fun _ => 0) bitsPerPage = bitsPerPage := by
    simp [Bitmap.zeros, Bitmap.test]
  by_cases hq : q = 0
  · have hset := Bitmap.zeros_set (m := fun _ => 0) (show 0 < bitsPerPage by decide)
      (by simp [Bitmap.test])
    simp only [hq, if_true, PidMap.bits, Option.getD_some]
    omega
  · simp only [hq, if_false, PidMap.bits, Option.getD_none, hempty]

/-- The same identifiers are in use on every level. -/
def SameUse (before after : List Ns) : Prop :=
  List.Forall₂ (fun ns ns' : Ns => ∀ x, ns'.used x = ns.used x) before after

lemma SameUse.refl (levels : List Ns) : SameUse levels levels :=
  List.forall₂_same.2 fun _ _ _ => rfl

/-! ### Where the loop looks -/

section

variable (hmax : reservedPids < pidMax)

include hmax

lemma place_mem (hi : i ≤ maxScan pidMax last) :
    1 ≤ mkPid (mapAt pidMax last i) (offsetAt pidMax last i) ∧
      mkPid (mapAt pidMax last i) (offsetAt pidMax last i) < pidMax ∧
      (i ≠ 0 → reservedPids ≤ mkPid (mapAt pidMax last i) (offsetAt pidMax last i)) := by
  by_cases h0 : i = 0
  · subst h0
    rw [mapAt_zero hmax, offsetAt, if_pos rfl, mkPid_div_mod]
    refine ⟨?_, firstPid_lt last hmax, absurd rfl⟩
    unfold firstPid reservedPids
    split_ifs <;> omega
  · have hle := mapAt_le hmax hi
    unfold lastMap bitsPerPage at hle
    unfold offsetAt mkPid bitsPerPage
    unfold reservedPids at *
    split_ifs <;> omega

lemma exists_visit_ahead (hx : firstPid pidMax last ≤ x)
    (hlt : x < pidMax) : ∃ i, Visits pidMax last i ∧ mapAt pidMax last i = x / bitsPerPage ∧
      offsetAt pidMax last i ≤ x % bitsPerPage ∧ i ≠ maxScan pidMax last := by
  have hfirst : firstPid pidMax last / bitsPerPage ≤ x / bitsPerPage := Nat.div_le_div_right hx
  have hlast : x / bitsPerPage ≤ lastMap pidMax := Nat.div_le_div_right (by omega)
  have hscan := maxScan_eq last hmax
  have hpos : 0 < firstPid pidMax last := by
    unfold firstPid reservedPids
    split_ifs <;> omega
  obtain ⟨i, hi⟩ := Nat.exists_eq_add_of_le hfirst
  have hcases := mapAt_cases pidMax last i
  have hw : ¬ Wrapped pidMax last i := by
    unfold Wrapped
    omega
  have hmap : mapAt pidMax last i = x / bitsPerPage := by
    rcases hcases with ⟨-, -, hmap⟩ | ⟨hw', -⟩
    · rw [hmap, hi]
    · exact absurd hw' hw
  have hne : i < maxScan pidMax last := by
    rw [hscan]
    unfold bitsPerPage at *
    split_ifs <;> omega
  refine ⟨i, ⟨le_of_lt hne, fun h => absurd h hw⟩, hmap, ?_, ne_of_lt hne⟩
  unfold offsetAt
  split_ifs with h0 hm
  · unfold bitsPerPage at *
    omega
  · unfold bitsPerPage at *
    omega
  · exact Nat.zero_le _

/-- After it has gone round, the loop reaches every identifier from `RESERVED_PIDS` on that is
before its start, in an earlier page or in the page it started in. -/
lemma exists_visit_behind (hres : reservedPids ≤ x)
    (hx : x < firstPid pidMax last) (hlast : last ≠ reservedPids) :
    ∃ i, Visits pidMax last i ∧ mapAt pidMax last i = x / bitsPerPage ∧
      offsetAt pidMax last i ≤ x % bitsPerPage ∧
      (i = maxScan pidMax last → (last + 1) % bitsPerPage ≠ 0 →
        x / bitsPerPage = last / bitsPerPage) := by
  have hfirst : firstPid pidMax last = last + 1 := by
    unfold firstPid at hx ⊢
    split_ifs at hx ⊢
    · omega
    · rfl
  have hle := firstMap_le last hmax
  have hscan := maxScan_eq last hmax
  rw [hfirst] at hle hscan
  have hi : lastMap pidMax - (last + 1) / bitsPerPage + 1 + x / bitsPerPage ≤
      maxScan pidMax last := by
    rw [hscan]
    unfold bitsPerPage at *
    split_ifs <;> omega
  have hcases := mapAt_cases pidMax last
    (lastMap pidMax - (last + 1) / bitsPerPage + 1 + x / bitsPerPage)
  have hmap : mapAt pidMax last
      (lastMap pidMax - (last + 1) / bitsPerPage + 1 + x / bitsPerPage) = x / bitsPerPage := by
    unfold bitsPerPage at *
    omega
  refine ⟨_, ⟨hi, fun _ => hlast⟩, hmap, ?_, fun hend hmod => ?_⟩
  · unfold offsetAt
    unfold reservedPids bitsPerPage at *
    split_ifs <;> omega
  · rw [hscan, if_neg hmod] at hend
    unfold bitsPerPage at *
    omega

lemma findAt_eq_some (hj : j ≤ maxScan pidMax ns.last)
    (h : findAt pidMax ns j = some z) : offsetAt pidMax ns.last j ≤ z ∧ z < bitsPerPage ∧
      (ns.map (mapAt pidMax ns.last j)).bits.test z = false ∧
      mkPid (mapAt pidMax ns.last j) z < pidMax ∧
      (z = offsetAt pidMax ns.last j ∨ goesOn pidMax ns.last (j == maxScan pidMax ns.last)
        (mapAt pidMax ns.last j) z = true) := by
  obtain ⟨hle, hlt, htest, hz⟩ := scanMap_eq_some offsetAt_lt h
  refine ⟨hle, hlt, htest, ?_, hz⟩
  rcases hz with rfl | hgo
  · exact (place_mem hmax hj).2.1
  · exact (goesOn_lt hgo).2

/-- If no iteration finds anything, then every identifier behind the reserved ones is in use, with
one exception. -/
lemma used_of_nothing (hc : Counted ns)
    (h : ∀ j, 0 ≤ j → Visits pidMax ns.last j → findAt pidMax ns j = none)
    (hres : reservedPids ≤ x) (hlt : x < pidMax) :
    ns.used x = true ∨ (x = ns.last ∧ ns.last + 1 < pidMax ∧ ns.last % bitsPerPage ≠ 0 ∧
      (ns.last + 1) % bitsPerPage ≠ 0) := by
  by_cases hx : firstPid pidMax ns.last ≤ x
  · obtain ⟨i, hvisits, hmap, hoff, hi⟩ := exists_visit_ahead hmax hx hlt
    exact .inl (used_of_findAt_eq_none hc (h i (Nat.zero_le i) hvisits) hmap hoff hlt
      fun hend => absurd hend hi)
  have hbehind : x < ns.last + 1 ∧ ns.last + 1 < pidMax := by
    unfold firstPid at hx
    split_ifs at hx <;> omega
  by_cases hlast : ns.last = reservedPids
  · -- the loop ends when it has gone round, and only `last_pid` is left
    refine .inr ⟨by omega, hbehind.2, ?_, ?_⟩ <;> rw [hlast] <;> decide
  obtain ⟨i, hvisits, hmap, hoff, hi⟩ :=
    exists_visit_behind hmax hres (not_le.1 hx) hlast
  have hnone := h i (Nat.zero_le i) hvisits
  by_cases hcond : i = maxScan pidMax ns.last → x < ns.last ∨ (ns.last + 1) % bitsPerPage = 0
  · exact .inl (used_of_findAt_eq_none hc hnone hmap hoff hlt hcond)
  push Not at hcond
  obtain ⟨hend, hle, hmod⟩ := hcond
  obtain rfl : x = ns.last := by omega
  by_cases hfirst : ns.last % bitsPerPage = 0
  · -- the loop looks at the first bit of a page whatever the condition says
    left
    have htest := (findAt_eq_none hc hnone).1
    rw [hmap] at htest
    rwa [Ns.used, ← le_antisymm hoff (by omega)]
  · exact .inr ⟨rfl, hbehind.2, hfirst, hmod⟩

lemma Outcome.sound (hc : Counted ns) (h : Outcome pidMax memory ns 0 r) : Counted r.2 ∧
    (∀ pid, r.1 = some pid → (1 ≤ pid ∧ pid < pidMax) ∧ ns.used pid = false ∧
      ∀ x, r.2.used x = (ns.used x || decide (x = pid))) ∧
    (r.1 = none → ∀ x, r.2.used x = ns.used x) := by
  cases h with
  | found _ _ hj hz =>
    obtain ⟨hle, hlt, htest, hpid, -⟩ := findAt_eq_some hmax hj.1 hz
    have hpos := (place_mem hmax hj.1).1.trans (Nat.add_le_add_left hle _)
    refine ⟨counted_take hc hlt htest, ?_, nofun⟩
    rintro _ ⟨⟩
    exact ⟨⟨hpos, hpid⟩, (used_mkPid hlt).trans htest, fun x => used_take hlt⟩
  | noMemory | nothing => exact ⟨hc, nofun, fun _ _ => rfl⟩

lemma Outcome.allocLaw (hc : Counted ns) (hstuck : ¬ Stuck pidMax ns)
    (h : Outcome pidMax memory ns 0 r) : AllocLaw pidMax memory ns r := by
  obtain ⟨hcounted, hfound, hsame⟩ := h.sound hmax hc
  refine ⟨hcounted, hfound, hsame, fun hnone => ?_⟩
  cases h with
  | found => cases hnone
  | noMemory _ hj hpage hmem => exact .inr ⟨_, mapAt_le hmax hj.1, hpage, hmem⟩
  | nothing h =>
    refine .inl fun x hres hlt => ?_
    by_contra hfree
    obtain ⟨rfl, hmax', hfirst, hfinal⟩ :=
      (used_of_nothing hmax hc h hres hlt).resolve_left hfree
    refine hstuck ⟨hres, hmax', hfirst, hfinal, by simpa using hfree, fun y hy hylt hne => ?_⟩
    exact (used_of_nothing hmax hc h hy hylt).resolve_right fun h => hne h.1

/-! ### The stuck states -/

lemma Stuck.findAt_eq_none (h : Stuck pidMax ns)
    (hj : Visits pidMax ns.last j) : findAt pidMax ns j = none := by
  rw [Option.eq_none_iff_forall_ne_some]
  intro z hz
  obtain ⟨hle, hlt, htest, hpid, hor⟩ := findAt_eq_some hmax hj.1 hz
  have hplace := place_mem hmax hj.1
  have hmono : mkPid (mapAt pidMax ns.last j) _ ≤ mkPid _ z := Nat.add_le_add_left hle _
  have hfirst : firstPid pidMax ns.last = ns.last + 1 := if_neg (not_le.2 h.lt)
  -- what would be found is free, so it is `last_pid`
  have heq : mkPid (mapAt pidMax ns.last j) z = ns.last := by
    by_contra hne
    have hres : reservedPids ≤ mkPid (mapAt pidMax ns.last j) z := by
      by_cases h0 : j = 0
      · subst h0
        rw [mapAt_zero hmax, offsetAt, if_pos rfl, mkPid_div_mod, hfirst] at hmono
        have hlast := h.reserved
        rw [mapAt_zero hmax, hfirst]
        omega
      · exact (hplace.2.2 h0).trans hmono
    have hused := h.others _ hres hpid hne
    simp [used_mkPid hlt, htest] at hused
  have hmap : mapAt pidMax ns.last j = ns.last / bitsPerPage :=
    (mkPid_div hlt).symm.trans (congrArg (· / bitsPerPage) heq)
  have hoff : z = ns.last % bitsPerPage :=
    (mkPid_mod hlt).symm.trans (congrArg (· % bitsPerPage) heq)
  have hj0 : j ≠ 0 := by
    rintro rfl
    rw [offsetAt, if_pos rfl, hfirst] at hle
    have hfinal := h.final
    unfold bitsPerPage at *
    omega
  -- the page of `last_pid` is looked at again in the final iteration only
  have hend : Wrapped pidMax ns.last j ∧ j = maxScan pidMax ns.last := by
    have hcases := mapAt_cases pidMax ns.last j
    have hscan := maxScan_eq ns.last hmax
    have hfinal := h.final
    rw [hfirst] at hcases hscan
    rw [if_neg hfinal] at hscan
    have hdiv : (ns.last + 1) / bitsPerPage = ns.last / bitsPerPage := by
      unfold bitsPerPage at *
      omega
    constructor
    · rcases hcases with hcases | hcases
      · omega
      · exact hcases.1
    · omega
  rcases hor with hz | hgo
  · -- a page starts at its first bit or at `RESERVED_PIDS`
    rw [offsetAt, if_neg hj0] at hz
    have hne := hj.2 hend.1
    have hmod := h.first
    split_ifs at hz with hq
    · unfold bitsPerPage reservedPids at *
      omega
    · omega
  · have hfinal : (j == maxScan pidMax ns.last) = true := beq_iff_eq.2 hend.2
    simp only [goesOn, heq, hfinal, Bool.and_eq_true, Bool.or_eq_true, Bool.not_true,
      decide_eq_true_eq, beq_iff_eq, lt_irrefl, h.final, or_self, Bool.false_eq_true,
      and_false] at hgo

lemma Stuck.outcome_eq (hs : Stuck pidMax ns)
    (h : Outcome pidMax memory ns 0 r) : r = (none, ns) := by
  cases h with
  | found _ _ hj hz =>
    simp [hs.findAt_eq_none hmax hj] at hz
  | noMemory => rfl
  | nothing => rfl

lemma Outcome.allocLaw_iff (hc : Counted ns)
    (h : Outcome pidMax memory ns 0 r) : AllocLaw pidMax memory ns r ↔ ¬ Stuck pidMax ns := by
  refine ⟨fun hlaw hs => ?_, h.allocLaw hmax hc⟩
  rw [hs.outcome_eq hmax h] at hlaw
  exact hs.not_allocLaw hlaw

/-! ### Every run -/

lemma counted_alloc (hc : Counted ns) : Counted (ns.alloc pidMax memory) :=
  ((allocPidmap_outcome hmax hc memory).sound hmax hc).1

/-! ### All levels -/

lemma Outcome.used_freePidmap (hc : Counted ns)
    (h : Outcome pidMax memory ns 0 (some y, ns')) (x : ℕ) :
    (freePidmap ns' y).used x = ns.used x := by
  obtain ⟨-, hfree, hused⟩ := (h.sound hmax hc).2.1 y rfl
  have hy : ns'.used y = true := by simp [hused]
  rw [Pid.used_freePidmap hy, hused]
  by_cases hx : x = y
  · simp [hx, hfree]
  · simp [hx]

variable (hc : ∀ l ∈ levels, Counted l.2)

include hc

lemma allocLevels_eq_none (h : (allocLevels pidMax levels).1 = none) :
    SameUse (levels.map Prod.snd) (allocLevels pidMax levels).2 := by
  induction levels with
  | nil => cases h
  | cons l parents ih =>
    obtain ⟨memory, ns⟩ := l
    have hns : Counted ns := hc _ (List.mem_cons_self ..)
    have hout := allocPidmap_outcome hmax hns memory
    have ih := ih fun l hl => hc l (List.mem_cons_of_mem _ hl)
    rw [allocLevels] at h ⊢
    generalize allocPidmap pidMax memory ns = r at h hout ⊢
    generalize allocLevels pidMax parents = rs at h ih ⊢
    match r, rs with
    | (none, ns'), _ => exact .cons ((hout.sound hmax hns).2.2 rfl) (SameUse.refl _)
    | (some nr, ns'), (none, parents') =>
      exact .cons (hout.used_freePidmap hmax hns) (ih rfl)
    | (some nr, ns'), (some nrs, parents') => cases h

lemma allocPid_eq_none {slab : Bool} (h : (allocPid pidMax slab levels).1 = none) :
    SameUse (levels.map Prod.snd) (allocPid pidMax slab levels).2 := by
  cases slab with
  | true => exact allocLevels_eq_none hmax hc h
  | false => exact .refl _

end

lemma counted_of_reachable (h : machine.Reachable ns) : Counted ns := by
  refine h.invariant counted_init fun s a hc ha => ?_
  cases a with
  | alloc => exact counted_alloc ha.1 hc
  | free => exact counted_freePidmap hc ha.2
  | setLast => exact hc

/-- In every reachable namespace a call of `alloc_pidmap` meets its law exactly if it is not
stuck, and an `alloc_pid` that fails leaves the identifiers in use on every level as they were. -/
theorem pid_allocation_law (hmax : reservedPids < pidMax) : (∀ ns memory, machine.Reachable ns →
      (AllocLaw pidMax memory ns (allocPidmap pidMax memory ns) ↔ ¬ Stuck pidMax ns)) ∧
    ∀ slab (levels : List ((ℕ → Bool) × Ns)), (∀ l ∈ levels, machine.Reachable l.2) →
      (allocPid pidMax slab levels).1 = none →
        SameUse (levels.map Prod.snd) (allocPid pidMax slab levels).2 := by
  refine ⟨fun ns memory hr => ?_, fun slab levels hr h => ?_⟩
  · have hc := counted_of_reachable hr
    exact (allocPidmap_outcome hmax hc memory).allocLaw_iff hmax hc
  · exact allocPid_eq_none hmax (fun l hl => counted_of_reachable (hr l hl)) h

/-- The identifiers from 301 to 303 are handed out, and 302 is freed again. -/
def wrapRun : List Action :=
  [.setLast 300, .alloc 304 fun _ => true, .alloc 304 fun _ => true, .alloc 304 fun _ => true,
    .free 302]

theorem pid_allocation_law_wrapRun :
    (allocPidmap 304 (fun _ => true) (machine.runFrom .init wrapRun)).1 = some 300 ∧
      AllocLaw 304 (fun _ => true) (machine.runFrom .init wrapRun)
        (allocPidmap 304 (fun _ => true) (machine.runFrom .init wrapRun)) := by
  have hadm : machine.Admits .init wrapRun := by decide +kernel
  have hlast : ¬ (machine.runFrom .init wrapRun).last + 1 < 304 := by decide +kernel
  exact ⟨by decide +kernel, ((pid_allocation_law (by decide)).1 _ _
    (reachable_of_admits _ hadm)).2 fun hstuck => hlast hstuck.lt⟩

/-- The identifiers from 300 on are 300 and 301. 301 is handed out, and 300 was handed out last. -/
def lastFreed : List Action := [.setLast 300, .alloc 302 fun _ => true, .setLast 300]

theorem alloc_misses_last_pid : machine.Reachable (machine.runFrom .init lastFreed) ∧
      (allocPidmap 302 (fun _ => true) (machine.runFrom .init lastFreed)).1 = none ∧
      (machine.runFrom .init lastFreed).used 300 = false ∧
      ¬ AllocLaw 302 (fun _ => true) (machine.runFrom .init lastFreed)
        (allocPidmap 302 (fun _ => true) (machine.runFrom .init lastFreed)) := by
  have hadm : machine.Admits .init lastFreed := by decide +kernel
  have hnone : (allocPidmap 302 (fun _ => true) (machine.runFrom .init lastFreed)).1 = none := by
    decide +kernel
  have hfree : (machine.runFrom .init lastFreed).used 300 = false := by decide +kernel
  refine ⟨reachable_of_admits _ hadm, hnone, hfree, fun hlaw => ?_⟩
  rcases hlaw.complete hnone with hall | ⟨q, -, -, hmem⟩
  · have hused := hall 300 (by decide) (by decide)
    rw [hfree] at hused
    cases hused
  · cases hmem

/-!
## The next identifier in use

`next_pidmap` goes through the pages from an identifier on. Its index `(last + 1) / BITS_PER_PAGE`
is an `unsigned long`: it is right for `last = -1`, and far behind the array for the other negative
numbers.
-/

open Bitmap

def pidmapEntries : ℕ := pidMaxLimit / bitsPerPage

/-- The loop of `next_pidmap`, with `n` maps left up to `end`. -/
def nextLoop (ns : Ns) : (n q offset : ℕ) → Option ℕ
  | 0, _, _ => none
  | n + 1, q, offset =>
    match (ns.map q).page with
    | none => nextLoop ns n (q + 1) 0
    | some page =>
      match page.firstSet (bitsPerPage - offset) offset with
      | some offset => some (mkPid q offset)
      | none => nextLoop ns n (q + 1) 0

/-- `next_pidmap`. There is no result where the source returns -1. -/
def nextPidmap (ns : Ns) (last : BitVec 32) : Option ℕ :=
  let next := ((last + 1).signExtend 64).toNat
  nextLoop ns (pidmapEntries - next / bitsPerPage) (next / bitsPerPage) (next % bitsPerPage)

/-- The smallest number with a property, if there is any. -/
def Least (S : ℕ → Prop) : Option ℕ → Prop
  | some x => S x ∧ ∀ y, S y → x ≤ y
  | none => ∀ y, ¬ S y

/-- The result is the next identifier in use, and the call looks at no map behind the last one. -/
def NextLaw (ns : Ns) (last : BitVec 32) : Prop :=
  Least (fun pid => pid < pidMaxLimit ∧ ns.used pid = true ∧ last.toInt < pid)
      (nextPidmap ns last) ∧
    ∀ ns' : Ns, (∀ q < pidmapEntries, ns'.map q = ns.map q) →
      nextPidmap ns' last = nextPidmap ns last

variable {n : ℕ}

lemma Least.congr {S T : ℕ → Prop} {r : Option ℕ} (h : Least S r) (hiff : ∀ x, S x ↔ T x) :
    Least T r := by
  rwa [← funext fun x => propext (hiff x)]

/-- An identifier from `x` on that is in use, in a map before `q`. -/
def UsedFrom (ns : Ns) (x q pid : ℕ) : Prop := x ≤ pid ∧ pid < mkPid q 0 ∧ ns.used pid = true

lemma Least.skip {r : Option ℕ} (h : Least (UsedFrom ns (mkPid (q + 1) 0) (q + 1 + n)) r)
    (hoff : offset < bitsPerPage)
    (hclear : ∀ o, InRun offset (bitsPerPage - offset) o → (ns.map q).bits.test o = false) :
    Least (UsedFrom ns (mkPid q offset) (q + (n + 1))) r := by
  refine h.congr fun x => ?_
  rw [add_assoc, add_comm 1 n]
  refine and_congr_left fun hx => ⟨fun hle => ?_, fun hle => ?_⟩
  · rw [mkPid, add_one_mul] at hle
    rw [mkPid]
    omega
  · -- an identifier before the next map would be one of those that are not in use
    by_contra hlt
    obtain ⟨o, rfl⟩ : ∃ o, x = mkPid q o := ⟨x - mkPid q 0, by
      simp only [mkPid] at hle ⊢
      omega⟩
    have ho : InRun offset (bitsPerPage - offset) o := by
      rw [mkPid, mkPid, add_one_mul] at hlt
      rw [mkPid, mkPid] at hle
      rw [InRun]
      omega
    rw [used_mkPid (by unfold InRun at ho; omega), hclear o ho] at hx
    exact Bool.false_ne_true hx.2

lemma nextLoop_spec (hoff : offset < bitsPerPage) :
    Least (UsedFrom ns (mkPid q offset) (q + n)) (nextLoop ns n q offset) := by
  induction n generalizing q offset with
  | zero =>
    intro x hx
    have hlt := hx.1.trans_lt hx.2.1
    simp only [mkPid, add_zero] at hlt
    omega
  | succ n ih =>
    have hrest := ih (q := q + 1) (show 0 < bitsPerPage by decide)
    rw [nextLoop]
    cases hpage : (ns.map q).page with
    | none =>
      refine hrest.skip hoff fun o _ => ?_
      rw [PidMap.bits, hpage]
      simp [test]
    | some page =>
      have hbits : (ns.map q).bits = page := by rw [PidMap.bits, hpage]; rfl
      dsimp only
      cases hfind : page.firstSet (bitsPerPage - offset) offset with
      | none => exact hrest.skip hoff fun o ho => by rw [hbits, firstSet_eq_none.1 hfind o ho]
      | some o =>
        obtain ⟨hrun, htest⟩ := firstSet_eq_some hfind
        have ho : offset ≤ o ∧ o < bitsPerPage := by
          unfold InRun at hrun
          omega
        refine ⟨⟨?_, ?_, ?_⟩, fun y hy => ?_⟩
        · unfold mkPid
          omega
        · rw [mkPid, mkPid, ← add_assoc, add_one_mul, add_mul]
          omega
        · rw [used_mkPid ho.2, hbits, htest]
        · by_contra hlt
          obtain ⟨o', rfl⟩ : ∃ o', y = mkPid q o' := ⟨y - mkPid q 0, by
            have hle := hy.1
            unfold mkPid at *
            omega⟩
          have ho' : offset ≤ o' ∧ o' < o := by
            have hle := hy.1
            unfold mkPid at *
            omega
          have hused := hy.2.2
          rw [used_mkPid (by omega), hbits, test_of_lt_firstSet hfind ho'.1 ho'.2] at hused
          exact Bool.false_ne_true hused

lemma nextLoop_congr (h : ∀ p, q ≤ p → p < q + n → ns'.map p = ns.map p) :
    nextLoop ns' n q offset = nextLoop ns n q offset := by
  induction n generalizing q offset with
  | zero => rfl
  | succ n ih =>
    rw [nextLoop, nextLoop, h q le_rfl (by omega), ih fun p hle hlt => h p (by omega) (by omega)]

lemma nextPidmap_congr (last : BitVec 32) (h : ∀ q < pidmapEntries, ns'.map q = ns.map q) :
    nextPidmap ns' last = nextPidmap ns last :=
  nextLoop_congr fun p _ hp => h p (by omega)

lemma toNat_next (last : BitVec 32) : ((last + 1).signExtend 64).toNat =
    if -1 ≤ last.toInt ∧ last.toInt < 2 ^ 31 - 1 then (last.toInt + 1).toNat
    else if last.toInt < -1 then (last.toInt + 1 + 2 ^ 64).toNat else 2 ^ 64 - 2 ^ 31 := by
  have hext : ((last + 1).signExtend 64).toInt = (last.toInt + 1).bmod (2 ^ 32) := by
    rw [BitVec.toInt_signExtend_of_le (by decide), BitVec.toInt_add]
    rfl
  have hcond := BitVec.toInt_eq_toNat_cond ((last + 1).signExtend 64)
  have hlt := BitVec.toInt_lt (x := last)
  have hle := BitVec.le_toInt last
  rw [hext, Int.bmod_def] at hcond
  split_ifs at hcond ⊢ <;> omega

/-- `next_pidmap` is right for `last >= -1`, and for a namespace with no identifier in use. -/
theorem next_pidmap_law_iff (ns : Ns) (last : BitVec 32) :
    NextLaw ns last ↔ -1 ≤ last.toInt ∨ ∀ pid < pidMaxLimit, ns.used pid = false := by
  have hnext := toNat_next last
  have hlast := BitVec.toInt_lt (x := last)
  have hlimit : pidMaxLimit = mkPid pidmapEntries 0 := rfl
  have hpos : 0 < bitsPerPage := by decide
  rw [NextLaw, and_iff_left fun ns' => nextPidmap_congr last, nextPidmap]
  generalize ((last + 1).signExtend 64).toNat = x at *
  have hspec : Least _ (nextLoop ns (pidmapEntries - x / bitsPerPage) (x / bitsPerPage) _) :=
    nextLoop_spec (Nat.mod_lt x hpos)
  rw [mkPid_div_mod] at hspec
  rcases lt_or_ge (x / bitsPerPage) pidmapEntries with hq | hq
  · have hx : x < 2 ^ 22 := (Nat.div_lt_iff_lt_mul hpos).1 hq
    have hge : -1 ≤ last.toInt ∧ (x : ℤ) = last.toInt + 1 := by
      have := BitVec.le_toInt last
      split_ifs at hnext <;> omega
    rw [Nat.add_sub_of_le hq.le] at hspec
    refine iff_of_true (hspec.congr fun pid => ?_) (.inl hge.1)
    rw [UsedFrom, ← hlimit, and_comm, and_assoc]
    refine and_congr_right fun _ => and_congr_right fun _ => ?_
    omega
  · have hx : 2 ^ 22 ≤ x := (Nat.le_div_iff_mul_le hpos).1 hq
    rw [Nat.sub_eq_zero_of_le hq, nextLoop]
    constructor
    · intro hnone
      refine or_iff_not_imp_left.2 fun hneg pid hpid => ?_
      exact Bool.eq_false_iff.2 fun hused => hnone pid ⟨hpid, hused, by omega⟩
    · rintro hor pid ⟨hpid, hused, hlt⟩
      rcases hor with hge | hnone
      · have hpid' : pid < 2 ^ 22 := hpid
        split_ifs at hnext <;> omega
      · rw [hnone pid hpid] at hused
        cases hused

/-- Identifier 0 is in use, but -1 is returned for `last = -2`. -/
theorem next_pidmap_misses_all : Ns.init.used 0 = true ∧ nextPidmap .init (-2) = none ∧
    ¬ NextLaw .init (-2) := by
  refine ⟨by decide, by decide, fun h => ?_⟩
  exact h.1 0 ⟨by decide, by decide, by decide⟩

end LklPort.Pid
