import LklPort.PidMap.Basic

/-!
# The search for a free identifier

What one page yields, which page and offset each iteration of `alloc_pidmap` looks at, and how the
whole loop can end.
-/

namespace LklPort.Pid

open Words

variable {pidMax last q offset z j : ℕ} {final : Bool} {page : Bitmap} {memory : ℕ → Bool}
  {ns : Ns}

/-! ### The inner loop -/

lemma goesOn_mono (h : goesOn pidMax last final q j = true) (hz : z ≤ j) :
    goesOn pidMax last final q z = true := by
  simp only [goesOn, Bool.and_eq_true, Bool.or_eq_true, decide_eq_true_eq] at h ⊢
  unfold mkPid at h ⊢
  obtain ⟨⟨hB, hmax⟩, hfinal⟩ := h
  refine ⟨⟨by omega, by omega⟩, ?_⟩
  rcases hfinal with (hf | hlt) | hmod
  · exact .inl (.inl hf)
  · exact .inl (.inr (by omega))
  · exact .inr hmod

lemma goesOn_lt (h : goesOn pidMax last final q j = true) :
    j < bitsPerPage ∧ mkPid q j < pidMax := by
  simp only [goesOn, Bool.and_eq_true, decide_eq_true_eq] at h
  exact h.1

variable {rounds : ℕ} {map : PidMap} {mem : Bool}

lemma scanPage_eq_some (hoff : offset < bitsPerPage)
    (h : scanPage pidMax last final q page rounds offset = some z) :
    offset ≤ z ∧ z < bitsPerPage ∧ page.test z = false ∧
      (z = offset ∨ goesOn pidMax last final q z = true) := by
  induction rounds generalizing offset with
  | zero => cases h
  | succ _ ih =>
    rw [scanPage] at h
    dsimp only at h
    split_ifs at h with hclear hgo
    · cases h
      exact ⟨le_refl _, hoff, by simpa using hclear, .inl rfl⟩
    · obtain ⟨hle, hlt, htest, hz⟩ := ih (goesOn_lt hgo).1 h
      have hnext : offset ≤ findNextOffset page offset := Bitmap.le_findNextZeroBit hoff
      refine ⟨hnext.trans hle, hlt, htest, .inr ?_⟩
      rcases hz with rfl | hz
      · exact hgo
      · exact hz

/-- If the inner loop finds nothing, then the bit it starts at is set, and so are all bits behind
it that the loop condition admits. -/
lemma scanPage_eq_none (h : scanPage pidMax last final q page (rounds + 2) offset = none) :
    page.test offset = true ∧
      ∀ j, offset ≤ j → goesOn pidMax last final q j = true → page.test j = true := by
  rw [scanPage] at h
  dsimp only at h
  split_ifs at h with hclear hgo
  · -- the bit that was found is clear, so the next round takes it
    have htest : page.test (findNextOffset page offset) = false :=
      Bitmap.test_findNextZeroBit (goesOn_lt hgo).1
    simp [scanPage, htest] at h
  · refine ⟨by simpa using hclear, fun j hj hadm => ?_⟩
    have hlt : j < findNextOffset page offset :=
      Nat.lt_of_not_le fun hle => hgo (goesOn_mono hadm hle)
    exact Bitmap.test_of_lt_findNextZeroBit hj hlt

/-! ### One map -/

/-- `nr_free` of every map is the number of its clear bits. -/
def Counted (ns : Ns) : Prop := ∀ q, (ns.map q).nrFree = (ns.map q).bits.zeros bitsPerPage

lemma getPage_eq_some (h : map.getPage mem = some page) : page = map.bits := by
  unfold PidMap.getPage at h
  unfold PidMap.bits
  cases hp : map.page with
  | some =>
    rw [hp] at h
    cases h
    rfl
  | none =>
    rw [hp] at h
    cases mem with
    | true =>
      cases h
      rfl
    | false => cases h

lemma getPage_eq_none (h : map.getPage mem = none) : map.page = none ∧ mem = false := by
  unfold PidMap.getPage at h
  cases hp : map.page with
  | some => simp [hp] at h
  | none => cases mem <;> simp [hp] at h ⊢

lemma page_of_test (h : map.bits.test j = true) : map.page = some map.bits := by
  unfold PidMap.bits at h ⊢
  cases hp : map.page with
  | some => rfl
  | none => simp [hp, Bitmap.test] at h

lemma scanMap_eq_some {nrFree : ℤ} (hoff : offset < bitsPerPage)
    (h : scanMap pidMax last final q offset nrFree page = some z) :
    offset ≤ z ∧ z < bitsPerPage ∧ page.test z = false ∧
      (z = offset ∨ goesOn pidMax last final q z = true) := by
  unfold scanMap at h
  split_ifs at h
  exact scanPage_eq_some hoff h

lemma scanMap_eq_none (hoff : offset < bitsPerPage)
    (h : scanMap pidMax last final q offset (page.zeros bitsPerPage) page = none) :
    page.test offset = true ∧
      ∀ j, offset ≤ j → goesOn pidMax last final q j = true → page.test j = true := by
  unfold scanMap at h
  split_ifs at h with hfree
  · exact scanPage_eq_none h
  · -- there is no clear bit at all
    have hall : ∀ j < bitsPerPage, page.test j = true := fun j hj => by
      by_contra hclear
      have hpos := Bitmap.zeros_pos hj (by simpa using hclear)
      omega
    exact ⟨hall offset hoff, fun j _ hadm => hall j (goesOn_lt hadm).1⟩

lemma setMap_page_self (h : (ns.map q).page = some page) :
    ns.setMap q { ns.map q with page := some page } = ns := by
  rw [← h]
  exact congrArg (Ns.mk · ns.last) (Function.update_eq_self q ns.map)

/-! ### The places the loop looks at -/

section Places

variable (pidMax last : ℕ)

/-- Iteration `i` comes after the loop has gone round. -/
def Wrapped (i : ℕ) : Prop := lastMap pidMax < firstPid pidMax last / bitsPerPage + i
  deriving Decidable

/-- The map that iteration `i` looks at. -/
def mapAt (i : ℕ) : ℕ :=
  if Wrapped pidMax last i then firstPid pidMax last / bitsPerPage + i - (lastMap pidMax + 1)
  else firstPid pidMax last / bitsPerPage + i

/-- The offset that iteration `i` starts at. -/
def offsetAt (i : ℕ) : ℕ :=
  if i = 0 then firstPid pidMax last % bitsPerPage
  else if mapAt pidMax last i = 0 then reservedPids
  else 0

end Places

variable {i : ℕ}

lemma firstPid_lt (last : ℕ) (hmax : reservedPids < pidMax) : firstPid pidMax last < pidMax := by
  unfold firstPid
  split_ifs with h
  · exact hmax
  · omega

lemma firstMap_le (last : ℕ) (hmax : reservedPids < pidMax) :
    firstPid pidMax last / bitsPerPage ≤ lastMap pidMax :=
  Nat.div_le_div_right (Nat.le_sub_one_of_lt (firstPid_lt last hmax))

lemma maxScan_eq (last : ℕ) (hmax : reservedPids < pidMax) : maxScan pidMax last =
    lastMap pidMax + 1 - if firstPid pidMax last % bitsPerPage = 0 then 1 else 0 := by
  have hdiv : (pidMax + bitsPerPage - 1) / bitsPerPage = lastMap pidMax + 1 := by
    unfold lastMap bitsPerPage
    omega
  rw [maxScan, hdiv]

lemma maxScan_le (last : ℕ) (hmax : reservedPids < pidMax) :
    maxScan pidMax last ≤ lastMap pidMax + 1 := by
  rw [maxScan_eq last hmax]
  exact Nat.sub_le _ _

lemma offsetAt_lt : offsetAt pidMax last i < bitsPerPage := by
  unfold offsetAt
  split_ifs
  · exact Nat.mod_lt _ (by decide)
  · decide
  · decide

lemma mapAt_cases (pidMax last i : ℕ) :
    (firstPid pidMax last / bitsPerPage + i ≤ lastMap pidMax ∧ ¬ Wrapped pidMax last i ∧
        mapAt pidMax last i = firstPid pidMax last / bitsPerPage + i) ∨
      (Wrapped pidMax last i ∧
        mapAt pidMax last i + (lastMap pidMax + 1) = firstPid pidMax last / bitsPerPage + i) := by
  unfold mapAt
  by_cases hw : Wrapped pidMax last i
  · rw [if_pos hw]
    exact .inr ⟨hw, Nat.sub_add_cancel hw⟩
  · rw [if_neg hw]
    exact .inl ⟨Nat.not_lt.1 hw, hw, rfl⟩

section

variable (hmax : reservedPids < pidMax)

include hmax

lemma mapAt_zero : mapAt pidMax last 0 = firstPid pidMax last / bitsPerPage := by
  have hle : ¬ Wrapped pidMax last 0 := Nat.not_lt.2 (firstMap_le _ hmax)
  rw [mapAt, if_neg hle, add_zero]

lemma mapAt_le (hi : i ≤ maxScan pidMax last) : mapAt pidMax last i ≤ lastMap pidMax := by
  have hfirst := firstMap_le last hmax
  have hscan := maxScan_le last hmax
  rcases mapAt_cases pidMax last i with ⟨hle, -, hmap⟩ | ⟨-, hmap⟩ <;> omega

lemma next_place (hi : i + 1 ≤ maxScan pidMax last) :
    if mapAt pidMax last i < lastMap pidMax then
      mapAt pidMax last (i + 1) = mapAt pidMax last i + 1 ∧ offsetAt pidMax last (i + 1) = 0 ∧
        (Wrapped pidMax last (i + 1) → Wrapped pidMax last i)
    else
      mapAt pidMax last (i + 1) = 0 ∧ offsetAt pidMax last (i + 1) = reservedPids ∧
        Wrapped pidMax last (i + 1) := by
  have hfirst := firstMap_le last hmax
  have hscan := maxScan_le last hmax
  have hnow := mapAt_cases pidMax last i
  have hnext := mapAt_cases pidMax last (i + 1)
  split_ifs with hlt
  · have hmap : mapAt pidMax last (i + 1) = mapAt pidMax last i + 1 := by
      omega
    refine ⟨hmap, ?_, ?_⟩
    · rw [offsetAt, if_neg (Nat.succ_ne_zero i), hmap, if_neg (Nat.succ_ne_zero _)]
    · unfold Wrapped at *
      omega
  · have hmap : mapAt pidMax last (i + 1) = 0 ∧ Wrapped pidMax last (i + 1) := by
      unfold Wrapped at *
      omega
    refine ⟨hmap.1, ?_, hmap.2⟩
    rw [offsetAt, if_neg (Nat.succ_ne_zero i), hmap.1, if_pos rfl]

end

/-! ### How the loop ends -/

/-- Iteration `i` takes place if all before it fail. -/
def Visits (pidMax last i : ℕ) : Prop :=
  i ≤ maxScan pidMax last ∧ (Wrapped pidMax last i → last ≠ reservedPids)

/-- What iteration `i` finds in the map it looks at. -/
def findAt (pidMax : ℕ) (ns : Ns) (i : ℕ) : Option ℕ :=
  scanMap pidMax ns.last (i == maxScan pidMax ns.last) (mapAt pidMax ns.last i)
    (offsetAt pidMax ns.last i) (ns.map (mapAt pidMax ns.last i)).nrFree
    (ns.map (mapAt pidMax ns.last i)).bits

/-- The three ways in which the loop of `alloc_pidmap` can end from iteration `i` on. -/
inductive Outcome (pidMax : ℕ) (memory : ℕ → Bool) (ns : Ns) (i : ℕ) : Option ℕ × Ns → Prop where
  | found (j z : ℕ) (hj : Visits pidMax ns.last j) (hz : findAt pidMax ns j = some z) :
      Outcome pidMax memory ns i
        (some (mkPid (mapAt pidMax ns.last j) z),
          ns.take (mapAt pidMax ns.last j) z (ns.map (mapAt pidMax ns.last j)).bits)
  | noMemory (j : ℕ) (hj : Visits pidMax ns.last j)
      (hpage : (ns.map (mapAt pidMax ns.last j)).page = none)
      (hmem : memory (mapAt pidMax ns.last j) = false) : Outcome pidMax memory ns i (none, ns)
  | nothing (h : ∀ j, i ≤ j → Visits pidMax ns.last j → findAt pidMax ns j = none) :
      Outcome pidMax memory ns i (none, ns)

lemma Outcome.of_succ {r : Option ℕ × Ns} (hi : findAt pidMax ns i = none)
    (h : Outcome pidMax memory ns (i + 1) r) : Outcome pidMax memory ns i r := by
  cases h with
  | found j z hj hz => exact .found j z hj hz
  | noMemory j hj hpage hmem => exact .noMemory j hj hpage hmem
  | nothing h =>
    refine .nothing fun j hij hj => ?_
    rcases eq_or_lt_of_le hij with rfl | hij
    · exact hi
    · exact h j hij hj

lemma findAt_eq_none (hc : Counted ns) (h : findAt pidMax ns i = none) :
    (ns.map (mapAt pidMax ns.last i)).bits.test (offsetAt pidMax ns.last i) = true ∧
      ∀ j, offsetAt pidMax ns.last i ≤ j →
        goesOn pidMax ns.last (i == maxScan pidMax ns.last) (mapAt pidMax ns.last i) j = true →
          (ns.map (mapAt pidMax ns.last i)).bits.test j = true := by
  rw [findAt, hc] at h
  exact scanMap_eq_none offsetAt_lt h

lemma allocLoop_outcome (hmax : reservedPids < pidMax) (hc : Counted ns) (n : ℕ)
    (hn : i + n = maxScan pidMax ns.last + 1)
    (hplace : i ≤ maxScan pidMax ns.last → q = mapAt pidMax ns.last i ∧
      offset = offsetAt pidMax ns.last i ∧ Visits pidMax ns.last i) : Outcome pidMax memory ns i
      (allocLoop pidMax ns.last (maxScan pidMax ns.last) memory n i q offset ns) := by
  induction n generalizing i q offset with
  | zero => exact .nothing fun j hij hj => absurd hj.1 (by omega)
  | succ _ ih =>
    obtain ⟨rfl, rfl, hvisits⟩ := hplace (by omega)
    rw [allocLoop]
    cases hpage : (ns.map (mapAt pidMax ns.last i)).getPage (memory _) with
    | none =>
      obtain ⟨hnone, hmem⟩ := getPage_eq_none hpage
      exact .noMemory i hvisits hnone hmem
    | some page =>
      obtain rfl := getPage_eq_some hpage
      cases hfind : findAt pidMax ns i with
      | some z =>
        have hscan := hfind
        unfold findAt at hscan
        simp only [hscan]
        exact .found i z hvisits hfind
      | none =>
        -- the page was there before, so the namespace has not changed
        have hself := setMap_page_self (page_of_test (findAt_eq_none hc hfind).1)
        have hscan := hfind
        unfold findAt at hscan
        simp only [hscan, hself]
        by_cases hlt : mapAt pidMax ns.last i < lastMap pidMax
        · rw [if_pos hlt]
          refine .of_succ hfind (ih (by omega) fun hi => ?_)
          have hnext := next_place hmax hi
          rw [if_pos hlt] at hnext
          exact ⟨hnext.1.symm, hnext.2.1.symm, hi, fun hw => hvisits.2 (hnext.2.2 hw)⟩
        · rw [if_neg hlt]
          by_cases hlast : ns.last = reservedPids
          · rw [if_pos hlast]
            refine .of_succ hfind (.nothing fun j hij hj => ?_)
            have hi : i + 1 ≤ maxScan pidMax ns.last := hij.trans hj.1
            have hnext := next_place hmax hi
            rw [if_neg hlt] at hnext
            refine absurd hlast (hj.2 ?_)
            have hw := hnext.2.2
            unfold Wrapped at hw ⊢
            omega
          · rw [if_neg hlast]
            refine .of_succ hfind (ih (by omega) fun hi => ?_)
            have hnext := next_place hmax hi
            rw [if_neg hlt] at hnext
            exact ⟨hnext.1.symm, hnext.2.1.symm, hi, fun _ => hlast⟩

lemma allocPidmap_outcome (hmax : reservedPids < pidMax) (hc : Counted ns) (memory : ℕ → Bool) :
    Outcome pidMax memory ns 0 (allocPidmap pidMax memory ns) := by
  refine allocLoop_outcome hmax hc _ (by omega) fun _ => ⟨(mapAt_zero hmax).symm, rfl, ?_⟩
  exact ⟨Nat.zero_le _, fun hw => absurd hw (Nat.not_lt.2 (firstMap_le _ hmax))⟩

end LklPort.Pid
