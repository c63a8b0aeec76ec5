import LklPort.PageAlloc.Steps

/-!
# The pages that are looked at

That the `mem_map` has all pages of a block of the largest order is all that `__free_one_page`
assumes of it. `freeTouches` lists the pages that it examines or modifies, apart from the
neighbours on a list, whatever the flags of the pages are and whether or not a page with `PG_buddy`
is on a list.
-/

namespace LklPort.PageAlloc

open Program Tiling

/-! ### Compound pages -/

/-- What `destroy_compound_page` reads of a `struct page`. -/
structure Compound where
  head : Bool
  tail : Bool
  firstPage : ℕ
  /-- `lru.prev`, where the second page has the order. -/
  lruPrev : ℕ

def compoundOrder (c : ℕ → Compound) (page : ℕ) : ℕ :=
  if (c page).head then (c (page + 1)).lruPrev % 2 ^ 32 else 0

def tailPages (page order : ℕ) : List ℕ := List.range' (page + 1) ((1 <<< order) - 1)

/-- The number of faults that are found. -/
def destroyCompoundPage (c : ℕ → Compound) (page order : ℕ) : ℕ :=
  (if compoundOrder c page ≠ order ∨ (c page).head = false then 1 else 0) +
    (tailPages page order).countP fun p => (c p).tail = false ∨ (c p).firstPage ≠ page

def compoundTouches (c : ℕ → Compound) (page order : ℕ) : List ℕ :=
  (if (c page).head then [page + 1] else []) ++ tailPages page order

/-- A compound page that is not freed since something is wrong with it. -/
def Refused (c : ℕ → Compound) (page order : ℕ) : Prop :=
  ((c page).head = true ∨ (c page).tail = true) ∧ destroyCompoundPage c page order ≠ 0
  deriving Decidable

/-! ### Merging -/

/-- What the loop of `__free_one_page` writes when it has found a buddy. -/
def State.takeBuddy (s : State) (buddy order : ℕ) : State :=
  ((s.unlink buddy).setNrFree order (· - 1)).setPage buddy
    fun p => { p with buddy := false, priv := 0 }

/-- The variables at the end of the loop, and the pages it has looked at. -/
def mergeTouches : ℕ → Merge → State → Merge × List ℕ
  | 0, x, _ => (x, [])
  | rounds + 1, x, s =>
    if x.order < maxOrder - 1 then
      let buddy := pageFindBuddy x.page x.pageIdx x.order
      if pageIsBuddy s x.page buddy x.order then
        let combinedIdx := findCombinedIndex x.pageIdx x.order
        let r := mergeTouches rounds ⟨x.page + combinedIdx - x.pageIdx, combinedIdx, x.order + 1⟩
          (s.takeBuddy buddy x.order)
        (r.1, x.page :: buddy :: r.2)
      else (x, [x.page, buddy])
    else (x, [])

def higherTouches (x : Merge) : List ℕ :=
  if x.order < maxOrder - 1 then
    let combinedIdx := findCombinedIndex x.pageIdx x.order
    let higherPage := x.page + combinedIdx - x.pageIdx
    [higherPage, pageFindBuddy higherPage combinedIdx (x.order + 1)]
  else []

def merged (s : State) (page order : ℕ) : Merge × List ℕ :=
  mergeTouches maxOrder ⟨page, page &&& ((1 <<< maxOrder) - 1), order⟩ s

/-- The pages that `__free_one_page` examines or modifies. -/
def freeTouches (s : State) (c : ℕ → Compound) (page order : ℕ) : List ℕ :=
  page :: (if (c page).head ∨ (c page).tail then compoundTouches c page order else []) ++
    if Refused c page order then []
    else (merged s page order).2 ++
      (merged s page order).1.page :: higherTouches (merged s page order).1

/-- The page `p` is in the block of the largest order that has `page`. -/
def SameBlock (page p : ℕ) : Prop := p / 2 ^ (maxOrder - 1) = page / 2 ^ (maxOrder - 1)
  deriving Decidable

variable {s s' : State} {b : Block} {x y : Merge} {n p q page order o i : ℕ} {mt : MigrateType}

lemma mergeTouches_of_runs (h : Runs (loop mergeBody n x) s y s') :
    (mergeTouches n x s).1 = y ∧ ∀ q ∉ (mergeTouches n x s).2, s'.page q = s.page q := by
  induction n generalizing x s with
  | zero => cases h
  | succ n ih =>
    obtain ⟨⟨r, s1⟩, hbody, hrest⟩ := Option.bind_eq_some_iff.mp h
    by_cases ho : x.order < maxOrder - 1
    · simp only [mergeTouches, if_pos ho]
      rw [mergeBody, if_pos ho] at hbody
      change (if _ then _ else _ : Program State _).run s = _ at hbody
      split_ifs at hbody ⊢ with hfree
      · change (if _ then _ else _ : Program State _).run s >>= _ = _ at hbody
        split_ifs at hbody
        · cases hbody
          obtain ⟨hvars, hpages⟩ := ih hrest
          refine ⟨hvars, fun q hq => ?_⟩
          simp only [List.mem_cons, not_or] at hq
          exact (hpages q hq.2.2).trans (Function.update_of_ne hq.2.1 ..)
        · cases hbody
      · cases hbody
        cases hrest
        exact ⟨rfl, fun _ _ => rfl⟩
    · rw [mergeBody, if_neg ho] at hbody
      cases hbody
      cases hrest
      rw [mergeTouches, if_neg ho]
      exact ⟨rfl, fun _ _ => rfl⟩

lemma addFree_page (h : Runs (addFree x mt) s () s') : s'.page = s.page := by
  change (if _ then _ else _ : Program State _).run s = _ at h
  rw [listAdd, listAddTail] at h
  split_ifs at h <;> cases h <;> rfl

/-- Outside of the pages that are looked at, nothing changes. -/
theorem freeOnePage_frame {c : ℕ → Compound} (h : Runs (freeOnePage page order mt) s () s')
    (hc : ¬ Refused c page order) (hq : q ∉ freeTouches s c page order) :
    s'.page q = s.page q := by
  rw [Runs, freeOnePage, StateT.run_bind] at h
  obtain ⟨⟨x, s1⟩, hloop, hrest⟩ := Option.bind_eq_some_iff.mp h
  obtain ⟨hx, hpages⟩ := mergeTouches_of_runs hloop
  simp only [freeTouches, if_neg hc, List.mem_cons, List.mem_append, not_or] at hq
  obtain ⟨-, hq, hne, -⟩ := hq
  have hset : (s1.setPage x.page fun p => { p with priv := x.order, buddy := true }).page q =
      s1.page q := Function.update_of_ne (hx ▸ hne) ..
  rw [← hpages q hq, ← hset]
  obtain ⟨⟨_, s2⟩, hadd, hinc⟩ := Option.bind_eq_some_iff.mp hrest
  cases hinc
  exact congrFun (addFree_page hadd) q

/-! ### The block of the largest order -/

lemma sameBlock_of_covers (hb : b.order ≤ maxOrder - 1) (hp : b.Covers p) : SameBlock b.head p := by
  rw [SameBlock, ← Nat.add_sub_cancel' hb, pow_add, ← Nat.div_div_eq_div_mul,
    ← Nat.div_div_eq_div_mul, hp]

lemma mergeTouches_succ (hb : b.order < maxOrder - 1) : mergeTouches (n + 1) (.of b) s =
    if pageIsBuddy s b.head b.buddy.head b.order then
      let r := mergeTouches n (.of b.parent) (s.takeBuddy b.buddy.head b.order)
      (r.1, b.head :: b.buddy.head :: r.2)
    else (.of b, [b.head, b.buddy.head]) := by
  have hb' : b.order < maxOrder := Nat.lt_of_lt_pred hb
  rw [mergeTouches, Merge.of, if_pos hb]
  simp only [pageFindBuddy_eq hb', findCombinedIndex_eq, combined_page hb']
  rfl

lemma mergeTouches_mem (hb : b.order < maxOrder) (hn : maxOrder ≤ b.order + n) :
    ∃ c : Block, (mergeTouches n (.of b) s).1 = .of c ∧ c.order < maxOrder ∧
      SameBlock b.head c.head ∧ ∀ p ∈ (mergeTouches n (.of b) s).2, SameBlock b.head p := by
  induction n generalizing b s with
  | zero => exact absurd hn (Nat.not_le.mpr hb)
  | succ n ih =>
    by_cases ho : b.order < maxOrder - 1
    · have hparent : SameBlock b.head b.parent.head := Block.parent_div ho
      have hbuddy : SameBlock b.head b.buddy.head := Block.buddy_div ho
      rw [mergeTouches_succ ho]
      split_ifs
      · obtain ⟨c, hc, hsmall, hhead, htouches⟩ := ih (b := b.parent)
          (Nat.add_lt_of_lt_sub ho)
          (hn.trans (Nat.le_of_eq (Nat.succ_add_eq_add_succ _ _).symm))
        refine ⟨c, hc, hsmall, hhead.trans hparent, ?_⟩
        simp only [List.mem_cons, forall_eq_or_imp]
        exact ⟨rfl, hbuddy, fun p hp => (htouches p hp).trans hparent⟩
      · refine ⟨b, rfl, hb, rfl, ?_⟩
        simp only [List.mem_cons, forall_eq_or_imp]
        exact ⟨rfl, hbuddy, by simp⟩
    · rw [show mergeTouches (n + 1) (.of b) s = (.of b, []) from if_neg ho]
      exact ⟨b, rfl, hb, rfl, by simp⟩

lemma not_covers_buddy (b : Block) : ¬ b.Covers b.buddy.head := by
  intro h
  have hxor := b.buddy_index.symm.trans h
  exact absurd (Nat.xor_right_injective (hxor.trans (Nat.xor_zero _).symm)) (by decide)

lemma higherTouches_iff (hb : b.order < maxOrder) (hpage : SameBlock page b.head) :
    (∀ p ∈ higherTouches (.of b), SameBlock page p) ↔ b.order + 2 ≠ maxOrder := by
  by_cases ho : b.order < maxOrder - 1
  · have hparent : SameBlock page b.parent.head := (Block.parent_div ho).trans hpage
    have hbuddy : pageFindBuddy b.parent.head (b.parent.head % 2 ^ maxOrder) (b.order + 1) =
        b.parent.buddy.head := pageFindBuddy_eq (Nat.add_lt_of_lt_sub ho)
    simp only [higherTouches, Merge.of, if_pos ho, findCombinedIndex_eq, combined_page hb, hbuddy,
      List.mem_pair, forall_eq_or_imp, forall_eq, hparent, true_and]
    constructor
    · intro hcovers htop
      have horder : b.parent.order = maxOrder - 1 := by rw [← htop]; rfl
      apply not_covers_buddy b.parent
      rw [Block.Covers, horder]
      exact hcovers.trans hparent.symm
    · intro htop
      have hlt : b.order + 1 < maxOrder - 1 := by omega
      exact (Block.buddy_div hlt).trans hparent
  · rw [show higherTouches (.of b) = [] from if_neg ho]
    have htop : b.order + 2 ≠ maxOrder := by omega
    simp [htop]

lemma compoundTouches_iff {c : ℕ → Compound} (ho : order < maxOrder) (hpage : 2 ^ order ∣ page) :
    (∀ p ∈ compoundTouches c page order, SameBlock page p) ↔
      ((c page).head = true → order = 0 → ¬ 2 ^ (maxOrder - 1) ∣ page + 1) := by
  have htail : ∀ p, page ≤ p → p < page + 2 ^ order → SameBlock page p :=
    fun p hlo hhi => sameBlock_of_covers (Nat.le_pred_of_lt ho)
      ((Block.Aligned.covers_iff (b := ⟨order, page⟩) hpage).mpr ⟨hlo, hhi⟩)
  have hpages : ∀ p ∈ tailPages page order, SameBlock page p := by
    intro p hp
    rw [tailPages, List.mem_range'_1, Nat.one_shiftLeft] at hp
    exact htail p (by omega) (by omega)
  have hnext : SameBlock page (page + 1) ↔ (order = 0 → ¬ 2 ^ (maxOrder - 1) ∣ page + 1) := by
    rcases Nat.eq_zero_or_pos order with rfl | hpos
    · rw [SameBlock, Nat.succ_div]
      split_ifs with hdvd <;> simp [hdvd]
    · have hlt : 2 ^ 1 ≤ 2 ^ order := Nat.pow_le_pow_right (by omega) hpos
      simp only [htail (page + 1) (by omega) (by omega), hpos.ne', false_imp_iff]
  rw [compoundTouches, List.forall_mem_append, and_iff_left hpages, ← hnext]
  by_cases hhead : (c page).head = true <;> simp [hhead]

/-! ### When the loop ends at the last order but one -/

/-- The block of order `o` that has the page. -/
def blockOf (page o : ℕ) : Block := ⟨o, page / 2 ^ o * 2 ^ o⟩

/-- The buddy of the block of order `o` that has the page is free. -/
def BuddyFree (s : State) (page o : ℕ) : Prop :=
  pageIsBuddy s (blockOf page o).head (blockOf page o).buddy.head o = true

lemma parent_blockOf (page o : ℕ) : (blockOf page o).parent = blockOf page (o + 1) := by
  refine congrArg (Block.mk (o + 1)) (Nat.eq_of_testBit_eq fun i => ?_)
  simp only [blockOf, Nat.testBit_ldiff, Nat.testBit_mul_two_pow, Nat.testBit_div_two_pow,
    Nat.testBit_two_pow]
  grind

lemma buddy_blockOf_ne (h : o < i) : (blockOf page i).buddy.head ≠ (blockOf page o).buddy.head := by
  intro heq
  have hbit := congrArg (Nat.testBit · i) heq
  simp only [Block.buddy, blockOf, Nat.testBit_xor, Nat.testBit_mul_two_pow,
    Nat.testBit_div_two_pow, Nat.testBit_two_pow] at hbit
  grind

lemma buddyFree_takeBuddy (h : o < i) :
    BuddyFree (s.takeBuddy (blockOf page o).buddy.head o) page i ↔ BuddyFree s page i := by
  have hzone (x q : ℕ) : ((s.takeBuddy x o).page q).zoneId = (s.page q).zoneId := by
    by_cases hq : q = x <;> simp [State.takeBuddy, State.setPage, State.setNrFree, State.unlink, hq]
  have hpage : (s.takeBuddy (blockOf page o).buddy.head o).page (blockOf page i).buddy.head =
      s.page (blockOf page i).buddy.head := Function.update_of_ne (buddy_blockOf_ne h) ..
  simp only [BuddyFree, pageIsBuddy, hzone, hpage]

/-- The loop goes past the last order but one if it gets there, by induction on the rounds. -/
lemma mergeTouches_order (page : ℕ) (ho : o < maxOrder) (hn : maxOrder ≤ o + n) :
    (mergeTouches n (.of (blockOf page o)) s).1.order + 2 ≠ maxOrder ↔ (o + 2 ≤ maxOrder →
      (∀ i, o ≤ i → i + 2 < maxOrder → BuddyFree s page i) → BuddyFree s page (maxOrder - 2)) := by
  induction n generalizing o s with
  | zero => exact absurd hn (Nat.not_le.mpr ho)
  | succ n ih =>
    by_cases hlt : o < maxOrder - 1
    · rw [mergeTouches_succ hlt]
      split_ifs with hfree
      · rw [parent_blockOf]
        refine (ih (by omega) (by omega)).trans ⟨fun h hle hall => ?_, fun h hle hall => ?_⟩
        · by_cases htop : o + 2 = maxOrder
          · rwa [← htop]
          · refine (buddyFree_takeBuddy (by omega)).mp (h (by omega) fun i hi hi' => ?_)
            exact (buddyFree_takeBuddy hi).mpr (hall i (by omega) hi')
        · refine (buddyFree_takeBuddy (by omega)).mpr (h (by omega) fun i hi hi' => ?_)
          rcases Nat.eq_or_lt_of_le hi with rfl | hi
          · exact hfree
          · exact (buddyFree_takeBuddy hi).mp (hall i hi hi')
      · refine ⟨fun hne hle hall => absurd (hall o (le_refl o) ?_) hfree, fun h htop => hfree ?_⟩
        · have : o + 2 ≠ maxOrder := hne
          omega
        · have htop : o + 2 = maxOrder := htop
          have htop' := h (by omega) fun i hi hi' => absurd hi' (by omega)
          rwa [← htop] at htop'
    · rw [show mergeTouches (n + 1) (.of (blockOf page o)) s = _ from if_neg hlt]
      exact iff_of_true (show o + 2 ≠ _ by omega) fun hle => absurd hle (by omega)

/-- A head page of order 0 is not the last page of a block of the largest order. And if the buddies
of a page that is freed are free up to the last order but one, the buddy of that order is free as
well. -/
def StaysInside (s : State) (c : ℕ → Compound) (page order : ℕ) : Prop :=
  ((c page).head = true → order = 0 → ¬ 2 ^ (maxOrder - 1) ∣ page + 1) ∧
    (¬ Refused c page order → order + 2 ≤ maxOrder →
      (∀ o, order ≤ o → o + 2 < maxOrder → BuddyFree s page o) → BuddyFree s page (maxOrder - 2))

/-- All pages that `__free_one_page` looks at are in the block of the largest order that has the
page. -/
theorem freeTouches_inside_iff (s : State) (c : ℕ → Compound) (page order : ℕ)
    (ho : order < maxOrder) (hpage : 2 ^ order ∣ page) :
    (∀ p ∈ freeTouches s c page order, SameBlock page p) ↔ StaysInside s c page order := by
  have hmerged : merged s page order = mergeTouches maxOrder (.of ⟨order, page⟩) s := by
    rw [merged, Nat.one_shiftLeft, Nat.and_two_pow_sub_one_eq_mod]
    rfl
  obtain ⟨b, hb, hsmall, hhead, htouches⟩ :=
    mergeTouches_mem (s := s) (b := ⟨order, page⟩) ho (Nat.le_add_left _ _)
  have horder := mergeTouches_order page (s := s) ho (Nat.le_add_left maxOrder order)
  rw [show blockOf page order = ⟨order, page⟩ by rw [blockOf, Nat.div_mul_cancel hpage],
    ← hmerged] at horder
  rw [← hmerged] at hb htouches
  rw [hb] at horder
  rw [freeTouches, StaysInside, ← horder, hb, List.cons_append, List.forall_mem_cons,
    List.forall_mem_append]
  refine (and_iff_right rfl).trans (and_congr ?_ ?_)
  · split_ifs with hc
    · exact compoundTouches_iff ho hpage
    · simp [not_or.mp hc]
  · split_ifs with hrefused
    · simp [hrefused]
    · rw [List.forall_mem_append, and_iff_right htouches, List.forall_mem_cons,
        imp_iff_right hrefused]
      exact (and_iff_right hhead).trans (higherTouches_iff hsmall hhead)

/-- Pages that are not free and belong to no compound page. -/
def plain : ℕ → Compound := fun _ => ⟨false, false, 0, 0⟩

def unmarked : State := ⟨fun _ => ⟨0, false, 0⟩, fun _ _ => [], fun _ => 0, fun _ => .movable⟩

/-- The page 1 is free. -/
def oneFree : State :=
  { unmarked with
    page := fun p => ⟨0, p = 1, 0⟩
    freeList := fun o mt => if o = 0 ∧ mt = .movable then [1] else [] }

/-- The page 0 is merged with the page 1. -/
theorem freeOnePage_frame_oneFree : ∃ s', Runs (freeOnePage 0 0 .movable) oneFree () s' ∧
    s'.freeList 1 .movable = [0] ∧ s'.page 5 = oneFree.page 5 := by
  obtain ⟨⟨_, s'⟩, h, hlist⟩ := Option.any_eq_true .. |>.mp
    (by decide +kernel : ((freeOnePage 0 0 .movable).run oneFree).any
      fun r => r.2.freeList 1 .movable = [0])
  exact ⟨s', h, of_decide_eq_true hlist,
    freeOnePage_frame (c := plain) h (by decide) (by decide +kernel)⟩

theorem freeTouches_inside_oneFree : StaysInside oneFree plain 0 0 ∧
    ∀ p ∈ freeTouches oneFree plain 0 0, SameBlock 0 p := by
  have hstays : StaysInside oneFree plain 0 0 :=
    ⟨by decide, fun _ _ h => absurd (h 1 (by decide) (by decide)) (by unfold BuddyFree; decide)⟩
  exact ⟨hstays, (freeTouches_inside_iff oneFree plain 0 0 (by decide) (by decide)).mpr hstays⟩

/-- The buddy of order 10 of the page 0 is the page 1024. -/
theorem not_freeTouches_inside : ¬ ∀ s c page order, order < maxOrder → 2 ^ order ∣ page →
    ∀ p ∈ freeTouches s c page order, SameBlock page p := by
  intro h
  have hinside := h unmarked plain 0 9 (by decide) (by decide) 1024 (by decide +kernel)
  exact absurd hinside (by decide)

end LklPort.PageAlloc
