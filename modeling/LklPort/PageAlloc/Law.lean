import LklPort.PageAlloc.Steps
import Mathlib.Order.CompletePartialOrder
import LklPort.Machine.Basic

/-!
# Taking a block from the lists

`__rmqueue` looks for a block on the lists of the wanted type, then on those of other types, whose
free pages it may move, and at last on the lists of the reserve.
-/

namespace LklPort.PageAlloc

open Program Tiling Multiset

variable {Z : Zone} {s : State} {F A : Multiset Block} {b : Block} {p : ℕ}

/-- The blocks of `A` are those that are not free. -/
def Ready (Z : Zone) (A : Multiset Block) (s : State) : Prop := ∃ F, Inv Z s F A

/-- The first pages of a free block are handed out. If there is none, the state is as before, and
`N` says where there is none. -/
abbrev Taken (Z : Zone) (s : State) (F A : Multiset Block) (order : ℕ) (N : Prop) :
    Option ℕ → State → Prop :=
  Found (fun s' => s' = s ∧ N) fun p s' =>
    Ready Z (⟨order, p⟩ ::ₘ A) s' ∧ ∃ cur, order ≤ cur ∧ ⟨cur, p⟩ ∈ F

variable {order cur : ℕ}

lemma mem_ordersFrom (h : cur ∈ ordersFrom order) : order ≤ cur := by
  rw [ordersFrom, List.mem_range'_1] at h
  exact h.1

/-! ### The wanted type -/

lemma Inv.takeSmallest_runs (h : Inv Z s F A) (hle : order ≤ cur) (mt : MigrateType) :
    Ends (takeSmallest order mt cur) s (Taken Z s F A order (s.freeList cur mt = [])) := by
  refine .read ?_
  split
  next hlist => exact .pure ⟨rfl, hlist⟩
  next page rest hlist =>
    have hF : ⟨cur, page⟩ ∈ F := h.linked.mem_of_mem (hlist ▸ List.mem_cons_self)
    have hdel := h.linked.listDel_runs hF (h.small hF)
    obtain ⟨G, rfl⟩ := exists_cons_of_mem hF
    have htaken : Inv Z (((s.unlink page).setPage page fun p => { p with buddy := false, priv := 0 }
        ).setNrFree cur (· - 1)) G (⟨cur, page⟩ ::ₘ A) := h.take h.linked rfl rfl rfl
    exact .after hdel (.write _ (.write _
      ((htaken.expand_runs hle mt).bind fun _ _ hs => .pure ⟨hs, cur, hle, hF⟩)))

lemma Inv.rmqueueSmallest_runs (h : Inv Z s F A) (order : ℕ) (mt : MigrateType) :
    Ends (rmqueueSmallest order mt) s
      (Taken Z s F A order (∀ cur ∈ ordersFrom order, s.freeList cur mt = [])) :=
  .findSome_same fun _ hcur => h.takeSmallest_runs (mem_ordersFrom hcur) mt

/-! ### Moving free pages -/

/-- The lists of the blocks may change, but not their orders, and nothing else does. -/
structure Moved (Z : Zone) (F : Multiset Block) (s s' : State) : Prop where
  linked : Linked Z s' F
  page : s'.page = s.page
  nrFree : s'.nrFree = s.nrFree

lemma moveBody_loop (hF : Tiled Z (F + A)) {startPage endPage : ℕ} (hstart : startPage ∈ Z.pages)
    (hend : endPage ∈ Z.pages) (mt : MigrateType) (h : Linked Z s F) {fuel : ℕ}
    (hfuel : endPage + 1 - startPage < fuel) :
    Ends (loop (moveBody endPage mt) fuel (startPage, 0)) s fun _ => Moved Z F s := by
  refine .loop (I := fun n x s' => n = endPage + 1 - x.1 ∧ startPage ≤ x.1 ∧ Moved Z F s s')
    (fun n x s' ⟨hn, hx, h⟩ => ?_) ⟨rfl, le_rfl, h, rfl, rfl⟩ hfuel
  refine .ite (fun hxe => .read (.ite (fun hbuddy => ?_) fun _ => .pure ?_)) fun _ => .pure h
  · have hxZ : x.1 ∈ Z.pages := ⟨hstart.1.trans hx, hxe.trans_lt hend.2⟩
    have hb : ⟨(s'.page x.1).priv, x.1⟩ ∈ F :=
      (h.linked.flags ⟨(s'.page x.1).priv, x.1⟩ hxZ).mp ⟨hbuddy, rfl⟩
    have hsmall := hF.small _ (Multiset.mem_add.mpr (.inl hb))
    have hnodup := nodup_of_le (le_add_right F A) hF.tiles.nodup
    have hpos := Nat.two_pow_pos (s'.page x.1).priv
    refine .after (h.linked.listDel_runs hb hsmall) (.after (listAdd_runs hsmall _ mt _) (.pure
      ⟨_, ?_, rfl, ?_, h.linked.move hnodup hb hxZ mt, h.page, h.nrFree⟩)) <;> omega
  · exact ⟨_, by omega, rfl, hx.trans (Nat.le_succ _), h⟩

lemma ldiff_two_pow_sub_one (p k : ℕ) : p.ldiff (2 ^ k - 1) = 2 ^ k * (p / 2 ^ k) := by
  apply Nat.eq_of_testBit_eq
  intro i
  rw [Nat.testBit_ldiff, Nat.testBit_two_pow_sub_one, Nat.testBit_two_pow_mul,
    Nat.testBit_div_two_pow]
  by_cases hi : i < k
  · simp [hi, Nat.not_le_of_gt hi]
  · simp [hi, Nat.le_of_not_lt hi]

section

variable (hF : Tiled Z (F + A)) (h : Linked Z s F) (hp : p ∈ Z.pages)

include hF h hp

lemma moveFreepagesBlock_runs
    (mt : MigrateType) : Ends (moveFreepagesBlock Z p mt) s fun _ => Moved Z F s := by
  have hdiv := Nat.div_add_mod p (2 ^ pageblockOrder)
  rw [moveFreepagesBlock, ldiff_two_pow_sub_one]
  generalize 2 ^ pageblockOrder * (p / 2 ^ pageblockOrder) = startPfn at hdiv ⊢
  obtain ⟨hlo, hhi⟩ := hp
  refine .ite (fun _ => .pure ⟨h, rfl, rfl⟩) fun hend => ?_
  have hstartZ : (if startPfn < Z.startPfn then p else startPfn) ∈ Z.pages := by
    split_ifs with hlt
    · exact ⟨hlo, hhi⟩
    · exact ⟨Nat.le_of_not_lt hlt, by omega⟩
  have hendZ : startPfn + 2 ^ pageblockOrder - 1 ∈ Z.pages := ⟨by omega, Nat.lt_of_not_le hend⟩
  refine .read (.ite (absurd ?_) fun _ => ?_)
  · rw [h.own _ hstartZ, h.own _ hendZ]
  · exact moveBody_loop hF hstartZ hendZ mt h (by split_ifs <;> omega)

/-! ### Other types -/

lemma claimBlock_runs (disabled : Bool) (start mt : MigrateType) (cur : ℕ) :
    Ends (claimBlock Z disabled start mt cur p) s fun _ => Moved Z F s := by
  refine .ite (fun _ => (moveFreepagesBlock_runs hF h hp start).bind fun n s1 hm => ?_)
    fun _ => .pure ⟨h, rfl, rfl⟩
  refine .bind (.ite (fun _ => ⟨(), _, .write _ s1, ?_⟩) fun _ => .pure hm) fun _ _ => .pure
  exact ⟨⟨hm.linked.lists, hm.linked.flags, hm.linked.own, hm.linked.other⟩, hm.page, hm.nrFree⟩

end

/-- Only the types of pageblocks change. -/
structure SameLists (s s' : State) : Prop where
  page : s'.page = s.page
  freeList : s'.freeList = s.freeList
  nrFree : s'.nrFree = s.nrFree

lemma changePageblockRange_runs (Z : Zone) (disabled : Bool) (mt : MigrateType) (nr p : ℕ)
    (s : State) : Ends (changePageblockRange Z disabled mt nr p) s fun _ => SameLists s := by
  induction nr generalizing p s with
  | zero => exact .pure ⟨rfl, rfl, rfl⟩
  | succ _ ih =>
    obtain ⟨_, s', hrun, hsame⟩ := ih (p + 2 ^ pageblockOrder) _
    exact .write _ ⟨(), s', hrun, hsame.page, hsame.freeList, hsame.nrFree⟩

lemma takeOwnership_runs (Z : Zone) (disabled : Bool) (mt : MigrateType) (cur p : ℕ) (s : State) :
    Ends (takeOwnership Z disabled mt cur p) s fun _ => SameLists s :=
  .ite (fun _ => changePageblockRange_runs Z disabled mt _ p s) fun _ => .pure ⟨rfl, rfl, rfl⟩

lemma Inv.takeFallback_runs (h : Inv Z s F A) (hle : order ≤ cur) (disabled : Bool)
    (start mt : MigrateType) : Ends (takeFallback Z disabled order start cur mt) s
      (Taken Z s F A order (mt = .reserve ∨ s.freeList cur mt = [])) := by
  refine .ite (fun hmt => .pure ⟨rfl, .inl hmt⟩) fun _ => .read ?_
  split
  next hlist => exact .pure ⟨rfl, .inr hlist⟩
  next page rest hlist =>
    have hF : ⟨cur, page⟩ ∈ F := h.linked.mem_of_mem (hlist ▸ List.mem_cons_self)
    -- the counter is changed before the free pages are moved, and the list after that
    have hdec : Linked Z (s.setNrFree cur (· - 1)) F :=
      ⟨h.linked.lists, h.linked.flags, h.linked.own, h.linked.other⟩
    refine .write _ ((claimBlock_runs h.tiled hdec (h.head_mem hF) disabled start mt cur).bind
      fun mt' s1 hm => .after (hm.linked.listDel_runs hF (h.small hF)) (.write _
        ((takeOwnership_runs Z disabled start cur page _).bind fun _ s2 hsame => ?_)))
    obtain ⟨G, rfl⟩ := exists_cons_of_mem hF
    have htaken : Inv Z s2 G (⟨cur, page⟩ ::ₘ A) :=
      h.take hm.linked hsame.freeList hsame.page (hsame.nrFree.trans hm.nrFree)
    exact (htaken.expand_runs hle mt').bind fun _ _ hs => .pure ⟨hs, cur, hle, hF⟩

lemma Inv.rmqueueFallback_runs (h : Inv Z s F A) (disabled : Bool) (order : ℕ)
    (start : MigrateType) : Ends (rmqueueFallback Z disabled order start) s
      (Taken Z s F A order (∀ cur ∈ (ordersFrom order).reverse, ∀ mt ∈ fallbacks start,
        mt = .reserve ∨ s.freeList cur mt = [])) :=
  .findSome_same fun _ hcur => .findSome_same fun mt _ =>
    h.takeFallback_runs (mem_ordersFrom (List.mem_reverse.mp hcur)) disabled start mt

/-- All types but the isolated one are tried, unless the reserve is asked for. -/
lemma tried_of_ne {mt mt' : MigrateType} (hmt : mt ≠ .reserve ∧ mt ≠ .isolate)
    (hmt' : mt' ≠ .isolate) : mt' = mt ∨ mt' = .reserve ∨ mt' ∈ fallbacks mt := by
  revert hmt hmt'
  cases mt <;> cases mt' <;> decide

lemma Inv.rmqueue_runs (h : Inv Z s F A) (disabled : Bool) (order : ℕ) (mt : MigrateType) :
    Ends (rmqueue Z disabled order mt) s (Taken Z s F A order (mt ≠ .reserve ∧ mt ≠ .isolate →
      ∀ cur ∈ ordersFrom order, ∀ mt' ≠ .isolate, s.freeList cur mt' = [])) := by
  refine (h.rmqueueSmallest_runs order mt).bind fun r s1 hr => ?_
  cases r with
  | some => exact .pure hr
  | none =>
    obtain ⟨rfl, hsmallest⟩ := hr
    refine .ite (fun hmt => .pure ⟨rfl, fun hne => absurd hmt hne.1⟩) fun _ =>
      (h.rmqueueFallback_runs disabled order mt).bind fun r' s2 hr' => ?_
    cases r' with
    | some => exact .pure hr'
    | none =>
      obtain ⟨rfl, hfallback⟩ := hr'
      refine (h.rmqueueSmallest_runs order .reserve).mono fun r s3 hr => ?_
      cases r with
      | some => exact hr
      | none =>
        refine ⟨hr.1, fun hmt cur hcur mt' hmt' => ?_⟩
        rcases tried_of_ne hmt hmt' with rfl | rfl | hmem
        · exact hsmallest cur hcur
        · exact hr.2 cur hcur
        · rcases hfallback cur (List.mem_reverse.mpr hcur) mt' hmem with rfl | hempty
          · exact hr.2 cur hcur
          · exact hempty

/-!
## The law of the buddy allocator

Calls of `__rmqueue` and `__free_one_page` are the actions of a machine, together with what may
happen between them to pages that are not free. A run keeps the blocks that are not free beside the
state.
-/

/-- A zone before its pages are freed for the first time. All of them belong to blocks that are
owned by someone. -/
structure Boot (Z : Zone) where
  page : ℕ → Page
  pageblock : ℕ → MigrateType
  owned : List Block
  tiles : Tiles (owned : Multiset Block) Z.pages
  aligned : ∀ b ∈ owned, b.Aligned
  small : ∀ b ∈ owned, b.order < maxOrder
  own : ∀ p ∈ Z.pages, (page p).zoneId = Z.id ∧ (page p).buddy = false
  other : ∀ p ∉ Z.pages, Z.mapStart ≤ p → p < Z.mapEnd →
    (page p).zoneId ≠ Z.id ∨ (page p).buddy = false

inductive Action where
  /-- `__rmqueue`, where `disabled` is `page_group_by_mobility_disabled`. -/
  | rmqueue (disabled : Bool) (order : ℕ) (mt : MigrateType)
  /-- `__free_one_page` of a block. -/
  | free (b : Block) (mt : MigrateType)
  /-- The owner of a block writes to `page->private`. -/
  | setPrivate (page priv : ℕ)
  /-- A page that is not in the zone changes. -/
  | other (page : ℕ) (value : Page)

/-- The allocator, and the blocks that are not free. -/
abbrev Run := State × List Block

/-- Only blocks that have been handed out, or were owned at first, are freed. -/
def Allowed (Z : Zone) (r : Run) : Action → Prop
  | .rmqueue _ _ _ => True
  | .free b _ => b ∈ r.2
  | .setPrivate page _ => ∃ b ∈ r.2, b.Covers page
  | .other page value => ¬ (Z.startPfn ≤ page ∧ page < Z.startPfn + Z.spannedPages) ∧
    (Z.mapStart ≤ page → page < Z.mapEnd → value.zoneId ≠ Z.id ∨ value.buddy = false)

/-- The page that a call returns, if any, and the state after it. -/
def Action.program (Z : Zone) : Action → Program State (Option ℕ)
  | .rmqueue disabled order mt => PageAlloc.rmqueue Z disabled order mt
  | .free b mt => do
    freeOnePage b.head b.order mt
    return none
  | .setPrivate page priv => do
    write fun s => s.setPage page fun p => { p with priv := priv }
    return none
  | .other page value => do
    write fun s => s.setPage page fun _ => value
    return none

/-- The blocks that are not free after a call that has returned `r`. -/
def note (owned : List Block) : Action → Option ℕ → List Block
  | .rmqueue _ order _, some page => ⟨order, page⟩ :: owned
  | .free b _, _ => owned.erase b
  | _, _ => owned

def zoneMachine (Z : Zone) (B : Boot Z) : Machine Run Action where
  init := (⟨B.page, fun _ _ => [], fun _ => 0, B.pageblock⟩, B.owned)
  guard := Allowed Z
  next r a :=
    match (a.program Z).run r.1 with
    | some (page, s) => (s, note r.2 a page)
    | none => r

instance (Z : Zone) (B : Boot Z) (r : Run) (a : Action) :
    Decidable ((zoneMachine Z B).guard r a) := by
  cases a <;> dsimp only [zoneMachine, Allowed] <;> infer_instance

/-! ### What a call preserves -/

variable {B : Boot Z}

lemma Inv.not_covers (h : Inv Z s F A) {c : Block} (hb : b ∈ F) (hc : c ∈ A) {p : ℕ}
    (hp : c.Covers p) : ¬ b.Covers p := by
  intro hbp
  obtain ⟨G, rfl⟩ := exists_cons_of_mem hb
  have ht := h.tiled.tiles
  rw [cons_add] at ht
  exact ht.not_covers (Multiset.mem_add.mpr (.inr hc)) hbp hp

lemma Ready.setPrivate (h : Ready Z A s) {page : ℕ} (hpage : ∃ b ∈ A, b.Covers page) (priv : ℕ) :
    Ready Z A (s.setPage page fun p => { p with priv := priv }) := by
  obtain ⟨F, h⟩ := h
  obtain ⟨c, hcA, hc⟩ := hpage
  have hfree : ∀ o, ⟨o, page⟩ ∉ F :=
    fun o hb => h.not_covers hb hcA hc (Block.covers_head ⟨o, page⟩)
  refine ⟨F, h.linked.setPage rfl h.linked.lists (fun _ _ => .rfl) (fun hZ => ⟨h.linked.own _ hZ,
    fun o => ?_⟩) (h.linked.other page), h.counted, h.tiled, h.apart⟩
  have hbuddy : (s.page page).buddy ≠ true :=
    fun hbuddy => hfree _ ((h.linked.flags ⟨(s.page page).priv, page⟩ hZ).mp ⟨hbuddy, rfl⟩)
  simp [hbuddy, hfree]

lemma Ready.setOther (h : Ready Z A s) {page : ℕ} {value : Page} (hpage : page ∉ Z.pages)
    (hvalue : Z.mapStart ≤ page → page < Z.mapEnd → value.zoneId ≠ Z.id ∨ value.buddy = false) :
    Ready Z A (s.setPage page fun _ => value) := by
  obtain ⟨F, h⟩ := h
  exact ⟨F, h.linked.setPage rfl h.linked.lists (fun _ _ => .rfl) (absurd · hpage) fun _ => hvalue,
    h.counted, h.tiled, h.apart⟩

lemma Ready.program_runs {owned : List Block} (h : Ready Z owned s) : ∀ {a : Action},
    Allowed Z (s, owned) a → Ends (a.program Z) s fun r => Ready Z (note owned a r)
  | .rmqueue disabled order mt, _ => by
    obtain ⟨F, h⟩ := h
    refine (h.rmqueue_runs disabled order mt).mono fun r s' hr => ?_
    cases r with
    | none => exact ⟨F, hr.1 ▸ h⟩
    | some => exact hr.1
  | .free b mt, ha => by
    obtain ⟨F, h⟩ := h
    have hA : (owned : Multiset Block) = b ::ₘ ((owned.erase b : List Block) : Multiset Block) := by
      rw [cons_coe, coe_eq_coe]
      exact List.perm_cons_erase ha
    rw [hA] at h
    exact (h.freeOnePage_runs mt).bind fun _ _ hs => .pure hs
  | .setPrivate page priv, ha => .write _ (.pure (h.setPrivate ha priv))
  | .other page value, ha => .write _ (.pure (h.setOther ha.1 ha.2))

lemma ready_init (B : Boot Z) :
    Ready Z B.owned ⟨B.page, fun _ _ => [], fun _ => 0, B.pageblock⟩ := by
  refine ⟨0, ⟨fun b => by simp, fun b hb => ?_, fun p hp => (B.own p hp).1, B.other⟩, fun o => ?_,
    ?_, fun b hb => absurd hb (notMem_zero b)⟩
  · simp [(B.own _ hb).2]
  · simp
  · exact ⟨B.tiles, B.aligned, B.small⟩

lemma Ready.reachable {r : Run} (h : (zoneMachine Z B).Reachable r) : Ready Z r.2 r.1 := by
  refine h.invariant (I := fun r => Ready Z r.2 r.1) (ready_init B) fun r a hr ha => ?_
  obtain ⟨p, s', hrun, hready⟩ := hr.program_runs ha
  have hnext : (zoneMachine Z B).next r a = (s', note r.2 a p) := by
    simp only [zoneMachine]
    rw [show (a.program Z).run r.1 = some (p, s') from hrun]
  rwa [hnext]

/-! ### The law -/

/-- The blocks on the free lists. -/
def State.freeBlocks (s : State) : Multiset Block :=
  ∑ o ∈ Finset.range maxOrder, ∑ mt, (s.freeList o mt : Multiset ℕ).map (Block.mk o)

/-- The pages of a block. -/
def blockPages (b : Block) : Set ℕ := Set.Ico b.head (b.head + 2 ^ b.order)

/-- The free blocks and those that are not free, of a reachable state. -/
structure BuddyLaw (Z : Zone) (s : State) (owned : List Block) : Prop where
  /-- The blocks on the lists are aligned and in the zone. -/
  aligned : ∀ o mt, ∀ p ∈ s.freeList o mt, o < maxOrder ∧ 2 ^ o ∣ p ∧ blockPages ⟨o, p⟩ ⊆ Z.pages
  /-- No block is on the lists twice, and two blocks have no page in common. -/
  nodup : s.freeBlocks.Nodup
  disjoint : ∀ b ∈ s.freeBlocks, ∀ c ∈ s.freeBlocks, b ≠ c → Disjoint (blockPages b) (blockPages c)
  flags : ∀ p ∈ Z.pages, ∀ o,
    (s.page p).buddy = true ∧ (s.page p).priv = o ↔ ∃ mt, p ∈ s.freeList o mt
  nrFree : ∀ o < maxOrder, s.nrFree o = ∑ mt, (s.freeList o mt).length
  /-- Each page of the zone is in one free block or in one that is not free. -/
  partition : Tiles (s.freeBlocks + owned) Z.pages
  buddies : ∀ o, o + 1 < maxOrder → ∀ mt mt', ∀ p ∈ s.freeList o mt, p ^^^ 2 ^ o ∉ s.freeList o mt'
  /-- The next call runs to its end: no `BUG`, and no page taken off a list it is not on. -/
  runs : ∀ a, Allowed Z (s, owned) a → ∃ r s', Runs (a.program Z) s r s'

lemma Inv.freeBlocks_eq (h : Inv Z s F A) : s.freeBlocks = F := by
  ext b
  rw [State.freeBlocks, count_sum']
  have hcount : ∀ o mt, ((s.freeList o mt : Multiset ℕ).map (Block.mk o)).count b =
      if o = b.order then (s.freeList b.order mt).count b.head else 0 := by
    intro o mt
    split_ifs with ho
    · subst ho
      have hinj : Function.Injective (Block.mk b.order) := fun p q => congrArg Block.head
      exact (count_map_eq_count' _ _ hinj b.head).trans (coe_count _ _)
    · rw [count_eq_zero, mem_map]
      rintro ⟨p, -, rfl⟩
      exact ho rfl
  simp only [count_sum', hcount]
  rw [Finset.sum_comm]
  simp only [Finset.sum_ite_eq']
  split_ifs with ho
  · exact h.linked.lists b
  · rw [Finset.sum_const_zero]
    rw [eq_comm, count_eq_zero]
    intro hb
    exact ho (Finset.mem_range.mpr (h.small hb))

lemma blockPages_eq (hb : b.Aligned) : blockPages b = {p | b.Covers p} := by
  ext p
  exact hb.covers_iff.symm

lemma Ready.law {owned : List Block} (h : Ready Z owned s) : BuddyLaw Z s owned := by
  have hready := h
  obtain ⟨F, h⟩ := h
  have hF := h.freeBlocks_eq
  have haligned : ∀ b ∈ F, b.Aligned :=
    fun b hb => h.tiled.aligned b (Multiset.mem_add.mpr (.inl hb))
  refine ⟨?_, ?_, ?_, ?_, ?_, ?_, ?_, ?_⟩
  · intro o mt p hp
    have hb := h.linked.mem_of_mem hp
    refine ⟨h.small hb, haligned _ hb, ?_⟩
    rw [blockPages_eq (haligned _ hb)]
    exact fun q => h.tiled.tiles.mem_of_covers (Multiset.mem_add.mpr (.inl hb))
  · rw [hF]
    exact h.nodup
  · rw [hF]
    intro b hb c hc hne
    rw [blockPages_eq (haligned b hb), blockPages_eq (haligned c hc), Set.disjoint_left]
    intro p hbp hcp
    exact hne (h.tiled.tiles.eq_of_covers (Multiset.mem_add.mpr (.inl hb))
      (Multiset.mem_add.mpr (.inl hc)) hbp hcp)
  · intro p hp o
    rw [h.linked.flags ⟨o, p⟩ hp]
    exact ⟨h.linked.exists_mem, fun ⟨mt, hmt⟩ => h.linked.mem_of_mem hmt⟩
  · intro o _
    rw [h.counted o, h.linked.sum_length]
  · rw [hF]
    exact h.tiled.tiles
  · intro o ho mt mt' p hp hp'
    exact h.apart ⟨o, p⟩ (h.linked.mem_of_mem hp) ho (h.linked.mem_of_mem hp')
  · intro a ha
    obtain ⟨r, s', hrun, -⟩ := hready.program_runs ha
    exact ⟨r, s', hrun⟩

/-- After any sequence of calls. -/
theorem buddy_law (Z : Zone) (B : Boot Z) {r : Run} (h : (zoneMachine Z B).Reachable r) :
    BuddyLaw Z r.1 r.2 := (Ready.reachable h).law

/-! ### A block is found if there is one -/

def State.FreePage (s : State) (q : ℕ) : Prop := ∃ b ∈ s.freeBlocks, q ∈ blockPages b

/-- What `__rmqueue` returns. A block is part of a free one, and its pages are the only ones that
are no longer free. -/
def RmqueueLaw (s : State) (order : ℕ) (mt : MigrateType) : Option ℕ → State → Prop :=
  Found (fun s' => s' = s ∧ (mt ≠ .reserve → ∀ b ∈ s.freeBlocks, b.order < order)) fun p s' =>
    (∃ b ∈ s.freeBlocks, blockPages ⟨order, p⟩ ⊆ blockPages b) ∧
      ∀ q, s'.FreePage q ↔ s.FreePage q ∧ q ∉ blockPages ⟨order, p⟩

lemma Inv.freePage_iff (h : Inv Z s F A) {q : ℕ} :
    s.FreePage q ↔ q ∈ Z.pages ∧ ∀ c ∈ A, q ∉ blockPages c := by
  have hpages : ∀ b ∈ F + A, q ∈ blockPages b ↔ b.Covers q :=
    fun b hb => (h.tiled.aligned b hb).covers_iff.symm
  have hF : ∀ {b}, b ∈ F → b ∈ F + A := fun hb => Multiset.mem_add.mpr (.inl hb)
  have hA : ∀ {b}, b ∈ A → b ∈ F + A := fun hb => Multiset.mem_add.mpr (.inr hb)
  rw [State.FreePage, h.freeBlocks_eq]
  constructor
  · rintro ⟨b, hb, hq⟩
    rw [hpages b (hF hb)] at hq
    refine ⟨h.tiled.tiles.mem_of_covers (hF hb) hq, fun c hc hqc => ?_⟩
    exact h.not_covers hb hc ((hpages c (hA hc)).mp hqc) hq
  · rintro ⟨hq, hnot⟩
    have hone := h.tiled.tiles.one q hq
    obtain ⟨b, hb, hbq⟩ := Multiset.countP_pos.mp (hone ▸ Nat.one_pos)
    rw [← hpages b hb] at hbq
    rcases Multiset.mem_add.mp hb with hb | hb
    · exact ⟨b, hb, hbq⟩
    · exact absurd hbq (hnot b hb)

/-- Whatever the block is taken from, and if there is one for all types but the reserve. -/
theorem rmqueue_complete (h : Ready Z A s) (hisolate : ∀ o, s.freeList o .isolate = [])
    (disabled : Bool) (order : ℕ) {mt : MigrateType} (hmt : mt ≠ .isolate) :
    Ends (rmqueue Z disabled order mt) s (RmqueueLaw s order mt) := by
  obtain ⟨F, h⟩ := h
  refine (h.rmqueue_runs disabled order mt).mono fun r s' hr => ?_
  cases r with
  | none =>
    refine ⟨hr.1, fun hne b hb => ?_⟩
    rw [h.freeBlocks_eq] at hb
    obtain ⟨mt', hmem⟩ := h.linked.exists_mem hb
    by_contra hle
    have horder : b.order ∈ ordersFrom order := by
      rw [ordersFrom, List.mem_range'_1]
      have := h.small hb
      omega
    have hempty : s.freeList b.order mt' = [] := by
      by_cases hmt' : mt' = .isolate
      · rw [hmt', hisolate]
      · exact hr.2 ⟨hne, hmt⟩ b.order horder mt' hmt'
    rw [hempty] at hmem
    exact List.not_mem_nil hmem
  | some p =>
    obtain ⟨⟨F', h'⟩, cur, hle, hb⟩ := hr
    refine ⟨⟨⟨cur, p⟩, h.freeBlocks_eq ▸ hb, ?_⟩, fun q => ?_⟩
    · exact Set.Ico_subset_Ico_right (Nat.add_le_add_left (Nat.pow_le_pow_right Nat.two_pos hle) p)
    · rw [h.freePage_iff, h'.freePage_iff, forall_mem_cons, and_assoc, and_comm (a := q ∉ _)]

/-- Four pages, which are one block at first. -/
def sampleZone : Zone where
  id := 0
  startPfn := 0
  spannedPages := 4
  mapStart := 0
  mapEnd := 2 ^ (maxOrder - 1)
  mapStart_le := le_rfl
  le_mapEnd := by decide
  dvd_mapStart := ⟨0, rfl⟩
  dvd_mapEnd := ⟨1, rfl⟩

def sampleBoot : Boot sampleZone where
  page _ := ⟨0, false, 0⟩
  pageblock _ := .movable
  owned := [⟨2, 0⟩]
  tiles := by
    have hcovers : ∀ p, (Block.mk 2 0).Covers p ↔ p ∈ sampleZone.pages := by
      intro p
      change p / 4 = 0 ↔ 0 ≤ p ∧ p < 0 + 4
      omega
    refine ⟨fun p hp => ?_, fun p hp => ?_⟩
    · rw [Multiset.coe_countP, List.countP_singleton, if_pos (decide_eq_true ((hcovers p).mpr hp))]
    · have hnot : ¬ decide ((Block.mk 2 0).Covers p) = true := by simp [hcovers, hp]
      rw [Multiset.coe_countP, List.countP_singleton, if_neg hnot]
  aligned := by decide
  small := by decide
  own _ _ := ⟨rfl, rfl⟩
  other _ _ _ _ := .inr rfl

/-- The block is freed, two blocks are taken from it, and one of them is freed again. -/
def sampleRun : List Action :=
  [.free ⟨2, 0⟩ .movable, .rmqueue false 0 .movable, .rmqueue false 1 .unmovable,
    .setPrivate 0 7, .free ⟨0, 0⟩ .movable]

def sampleEnd : Run := (zoneMachine sampleZone sampleBoot).runFrom
  (zoneMachine sampleZone sampleBoot).init sampleRun

lemma sampleEnd_reachable : (zoneMachine sampleZone sampleBoot).Reachable sampleEnd :=
  Machine.reachable_of_admits sampleRun (by decide +kernel)

theorem buddy_law_sampleRun : BuddyLaw sampleZone ((zoneMachine sampleZone sampleBoot).runFrom
      (zoneMachine sampleZone sampleBoot).init sampleRun).1 [⟨1, 2⟩] := by
  have howned : sampleEnd.2 = [⟨1, 2⟩] := by decide +kernel
  have hlaw := buddy_law sampleZone sampleBoot sampleEnd_reachable
  rwa [howned] at hlaw

/-- There is a free block of two pages, but none of four. -/
theorem rmqueue_complete_sampleRun : Ends (rmqueue sampleZone false 1 .reclaimable) sampleEnd.1
      (RmqueueLaw sampleEnd.1 1 .reclaimable) ∧
    Ends (rmqueue sampleZone false 2 .movable) sampleEnd.1 (RmqueueLaw sampleEnd.1 2 .movable) := by
  have hready := Ready.reachable sampleEnd_reachable
  have hisolate : ∀ o, sampleEnd.1.freeList o .isolate = [] := by
    refine fun o => List.eq_nil_iff_forall_not_mem.mpr fun p hp => ?_
    have hsmall : ∀ o < maxOrder, sampleEnd.1.freeList o .isolate = [] := by decide +kernel
    rw [hsmall o (hready.law.aligned o .isolate p hp).1] at hp
    exact List.not_mem_nil hp
  exact ⟨rmqueue_complete hready hisolate false 1 (by decide),
    rmqueue_complete hready hisolate false 2 (by decide)⟩

end LklPort.PageAlloc
