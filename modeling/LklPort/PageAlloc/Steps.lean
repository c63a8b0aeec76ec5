import Mathlib.Algebra.Order.BigOperators.Group.Finset
import Mathlib.Data.Fintype.BigOperators
import LklPort.PageAlloc.Basic
import LklPort.Tiling.Basic

/-!
# Free blocks on the lists

`Linked Z s F` says that the blocks of `F` are those on the free lists and that the pages of the
zone are marked accordingly, and `Counted s F` that the counters fit. Taking a block off its list
and adding one are described by what becomes of the parts of the state, whatever the order in which
a function changes them.
-/

namespace LklPort.PageAlloc

open Program Tiling Function Multiset

/-- The pages of a zone. -/
def Zone.pages (Z : Zone) : Set ℕ := {p | Z.startPfn ≤ p ∧ p < Z.startPfn + Z.spannedPages}

/-- The blocks on the lists are those of `F`, and the flags of the pages say so. A page of the
`mem_map` that is not in the zone does not look like a free page of the zone. -/
structure Linked (Z : Zone) (s : State) (F : Multiset Block) : Prop where
  lists : ∀ b : Block, ∑ mt, (s.freeList b.order mt).count b.head = F.count b
  flags : ∀ b : Block, b.head ∈ Z.pages →
    ((s.page b.head).buddy = true ∧ (s.page b.head).priv = b.order ↔ b ∈ F)
  own : ∀ p ∈ Z.pages, (s.page p).zoneId = Z.id
  other : ∀ p ∉ Z.pages, Z.mapStart ≤ p → p < Z.mapEnd →
    (s.page p).zoneId ≠ Z.id ∨ (s.page p).buddy = false

/-- The counters of the free areas. -/
def Counted (s : State) (F : Multiset Block) : Prop :=
  ∀ o, s.nrFree o = F.countP fun b => b.order = o

variable {Z : Zone} {s s' : State} {F : Multiset Block} {b : Block} {p o : ℕ} {mt : MigrateType}

/-! ### Lists -/

lemma sum_types (f : MigrateType → ℕ) :
    ∑ mt, f mt = f .unmovable + f .reclaimable + f .movable + f .reserve + f .isolate := by
  change ∑ mt ∈ {.unmovable, .reclaimable, .movable, .reserve, .isolate}, f mt = _
  simp [add_assoc]

lemma sum_update (g : MigrateType → List ℕ) (l : List ℕ) (q : ℕ) {k : ℕ}
    (hl : l.count q = (g mt).count q + k) :
    ∑ m, (update g mt l m).count q = ∑ m, (g m).count q + k := by
  simp only [sum_types]
  cases mt <;> simp [hl] <;> omega

lemma count_le_sum (g : MigrateType → List ℕ) (mt : MigrateType) (q : ℕ) :
    (g mt).count q ≤ ∑ m, (g m).count q :=
  Finset.single_le_sum (f := fun m => (g m).count q) (fun _ _ => Nat.zero_le _) (Finset.mem_univ mt)

lemma Linked.mem_of_mem (h : Linked Z s F) (hp : p ∈ s.freeList o mt) : ⟨o, p⟩ ∈ F := by
  rw [← count_pos, ← h.lists ⟨o, p⟩]
  exact lt_of_lt_of_le (List.count_pos_iff.mpr hp) (count_le_sum (s.freeList o) mt p)

lemma Linked.exists_mem (h : Linked Z s F) (hb : b ∈ F) : ∃ mt, b.head ∈ s.freeList b.order mt := by
  rw [← count_pos, ← h.lists b] at hb
  obtain ⟨mt, -, hmt⟩ := Finset.exists_ne_zero_of_sum_ne_zero hb.ne'
  exact ⟨mt, List.count_pos_iff.mp (pos_of_ne_zero hmt)⟩

lemma Linked.eq_of_head (h : Linked Z s F) {c : Block} (hb : b ∈ F) (hp : b.head ∈ Z.pages)
    (hc : c ∈ F) (hhead : c.head = b.head) : c = b := by
  have horder := ((h.flags b hp).mpr hb).2
  rw [← hhead] at hp horder
  obtain ⟨o, p⟩ := c
  obtain ⟨o', p'⟩ := b
  cases hhead
  have horder' : o = o' := ((h.flags _ hp).mpr hc).2.symm.trans horder
  rw [horder']

lemma Linked.count_unlink (h : Linked Z s (b ::ₘ F)) (hF : (b ::ₘ F).Nodup)
    (hp : b.head ∈ Z.pages) (c : Block) :
    ∑ mt, ((s.unlink b.head).freeList c.order mt).count c.head = F.count c := by
  have hmem : b ∈ b ::ₘ F := mem_cons_self b F
  by_cases hhead : c.head = b.head
  · have hzero : ∀ mt, ((s.unlink b.head).freeList c.order mt).count c.head = 0 := by
      intro mt
      have hle := count_le_sum (s.freeList c.order) mt c.head
      rw [h.lists c] at hle
      have hone := nodup_iff_count_le_one.mp hF c
      rw [State.unlink, ← hhead, List.count_erase_self]
      omega
    rw [Finset.sum_eq_zero fun mt _ => hzero mt, eq_comm, count_eq_zero]
    intro hc
    rw [h.eq_of_head hmem hp (mem_cons_of_mem hc) hhead] at hc
    exact (nodup_cons.mp hF).1 hc
  · have hne : c ≠ b := fun heq => hhead (heq ▸ rfl)
    rw [← count_cons_of_ne hne, ← h.lists c]
    simp only [State.unlink, List.count_erase_of_ne hhead]

lemma count_setList (h : ∀ c : Block, ∑ mt, (s.freeList c.order mt).count c.head = F.count c)
    {f : List ℕ → List ℕ} (hf : ∀ l, (f l).Perm (b.head :: l)) (mt : MigrateType) (c : Block) :
    ∑ m, ((s.setList b.order mt f).freeList c.order m).count c.head = (b ::ₘ F).count c := by
  rw [count_cons, ← h c]
  by_cases horder : c.order = b.order
  · simp only [horder, State.setList, update_self]
    apply sum_update (s.freeList b.order) _ _
    rw [(hf _).count_eq, List.count_cons]
    obtain ⟨o, p⟩ := c
    obtain ⟨o', p'⟩ := b
    cases horder
    simp [eq_comm (a := p')]
  · have hne : c ≠ b := fun heq => horder (heq ▸ rfl)
    simp only [State.setList, update_of_ne horder, if_neg hne, add_zero]

/-! ### Taking and adding a block -/

/-- One page and the lists change. Blocks with another head are not concerned. -/
lemma Linked.setPage {G : Multiset Block} (h : Linked Z s F) {f : Page → Page}
    (hpage : s'.page = (s.setPage p f).page)
    (hlists : ∀ c : Block, ∑ mt, (s'.freeList c.order mt).count c.head = G.count c)
    (hrest : ∀ c : Block, c.head ≠ p → (c ∈ G ↔ c ∈ F))
    (hown : p ∈ Z.pages → (f (s.page p)).zoneId = Z.id ∧
      ∀ o, (f (s.page p)).buddy = true ∧ (f (s.page p)).priv = o ↔ ⟨o, p⟩ ∈ G)
    (hother : p ∉ Z.pages → Z.mapStart ≤ p → p < Z.mapEnd →
      (f (s.page p)).zoneId ≠ Z.id ∨ (f (s.page p)).buddy = false) : Linked Z s' G := by
  have hself : s'.page p = f (s.page p) := hpage ▸ update_self ..
  have hne : ∀ q ≠ p, s'.page q = s.page q := fun q hq => hpage ▸ update_of_ne hq ..
  refine ⟨hlists, fun c hc => ?_, fun q hq => ?_, fun q hq hlo hhi => ?_⟩
  · by_cases hhead : c.head = p
    · subst hhead
      rw [hself]
      exact (hown hc).2 c.order
    · rw [hne _ hhead, hrest c hhead]
      exact h.flags c hc
  · by_cases hqp : q = p
    · subst hqp
      rw [hself]
      exact (hown hq).1
    · rw [hne q hqp]
      exact h.own q hq
  · by_cases hqp : q = p
    · subst hqp
      rw [hself]
      exact hother hq hlo hhi
    · rw [hne q hqp]
      exact h.other q hq hlo hhi

lemma Linked.remove (h : Linked Z s (b ::ₘ F)) (hF : (b ::ₘ F).Nodup) (hp : b.head ∈ Z.pages)
    (hlist : s'.freeList = (s.unlink b.head).freeList)
    (hpage : s'.page = (s.setPage b.head fun p => { p with buddy := false, priv := 0 }).page) :
    Linked Z s' F := by
  refine h.setPage hpage (hlist ▸ h.count_unlink hF hp) (fun c hc => ?_)
    (fun _ => ⟨h.own _ hp, fun o => ?_⟩) (absurd hp)
  · rw [mem_cons, or_iff_right fun heq : c = b => hc (heq ▸ rfl)]
  · have hnot : ⟨o, b.head⟩ ∉ F := by
      intro hmem
      have heq := h.eq_of_head (mem_cons_self b F) hp (mem_cons_of_mem hmem) rfl
      exact (nodup_cons.mp hF).1 (heq ▸ hmem)
    simp [hnot]

lemma Linked.add (h : Linked Z s F) (hp : b.head ∈ Z.pages) (hF : ∀ c ∈ F, c.head ≠ b.head)
    {f : List ℕ → List ℕ} (hf : ∀ l, (f l).Perm (b.head :: l)) (mt : MigrateType)
    (hlist : s'.freeList = (s.setList b.order mt f).freeList)
    (hpage : s'.page = (s.setPage b.head fun p => { p with priv := b.order, buddy := true }).page) :
    Linked Z s' (b ::ₘ F) := by
  refine h.setPage hpage (hlist ▸ count_setList h.lists hf mt) (fun c hc => ?_)
    (fun _ => ⟨h.own _ hp, fun o => ?_⟩) (absurd hp)
  · rw [mem_cons, or_iff_right fun heq : c = b => hc (heq ▸ rfl)]
  · have hnot : ⟨o, b.head⟩ ∉ F := fun hmem => hF _ hmem rfl
    rw [mem_cons, or_iff_left hnot]
    obtain ⟨o', q⟩ := b
    simp [eq_comm]

lemma Linked.move (h : Linked Z s F) (hF : F.Nodup) (hb : b ∈ F) (hp : b.head ∈ Z.pages)
    (mt : MigrateType) : Linked Z ((s.unlink b.head).setList b.order mt (b.head :: ·)) F where
  lists c := by
    obtain ⟨G, rfl⟩ := exists_cons_of_mem hb
    exact count_setList (h.count_unlink hF hp) (fun l => .refl _) mt c
  flags := h.flags
  own := h.own
  other := h.other

lemma Counted.remove (h : Counted s (b ::ₘ F))
    (hnr : s'.nrFree = (s.setNrFree b.order (· - 1)).nrFree) : Counted s' F := by
  intro o
  have ho := h o
  rw [countP_cons] at ho
  rw [hnr, State.setNrFree]
  by_cases hb : b.order = o
  · subst hb
    simp [ho]
  · rw [if_neg hb] at ho
    simp [update_of_ne (Ne.symm hb), ho]

lemma Counted.add (h : Counted s F) (hnr : s'.nrFree = (s.setNrFree b.order (· + 1)).nrFree) :
    Counted s' (b ::ₘ F) := by
  intro o
  rw [hnr, State.setNrFree, countP_cons, ← h o]
  by_cases hb : b.order = o
  · subst hb
    simp
  · simp [update_of_ne (Ne.symm hb), hb]

lemma Linked.sum_length (h : Linked Z s F) (o : ℕ) :
    ∑ mt, (s.freeList o mt).length = F.countP fun b => b.order = o := by
  have hheads : ∑ mt, (s.freeList o mt : Multiset ℕ) =
      (F.filter fun b => b.order = o).map Block.head := by
    ext p
    rw [count_sum', count_map, filter_filter]
    simp only [coe_count]
    rw [h.lists ⟨o, p⟩, Multiset.count, Multiset.countP_eq_card_filter]
    congr 1
    refine filter_congr fun b _ => ?_
    obtain ⟨o', p'⟩ := b
    simp [and_comm, eq_comm]
  have hcard := congrArg Multiset.card hheads
  rw [card_sum, card_map, ← Multiset.countP_eq_card_filter] at hcard
  simpa using hcard

/-!
## Taking, giving, splitting and merging blocks

The pages of the zone are tiled by the free blocks and those that are not free. The latter have
been handed out, or a function of the allocator has one of them in hand. Each function takes blocks
off the lists, gives blocks to them, and splits or merges the block in hand.
-/

/-- The blocks tile the zone. -/
structure Tiled (Z : Zone) (B : Multiset Block) : Prop where
  tiles : Tiles B Z.pages
  aligned : ∀ b ∈ B, b.Aligned
  small : ∀ b ∈ B, b.order < maxOrder

/-- The free blocks are those of `F`, and all others are those of `A`. -/
structure Inv (Z : Zone) (s : State) (F A : Multiset Block) : Prop where
  linked : Linked Z s F
  counted : Counted s F
  tiled : Tiled Z (F + A)
  apart : ∀ b ∈ F, b.order + 1 < maxOrder → b.buddy ∉ F

variable {A B : Multiset Block}

/-! ### Tilings -/

lemma Tiled.head_mem (h : Tiled Z B) (hb : b ∈ B) : b.head ∈ Z.pages :=
  h.tiles.mem_of_covers hb b.covers_head

lemma Tiled.split (h : Tiled Z (⟨o + 1, p⟩ ::ₘ B)) : Tiled Z (⟨o, p⟩ ::ₘ ⟨o, p + 2 ^ o⟩ ::ₘ B) := by
  have hdvd : 2 ^ (o + 1) ∣ p := h.aligned _ (mem_cons_self _ _)
  have hsmall : o + 1 < maxOrder := h.small _ (mem_cons_self _ _)
  have haligned : (Block.mk o p).Aligned := dvd_trans (pow_dvd_pow 2 o.le_succ) hdvd
  have htiles := h.tiles
  rw [← Block.parent_of_dvd hdvd, tiles_parent] at htiles
  rw [← Block.buddy_of_dvd hdvd]
  refine ⟨htiles, ?_, ?_⟩
  · simp only [mem_cons, forall_eq_or_imp]
    exact ⟨haligned, haligned.buddy, fun b hb => h.aligned b (mem_cons_of_mem hb)⟩
  · simp only [mem_cons, forall_eq_or_imp]
    have ho : o < maxOrder := Nat.lt_of_succ_lt hsmall
    exact ⟨ho, ho, fun b hb => h.small b (mem_cons_of_mem hb)⟩

lemma Tiled.merge (h : Tiled Z (b ::ₘ b.buddy ::ₘ B)) (hb : b.order + 1 < maxOrder) :
    Tiled Z (b.parent ::ₘ B) := by
  refine ⟨tiles_parent.mpr h.tiles, ?_, ?_⟩
  · simp only [mem_cons, forall_eq_or_imp]
    exact ⟨(h.aligned b (mem_cons_self _ _)).parent,
      fun c hc => h.aligned c (mem_cons_of_mem (mem_cons_of_mem hc))⟩
  · simp only [mem_cons, forall_eq_or_imp]
    exact ⟨hb, fun c hc => h.small c (mem_cons_of_mem (mem_cons_of_mem hc))⟩

/-! ### Steps -/

lemma Inv.nodup (h : Inv Z s F A) : F.Nodup :=
  nodup_of_le (le_add_right F A) h.tiled.tiles.nodup

lemma Inv.head_mem (h : Inv Z s F A) (hb : b ∈ F) : b.head ∈ Z.pages :=
  h.tiled.head_mem (mem_add.mpr (.inl hb))

lemma Inv.small (h : Inv Z s F A) (hb : b ∈ F) : b.order < maxOrder :=
  h.tiled.small b (mem_add.mpr (.inl hb))

lemma Inv.tiled_cons (h : Inv Z s F (b ::ₘ A)) : Tiled Z (b ::ₘ (F + A)) := by
  have ht := h.tiled
  rwa [add_cons] at ht

/-- A free block is taken. The lists and flags are those of a state `s1`, which may differ from `s`
in the lists of its blocks. -/
lemma Inv.take {s1 : State} (h : Inv Z s (b ::ₘ F) A) (h1 : Linked Z s1 (b ::ₘ F))
    (hlist : s'.freeList = (s1.unlink b.head).freeList)
    (hpage : s'.page = (s1.setPage b.head fun p => { p with buddy := false, priv := 0 }).page)
    (hnr : s'.nrFree = (s.setNrFree b.order (· - 1)).nrFree) : Inv Z s' F (b ::ₘ A) where
  linked := h1.remove h.nodup (h.head_mem (mem_cons_self b F)) hlist hpage
  counted := h.counted.remove hnr
  tiled := by
    have ht := h.tiled
    rwa [cons_add, ← add_cons] at ht
  apart c hc ho hbuddy :=
    h.apart c (mem_cons_of_mem hc) ho (mem_cons_of_mem hbuddy)

lemma Inv.give (h : Inv Z s F (b ::ₘ A)) (hb : b.order + 1 < maxOrder → b.buddy ∉ F)
    {f : List ℕ → List ℕ} (hf : ∀ l, (f l).Perm (b.head :: l)) (mt : MigrateType)
    (hlist : s'.freeList = (s.setList b.order mt f).freeList)
    (hpage : s'.page = (s.setPage b.head fun p => { p with priv := b.order, buddy := true }).page)
    (hnr : s'.nrFree = (s.setNrFree b.order (· + 1)).nrFree) : Inv Z s' (b ::ₘ F) A where
  linked := by
    have ht := h.tiled_cons
    refine h.linked.add (ht.head_mem (mem_cons_self _ _)) ?_ hf mt hlist hpage
    intro c hc hhead
    apply ht.tiles.not_covers (mem_add.mpr (.inl hc)) b.covers_head
    rw [← hhead]
    exact c.covers_head
  counted := h.counted.add hnr
  tiled := by
    rw [cons_add]
    exact h.tiled_cons
  apart c hc ho := by
    rw [mem_cons, not_or]
    rcases mem_cons.mp hc with rfl | hc
    · exact ⟨c.buddy_ne, hb ho⟩
    · refine ⟨?_, h.apart c hc ho⟩
      rintro heq
      have hcb : c = b.buddy := by rw [← heq, Block.buddy_buddy]
      subst hcb
      exact hb ho hc

lemma Inv.split (h : Inv Z s F (⟨o + 1, p⟩ ::ₘ A)) :
    Inv Z s F (⟨o, p + 2 ^ o⟩ ::ₘ ⟨o, p⟩ ::ₘ A) := by
  refine { h with tiled := ?_ }
  rw [add_cons, add_cons, cons_swap]
  exact h.tiled_cons.split

lemma Inv.merge (h : Inv Z s F (b.buddy ::ₘ b ::ₘ A)) (hb : b.order + 1 < maxOrder) :
    Inv Z s F (b.parent ::ₘ A) := by
  refine { h with tiled := ?_ }
  have ht := h.tiled_cons
  rw [add_cons, cons_swap] at ht
  rw [add_cons]
  exact ht.merge hb

/-! ### Lists and flags -/

lemma Linked.listDel_runs (h : Linked Z s F) (hb : b ∈ F) (ho : b.order < maxOrder) :
    Runs (listDel b.head) s () (s.unlink b.head) := by
  obtain ⟨mt, hmt⟩ := h.exists_mem hb
  exact .bind (.read s) (.ite_pos ⟨b.order, ho, mt, hmt⟩ (.write _ s))

lemma listAdd_runs (ho : o < maxOrder) (p : ℕ) (mt : MigrateType) (s : State) :
    Runs (listAdd p o mt) s () (s.setList o mt (p :: ·)) := .ite_pos ho (.write _ s)

lemma buddy_mem (hp : b.head ∈ Z.pages) (ho : b.order + 1 < maxOrder) :
    Z.mapStart ≤ b.buddy.head ∧ b.buddy.head < Z.mapEnd := by
  have hdiv : b.buddy.head / 2 ^ (maxOrder - 1) = b.head / 2 ^ (maxOrder - 1) :=
    Block.buddy_div (by omega)
  have hpos : 0 < 2 ^ (maxOrder - 1) := Nat.two_pow_pos _
  obtain ⟨i, hi⟩ := Z.dvd_mapStart
  obtain ⟨j, hj⟩ := Z.dvd_mapEnd
  have hstart := Z.mapStart_le.trans hp.1
  have hend := hp.2.trans_le Z.le_mapEnd
  rw [hi, hj, mul_comm _ i, mul_comm _ j]
  rw [hi, mul_comm] at hstart
  rw [hj, mul_comm] at hend
  rw [← Nat.le_div_iff_mul_le hpos, ← hdiv, Nat.le_div_iff_mul_le hpos] at hstart
  rw [← Nat.div_lt_iff_lt_mul hpos, ← hdiv, Nat.div_lt_iff_lt_mul hpos] at hend
  exact ⟨hstart, hend⟩

lemma Inv.pageIsBuddy_iff (h : Inv Z s F (b ::ₘ A)) (ho : b.order + 1 < maxOrder) :
    pageIsBuddy s b.head b.buddy.head b.order = true ↔ b.buddy ∈ F := by
  have hp := h.tiled_cons.head_mem (mem_cons_self b _)
  rw [pageIsBuddy, Bool.and_eq_true, Bool.and_eq_true, decide_eq_true_iff, decide_eq_true_iff,
    h.linked.own _ hp]
  constructor
  · rintro ⟨hid, hbuddy, hpriv⟩
    by_cases hmem : b.buddy.head ∈ Z.pages
    · exact (h.linked.flags b.buddy hmem).mp ⟨hbuddy, hpriv⟩
    · obtain ⟨hlo, hhi⟩ := buddy_mem hp ho
      rcases h.linked.other _ hmem hlo hhi with hne | hfalse
      · exact absurd hid.symm hne
      · rw [hfalse] at hbuddy
        exact absurd hbuddy Bool.false_ne_true
  · intro hF
    have hmem := h.head_mem hF
    obtain ⟨hbuddy, hpriv⟩ := (h.linked.flags b.buddy hmem).mpr hF
    exact ⟨(h.linked.own _ hmem).symm, hbuddy, hpriv⟩

/-! ### Freeing -/

lemma pageFindBuddy_eq (hb : b.order < maxOrder) :
    pageFindBuddy b.head (b.head % 2 ^ maxOrder) b.order = b.buddy.head := by
  have hdiv : b.buddy.head / 2 ^ maxOrder = b.head / 2 ^ maxOrder := Block.buddy_div hb
  have hmod : b.buddy.head % 2 ^ maxOrder = (b.head % 2 ^ maxOrder) ^^^ 2 ^ b.order := by
    rw [Block.buddy, Nat.xor_mod_two_pow,
      Nat.mod_eq_of_lt (Nat.pow_lt_pow_right (by omega : 1 < 2) hb)]
  have hbuddy := Nat.div_add_mod b.buddy.head (2 ^ maxOrder)
  have hhead := Nat.div_add_mod b.head (2 ^ maxOrder)
  rw [pageFindBuddy, Nat.one_shiftLeft, ← hmod]
  rw [hdiv] at hbuddy
  omega

lemma findCombinedIndex_eq (b : Block) :
    findCombinedIndex (b.head % 2 ^ maxOrder) b.order = b.parent.head % 2 ^ maxOrder := by
  rw [findCombinedIndex, Nat.one_shiftLeft]
  apply Nat.eq_of_testBit_eq
  intro i
  simp only [Block.parent, Nat.testBit_ldiff, Nat.testBit_mod_two_pow, Bool.and_assoc]

lemma combined_page (hb : b.order < maxOrder) :
    b.head + b.parent.head % 2 ^ maxOrder - b.head % 2 ^ maxOrder = b.parent.head := by
  have hparent := Nat.div_add_mod b.parent.head (2 ^ maxOrder)
  have hhead := Nat.div_add_mod b.head (2 ^ maxOrder)
  rw [Block.parent_div hb] at hparent
  omega

/-- The variables of `__free_one_page` for a block. -/
def Merge.of (b : Block) : Merge := ⟨b.head, b.head % 2 ^ maxOrder, b.order⟩

lemma Inv.merge_loop (h : Inv Z s F (b ::ₘ A)) :
    Ends (loop mergeBody maxOrder (.of b)) s fun x s' => ∃ c F', x = .of c ∧
      Inv Z s' F' (c ::ₘ A) ∧ (c.order + 1 < maxOrder → c.buddy ∉ F') := by
  refine .loop (I := fun n x s => ∃ c F, n = maxOrder - 1 - c.order ∧ x = .of c ∧
    Inv Z s F (c ::ₘ A)) ?_ ⟨b, F, rfl, rfl, h⟩ (Nat.lt_of_le_of_lt (Nat.sub_le _ _) (by decide))
  rintro _ _ s ⟨b, F, rfl, rfl, h⟩
  have hsmall := h.tiled_cons.small b (mem_cons_self _ _)
  refine .ite (fun ho => .read (.ite (fun hfree => ?_) fun hfree => .pure ?_)) fun ho => .pure ?_
  · have ho' : b.order + 1 < maxOrder := Nat.add_lt_of_lt_sub ho
    rw [Merge.of, pageFindBuddy_eq hsmall] at hfree
    have hF := (h.pageIsBuddy_iff ho').mp hfree
    obtain ⟨G, rfl⟩ := exists_cons_of_mem hF
    have htaken : Inv Z (((s.unlink b.buddy.head).setNrFree b.order (· - 1)).setPage
        b.buddy.head fun p => { p with buddy := false, priv := 0 }) G (b.buddy ::ₘ b ::ₘ A) :=
      h.take h.linked rfl rfl rfl
    simp only [Merge.of, pageFindBuddy_eq hsmall, findCombinedIndex_eq, combined_page hsmall]
    exact .after (h.linked.listDel_runs hF hsmall) (.write _ (.write _ (.pure ⟨_,
      Nat.sub_lt_sub_left ho (Nat.lt_succ_self _), b.parent, G, rfl, rfl, htaken.merge ho'⟩)))
  · rw [Merge.of, pageFindBuddy_eq hsmall] at hfree
    exact ⟨b, F, rfl, h, fun ho' => (h.pageIsBuddy_iff ho').not.mp hfree⟩
  · exact ⟨b, F, rfl, h, fun hb => absurd (Nat.lt_sub_of_add_lt hb) ho⟩

lemma addFree_runs (hb : b.order < maxOrder) (mt : MigrateType) (s : State) :
    Ends (addFree (.of b) mt) s fun _ s' =>
      ∃ f : List ℕ → List ℕ, (∀ l, (f l).Perm (b.head :: l)) ∧ s' = s.setList b.order mt f :=
  .read (.ite
    (fun _ => ⟨(), _, .ite_pos hb (.write _ s), _, List.perm_append_singleton _, rfl⟩)
    fun _ => ⟨(), _, listAdd_runs hb _ mt s, _, fun _ => .refl _, rfl⟩)

lemma Inv.freeOnePage_runs (h : Inv Z s F (b ::ₘ A)) (mt : MigrateType) :
    Ends (freeOnePage b.head b.order mt) s fun _ s' => ∃ F', Inv Z s' F' A := by
  rw [freeOnePage, Nat.one_shiftLeft, Nat.and_two_pow_sub_one_eq_mod]
  apply h.merge_loop.bind
  rintro _ s1 ⟨c, F1, rfl, h1, hc⟩
  have hsmall := h1.tiled_cons.small c (mem_cons_self _ _)
  refine .write _ ((addFree_runs hsmall mt _).bind ?_)
  rintro _ _ ⟨f, hf, rfl⟩
  exact ⟨(), _, .write _ _, c ::ₘ F1, h1.give hc hf mt rfl rfl rfl⟩

/-! ### Splitting -/

lemma Inv.expand_runs {low high : ℕ} (h : Inv Z s F (⟨high, p⟩ ::ₘ A)) (hlow : low ≤ high)
    (mt : MigrateType) :
    Ends (expand p low mt high) s fun _ s' => ∃ F', Inv Z s' F' (⟨low, p⟩ ::ₘ A) := by
  induction high generalizing s F with
  | zero =>
    obtain rfl : low = 0 := Nat.le_zero.mp hlow
    exact .pure ⟨F, h⟩
  | succ high ih =>
    refine .ite (fun hgt => ?_) fun hgt => ?_
    · have hsmall : high < maxOrder :=
        Nat.lt_of_succ_lt (h.tiled_cons.small _ (mem_cons_self _ _))
      have hdvd : 2 ^ (high + 1) ∣ p := h.tiled_cons.aligned _ (mem_cons_self _ _)
      have hsplit := h.split
      -- the buddy of the upper half is the lower half, which is in hand
      have hbuddy : (Block.mk high (p + 2 ^ high)).buddy ∉ F := by
        rw [← Block.buddy_of_dvd hdvd, Block.buddy_buddy]
        intro hF
        have ht := hsplit.tiled_cons.tiles
        rw [add_cons, cons_swap] at ht
        exact ht.notMem (mem_cons_of_mem (mem_add.mpr (.inl hF)))
      simp only [Nat.one_shiftLeft]
      exact .after (listAdd_runs hsmall _ mt s) (.write _ (.write _ (ih
        (hsplit.give (fun _ => hbuddy) (fun l => .refl _) mt rfl rfl rfl) (Nat.le_of_lt_succ hgt))))
    · obtain rfl : low = high + 1 := by omega
      exact .pure ⟨F, h⟩

end LklPort.PageAlloc
