import LklPort.Slab.Law

/-!
# Failing allocations

A call of the allocator asks the host for memory up to twice, and `kmem_cache_free` asks for some
as well if the block is to be freed after a grace period. An allocation that fails leaves the
records and the host memory as they were. But `kmem_cache_alloc` runs the constructor on its
`NULL`, and `kmem_cache_free` writes to the `struct mem_block_rcu` that it did not get.
-/

namespace LklPort.Slab

open List

/-! ### What a call should do -/

/-- One of the calls of `mem_alloc` in an allocation returns `NULL`. -/
def Fails : Act → Prop
  | .kmalloc _ m b | .kmemCacheCreate _ _ _ _ m b | .kmemCacheAlloc _ m b => m = none ∨ b = none
  | .kfree _ | .kmemCacheDestroy _ | .kmemCacheFree _ _ _ | .kmemRcuFree _ => False

/-- The pointer that an allocation returns. -/
def returned (s : State) : Act → Option ℕ
  | .kmalloc size m b => (allocMemBlock s size m b).2
  | .kmemCacheCreate _ _ _ _ m b => (allocMemBlock s sizeofCache m b).2
  | .kmemCacheAlloc c m b => (s.caches c).bind fun cache => (allocMemBlock s cache.size m b).2
  | .kfree _ | .kmemCacheDestroy _ | .kmemCacheFree _ _ _ | .kmemRcuFree _ => none

/-- A call that fails changes neither the records nor the regions of the host, and runs no
constructor. -/
structure Unchanged (s s' : State) : Prop where
  metaTree : s'.metaTree = s.metaTree
  host : s'.host = s.host
  ctorCalls : s'.ctorCalls = s.ctorCalls

/-- The block at `p` is given back with its record and with what is at the addresses `more`. All
others stay, and no further release of the block is under way. -/
structure Released (s s' : State) (p : ℕ) (more : List ℕ) : Prop where
  running : s'.halt = none
  host : ∃ mbm, memBlockFindMeta s.metaTree p = some mbm ∧
    ∀ r, r ∈ s'.host ↔ r ∈ s.host ∧ r.addr ∉ mbm.self :: p :: more
  find : ∀ q, memBlockFindMeta s'.metaTree q =
    if q = p then none else memBlockFindMeta s.metaTree q
  once : ∀ r ∈ s'.rcu, r.block ≠ p

/-- The block at `p` stays until the end of the grace period of its only entry. -/
structure Deferred (s s' : State) (p : ℕ) : Prop where
  running : s'.halt = none
  entry : ∃ self, s'.rcu = ⟨self, p⟩ :: s.rcu ∧ s'.host = ⟨self, sizeofRcu, .rcu p⟩ :: s.host
  once : ∀ r ∈ s.rcu, r.block ≠ p
  metaTree : s'.metaTree = s.metaTree

/-- The failure of `mem_alloc` is handled cleanly in a call. -/
def Clean (s : State) (a : Act) : Prop :=
  match a with
  | .kmalloc _ _ _ | .kmemCacheCreate _ _ _ _ _ _ | .kmemCacheAlloc _ _ _ =>
    Fails a → returned s a = none ∧ Unchanged s (apply s a)
  | .kmemCacheFree _ p _ => Released s (apply s a) p [] ∨ Deferred s (apply s a) p
  | .kmemRcuFree mbr => Released s (apply s a) mbr.block [mbr.self]
  | .kfree _ | .kmemCacheDestroy _ => True

/-- The call uses the `NULL` that it got from `mem_alloc`: for a constructor, or as a
`struct mem_block_rcu`. -/
def UsesNull (s : State) : Act → Prop
  | .kmemCacheAlloc c m b => (∃ cache ∈ s.caches c, cache.ctor = true) ∧ (m = none ∨ b = none)
  | .kmemCacheFree c _ mbr =>
    (∃ cache ∈ s.caches c, cache.flags &&& SLAB_DESTROY_BY_RCU ≠ 0) ∧ mbr = none
  | .kmalloc _ _ _ | .kmemCacheCreate _ _ _ _ _ _ | .kfree _ | .kmemCacheDestroy _
  | .kmemRcuFree _ => False

/-! ### Allocation -/

variable {s : State} {size : ℕ} {m b : Option ℕ}

lemma allocMemBlock_of_none (hI : Inv s) (hok : BlockOk s size m b) (hfail : m = none ∨ b = none) :
    allocMemBlock s size m b = (s, none) := by
  rcases allocMemBlock_cases hI hok with h | ⟨self, p, t, -, -, -, -, h⟩
  · exact h
  · -- a block needs both results of the host
    rcases hfail with rfl | rfl
    · rfl
    · cases m with
      | none => rfl
      | some => simp [allocMemBlock] at h

lemma unchanged_kmemCacheCreate (hI : Inv s) (hok : BlockOk s sizeofCache m b)
    (hfail : m = none ∨ b = none) (name : String) (flags : ℕ) (ctor : Bool) :
    Unchanged s (kmemCacheCreate s name size flags ctor m b) := by
  rw [kmemCacheCreate, allocMemBlock_of_none hI hok hfail]
  split_ifs <;> exact ⟨rfl, rfl, rfl⟩

variable {c p : ℕ} {cache : KmemCache}

section

variable (hI : Inv s)

include hI

lemma kmemCacheAlloc_of_none (hc : s.caches c = some cache)
    (hok : BlockOk s cache.size m b) (hfail : m = none ∨ b = none) : kmemCacheAlloc s c m b =
      if cache.ctor then { s with ctorCalls := none :: s.ctorCalls } else s := by
  simp only [kmemCacheAlloc, hc, allocMemBlock_of_none hI hok hfail]
  rfl

/-! ### Release -/

lemma find_freeMemBlock (hlive : ∃ b ∈ s.live, b.ptr = p) (q : ℕ) :
    memBlockFindMeta (freeMemBlock s p).metaTree q =
      if q = p then none else memBlockFindMeta s.metaTree q := by
  obtain ⟨mbm, hm, hmb, t, htree, hmem, heq⟩ := freeMemBlock_eq hI hlive
  have ht : (freeMemBlock s p).metaTree = t := by
    rw [heq]
    rfl
  rw [ht]
  split_ifs with hq
  · refine htree.find_eq_none.2 fun x hx hxq => ?_
    obtain ⟨hx, hne⟩ := (hmem x).1 hx
    exact hne (hI.tree.eq_of_key_eq hx hm (hxq.trans (hq.trans hmb.symm)))
  · ext x
    have hleft : memBlockFindMeta t q = some x ↔ x ∈ t.toList ∧ x.block = q := htree.find_eq_some
    have hright : memBlockFindMeta s.metaTree q = some x ↔ x ∈ s.metaTree.toList ∧ x.block = q :=
      hI.tree.find_eq_some
    rw [hleft, hright, hmem]
    constructor
    · rintro ⟨⟨hx, -⟩, hxq⟩
      exact ⟨hx, hxq⟩
    · rintro ⟨hx, hxq⟩
      refine ⟨⟨hx, ?_⟩, hxq⟩
      rintro rfl
      exact hq (hxq.symm.trans hmb)

lemma rcu_freeMemBlock (hlive : ∃ b ∈ s.live, b.ptr = p) : (freeMemBlock s p).rcu = s.rcu := by
  obtain ⟨_, -, -, t, -, -, heq⟩ := freeMemBlock_eq hI hlive
  rw [heq]
  rfl

lemma released_freeMemBlock (hfree : Freeable s p) (hrun : s.halt = none) :
    Released s (freeMemBlock s p) p [] := by
  have hfind := find_freeMemBlock hI hfree.1
  obtain ⟨mbm, hm, hmb, t, -, -, heq⟩ := freeMemBlock_eq hI hfree.1
  rw [heq] at hfind ⊢
  refine ⟨hrun, ⟨mbm, hI.tree.find_eq_some.2 ⟨hm, hmb⟩, fun r => ?_⟩, hfind, hfree.2⟩
  simp only [State.memFree, mem_filter, mem_cons, not_mem_nil, or_false, not_or]
  simp only [ne_eq, decide_eq_true_eq]
  exact and_assoc

lemma released_kmemRcuFree {mbr : MemBlockRcu} (hmbr : mbr ∈ s.rcu)
    (hrun : s.halt = none) : Released s (kmemRcuFree s mbr) mbr.block [mbr.self] := by
  obtain ⟨hleft, hfree⟩ := hI.takeRcu hmbr
  obtain ⟨hhalt, ⟨mbm, hmbm, hhost⟩, hfind, honce⟩ := released_freeMemBlock hleft hfree hrun
  refine ⟨hhalt, ⟨mbm, hmbm, fun r => ?_⟩, hfind, honce⟩
  have hmem := hhost r
  simp only [mem_cons, not_mem_nil, or_false, not_or] at hmem ⊢
  simp only [kmemRcuFree, State.memFree, mem_filter, hmem, ne_eq, decide_eq_true_eq]
  rw [and_assoc, and_assoc]

lemma kmemCacheFree_cases (hrun : s.halt = none) (hc : s.caches c = some cache)
    (hfree : Freeable s p) (mbr : Option ℕ) :
    (cache.flags &&& SLAB_DESTROY_BY_RCU ≠ 0 ∧ mbr = none ∧
      (kmemCacheFree s c p mbr).halt = some .nullPointer) ∨
    ¬ (cache.flags &&& SLAB_DESTROY_BY_RCU ≠ 0 ∧ mbr = none) ∧
      (Released s (kmemCacheFree s c p mbr) p [] ∨ Deferred s (kmemCacheFree s c p mbr) p) := by
  simp only [kmemCacheFree, hc]
  by_cases hflag : cache.flags &&& SLAB_DESTROY_BY_RCU ≠ 0
  · rw [if_pos hflag]
    cases mbr with
    | none => exact .inl ⟨hflag, rfl, rfl⟩
    | some self =>
      exact .inr ⟨fun h => absurd h.2 nofun, .inr ⟨hrun, ⟨self, rfl, rfl⟩, hfree.2, rfl⟩⟩
  · rw [if_neg hflag]
    exact .inr ⟨fun h => hflag h.1, .inl (released_freeMemBlock hI hfree hrun)⟩

/-! ### The law -/

lemma clean_iff {a : Act} (ha : machine.guard s a) : Clean s a ↔ ¬ UsesNull s a := by
  obtain ⟨hrun, ha⟩ := ha
  cases a with
  | kmalloc size m b =>
    refine iff_of_true (fun hfail => ?_) id
    have hnone := allocMemBlock_of_none hI ha.2 hfail
    refine ⟨congrArg Prod.snd hnone, ?_⟩
    show Unchanged s (kmalloc s size m b)
    rw [kmalloc, hnone]
    exact ⟨rfl, rfl, rfl⟩
  | kfree | kmemCacheDestroy => exact iff_of_true trivial id
  | kmemCacheCreate name _ flags ctor =>
    refine iff_of_true (fun hfail => ?_) id
    exact ⟨congrArg Prod.snd (allocMemBlock_of_none hI ha.2 hfail),
      unchanged_kmemCacheCreate hI ha.2 hfail name flags ctor⟩
  | kmemCacheAlloc c m b =>
    obtain ⟨cache, hc, hok⟩ := ha
    have hc : s.caches c = some cache := hc
    by_cases hfail : m = none ∨ b = none
    · have heq : apply s (.kmemCacheAlloc c m b) = _ := kmemCacheAlloc_of_none hI hc hok hfail
      have hret : returned s (.kmemCacheAlloc c m b) = none := by
        simp only [returned, hc, Option.bind_some, allocMemBlock_of_none hI hok hfail]
      have huses : UsesNull s (.kmemCacheAlloc c m b) ↔ cache.ctor = true := by
        simp [UsesNull, hc, hfail]
      rw [huses, Clean, hret, heq]
      cases hctor : cache.ctor with
      | false => exact iff_of_true (fun _ => ⟨rfl, rfl, rfl, rfl⟩) (by decide)
      | true =>
        refine iff_of_false (fun hclean => ?_) (fun h => h rfl)
        -- one more call of a constructor, on `NULL`
        have hcalls : none :: s.ctorCalls = s.ctorCalls := (hclean hfail).2.ctorCalls
        exact absurd (congrArg List.length hcalls) (by simp)
    · exact iff_of_true (fun h => absurd h hfail) fun h => hfail h.2
  | kmemCacheFree c p mbr =>
    obtain ⟨hsome, hfree, hok⟩ := ha
    obtain ⟨cache, hc⟩ := Option.isSome_iff_exists.1 hsome
    have huses : UsesNull s (.kmemCacheFree c p mbr) ↔
        cache.flags &&& SLAB_DESTROY_BY_RCU ≠ 0 ∧ mbr = none := by
      simp [UsesNull, hc]
    rw [huses]
    rcases kmemCacheFree_cases hI hrun hc hfree mbr with ⟨hflag, hnone, hhalt⟩ | ⟨hnot, hdone⟩
    · refine iff_of_false ?_ (fun h => h ⟨hflag, hnone⟩)
      rintro (hrel | hdef)
      · exact absurd (hrel.running.symm.trans hhalt) nofun
      · exact absurd (hdef.running.symm.trans hhalt) nofun
    · exact iff_of_true hdone hnot
  | kmemRcuFree => exact iff_of_true (released_kmemRcuFree hI ha hrun) id

end

/-- The entry `r` stays, and so does the record of its block. -/
def Kept (r : MemBlockRcu) (s s' : State) : Prop :=
  r ∈ s'.rcu ∧ memBlockFindMeta s'.metaTree r.block = memBlockFindMeta s.metaTree r.block

variable {r : MemBlockRcu}

lemma Kept.congr {s' s'' : State} (h : Kept r s s') (hrcu : s''.rcu = s'.rcu)
    (htree : s''.metaTree = s'.metaTree) : Kept r s s'' := by
  rw [Kept, hrcu, htree]
  exact h

lemma Inv.kept_allocMemBlock (hI : Inv s) (hr : r ∈ s.rcu) (hok : BlockOk s size m b) :
    Kept r s (allocMemBlock s size m b).1 := by
  rcases allocMemBlock_cases hI hok with h | ⟨self, p, t, -, -, htree, hmem, h⟩
  · rw [h]
    exact ⟨hr, rfl⟩
  · rw [h]
    refine ⟨hr, ?_⟩
    obtain ⟨b', hb', hblock⟩ := hI.rcu_live r hr
    obtain ⟨x, hx, hxb, -⟩ := hI.recorded b' hb'
    rw [hblock] at hxb
    have hold : memBlockFindMeta s.metaTree r.block = some x := hI.tree.find_eq_some.2 ⟨hx, hxb⟩
    have hnew : memBlockFindMeta t r.block = some x :=
      htree.find_eq_some.2 ⟨(hmem x).2 (.inr hx), hxb⟩
    exact hnew.trans hold.symm

lemma Inv.kept_freeMemBlock (hI : Inv s) (hr : r ∈ s.rcu) (hfree : Freeable s p) :
    Kept r s (Slab.freeMemBlock s p) := by
  constructor
  · rw [rcu_freeMemBlock hI hfree.1]
    exact hr
  · rw [find_freeMemBlock hI hfree.1, if_neg (hfree.2 r hr)]

lemma rcu_give (s : State) (size : ℕ) (p : Option ℕ) : (s.give size p).rcu = s.rcu := by
  cases p <;> rfl

lemma metaTree_give (s : State) (size : ℕ) (p : Option ℕ) :
    (s.give size p).metaTree = s.metaTree := by
  cases p <;> rfl

section

variable (hI : Inv s) (hr : r ∈ s.rcu)

include hI hr

lemma Inv.kept_kmemCacheCreate (hok : BlockOk s sizeofCache m b)
    (name : String) (flags : ℕ) (ctor : Bool) :
    Kept r s (Slab.kmemCacheCreate s name size flags ctor m b) := by
  have hkept := hI.kept_allocMemBlock hr hok
  rw [Slab.kmemCacheCreate]
  cases hA : allocMemBlock s sizeofCache m b with
  | mk _ p =>
    rw [hA] at hkept
    cases p with
    | none =>
      split_ifs
      · exact hkept.congr rfl rfl
      · exact hkept
    | some => exact hkept.congr rfl rfl

lemma Inv.kept_kmemCacheAlloc (hc : s.caches c = some cache)
    (hok : BlockOk s cache.size m b) : Kept r s (Slab.kmemCacheAlloc s c m b) := by
  have hkept := hI.kept_allocMemBlock hr hok
  simp only [Slab.kmemCacheAlloc, hc]
  split_ifs
  · exact hkept.congr (rcu_give _ _ _) (metaTree_give _ _ _)
  · exact hkept.congr (rcu_give _ _ _) (metaTree_give _ _ _)

lemma Inv.kept_kmemCacheFree (hfree : Freeable s p) (c : ℕ)
    (mbr : Option ℕ) : Kept r s (Slab.kmemCacheFree s c p mbr) := by
  unfold Slab.kmemCacheFree
  split
  · exact ⟨hr, rfl⟩
  split_ifs
  · cases mbr with
    | none => exact ⟨hr, rfl⟩
    | some => exact ⟨mem_cons_of_mem _ hr, rfl⟩
  · exact hI.kept_freeMemBlock hr hfree

lemma Inv.kept_kmemRcuFree {mbr : MemBlockRcu} (hmbr : mbr ∈ s.rcu)
    (hne : r ≠ mbr) : Kept r s (Slab.kmemRcuFree s mbr) := by
  obtain ⟨hleft, hfree⟩ := hI.takeRcu hmbr
  have hr' : r ∈ s.rcu.filter (· ≠ mbr) := List.mem_filter.2 ⟨hr, by simpa using hne⟩
  exact (hleft.kept_freeMemBlock hr' hfree).congr rfl rfl

end

lemma Inv.kept (hI : Inv s) {a : Act} (ha : Contract s a) (hr : r ∈ s.rcu)
    (hne : a ≠ .kmemRcuFree r) : Kept r s (Slab.apply s a) := by
  cases a with
  | kmalloc =>
    exact (hI.kept_allocMemBlock hr ha.2).congr (rcu_give _ _ _) (metaTree_give _ _ _)
  | kfree p =>
    show Kept r s (kfree s p)
    rw [kfree]
    split_ifs with hp
    · exact ⟨hr, rfl⟩
    · exact hI.kept_freeMemBlock hr (ha.resolve_left hp)
  | kmemCacheCreate name _ flags ctor =>
    exact hI.kept_kmemCacheCreate hr ha.2 name flags ctor
  | kmemCacheDestroy => exact hI.kept_freeMemBlock hr ha
  | kmemCacheAlloc =>
    obtain ⟨cache, hc, hok⟩ := ha
    exact hI.kept_kmemCacheAlloc hr hc hok
  | kmemCacheFree c _ mbr => exact hI.kept_kmemCacheFree hr ha.2.1 c mbr
  | kmemRcuFree =>
    apply hI.kept_kmemRcuFree hr ha
    rintro rfl
    exact hne rfl

/-- In every reachable state, a call handles the failures of `mem_alloc` cleanly exactly if it does
not use a `NULL`, and a release that was deferred stays so until its grace period ends. -/
theorem slab_failure_law (h : machine.Reachable s) {a : Act} (ha : machine.guard s a) :
    (Clean s a ↔ ¬ UsesNull s a) ∧ ∀ r ∈ s.rcu, a ≠ .kmemRcuFree r → Kept r s (apply s a) :=
  ⟨clean_iff (inv_of_reachable h) ha,
    fun _ hr hne => (inv_of_reachable h).kept ha.2 hr hne⟩

/-- A cache with a constructor, whose blocks are freed after a grace period, and one of them. -/
def cacheRun : List Act :=
  [.kmemCacheCreate "inode" 64 SLAB_DESTROY_BY_RCU true (some 4096) (some 8192),
    .kmemCacheAlloc 8192 (some 4160) (some 9000)]

theorem slab_failure_law_cacheRun :
    Clean (machine.runFrom init cacheRun) (.kmalloc 100 (some 5000) none) := by
  have hreach := Machine.reachable_of_admits (M := machine) cacheRun (by decide)
  exact (slab_failure_law hreach (by decide)).1.2 id

/-- The constructor is called on `NULL`, and a block is not freed because of a `NULL`. -/
theorem null_is_used : machine.Reachable (machine.runFrom init cacheRun) ∧
      machine.guard (machine.runFrom init cacheRun) (.kmemCacheAlloc 8192 (some 5000) none) ∧
      (apply (machine.runFrom init cacheRun) (.kmemCacheAlloc 8192 (some 5000) none)).ctorCalls =
        [none, some 9000] ∧
      machine.guard (machine.runFrom init cacheRun) (.kmemCacheFree 8192 9000 none) ∧
      (apply (machine.runFrom init cacheRun) (.kmemCacheFree 8192 9000 none)).halt =
        some .nullPointer :=
  ⟨Machine.reachable_of_admits cacheRun (by decide), by decide, by decide, by decide, by decide⟩

end LklPort.Slab
