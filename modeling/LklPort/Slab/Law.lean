import LklPort.Slab.Basic

/-!
# The records of the blocks

The records are exactly those of the blocks that were given out, each with its own region of host
memory. The regions are large enough as long as no request is for more bytes than an
`unsigned int` can count: a longer request is cut off on its way to the host, or already when a
cache is created, while the caller gets a block.
-/

namespace LklPort.Slab

open List

open Rbtree (SearchTree)

attribute [local simp] init Rbtree.Tree.toList

/-- What the records owe to the callers of the allocator. -/
structure SlabLaw (s : State) : Prop where
  ordered : s.metaTree.toList.Pairwise fun m m' => m.block < m'.block
  exact : (s.metaTree.toList.map fun m => (⟨m.block, m.size⟩ : Block)).Perm s.live
  find_live : ∀ b ∈ s.live, ∃ m, memBlockFindMeta s.metaTree b.ptr = some m ∧ m.block = b.ptr ∧
    m.size = b.size
  find_other : ∀ p, (∀ b ∈ s.live, b.ptr ≠ p) → memBlockFindMeta s.metaTree p = none
  ksize_live : ∀ b ∈ s.live, ksize s b.ptr = some b.size
  backed : ∀ b ∈ s.live, ∃ r ∈ s.host, r.addr = b.ptr ∧ b.size ≤ r.len
  no_bug : s.halt ≠ some .bug

/-! ### The invariant -/

/-- The records, the blocks and the regions of the host fit together. -/
structure Inv (s : State) : Prop where
  tree : SearchTree MemBlockMeta.block s.metaTree
  regions : ∀ r ∈ s.host, ∀ r' ∈ s.host, r.addr = r'.addr → r = r'
  live : s.live.Pairwise fun b b' => b.ptr ≠ b'.ptr
  recorded : ∀ b ∈ s.live, ∃ m ∈ s.metaTree.toList, m.block = b.ptr ∧
    (m.size = b.size ∨ m.size = b.size % uintRange)
  given : ∀ m ∈ s.metaTree.toList, ∃ b ∈ s.live, b.ptr = m.block
  record_host : ∀ m ∈ s.metaTree.toList, ⟨m.self, sizeofMeta, .record m.block⟩ ∈ s.host
  block_host : ∀ m ∈ s.metaTree.toList, ⟨m.block, m.size % uintRange, .block⟩ ∈ s.host
  rcu_live : ∀ r ∈ s.rcu, ∃ b ∈ s.live, b.ptr = r.block
  rcu_once : ∀ r ∈ s.rcu, ∀ r' ∈ s.rcu, r.block = r'.block → r = r'
  rcu_host : ∀ r ∈ s.rcu, ⟨r.self, sizeofRcu, .rcu r.block⟩ ∈ s.host
  cache_size : ∀ c cache, s.caches c = some cache → cache.size = s.requested c % uintRange
  no_bug : s.halt ≠ some .bug

lemma init_inv : Inv init where
  tree := .nil
  regions := by simp
  live := .nil
  recorded := by simp
  given := by simp
  record_host := by simp
  block_host := by simp
  rcu_live := by simp
  rcu_once := by simp
  rcu_host := by simp
  cache_size := by simp
  no_bug := by simp

variable {s : State} {size : ℕ} {m b : Option ℕ}

namespace Inv

variable {m m' : MemBlockMeta} {a : ℕ}

section

variable (hI : Inv s) (hm : m ∈ s.metaTree.toList) (hm' : m' ∈ s.metaTree.toList)

include hI hm hm'

lemma self_ne_block : m.self ≠ m'.block := by
  intro h
  have heq := hI.regions _ (hI.record_host m hm) _ (hI.block_host m' hm') h
  simp at heq

lemma eq_of_self_eq (h : m.self = m'.self) : m = m' := by
  have heq := hI.regions _ (hI.record_host m hm) _ (hI.record_host m' hm') h
  simp only [Region.mk.injEq, Use.record.injEq, true_and] at heq
  exact hI.tree.eq_of_key_eq hm hm' heq.2

end

lemma rcu_self_ne (hI : Inv s) {r : MemBlockRcu} (hr : r ∈ s.rcu) (hm : m ∈ s.metaTree.toList) :
    m.self ≠ r.self ∧ m.block ≠ r.self := by
  constructor
  · intro h
    have heq := hI.regions _ (hI.record_host m hm) _ (hI.rcu_host r hr) h
    simp at heq
  · intro h
    have heq := hI.regions _ (hI.block_host m hm) _ (hI.rcu_host r hr) h
    simp at heq

lemma memFree (hI : Inv s) (hself : ∀ m ∈ s.metaTree.toList, m.self ≠ a)
    (hblock : ∀ m ∈ s.metaTree.toList, m.block ≠ a) (hrcu : ∀ r ∈ s.rcu, r.self ≠ a) :
    Inv (s.memFree a) where
  tree := hI.tree
  regions r hr r' hr' :=
    hI.regions r (List.mem_filter.1 hr).1 r' (List.mem_filter.1 hr').1
  live := hI.live
  recorded := hI.recorded
  given := hI.given
  record_host m hm := List.mem_filter.2 ⟨hI.record_host m hm, by simpa using hself m hm⟩
  block_host m hm := List.mem_filter.2 ⟨hI.block_host m hm, by simpa using hblock m hm⟩
  rcu_live := hI.rcu_live
  rcu_once := hI.rcu_once
  rcu_host r hr := List.mem_filter.2 ⟨hI.rcu_host r hr, by simpa using hrcu r hr⟩
  cache_size := hI.cache_size
  no_bug := hI.no_bug

lemma memAlloc (hI : Inv s) {size : ℕ} (use : Use) (hok : HostOk s.host size (some a)) :
    Inv (s.memAlloc size use a) where
  tree := hI.tree
  regions := by
    have hfresh (r : Region) (hr : r ∈ s.host) : r.addr ≠ a := ((hok a rfl).2 r hr).1
    simp only [State.memAlloc, mem_cons]
    rintro r (rfl | hr) r' (rfl | hr') h
    · rfl
    · exact absurd h.symm (hfresh r' hr')
    · exact absurd h (hfresh r hr)
    · exact hI.regions r hr r' hr' h
  live := hI.live
  recorded := hI.recorded
  given := hI.given
  record_host m hm := .tail _ (hI.record_host m hm)
  block_host m hm := .tail _ (hI.block_host m hm)
  rcu_live := hI.rcu_live
  rcu_once := hI.rcu_once
  rcu_host r hr := .tail _ (hI.rcu_host r hr)
  cache_size := hI.cache_size
  no_bug := hI.no_bug

end Inv

/-! ### Allocation -/

lemma allocMemBlock_cases (hI : Inv s) (hok : BlockOk s size m b) :
    allocMemBlock s size m b = (s, none) ∨
      ∃ self p t, HostOk s.host sizeofMeta (some self) ∧
        HostOk (s.memAlloc sizeofMeta (.record p) self).host size (some p) ∧
        SearchTree MemBlockMeta.block t ∧
        (∀ x, x ∈ t.toList ↔ x = ⟨self, p, size⟩ ∨ x ∈ s.metaTree.toList) ∧
        allocMemBlock s size m b =
          ({ (s.memAlloc sizeofMeta (.record p) self).memAlloc size .block p with
             metaTree := t }, some p) := by
  obtain ⟨hm, hb⟩ := hok
  cases m with
  | none => exact .inl rfl
  | some self =>
    cases b with
    | none =>
      left
      have hfilter : s.host.filter (·.addr ≠ self) = s.host :=
        List.filter_eq_self.2 fun r hr => by simpa using ((hm self rfl).2 r hr).1
      simp only [allocMemBlock, State.memAlloc, State.memFree]
      rw [filter_cons_of_neg (by simp), hfilter]
    | some p =>
      right
      have hblock := hb self rfl
      have hnew : ∀ x ∈ s.metaTree.toList, x.block ≠ p := fun x hx =>
        ((hblock p rfl).2 _ (.tail _ (hI.block_host x hx))).1
      obtain ⟨t, ht, htree, hmem⟩ := hI.tree.insert (a := ⟨self, p, size⟩) hnew
      refine ⟨self, p, t, hm, hblock, htree, hmem, ?_⟩
      simp only [allocMemBlock, State.memAlloc, memBlockInsertMeta, Option.getD_some, ht]

lemma Inv.give_allocMemBlock (hI : Inv s) (hok : BlockOk s size m b) {request : ℕ}
    (hsize : size = request ∨ size = request % uintRange) :
    Inv ((allocMemBlock s size m b).1.give request (allocMemBlock s size m b).2) := by
  obtain heq | ⟨self, p, t, hself, hp, htree, hmem, heq⟩ := allocMemBlock_cases hI hok
  · rw [heq]
    exact hI
  · have hhost := (hI.memAlloc (.record p) hself).memAlloc .block hp
    have hnew : ∀ b ∈ s.live, b.ptr ≠ p := by
      intro b hb
      obtain ⟨x, hx, hxb, -⟩ := hI.recorded b hb
      rw [← hxb]
      exact ((hp p rfl).2 _ (.tail _ (hI.block_host x hx))).1
    rw [heq]
    exact
      { tree := htree
        regions := hhost.regions
        live := List.pairwise_cons.2 ⟨fun b hb => (hnew b hb).symm, hI.live⟩
        recorded := by
          simp only [State.give, mem_cons, hmem]
          rintro b (rfl | hb)
          · exact ⟨_, .inl rfl, rfl, hsize⟩
          · obtain ⟨x, hx, h⟩ := hI.recorded b hb
            exact ⟨x, .inr hx, h⟩
        given := by
          simp only [State.give, mem_cons, hmem]
          rintro x (rfl | hx)
          · exact ⟨_, .inl rfl, rfl⟩
          · obtain ⟨b, hb, h⟩ := hI.given x hx
            exact ⟨b, .inr hb, h⟩
        record_host := by
          simp only [State.give, hmem]
          rintro x (rfl | hx)
          · exact .tail _ (.head _)
          · exact hhost.record_host x hx
        block_host := by
          simp only [State.give, hmem]
          rintro x (rfl | hx)
          · exact .head _
          · exact hhost.block_host x hx
        rcu_live := by
          intro r hr
          obtain ⟨b, hb, h⟩ := hI.rcu_live r hr
          exact ⟨b, .tail _ hb, h⟩
        rcu_once := hI.rcu_once
        rcu_host := hhost.rcu_host
        cache_size := hI.cache_size
        no_bug := hI.no_bug }

variable {p c : ℕ} {mbr : MemBlockRcu}

/-! ### Release -/

section

variable (hI : Inv s)

include hI

lemma freeMemBlock_eq (hlive : ∃ b ∈ s.live, b.ptr = p) : ∃ mbm ∈ s.metaTree.toList, mbm.block = p ∧
      ∃ t, SearchTree MemBlockMeta.block t ∧
        (∀ x, x ∈ t.toList ↔ x ∈ s.metaTree.toList ∧ x ≠ mbm) ∧
        freeMemBlock s p =
          (State.memFree { s with metaTree := t, caches := Function.update s.caches p none,
                                  live := s.live.filter (·.ptr ≠ p) } mbm.self).memFree p := by
  obtain ⟨b, hb, rfl⟩ := hlive
  obtain ⟨mbm, hm, hmb, -⟩ := hI.recorded b hb
  have hfind : memBlockFindMeta s.metaTree b.ptr = some mbm := hI.tree.find_eq_some.2 ⟨hm, hmb⟩
  obtain ⟨t, ht, htree, hmem⟩ := hI.tree.erase hm
  rw [hmb] at ht
  refine ⟨mbm, hm, hmb, t, htree, hmem, ?_⟩
  unfold freeMemBlock
  rw [hfind, ht]

lemma Inv.freeMemBlock (hfree : Freeable s p) : Inv (freeMemBlock s p) := by
  obtain ⟨hlive, hrcu⟩ := hfree
  obtain ⟨mbm, hm, hmb, t, htree, hmem, heq⟩ := freeMemBlock_eq hI hlive
  have hother (x : MemBlockMeta) (hx : x ∈ t.toList) :
      x ∈ s.metaTree.toList ∧ x.block ≠ p ∧ x.self ≠ mbm.self := by
    obtain ⟨hx, hne⟩ := (hmem x).1 hx
    refine ⟨hx, fun h => hne ?_, fun h => hne ?_⟩
    · exact hI.tree.eq_of_key_eq hx hm (h.trans hmb.symm)
    · exact hI.eq_of_self_eq hx hm h
  rw [heq]
  refine Inv.memFree (Inv.memFree ?_ ?_ ?_ ?_) ?_ ?_ ?_
  · exact
      { tree := htree
        regions := hI.regions
        live := hI.live.filter _
        recorded := by
          intro b' hb'
          obtain ⟨hb', hne⟩ := List.mem_filter.1 hb'
          obtain ⟨x, hx, hxb, hsize⟩ := hI.recorded b' hb'
          refine ⟨x, (hmem x).2 ⟨hx, ?_⟩, hxb, hsize⟩
          rintro rfl
          exact absurd (hxb.symm.trans hmb) (by simpa using hne)
        given := by
          intro x hx
          obtain ⟨hx, hne, -⟩ := hother x hx
          obtain ⟨b', hb', h⟩ := hI.given x hx
          exact ⟨b', List.mem_filter.2 ⟨hb', by simpa [h] using hne⟩, h⟩
        record_host := fun x hx => hI.record_host x (hother x hx).1
        block_host := fun x hx => hI.block_host x (hother x hx).1
        rcu_live := by
          intro r hr
          obtain ⟨b', hb', h⟩ := hI.rcu_live r hr
          exact ⟨b', List.mem_filter.2 ⟨hb', by simpa [h] using hrcu r hr⟩, h⟩
        rcu_once := hI.rcu_once
        rcu_host := hI.rcu_host
        cache_size := by
          intro c cache hc
          by_cases hcb : c = p
          · simp [hcb] at hc
          · exact hI.cache_size c cache (by simpa [hcb] using hc)
        no_bug := hI.no_bug }
  · exact fun x hx => (hother x hx).2.2
  · exact fun x hx => (hI.self_ne_block hm (hother x hx).1).symm
  · exact fun r hr => (hI.rcu_self_ne hr hm).1.symm
  · exact fun x hx => hmb ▸ hI.self_ne_block (hother x hx).1 hm
  · exact fun x hx => (hother x hx).2.1
  · exact fun r hr => hmb ▸ (hI.rcu_self_ne hr hm).2.symm

lemma Inv.takeRcu (hmbr : mbr ∈ s.rcu) : Inv { s with rcu := s.rcu.filter (· ≠ mbr) } ∧
      Freeable { s with rcu := s.rcu.filter (· ≠ mbr) } mbr.block := by
  have hrest (r : MemBlockRcu) (hr : r ∈ s.rcu.filter (· ≠ mbr)) : r ∈ s.rcu ∧ r ≠ mbr := by
    simpa using hr
  constructor
  · exact
      { hI with
        rcu_live := fun r hr => hI.rcu_live r (hrest r hr).1
        rcu_once := fun r hr r' hr' => hI.rcu_once r (hrest r hr).1 r' (hrest r' hr').1
        rcu_host := fun r hr => hI.rcu_host r (hrest r hr).1 }
  · refine ⟨hI.rcu_live mbr hmbr, fun r hr h => (hrest r hr).2 ?_⟩
    exact hI.rcu_once r (hrest r hr).1 mbr hmbr h

lemma Inv.kmemRcuFree (hmbr : mbr ∈ s.rcu) : Inv (kmemRcuFree s mbr) := by
  obtain ⟨hleft, hfree⟩ := hI.takeRcu hmbr
  obtain ⟨mbm, -, -, t, -, hmem, heq⟩ := freeMemBlock_eq hleft hfree.1
  have hinv := hleft.freeMemBlock hfree
  change Inv ((Slab.freeMemBlock { s with rcu := s.rcu.filter (· ≠ mbr) } mbr.block).memFree
    mbr.self)
  rw [heq] at hinv ⊢
  refine hinv.memFree ?_ ?_ ?_
  · exact fun x hx => (hI.rcu_self_ne hmbr ((hmem x).1 hx).1).1
  · exact fun x hx => (hI.rcu_self_ne hmbr ((hmem x).1 hx).1).2
  · intro r hr h
    have hreg := hI.regions _ (hI.rcu_host r (List.mem_filter.1 hr).1) _ (hI.rcu_host mbr hmbr) h
    simp only [Region.mk.injEq, Use.rcu.injEq, true_and] at hreg
    exact hfree.2 r hr hreg.2

/-! ### Every run -/

lemma Inv.halted {h : Option Halt} (hh : h ≠ some .bug) : Inv { s with halt := h } :=
  { hI with no_bug := hh }

lemma Inv.kmemCacheCreate {name : String} {flags : ℕ} {ctor : Bool}
    (hok : BlockOk s sizeofCache m b) : Inv (kmemCacheCreate s name size flags ctor m b) := by
  have hgive := hI.give_allocMemBlock hok (.inl rfl)
  unfold Slab.kmemCacheCreate
  obtain heq | ⟨self, c, t, -, -, -, -, heq⟩ := allocMemBlock_cases hI hok
  · rw [heq]
    split_ifs
    · exact hI.halted (by cases hs : s.halt with
        | none => simp
        | some => simpa [hs] using hI.no_bug)
    · exact hI
  · rw [heq] at hgive ⊢
    refine { hgive with cache_size := ?_ }
    intro c' cache hc
    by_cases hcc : c' = c
    · subst hcc
      simp only [Function.update_self, Option.some.injEq] at hc ⊢
      rw [← hc]
    · simp only [Function.update_of_ne hcc] at hc ⊢
      exact hI.cache_size c' cache hc

lemma Inv.kmemCacheAlloc {cache : KmemCache} (hc : s.caches c = some cache)
    (hok : BlockOk s cache.size m b) : Inv (kmemCacheAlloc s c m b) := by
  have hgive := hI.give_allocMemBlock hok (.inr (hI.cache_size c cache hc))
  have hreq : (allocMemBlock s cache.size m b).1.requested = s.requested := by
    obtain heq | ⟨self, p, t, -, -, -, -, heq⟩ := allocMemBlock_cases hI hok
    all_goals rw [heq]
    rfl
  simp only [Slab.kmemCacheAlloc, hc, hreq]
  split_ifs
  · exact { hgive with }
  · exact hgive

lemma Inv.kmemCacheFree {mbr : Option ℕ} (hfree : Freeable s p)
    (hok : HostOk s.host sizeofRcu mbr) : Inv (kmemCacheFree s c p mbr) := by
  unfold Slab.kmemCacheFree
  split
  · exact hI
  split_ifs with hflag
  · cases mbr with
    | none => exact hI.halted (by simp)
    | some =>
      have hhost := hI.memAlloc (.rcu p) hok
      refine { hhost with rcu_live := ?_, rcu_once := ?_, rcu_host := ?_ }
      · rintro r (_ | ⟨_, hr⟩)
        · exact hfree.1
        · exact hI.rcu_live r hr
      · simp only [mem_cons]
        rintro r (rfl | hr) r' (rfl | hr') h
        · rfl
        · exact absurd h.symm (hfree.2 r' hr')
        · exact absurd h (hfree.2 r hr)
        · exact hI.rcu_once r hr r' hr' h
      · rintro r (_ | ⟨_, hr⟩)
        · exact .head _
        · exact hhost.rcu_host r hr
  · exact hI.freeMemBlock hfree

/-- Every call keeps the invariant. -/
theorem Inv.apply {a : Act} (ha : Contract s a) : Inv (apply s a) := by
  cases a with
  | kmalloc => exact hI.give_allocMemBlock ha.2 (.inl rfl)
  | kfree p =>
    change Inv (kfree s p)
    unfold kfree
    split_ifs with hp
    · exact hI
    · exact hI.freeMemBlock (ha.resolve_left hp)
  | kmemCacheCreate => exact hI.kmemCacheCreate ha.2
  | kmemCacheDestroy => exact hI.freeMemBlock ha
  | kmemCacheAlloc =>
    obtain ⟨cache, hc, hok⟩ := ha
    exact hI.kmemCacheAlloc hc hok
  | kmemCacheFree => exact hI.kmemCacheFree ha.2.1 ha.2.2
  | kmemRcuFree => exact hI.kmemRcuFree ha

end

theorem inv_of_reachable (h : machine.Reachable s) : Inv s :=
  h.invariant init_inv fun _ _ hI (ha : _ ∧ _) => hI.apply ha.2

/-! ### The law -/

lemma Inv.exists_record (hI : Inv s) {b : Block} (hb : b ∈ s.live) (hsize : b.size < uintRange) :
    ∃ m ∈ s.metaTree.toList, m.block = b.ptr ∧ m.size = b.size := by
  obtain ⟨m, hm, hmb, h | h⟩ := hI.recorded b hb
  · exact ⟨m, hm, hmb, h⟩
  · exact ⟨m, hm, hmb, h.trans (Nat.mod_eq_of_lt hsize)⟩

lemma Inv.perm_live (hI : Inv s) (hsize : ∀ b ∈ s.live, b.size < uintRange) :
    (s.metaTree.toList.map fun m => (⟨m.block, m.size⟩ : Block)).Perm s.live := by
  have hnodup : (s.metaTree.toList.map fun m => (⟨m.block, m.size⟩ : Block)).Nodup := by
    refine List.pairwise_map.2 (hI.tree.sorted.imp fun {m m'} hlt h => ?_)
    exact hlt.ne (congrArg Block.ptr h)
  have hlive : s.live.Nodup := hI.live.imp fun hne h => hne (congrArg Block.ptr h)
  refine (perm_ext_iff_of_nodup hnodup hlive).2 fun b => ?_
  rw [mem_map]
  constructor
  · rintro ⟨m, hm, rfl⟩
    obtain ⟨b, hb, hbm⟩ := hI.given m hm
    obtain ⟨m', hm', hmb, hms⟩ := hI.exists_record hb (hsize b hb)
    obtain rfl := hI.tree.eq_of_key_eq hm hm' (hbm.symm.trans hmb.symm)
    rwa [hmb, hms]
  · intro hb
    obtain ⟨m, hm, hmb, hms⟩ := hI.exists_record hb (hsize b hb)
    exact ⟨m, hm, by rw [hmb, hms]⟩

/-- The law holds in a state exactly when no block was requested with more bytes than an
`unsigned int` can count. -/
theorem slabLaw_iff (h : machine.Reachable s) : SlabLaw s ↔ ∀ b ∈ s.live, b.size < uintRange := by
  have hI := inv_of_reachable h
  constructor
  · intro hlaw b hb
    obtain ⟨r, hr, hrb, hle⟩ := hlaw.backed b hb
    obtain ⟨m, hm, hmb, -⟩ := hI.recorded b hb
    have hreg := hI.regions r hr _ (hI.block_host m hm) (hrb.trans hmb.symm)
    rw [hreg] at hle
    exact lt_of_le_of_lt hle (Nat.mod_lt _ (by decide))
  · intro hsize
    have hfind (b : Block) (hb : b ∈ s.live) :
        ∃ m ∈ s.metaTree.toList, memBlockFindMeta s.metaTree b.ptr = some m ∧ m.block = b.ptr ∧
          m.size = b.size := by
      obtain ⟨m, hm, hmb, hms⟩ := hI.exists_record hb (hsize b hb)
      exact ⟨m, hm, hI.tree.find_eq_some.2 ⟨hm, hmb⟩, hmb, hms⟩
    exact
      { ordered := hI.tree.sorted
        exact := hI.perm_live hsize
        find_live := fun b hb => by
          obtain ⟨m, -, h⟩ := hfind b hb
          exact ⟨m, h⟩
        find_other := fun p hp => by
          refine hI.tree.find_eq_none.2 fun m hm hmp => ?_
          obtain ⟨b, hb, hbm⟩ := hI.given m hm
          exact hp b hb (hbm.trans hmp)
        ksize_live := fun b hb => by
          obtain ⟨m, -, hm, -, hms⟩ := hfind b hb
          rw [ksize, hm, Option.map_some, hms]
        backed := fun b hb => by
          obtain ⟨m, hm, -, hmb, hms⟩ := hfind b hb
          refine ⟨_, hI.block_host m hm, hmb, ?_⟩
          rw [hms, Nat.mod_eq_of_lt (hsize b hb)]
        no_bug := hI.no_bug }

/-- Two blocks and a cache with an object of it, and the frees of a block, of the object and of
the cache. -/
def mixedRun : List Act :=
  [.kmalloc 100 (some 4096) (some 8192), .kmalloc 24 (some 4160) (some 6000),
    .kmemCacheCreate "inode" 64 SLAB_DESTROY_BY_RCU true (some 4224) (some 7000),
    .kmemCacheAlloc 7000 (some 4288) (some 9000), .kfree 8192,
    .kmalloc 16 (some 8192) (some 4096), .kmemCacheFree 7000 9000 (some 5000),
    .kmemRcuFree ⟨5000, 9000⟩, .kmemCacheDestroy 7000]

theorem slabLaw_mixedRun : machine.Reachable (machine.runFrom init mixedRun) ∧
      SlabLaw (machine.runFrom init mixedRun) := by
  have hreach : machine.Reachable (machine.runFrom init mixedRun) :=
    Machine.reachable_of_admits mixedRun (by decide)
  exact ⟨hreach, (slabLaw_iff hreach).2 (by decide)⟩

/-- A request of eight bytes more than an `unsigned int` can count, for which the host gives eight
bytes. -/
def cutRun : List Act := [.kmalloc (2 ^ 32 + 8) (some 4096) (some 8192)]

theorem not_slabLaw_cutRun : machine.Reachable (machine.runFrom init cutRun) ∧
      ¬ SlabLaw (machine.runFrom init cutRun) := by
  refine ⟨Machine.reachable_of_admits cutRun (by decide), fun hlaw => ?_⟩
  have hback := hlaw.backed ⟨8192, 2 ^ 32 + 8⟩ (by decide)
  exact absurd hback (by decide)

end LklPort.Slab
