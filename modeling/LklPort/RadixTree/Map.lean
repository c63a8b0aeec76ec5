import LklPort.RadixTree.Node

/-!
# A radix tree as a map

The functions on whole trees: each keeps the tree well formed and changes what it has at the index
it is called with. A tree that has become higher or lower has the same entries.
-/

namespace LklPort.RadixTree

open Option Function

variable {α : Type}

/-- A tree is well formed if its root is a well-formed slot, with the pointer marked. -/
structure RootWF (root : Root α) : Prop where
  height_le : root.height ≤ 11
  slot : SlotWF root.height 0 (root.rnode.map Prod.snd) root.tags
  bit : ∀ b p, root.rnode = some (b, p) → b = decide (0 < root.height)

/-- What the tree has at an index. -/
def Root.entry (root : Root α) (i : Index) : Entry α :=
  if maxindex root.height < i.toNat then none
  else RadixTree.entry root.height (root.rnode.map Prod.snd) root.tags i

lemma maxindex_eq : ∀ h < 11, maxindex h = 2 ^ (6 * h) - 1 := by decide

variable {i : Index} {h : ℕ} {root : Root α} {a : α}

lemma leading_eq_zero_iff : leading i h = 0 ↔ i.toNat < 2 ^ (6 * h) := by
  rw [leading, Nat.div_eq_zero_iff]
  have := Nat.two_pow_pos (6 * h)
  omega

lemma leading_of_ge (i : Index) (hh : 11 ≤ h) : leading i h = 0 := by
  rw [leading_eq_zero_iff]
  calc i.toNat < 2 ^ 64 := i.isLt
    _ ≤ 2 ^ (6 * h) := Nat.pow_le_pow_right (by decide) (by omega)

lemma maxindex_lt_iff : maxindex h < i.toNat ↔ leading i h ≠ 0 := by
  by_cases hh : h < 11
  · rw [maxindex_eq h hh, Ne, leading_eq_zero_iff]
    have := Nat.two_pow_pos (6 * h)
    omega
  · have hmax : maxindex h = 2 ^ 64 - 1 := by
      unfold maxindex
      rw [if_pos (by omega)]
    rw [hmax, leading_of_ge i (by omega)]
    omega

lemma not_maxindex_lt (hi : leading i h = 0) : ¬ maxindex h < i.toNat := by
  rw [maxindex_lt_iff, not_not]
  exact hi

variable {r : Root α} {slot : Option (Ptr α)} {bits b : Tag → Bool} {p : Ptr α}
  {n : Node (Ptr α)}

namespace Root

lemma entry_of_leading (hi : leading i r.height = 0) :
    r.entry i = RadixTree.entry r.height (r.rnode.map Prod.snd) r.tags i := by
  rw [entry, if_neg (not_maxindex_lt hi)]

lemma entry_of_leading_ne (hi : leading i r.height ≠ 0) : r.entry i = none := by
  rw [entry, if_pos (maxindex_lt_iff.mpr hi)]

lemma leading_of_entry (he : root.entry i ≠ none) : leading i root.height = 0 := by
  by_contra hi
  exact he (entry_of_leading_ne hi)

lemma entry_of_rnode (hr : root.rnode = none) (i : Index) : root.entry i = none := by
  rw [entry, hr]
  split_ifs
  · rfl
  · exact entry_none _ _ _

/-- The tree with something else below its root. -/
def put (root : Root α) (slot : Option (Ptr α)) (bits : Tag → Bool) : Root α :=
  { root with rnode := slot.map fun p => (decide (0 < root.height), p), tags := bits }

lemma put_rnode (root : Root α) (slot : Option (Ptr α)) (bits : Tag → Bool) :
    (root.put slot bits).rnode.map Prod.snd = slot := by
  simp [put, Function.comp_def]

lemma entry_of_only (hempty : ∀ o, o ≠ 0 → n.slots o = none) {low high : Root α}
    (hh : high.height = low.height + 1) {b : Bool} (hn : high.rnode = some (b, .node n))
    (hslot : n.slots 0 = low.rnode.map Prod.snd) (hbits : (fun t => n.tags t 0) = low.tags)
    (i : Index) : high.entry i = low.entry i := by
  have hstep := leading_eq_succ i low.height
  rw [← hh] at hstep
  by_cases hi : leading i high.height = 0
  · rw [entry_of_leading hi, hn, hh, map_some, RadixTree.entry]
    by_cases ho : offset i low.height = 0
    · rw [entry_of_leading (by rw [hstep, hi, ho]; rfl), ho, hslot, hbits]
    · rw [hempty _ ho, entry_none, entry_of_leading_ne]
      intro hzero
      apply ho
      rw [Fin.ext_iff, Fin.val_zero]
      omega
  · rw [entry_of_leading_ne hi, entry_of_leading_ne]
    omega

end Root

lemma RootWF.cases (hr : RootWF root) :
    root.rnode = none ∨ (∃ a, root.height = 0 ∧ root.rnode = some (false, .item a)) ∨
      ∃ h n, root.height = h + 1 ∧ root.rnode = some (true, .node n) := by
  rcases hrnode : root.rnode with _ | ⟨b, p⟩
  · exact .inl rfl
  right
  have hslot := hr.slot
  have hbit := hr.bit b p hrnode
  rw [hrnode] at hslot
  cases hh : root.height with
  | zero =>
    rw [hh] at hslot hbit
    obtain ⟨a, rfl⟩ := hslot.exists_item
    exact .inl ⟨a, rfl, by rw [hbit]; rfl⟩
  | succ h =>
    rw [hh] at hslot hbit
    obtain ⟨n, rfl⟩ := hslot.exists_node
    exact .inr ⟨h, n, rfl, by rw [hbit]; simp⟩

lemma rootWF_init : RootWF (init α) :=
  ⟨Nat.zero_le 11, slotWF_none.mpr fun _ => rfl, by simp [init]⟩

lemma RootWF.put (hr : RootWF root) (hs : SlotWF root.height 0 slot bits) :
    RootWF (root.put slot bits) := by
  refine ⟨hr.height_le, by rw [Root.put_rnode]; exact hs, ?_⟩
  intro b p hp
  obtain ⟨q, -, hq⟩ := Option.map_eq_some_iff.mp hp
  cases hq
  rfl

lemma RootWF.put_eq (hr : RootWF root) {b : Bool} (hn : root.rnode = some (b, p)) (p' : Ptr α)
    (bits : Tag → Bool) :
    { root with rnode := some (b, p'), tags := bits } = root.put (some p') bits := by
  rw [hr.bit b p hn]
  rfl

lemma RootWF.put_self (hr : RootWF root) : root.put (root.rnode.map Prod.snd) root.tags = root := by
  obtain ⟨height, tags, _ | ⟨b, p⟩⟩ := root
  · rfl
  · exact (hr.put_eq rfl p tags).symm

/-- The tree is well formed after a change, and its entries differ at one index only. -/
structure RootChanged (root : Root α) (i : Index) (f : Entry α → Entry α) (root' : Root α) :
    Prop where
  wf : RootWF root'
  entry_eq : ∀ j, root'.entry j = if j = i then f (root.entry j) else root.entry j

variable {f : Entry α → Entry α}

lemma RootWF.unchanged (hr : RootWF root) (he : f (root.entry i) = root.entry i) :
    RootChanged root i f root := by
  refine ⟨hr, fun j => ?_⟩
  split_ifs with hji
  · rw [hji, he]
  · rfl

lemma Changed.rootChanged {slot0 : Option (Ptr α)}
    (hc : Changed root.height 0 i f slot0 root.tags slot bits) (hr : RootWF root)
    (hn : root.rnode.map Prod.snd = slot0) (hi : leading i root.height = 0) :
    RootChanged root i f (root.put slot bits) := by
  subst hn
  refine ⟨hr.put hc.wf, fun j => ?_⟩
  by_cases hj : leading j root.height = 0
  · rw [Root.entry_of_leading hj, Root.entry_of_leading (r := root.put slot bits) hj,
      Root.put_rnode]
    exact hc.entry_eq j hj
  · have hji : j ≠ i := fun hji => hj (by rw [hji]; exact hi)
    rw [if_neg hji, Root.entry_of_leading_ne hj,
      Root.entry_of_leading_ne (r := root.put slot bits) hj]

lemma RootWF.exists_ptr (hr : RootWF root) {e : α × (Tag → Bool)} (he : root.entry i = some e) :
    ∃ bit p, root.rnode = some (bit, p) ∧ leading i root.height = 0 ∧
      SlotWF root.height 0 (some p) root.tags ∧
      entry root.height (some p) root.tags i = some e := by
  have hi : leading i root.height = 0 := Root.leading_of_entry (by simp [he])
  have hslot := hr.slot
  rcases hn : root.rnode with _ | ⟨bit, p⟩
  · simp [Root.entry_of_rnode hn] at he
  · rw [Root.entry_of_leading hi, hn] at he
    rw [hn] at hslot
    exact ⟨bit, p, rfl, hi, hslot, he⟩

/-! ### Lookup -/

lemma lookup_eq (hr : RootWF root) (i : Index) :
    lookup root i = some ((root.entry i).map Prod.fst) := by
  have hslot := hr.slot
  obtain hn | ⟨a, hh, hn⟩ | ⟨h, n, hh, hn⟩ := hr.cases
  · rw [Root.entry_of_rnode hn, lookup, hn]
    rfl
  · rw [lookup, Root.entry, hn, hh]
    show (if maxindex 0 < i.toNat then _ else _) = _
    split_ifs <;> rfl
  · rw [hn, hh] at hslot
    rw [lookup, Root.entry, hn, hh]
    simp only [hslot.height]
    split_ifs
    · rfl
    · exact lookupDown_eq i hslot

lemma tagGet_eq (hr : RootWF root) (i : Index) (t : Tag) :
    tagGet root i t = some (Entry.tag (root.entry i) t) := by
  have hslot := hr.slot
  by_cases ht : root.tags t = false
  · -- no item has the tag
    rw [tagGet, if_pos ht]
    by_contra htag
    have hne : root.entry i ≠ none := fun he => htag (by rw [he]; rfl)
    have hi := Root.leading_of_entry hne
    rw [Root.entry_of_leading hi] at htag hne
    obtain ⟨⟨a, b⟩, he⟩ := ne_none_iff_exists'.mp hne
    rw [he] at htag
    have hset := (hslot.bit_iff t).mpr ⟨i, a, b, hi, he, by simpa [Entry.tag] using htag⟩
    simp [ht] at hset
  rw [tagGet, if_neg ht]
  obtain hn | ⟨a, hh, hn⟩ | ⟨h, n, hh, hn⟩ := hr.cases
  · rw [Root.entry_of_rnode hn, hn]
    rfl
  · have hzero : maxindex 0 < i.toNat ↔ i ≠ 0 := by
      rw [maxindex_lt_iff, leading_zero, Ne, Ne, BitVec.toNat_eq]
      rfl
    rw [Root.entry, hn, hh]
    by_cases hi : i = 0
    · simpa [Entry.tag, entry, hi] using ht
    · rw [if_pos (hzero.mpr hi)]
      simpa [Entry.tag] using hi
  · rw [hn, hh] at hslot
    rw [Root.entry, hn, hh]
    simp only [hslot.height]
    split_ifs
    · rfl
    · exact tagGetDown_eq i t hslot

/-! ### Insertion -/

lemma growHeight_spec (i : Index) (rounds : ℕ) {k : ℕ} (hk : k ≤ 11) (hr : 11 ≤ k + rounds) :
    k ≤ growHeight i rounds k ∧ growHeight i rounds k ≤ 11 ∧
      leading i (growHeight i rounds k) = 0 ∧
      ∀ h, k ≤ h → h < growHeight i rounds k → leading i h ≠ 0 := by
  induction rounds generalizing k with
  | zero => exact ⟨le_refl k, hk, leading_of_ge i hr, fun h h1 h2 => absurd h1 (not_le.mpr h2)⟩
  | succ _ ih =>
    rw [growHeight]
    split_ifs with hi
    · rw [maxindex_lt_iff] at hi
      have hk' : k ≠ 11 := fun hk' => hi (leading_of_ge i (by omega))
      obtain ⟨h1, h2, h3, h4⟩ := ih (k := k + 1) (by omega) (by omega)
      refine ⟨by omega, h2, h3, fun h hle hlt => ?_⟩
      rcases Nat.eq_or_lt_of_le hle with rfl | hle
      · exact hi
      · exact h4 h hle hlt
    · rw [maxindex_lt_iff, not_not] at hi
      exact ⟨le_refl k, hk, hi, fun h h1 h2 => absurd h1 (by omega)⟩

lemma RootWF.grow (hr : RootWF root) (hn : root.rnode.isSome) (hh : root.height < 11) :
    RootWF (grow root) := by
  obtain ⟨⟨b, p⟩, hp⟩ := Option.isSome_iff_exists.mp hn
  have hslot := hr.slot
  refine ⟨hh, ⟨rfl, ?_, ?_, ?_⟩, ?_⟩
  · rw [hp]
    have hempty : (used fun _ : Offset => (none : Option (Ptr α))).card = 0 := by simp [used]
    have hadd : (used (update (fun _ : Offset => none) 0 (some p))).card =
        (used fun _ : Offset => (none : Option (Ptr α))).card + 1 := card_used_add rfl p
    rw [hempty] at hadd
    exact hadd.symm
  · intro o
    by_cases ho : o = 0
    · subst ho
      simpa using hslot
    · simp [ho]
  · intro t
    simp [RadixTree.grow]
  · intro b' p' hb'
    cases hb'
    simp [RadixTree.grow]

lemma entry_grow (root : Root α) (i : Index) : (grow root).entry i = root.entry i := by
  refine Root.entry_of_only (fun o ho => ?_) rfl rfl ?_ ?_ i
  · simp [ho]
  · simp
  · exact funext fun t => by simp

lemma extendLoop_spec (rounds : ℕ) (hr : RootWF root) (hn : root.rnode.isSome)
    (hh : root.height + rounds ≤ 11) (allocs : List Bool) :
    ∃ ok root' allocs', extendLoop rounds root allocs = (ok, root', allocs') ∧ RootWF root' ∧
      (∀ i, root'.entry i = root.entry i) ∧
      (ok = true → root'.height = root.height + rounds) := by
  induction rounds generalizing root allocs with
  | zero => exact ⟨true, root, allocs, rfl, hr, fun _ => rfl, fun _ => rfl⟩
  | succ rounds ih =>
    rcases halloc : nodeAlloc allocs with ⟨_ | _, al⟩
    · exact ⟨false, root, al, by simp only [extendLoop, halloc], hr, fun _ => rfl, by simp⟩
    · obtain ⟨ok, root', al', heq, hr', hent, hheight⟩ :=
        ih (hr.grow hn (by omega)) rfl (by show root.height + 1 + rounds ≤ 11; omega) al
      refine ⟨ok, root', al', by simp only [extendLoop, halloc, heq], hr', ?_, ?_⟩
      · intro i
        rw [hent, entry_grow]
      · intro hok
        rw [hheight hok]
        show root.height + 1 + rounds = _
        omega

lemma extend_spec (hr : RootWF root) (hi : leading i root.height ≠ 0) (allocs : List Bool) :
    ∃ ok root' allocs', extend root i allocs = (ok, root', allocs') ∧ RootWF root' ∧
      (∀ j, root'.entry j = root.entry j) ∧ (ok = true → leading i root'.height = 0) := by
  have hne : root.height ≠ 11 := fun hh => hi (leading_of_ge i (by omega))
  have hle := hr.height_le
  obtain ⟨h1, h2, h3, -⟩ := growHeight_spec i 11 (k := root.height + 1) (by omega) (by omega)
  cases hn : root.rnode with
  | none =>
    have hslot := hr.slot
    rw [hn] at hslot
    refine ⟨true, { root with height := growHeight i 11 (root.height + 1) }, allocs,
      by simp only [extend, hn], ⟨h2, ?_, ?_⟩, ?_, fun _ => h3⟩
    · rw [hn]
      exact slotWF_none.mpr (slotWF_none.mp hslot)
    · intro b p hp
      cases hn.symm.trans hp
    · intro j
      rw [Root.entry_of_rnode hn, Root.entry_of_rnode]
      exact hn
  | some =>
    obtain ⟨ok, root', al', heq, hr', hent, hheight⟩ :=
      extendLoop_spec (growHeight i 11 (root.height + 1) - root.height) hr (by simp [hn])
        (by omega) allocs
    refine ⟨ok, root', al', by simp only [extend, hn, heq], hr', hent, ?_⟩
    intro hok
    rw [hheight hok, Nat.add_sub_of_le (by omega)]
    exact h3

/-- What is at the index of an insertion afterwards. -/
def Ret.effect (r : Ret) (a : α) (e : Entry α) : Entry α :=
  if r = .ok then some (a, fun _ => false) else e

section

variable (hr : RootWF root)

include hr

lemma insertItem_spec (hi : leading i root.height = 0) (a : α)
    (allocs : List Bool) : ∃ r root', insertItem root i a allocs = some (r, root') ∧
      RootChanged root i (r.effect a) root' ∧ (r = .eexist ↔ root.entry i ≠ none) ∧
      (r = .eexist → root' = root) := by
  obtain ⟨r, slot', al', heq, hins⟩ := insertDown_spec a hr.slot hi allocs
  have hbug : ¬ (root.height = 0 ∧ r = .ok ∧ (root.tags 0 = true ∨ root.tags 1 = true)) := by
    rintro ⟨hh, rfl, htags⟩
    have hslot := hr.slot
    rw [hh] at hslot hins
    simp [hins.bits_eq_false hslot] at htags
  have hput : { root with rnode := slot'.map fun p =>
      ((root.rnode.map Prod.fst).getD (decide (0 < root.height)), p) } =
      root.put slot' root.tags := by
    cases hn : root.rnode with
    | none => rfl
    | some x =>
      rw [map_some, getD_some, hr.bit x.1 x.2 hn]
      rfl
  refine ⟨r, root.put slot' root.tags, by simp only [insertItem, heq, if_neg hbug, hput],
    hins.changed.rootChanged hr rfl hi, ?_, fun hr' => ?_⟩
  · rw [hins.eexist_iff, Root.entry_of_leading hi]
  · rw [hins.same hr', hr.put_self]

lemma insert_spec (i : Index) (a : α) (allocs : List Bool) :
    ∃ r root', insert root i a allocs = some (r, root') ∧ RootChanged root i (r.effect a) root' ∧
      (r = .eexist ↔ root.entry i ≠ none) ∧ (r = .eexist → root' = root) := by
  by_cases hi : leading i root.height = 0
  · rw [insert, if_neg (not_maxindex_lt hi)]
    exact insertItem_spec hr hi a allocs
  · rw [insert, if_pos (maxindex_lt_iff.mpr hi)]
    have hnone := Root.entry_of_leading_ne hi
    obtain ⟨ok, root1, al, heq, hr1, hent1, hok⟩ := extend_spec hr hi allocs
    rw [heq]
    cases ok with
    | false =>
      exact ⟨.enomem, root1, rfl, ⟨hr1, by simpa [Ret.effect] using hent1⟩, by simp [hnone],
        by simp⟩
    | true =>
      obtain ⟨r, root', heq', hc, hexist, -⟩ := insertItem_spec hr1 (hok rfl) a al
      rw [hent1] at hexist
      refine ⟨r, root', heq', ⟨hc.wf, fun j => ?_⟩, hexist, fun hr => ?_⟩
      · rw [hc.entry_eq, hent1]
      · exact absurd hnone (hexist.mp hr)

/-! ### Tags -/

lemma tagSet_spec (t : Tag) (he : root.entry i = some (a, b)) :
    ∃ root', tagSet root i t = some (some a, root') ∧
      RootChanged root i (Entry.setTag · t true) root' := by
  obtain ⟨bit, p, hn, hi, hslot, he⟩ := hr.exists_ptr he
  obtain ⟨p', heq, hc⟩ := tagSetDown_spec t hslot hi he
  refine ⟨root.put (some p') (update root.tags t true), ?_, hc.rootChanged hr (congrArg _ hn) hi⟩
  rw [← hr.put_eq hn]
  simp only [tagSet, if_neg (not_maxindex_lt hi), hn, heq]

lemma tagClear_spec (i : Index) (t : Tag) :
    ∃ root', tagClear root i t = some ((root.entry i).map Prod.fst, root') ∧
      root'.height = root.height ∧ RootChanged root i (Entry.setTag · t false) root' := by
  by_cases he : root.rnode = none ∨ leading i root.height ≠ 0
  · have hnone : root.entry i = none := by
      rcases he with hn | hi
      · exact Root.entry_of_rnode hn i
      · exact Root.entry_of_leading_ne hi
    refine ⟨root, ?_, rfl, hr.unchanged (by rw [hnone]; rfl)⟩
    rw [hnone, tagClear]
    rcases he with hn | hi
    · rw [hn]
      split_ifs <;> rfl
    · rw [if_pos (maxindex_lt_iff.mpr hi)]
      rfl
  · rw [not_or, not_not] at he
    obtain ⟨hn, hi⟩ := he
    obtain ⟨⟨bit, p⟩, hn⟩ := ne_none_iff_exists'.mp hn
    have hslot := hr.slot
    rw [hn] at hslot
    obtain ⟨r, p', up, heq, hres, hc⟩ := tagClearDown_spec t hslot hi
    refine ⟨root.put (some p') (clearBits root.tags t up), ?_, rfl,
      hc.rootChanged hr (congrArg _ hn) hi⟩
    rw [← hr.put_eq hn, Root.entry_of_leading hi, hn, map_some, ← hres]
    simp only [tagClear, if_neg (not_maxindex_lt hi), hn, heq]
    rfl

end

/-! ### Deletion -/

lemma setTag_of_tag_eq_false {e : Entry α} {t : Tag} (h : Entry.tag e t = false) :
    Entry.setTag e t false = e := by
  rcases e with _ | ⟨a, b⟩
  · rfl
  · have hb : update b t false = b := Function.update_eq_self_iff.mpr h.symm
    rw [Entry.setTag, map_some, hb]

lemma clearForDelete_spec (hr : RootWF root) (hh : root.height = h + 1)
    (hi : leading i root.height = 0) (t : Tag) :
    ∃ root', clearForDelete root i t = some root' ∧ root'.height = root.height ∧
      RootChanged root i (Entry.setTag · t false) root' := by
  have hslot := hr.slot
  have hget : tagGetDown i t root.height (root.rnode.map Prod.snd) =
      some (Entry.tag (root.entry i) t) := by
    rw [Root.entry_of_leading hi]
    rw [hh] at hslot ⊢
    exact tagGetDown_eq i t hslot
  cases htag : Entry.tag (root.entry i) t with
  | true =>
    obtain ⟨root', heq, hc⟩ := tagClear_spec hr i t
    refine ⟨root', ?_, hc⟩
    simp only [clearForDelete, hget, htag, heq, map_some]
  | false =>
    exact ⟨root, by simp only [clearForDelete, hget, htag], rfl,
      hr.unchanged (setTag_of_tag_eq_false htag)⟩

lemma RootWF.lower (hr : RootWF root) (hh : root.height = h + 1)
    (hn : root.rnode = some (true, .node n)) (hc : n.count = 1) (hp : n.slots 0 = some p) :
    RootWF { root with height := h, rnode := some (decide (0 < h), p) } ∧
      (∀ i, Root.entry { root with height := h, rnode := some (decide (0 < h), p) } i =
        root.entry i) ∧ n.rcuFree = emptyNode n.height := by
  have hle := hr.height_le
  have hslot := hr.slot
  rw [hn, hh] at hslot
  have hempty : ∀ o, o ≠ 0 → n.slots o = none := fun o ho =>
    slots_eq_none_of_ne (by rw [← hslot.count, hc]) (by simp [hp]) ho
  -- the bits of the first slot are those of the tree
  have hbits : (fun t => n.tags t 0) = root.tags := by
    funext t
    rw [Bool.eq_iff_iff, hslot.bit t]
    constructor
    · intro ht
      exact ⟨0, ht⟩
    · rintro ⟨o, ho⟩
      by_cases h0 : o = 0
      · rw [← h0]
        exact ho
      · simp [hslot.tags_of_empty (hempty o h0)] at ho
  have hchild := hslot.child 0
  rw [hp, hbits] at hchild
  refine ⟨⟨by show h ≤ 11; omega, hchild, ?_⟩, fun i => ?_, rcuFree_eq hslot hempty⟩
  · intro b q hq
    cases hq
    rfl
  · refine (Root.entry_of_only hempty ?_ hn ?_ ?_ i).symm
    · exact hh
    · exact hp
    · exact hbits

lemma shrink_spec (h : ℕ) (hr : RootWF root) (hh : root.height = h) (hn : root.rnode.isSome) :
    ∃ root' nodes, shrink h root = some (root', nodes) ∧ RootWF root' ∧
      (∀ i, root'.entry i = root.entry i) ∧ ∀ n ∈ nodes, n.rcuFree = emptyNode n.height := by
  induction h generalizing root with
  | zero => exact ⟨root, [], rfl, hr, fun _ => rfl, by simp⟩
  | succ _ ih =>
    obtain hnone | ⟨a, h0, -⟩ | ⟨h', n, -, hrn⟩ := hr.cases
    · simp [hnone] at hn
    · omega
    by_cases hc : n.count = 1
    · cases hp : n.slots 0 with
      | none =>
        exact ⟨root, [], by simp only [shrink, hrn, hc, hp]; rfl, hr, fun _ => rfl, by simp⟩
      | some =>
        obtain ⟨hr1, hent1, hfree1⟩ := hr.lower hh hrn hc hp
        obtain ⟨root', nodes, heq, hr', hent, hfree⟩ := ih hr1 rfl rfl
        refine ⟨root', n :: nodes, by simp [shrink, hrn, hc, hp, heq], hr', ?_, ?_⟩
        · intro i
          rw [hent, hent1]
        · intro m hm
          rcases List.mem_cons.mp hm with rfl | hm
          · exact hfree1
          · exact hfree m hm
    · exact ⟨root, [], by simp only [shrink, hrn, if_pos hc], hr, fun _ => rfl, by simp⟩

lemma remove_spec (hr : RootWF root) (he : root.entry i = some (a, fun _ => false)) :
    ∃ root' nodes, remove root i = some (root', nodes) ∧
      RootChanged root i (fun _ => none) root' ∧ ∀ n ∈ nodes, n.rcuFree = emptyNode n.height := by
  obtain ⟨bit, p, hn, hi, hslot, he⟩ := hr.exists_ptr he
  obtain ⟨res, nodes, heq, hc, hfree⟩ := removeDown_spec hslot hi he
  have hput := hc.rootChanged hr (congrArg (Option.map Prod.snd) hn) hi
  cases res with
  | freed =>
    refine ⟨init α, nodes, by simp only [remove, hn, heq]; rfl, ⟨rootWF_init, fun j => ?_⟩, hfree⟩
    rw [← hput.entry_eq j, Root.entry_of_rnode rfl, Root.entry_of_rnode rfl]
  | kept p' here =>
    cases here with
    | false =>
      refine ⟨root.put (some p') root.tags, nodes, ?_, hput, hfree⟩
      rw [← hr.put_eq hn]
      simp [remove, hn, heq]
    | true =>
      obtain ⟨root', nodes', heq', hr', hent', hfree'⟩ := shrink_spec root.height hput.wf rfl rfl
      refine ⟨root', nodes ++ nodes', ?_, ⟨hr', fun j => by rw [hent', hput.entry_eq]⟩, ?_⟩
      · rw [Removed.slot, ← hr.put_eq hn] at heq'
        simp [remove, hn, heq, heq']
      · intro n hn
        rcases List.mem_append.mp hn with hn | hn
        · exact hfree n hn
        · exact hfree' n hn

lemma clearTags_spec (hr : RootWF root) (hh : root.height = h + 1) {b : Tag → Bool}
    (he : root.entry i = some (a, b)) :
    ∃ root', ((clearForDelete root i 0).bind fun root => clearForDelete root i 1) = some root' ∧
      RootChanged root i (fun _ => some (a, fun _ => false)) root' := by
  obtain ⟨-, -, -, hi, -⟩ := hr.exists_ptr he
  obtain ⟨root1, heq1, hh1, hc1⟩ := clearForDelete_spec hr hh hi 0
  obtain ⟨root2, heq2, -, hc2⟩ :=
    clearForDelete_spec hc1.wf (hh1.trans hh) (by rw [hh1]; exact hi) 1
  refine ⟨root2, by rw [heq1, bind_some, heq2], hc2.wf, fun j => ?_⟩
  rw [hc2.entry_eq, hc1.entry_eq]
  split_ifs with hji
  · have hclear : update (update b 0 false) 1 false = fun _ => false := by
      funext t
      match t with
      | 0 => rfl
      | 1 => rfl
    rw [hji, he]
    simp only [Entry.setTag, map_some, hclear]
  · rfl

lemma delete_spec (hr : RootWF root) (i : Index) :
    ∃ root' nodes, delete root i = some ((root.entry i).map Prod.fst, root', nodes) ∧
      RootChanged root i (fun _ => none) root' ∧ ∀ n ∈ nodes, n.rcuFree = emptyNode n.height := by
  rcases he : root.entry i with _ | ⟨a, b⟩
  · refine ⟨root, [], ?_, hr.unchanged he.symm, by simp⟩
    have hslot := hr.slot
    rw [delete]
    by_cases hi : maxindex root.height < i.toNat
    · rw [if_pos hi]
      rfl
    rw [Root.entry, if_neg hi] at he
    rw [if_neg hi]
    rcases hn : root.rnode with _ | ⟨bit, p⟩ <;> rw [hn] at hslot he
    · have htags : { root with tags := fun _ => false } = root := by
        rw [← funext (slotWF_none.mp hslot)]
      simp only [← hn, htags, ite_self, map_none]
    · rw [map_some] at he
      simp only [lookupDown_eq i hslot, he, map_none]
  obtain ⟨bit, p, hn, hi, hslot, he'⟩ := hr.exists_ptr he
  have hmax := not_maxindex_lt hi
  have hlook := lookupDown_eq i hslot
  rw [he'] at hlook
  cases hh : root.height with
  | zero =>
    refine ⟨{ root with tags := fun _ => false, rnode := none }, [], ?_,
      ⟨⟨hr.height_le, slotWF_none.mpr fun _ => rfl, by simp⟩, fun j => ?_⟩, by simp⟩
    · simp only [delete, if_neg hmax, hn, hlook, map_some, if_pos hh]
    · rw [Root.entry_of_rnode rfl]
      split_ifs with hji
      · rfl
      · rw [Root.entry_of_leading_ne]
        intro hj
        rw [hh] at hi hj
        exact hji (eq_of_leading_zero hi hj)
  | succ =>
    obtain ⟨root1, heq1, hc1⟩ := clearTags_spec hr hh he
    have he1 := hc1.entry_eq i
    rw [if_pos rfl] at he1
    obtain ⟨root', nodes, heq, hc, hfree⟩ := remove_spec hc1.wf he1
    refine ⟨root', nodes, ?_, ⟨hc.wf, fun j => ?_⟩, hfree⟩
    · have hh' : ¬ root.height = 0 := by omega
      simp only [delete, if_neg hmax, hn, hlook, map_some, if_neg hh', heq1, heq]
    · rw [hc.entry_eq, hc1.entry_eq]
      split_ifs <;> rfl

end LklPort.RadixTree
