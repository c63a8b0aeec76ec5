import Mathlib.Data.Fintype.Card
import Mathlib.Tactic.Ring
import LklPort.RadixTree.Basic

/-!
# The slots of a radix tree

The root of a radix tree is a slot like those of its nodes: a pointer, perhaps to nothing, and two
tag bits beside it. So whatever holds of the tree is said of a slot with `h` levels below it, whose
indices are those that begin with `base`, and the loops are followed from slot to slot.

`SlotWF` is the invariant and `entry` is what a slot has at an index.
-/

namespace LklPort.RadixTree

open Function Finset

variable {α : Type}

/-- What the tree has at an index: an item and its tags. -/
abbrev Entry (α : Type) := Option (α × (Tag → Bool))

/-- The index without its last `h` groups of bits. -/
def leading (index : Index) (h : ℕ) : ℕ := index.toNat / 2 ^ (6 * h)

@[simp] lemma leading_zero (i : Index) : leading i 0 = i.toNat := by simp [leading]

variable {i : Index} {base h : ℕ} {bits : Tag → Bool} {p : Ptr α}

section

variable {slot : Option (Ptr α)}

lemma eq_of_leading_zero {j : Index} (hi : leading i 0 = base) (hj : leading j 0 = base) :
    j = i := by
  apply BitVec.eq_of_toNat_eq
  rw [← leading_zero j, ← leading_zero i, hj, hi]

lemma leading_eq_succ (i : Index) (h : ℕ) : leading i h = leading i (h + 1) * 64 + offset i h := by
  have hpow : 2 ^ (6 * (h + 1)) = 2 ^ (6 * h) * 64 := by ring
  rw [leading, leading, hpow, ← Nat.div_div_eq_div_mul]
  simp only [offset]
  omega

lemma leading_eq_child {o : Offset} :
    leading i h = base * 64 + o ↔ leading i (h + 1) = base ∧ offset i h = o := by
  rw [leading_eq_succ i h, Fin.ext_iff]
  omega

lemma leading_child (hi : leading i (h + 1) = base) :
    leading i h = base * 64 + offset i h := leading_eq_child.mpr ⟨hi, rfl⟩

/-- The slots in use. -/
def used {P : Type} (slots : Offset → Option P) : Finset Offset :=
  Finset.univ.filter fun o => (slots o).isSome

section Used

variable {P : Type} {slots : Offset → Option P} {o : Offset}

@[simp] lemma mem_used : o ∈ used slots ↔ (slots o).isSome := by simp [used]

lemma used_update (c : Option P) : used (update slots o c) =
    if c.isSome then Insert.insert o (used slots) else (used slots).erase o := by
  ext o'
  by_cases ho : o' = o <;> cases c <;> simp [ho]

lemma card_used_add (h : slots o = none) (c : P) :
    (used (update slots o (some c))).card = (used slots).card + 1 := by
  rw [used_update]
  exact card_insert_of_notMem (by simp [h])

lemma card_used_replace {c : P} (h : slots o = some c) (c' : P) :
    (used (update slots o (some c'))).card = (used slots).card := by
  rw [used_update]
  exact congrArg Finset.card (insert_eq_of_mem (by simp [h]))

lemma card_used_remove {c : P} (h : slots o = some c) :
    (used (update slots o none)).card = (used slots).card - 1 := by
  rw [used_update]
  exact card_erase_of_mem (by simp [h])

lemma slots_eq_none (h : (used slots).card = 0) (o : Offset) : slots o = none := by
  rw [card_eq_zero, eq_empty_iff_forall_notMem] at h
  simpa using h o

lemma slots_eq_none_of_ne (h : (used slots).card = 1) (ho : (slots o).isSome) {o' : Offset}
    (hne : o' ≠ o) : slots o' = none := by
  obtain ⟨x, hx⟩ := Finset.card_eq_one.mp h
  have hox : o ∈ used slots := mem_used.mpr ho
  rw [hx, mem_singleton] at hox
  have ho' : o' ∉ used slots := by
    rw [hx, mem_singleton, ← hox]
    exact hne
  simpa using ho'

end Used

/-! ### The invariant -/

/-- A slot with `h` levels below it is well formed. A bit of an empty slot is clear, and above a
node it is set if and only if the node has a slot with this bit. -/
def SlotWF : ℕ → ℕ → Option (Ptr α) → (Tag → Bool) → Prop
  | _, _, none, bits => ∀ t, bits t = false
  | 0, base, some (.item _), _ => base < 2 ^ 64
  | 0, _, some (.node _), _ => False
  | _ + 1, _, some (.item _), _ => False
  | h + 1, base, some (.node n), bits =>
    n.height = h + 1 ∧ n.count = (used n.slots).card ∧
      (∀ o : Offset, SlotWF h (base * 64 + o) (n.slots o) fun t => n.tags t o) ∧
      ∀ t, bits t = true ↔ ∃ o, n.tags t o = true

/-- What a slot has at an index. The bits of the last slot are the tags of the item. -/
def entry : ℕ → Option (Ptr α) → (Tag → Bool) → Index → Entry α
  | 0, some (.item a), bits, _ => some (a, bits)
  | h + 1, some (.node n), _, i =>
    entry h (n.slots (offset i h)) (fun t => n.tags t (offset i h)) i
  | _, _, _, _ => none

@[simp] lemma entry_none (h : ℕ) (bits : Tag → Bool) (i : Index) :
    entry h (none : Option (Ptr α)) bits i = none := by
  cases h <;> rfl

@[simp] lemma slotWF_none : SlotWF h base (none : Option (Ptr α)) bits ↔ ∀ t, bits t = false := by
  cases h <;> rfl

lemma SlotWF.exists_item (hp : SlotWF 0 base (some p) bits) : ∃ a, p = .item a := by
  cases p with
  | item a => exact ⟨a, rfl⟩
  | node => exact hp.elim

lemma SlotWF.exists_node (hp : SlotWF (h + 1) base (some p) bits) : ∃ n, p = .node n := by
  cases p with
  | item => exact hp.elim
  | node n => exact ⟨n, rfl⟩

section Fields

variable {n : Node (Ptr α)} (hn : SlotWF (h + 1) base (some (.node n)) bits)

include hn

lemma SlotWF.height : n.height = h + 1 := hn.1

lemma SlotWF.count : n.count = (used n.slots).card := hn.2.1

lemma SlotWF.child (o : Offset) : SlotWF h (base * 64 + o) (n.slots o) fun t => n.tags t o :=
  hn.2.2.1 o

lemma SlotWF.bit (t : Tag) : bits t = true ↔ ∃ o, n.tags t o = true := hn.2.2.2 t

lemma SlotWF.tags_of_empty {o : Offset} (ho : n.slots o = none) (t : Tag) : n.tags t o = false := by
  have hchild := hn.child o
  rw [ho, slotWF_none] at hchild
  exact hchild t

end Fields

lemma SlotWF.bit_iff (hs : SlotWF h base slot bits) (t : Tag) : bits t = true ↔
      ∃ i a b, leading i h = base ∧ entry h slot bits i = some (a, b) ∧ b t = true := by
  induction h generalizing base slot bits with
  | zero =>
    rcases slot with _ | p
    · simp [slotWF_none.mp hs t]
    obtain ⟨a, rfl⟩ := hs.exists_item
    constructor
    · intro ht
      refine ⟨BitVec.ofNat 64 base, a, bits, ?_, rfl, ht⟩
      rw [leading_zero, BitVec.toNat_ofNat, Nat.mod_eq_of_lt hs]
    · rintro ⟨i, a', b, -, he, hb⟩
      cases he
      exact hb
  | succ h ih =>
    rcases slot with _ | p
    · simp [slotWF_none.mp hs t]
    obtain ⟨n, rfl⟩ := hs.exists_node
    rw [hs.bit t]
    constructor
    · rintro ⟨o, ho⟩
      obtain ⟨i, a, b, hi, he, hb⟩ := (ih (hs.child o)).mp ho
      obtain ⟨hbase, rfl⟩ := leading_eq_child.mp hi
      exact ⟨i, a, b, hbase, he, hb⟩
    · rintro ⟨i, a, b, hi, he, hb⟩
      exact ⟨offset i h, (ih (hs.child _)).mpr ⟨i, a, b, leading_child hi, he, hb⟩⟩

/-! ### Changing one entry -/

/-- The slot is well formed after a change, and its entries differ at one index only. -/
structure Changed (h base : ℕ) (i : Index) (f : Entry α → Entry α) (slot : Option (Ptr α))
    (bits : Tag → Bool) (slot' : Option (Ptr α)) (bits' : Tag → Bool) : Prop where
  wf : SlotWF h base slot' bits'
  entry_eq : ∀ j, leading j h = base → entry h slot' bits' j =
    if j = i then f (entry h slot bits j) else entry h slot bits j

lemma changed_leaf {slot' : Option (Ptr α)} {bits' : Tag → Bool} {f : Entry α → Entry α}
    (hi : leading i 0 = base) (hwf : SlotWF 0 base slot' bits')
    (he : entry 0 slot' bits' i = f (entry 0 slot bits i)) :
    Changed 0 base i f slot bits slot' bits' := by
  refine ⟨hwf, fun j hj => ?_⟩
  rw [eq_of_leading_zero hi hj, if_pos rfl, he]

lemma SlotWF.unchanged {f : Entry α → Entry α} (hs : SlotWF h base slot bits)
    (he : f (entry h slot bits i) = entry h slot bits i) :
    Changed h base i f slot bits slot bits := by
  refine ⟨hs, fun j _ => ?_⟩
  split_ifs with hji
  · rw [hji, he]
  · rfl

/-! ### Changing one slot of a node -/

/-- `n'` is the node `n` with other contents of one slot. -/
structure Node.Put (n : Node (Ptr α)) (o : Offset) (slot : Option (Ptr α)) (bits : Tag → Bool)
    (n' : Node (Ptr α)) : Prop where
  height : n'.height = n.height
  count : n'.count = (used n'.slots).card
  slots : n'.slots = update n.slots o slot
  tags_self : ∀ t, n'.tags t o = bits t
  tags_of_ne : ∀ t o', o' ≠ o → n'.tags t o' = n.tags t o'

section Put

variable {n n' : Node (Ptr α)} {o : Offset} {bits' cbits : Tag → Bool}

section

variable (hn : SlotWF (h + 1) base (some (.node n)) bits) (ho : n.slots o = some p)

include hn ho

lemma SlotWF.put_replace (p' : Ptr α) : n.Put o (some p') (fun t => n.tags t o)
      { n with slots := update n.slots o (some p') } where
  height := rfl
  count := by
    rw [card_used_replace ho]
    exact hn.count
  slots := rfl
  tags_self _ := rfl
  tags_of_ne _ _ _ := rfl

lemma SlotWF.put_remove : n.Put o none (fun t => n.tags t o)
      { n with slots := update n.slots o none, count := n.count - 1 } where
  height := rfl
  count := by
    rw [card_used_remove ho, ← hn.count]
  slots := rfl
  tags_self _ := rfl
  tags_of_ne _ _ _ := rfl

end

lemma Node.Put.changed {f : Entry α → Entry α} (hput : n.Put (offset i h) slot cbits n')
    (hn : SlotWF (h + 1) base (some (.node n)) bits)
    (hc : Changed h (base * 64 + offset i h) i f (n.slots (offset i h))
      (fun t => n.tags t (offset i h)) slot cbits)
    (hbits : ∀ t, bits' t = true ↔ ∃ o, n'.tags t o = true) :
    Changed (h + 1) base i f (some (.node n)) bits (some (.node n')) bits' := by
  refine ⟨⟨by rw [hput.height, hn.height], hput.count, fun o => ?_, hbits⟩, fun j hj => ?_⟩
  · by_cases ho : o = offset i h
    · rw [ho, hput.slots, update_self, funext hput.tags_self]
      exact hc.wf
    · rw [hput.slots, update_of_ne ho, funext fun t => hput.tags_of_ne t o ho]
      exact hn.child o
  · rw [entry, entry, hput.slots]
    by_cases ho : offset j h = offset i h
    · rw [ho, update_self, funext hput.tags_self]
      exact hc.entry_eq j (leading_eq_child.mpr ⟨hj, ho⟩)
    · have hji : j ≠ i := fun hji => ho (by rw [hji])
      rw [update_of_ne ho, funext fun t => hput.tags_of_ne t _ ho, if_neg hji]

end Put

/-! ### Going down -/

lemma lookupDown_eq (i : Index) (hp : SlotWF h base (some p) bits) :
    lookupDown i h p = some ((entry h (some p) bits i).map Prod.fst) := by
  induction h generalizing base p bits with
  | zero =>
    obtain ⟨a, rfl⟩ := hp.exists_item
    rfl
  | succ h ih =>
    obtain ⟨n, rfl⟩ := hp.exists_node
    have hchild := hp.child (offset i h)
    rw [lookupDown, entry]
    cases hs : n.slots (offset i h) with
    | none => simp
    | some =>
      rw [hs] at hchild
      exact ih hchild

/-- The tag of what is at an index. -/
def Entry.tag (e : Entry α) (t : Tag) : Bool :=
  match e with
  | none => false
  | some (_, bits) => bits t

lemma SlotWF.tag_leaf (i : Index) (hs : SlotWF 0 base slot bits) (t : Tag) :
    Entry.tag (entry 0 slot bits i) t = bits t := by
  rcases slot with _ | p
  · rw [entry_none, slotWF_none.mp hs t, Entry.tag]
  · obtain ⟨a, rfl⟩ := hs.exists_item
    rfl

lemma tagGetDown_eq (i : Index) (t : Tag) (hs : SlotWF (h + 1) base slot bits) :
    tagGetDown i t (h + 1) slot = some (Entry.tag (entry (h + 1) slot bits i) t) := by
  induction h generalizing base slot bits with
  | zero =>
    rcases slot with _ | p
    · rfl
    obtain ⟨n, rfl⟩ := hs.exists_node
    rw [entry, (hs.child _).tag_leaf]
    rfl
  | succ h ih =>
    rcases slot with _ | p
    · rfl
    obtain ⟨n, rfl⟩ := hs.exists_node
    exact ih (hs.child _)

end

/-!
## The loops that change a radix tree

Each loop is followed from a slot on: it does not run into a `BUG_ON`, the slot is well formed
afterwards, and its entries differ at the index of the operation only.
-/

variable {a : α} {n : Node (Ptr α)} {t : Tag}

/-! ### Insertion -/

lemma slotWF_emptyNode (hbits : ∀ t, bits t = false) :
    SlotWF (h + 1) base (some (.node (emptyNode (h + 1) : Node (Ptr α)))) bits := by
  refine ⟨rfl, by simp [emptyNode, used], ?_, ?_⟩
  · intro o
    exact slotWF_none.mpr fun _ => rfl
  · intro t
    simp [emptyNode, hbits t]

lemma entry_emptyNode (h : ℕ) (bits : Tag → Bool) (i : Index) :
    entry (h + 1) (some (.node (emptyNode (h + 1) : Node (Ptr α)))) bits i = none :=
  entry_none h _ i

lemma SlotWF.slot_eq_none {slot : Option (Ptr α)} (hs : SlotWF 0 base slot bits)
    (he : entry 0 slot bits i = none) : slot = none := by
  rcases slot with _ | p
  · rfl
  · obtain ⟨a, rfl⟩ := hs.exists_item
    cases he

/-- What an insertion has done to a slot. -/
structure Inserted (h base : ℕ) (bits : Tag → Bool) (i : Index) (a : α) (slot : Option (Ptr α))
    (r : Ret) (slot' : Option (Ptr α)) : Prop where
  wf : SlotWF h base slot' bits
  eexist_iff : r = .eexist ↔ entry h slot bits i ≠ none
  same : r = .eexist → slot' = slot
  keeps : slot.isSome → slot'.isSome
  entry_eq : ∀ j, leading j h = base → entry h slot' bits j =
    if r = .ok ∧ j = i then some (a, fun _ => false) else entry h slot bits j

lemma Inserted.changed {slot slot' : Option (Ptr α)} {r : Ret}
    (hc : Inserted h base bits i a slot r slot') : Changed h base i
      (fun e => if r = .ok then some (a, fun _ => false) else e) slot bits slot' bits := by
  refine ⟨hc.wf, fun j hj => ?_⟩
  rw [hc.entry_eq j hj]
  by_cases hji : j = i <;> simp [hji]

lemma Inserted.bits_eq_false {slot slot' : Option (Ptr α)}
    (hc : Inserted 0 base bits i a slot .ok slot') (hs : SlotWF 0 base slot bits) :
    ∀ t, bits t = false := by
  have hnone : entry 0 slot bits i = none := by
    by_contra hne
    cases hc.eexist_iff.mpr hne
  rwa [hs.slot_eq_none hnone, slotWF_none] at hs

lemma Inserted.node {r : Ret} {child : Option (Ptr α)}
    (hn : SlotWF (h + 1) base (some (.node n)) bits)
    (hc : Inserted h (base * 64 + offset i h) (fun t => n.tags t (offset i h)) i a
      (n.slots (offset i h)) r child) :
    Inserted (h + 1) base bits i a (some (.node n)) r (some (.node { n with
      slots := update n.slots (offset i h) child
      count := if (n.slots (offset i h)).isNone ∧ child.isSome then n.count + 1
        else n.count })) := by
  have hcount : (if (n.slots (offset i h)).isNone ∧ child.isSome then n.count + 1 else n.count) =
      (used (update n.slots (offset i h) child)).card := by
    rw [hn.count]
    -- a slot is filled, or its pointer is replaced, or it stays empty
    cases hs : n.slots (offset i h) with
    | none =>
      cases child with
      | none => simp [← hs]
      | some => simp [card_used_add hs]
    | some =>
      have hsome := hc.keeps (by simp [hs])
      obtain ⟨c, rfl⟩ := Option.isSome_iff_exists.mp hsome
      simp [card_used_replace hs]
  rw [hcount]
  have hput : n.Put (offset i h) child (fun t => n.tags t (offset i h)) { n with
      slots := update n.slots (offset i h) child
      count := (used (update n.slots (offset i h) child)).card } :=
    ⟨rfl, rfl, rfl, fun _ => rfl, fun _ _ _ => rfl⟩
  obtain ⟨hwf, hent⟩ := hput.changed hn hc.changed hn.bit
  refine ⟨hwf, ?_, ?_, fun _ => rfl, ?_⟩
  · rw [hc.eexist_iff, entry]
  · intro hr
    rw [hc.same hr, update_eq_self, ← hn.count]
  · intro j hj
    rw [hent j hj]
    by_cases hji : j = i <;> simp [hji]

lemma insertDown_spec {slot : Option (Ptr α)} (a : α) (hs : SlotWF h base slot bits)
    (hi : leading i h = base) (allocs : List Bool) :
    ∃ r slot' allocs', insertDown i a h slot allocs = some (r, slot', allocs') ∧
      Inserted h base bits i a slot r slot' := by
  induction h generalizing base slot bits allocs with
  | zero =>
    rcases slot with _ | p
    · refine ⟨.ok, some (.item a), allocs, rfl, ?_, by simp, by simp, by simp, ?_⟩
      · rw [← hi, leading_zero]
        exact i.isLt
      · intro j hj
        rw [if_pos ⟨rfl, eq_of_leading_zero hi hj⟩, entry, funext (slotWF_none.mp hs)]
    · refine ⟨.eexist, some p, allocs, rfl, hs, ?_, by simp, by simp, by simp⟩
      have hne : entry 0 (some p) bits i ≠ none := fun he => by cases hs.slot_eq_none he
      simp [hne]
  | succ h ih =>
    -- a node that is added on the way is empty, so it makes no difference to the slot
    have hnode : ∀ n al, SlotWF (h + 1) base (some (.node n)) bits →
        childNode (h + 1) slot allocs = (some (.node n), al) →
        ∃ r slot' al', insertDown i a (h + 1) slot allocs = some (r, slot', al') ∧
          Inserted (h + 1) base bits i a (some (.node n)) r slot' := by
      intro n al hn hchild
      obtain ⟨r, child, al', hdown, hc⟩ := ih (hn.child (offset i h)) (leading_child hi) al
      have hbug : ¬ (h = 0 ∧ r = .ok ∧
          (n.tags 0 (offset i h) = true ∨ n.tags 1 (offset i h) = true)) := by
        rintro ⟨rfl, rfl, htags⟩
        simp [hc.bits_eq_false (hn.child _)] at htags
      refine ⟨r, _, al', ?_, hc.node hn⟩
      simp only [insertDown, hchild, hdown, if_neg hbug]
    rcases slot with _ | p
    · rcases halloc : nodeAlloc allocs with ⟨_ | _, al⟩
      · refine ⟨.enomem, none, al, ?_, hs, by simp, by simp, by simp, by simp⟩
        simp only [insertDown, childNode, halloc]
      · obtain ⟨r, slot', al', heq, hins⟩ := hnode (emptyNode (h + 1)) al
          (slotWF_emptyNode (slotWF_none.mp hs)) (by simp only [childNode, halloc])
        refine ⟨r, slot', al', heq, hins.wf, ?_, ?_, by simp, ?_⟩
        · rw [hins.eexist_iff, entry_emptyNode, entry_none]
        · intro hr
          exact absurd (entry_emptyNode h bits i) (hins.eexist_iff.mp hr)
        · intro j hj
          rw [hins.entry_eq j hj, entry_emptyNode, entry_none]
    · obtain ⟨n, rfl⟩ := hs.exists_node
      exact hnode n allocs hs rfl

/-! ### Setting a tag -/

lemma SlotWF.exists_child {e : α × (Tag → Bool)} (hn : SlotWF (h + 1) base (some (.node n)) bits)
    (he : entry (h + 1) (some (.node n)) bits i = some e) :
    ∃ c, n.slots (offset i h) = some c ∧ SlotWF h (base * 64 + offset i h) (some c)
      fun t => n.tags t (offset i h) := by
  have hchild := hn.child (offset i h)
  rw [entry] at he
  cases hs : n.slots (offset i h) with
  | none =>
    simp [hs, entry_none] at he
  | some c => exact ⟨c, rfl, hs ▸ hchild⟩

/-- An entry with one tag of its item changed. -/
def Entry.setTag (e : Entry α) (t : Tag) (value : Bool) : Entry α :=
  e.map fun x => (x.1, update x.2 t value)

attribute [local simp] Node.setTag

section SetTag

variable {P : Type} (n : Node P) (t : Tag) (o : Offset) (value : Bool)

lemma setTag_tags_self (t' : Tag) : (n.setTag t o value).tags t' o =
    update (fun t' => n.tags t' o) t value t' := by
  by_cases ht : t' = t
  · subst ht
    simp
  · simp [ht]

lemma setTag_tags_of_ne (t' : Tag) {o' : Offset} (ho : o' ≠ o) :
    (n.setTag t o value).tags t' o' = n.tags t' o' := by
  by_cases ht : t' = t
  · subst ht
    simp [ho]
  · simp [ht]

lemma setTag_tags_of_ne_tag {t' : Tag} (ht : t' ≠ t) :
    (n.setTag t o value).tags t' = n.tags t' := by
  simp [ht]

end SetTag

lemma SlotWF.put_setTag {o : Offset} (hn : SlotWF (h + 1) base (some (.node n)) bits)
    (ho : n.slots o = some p) (p' : Ptr α) (t : Tag) (value : Bool) :
    n.Put o (some p') (update (fun t => n.tags t o) t value)
      (Node.setTag { n with slots := update n.slots o (some p') } t o value) where
  height := rfl
  count := (hn.put_replace ho p').count
  slots := rfl
  tags_self := setTag_tags_self n t o value
  tags_of_ne t' _ ho' := setTag_tags_of_ne n t o value t' ho'

lemma tagSetDown_spec {b : Tag → Bool} (t : Tag) (hp : SlotWF h base (some p) bits)
    (hi : leading i h = base) (he : entry h (some p) bits i = some (a, b)) :
    ∃ p', tagSetDown i t h p = some (a, p') ∧
      Changed h base i (Entry.setTag · t true) (some p) bits (some p') (update bits t true) := by
  induction h generalizing base p bits with
  | zero =>
    obtain ⟨a', rfl⟩ := hp.exists_item
    cases he
    exact ⟨.item a, rfl, changed_leaf hi hp rfl⟩
  | succ h ih =>
    obtain ⟨n, rfl⟩ := hp.exists_node
    obtain ⟨c, hs, hchild⟩ := hp.exists_child he
    rw [entry, hs] at he
    obtain ⟨c', hdown, hc⟩ := ih hchild (leading_child hi) he
    rw [← hs] at hc
    have hput := hp.put_setTag hs c' t true
    refine ⟨.node _, by simp only [tagSetDown, hs, hdown]; rfl, hput.changed hp hc fun t' => ?_⟩
    by_cases ht : t' = t
    · subst ht
      rw [update_self]
      exact ⟨fun _ => ⟨offset i h, by rw [hput.tags_self, update_self]⟩, fun _ => rfl⟩
    · rw [update_of_ne ht, hp.bit t', setTag_tags_of_ne_tag _ t _ _ ht]

/-! ### Clearing a tag -/

/-- The bits above a slot after a tag below it was cleared. -/
def clearBits (bits : Tag → Bool) (t : Tag) (up : Bool) : Tag → Bool :=
  if up then update bits t false else bits

lemma clearBits_of_ne (bits : Tag → Bool) {t' : Tag} (ht : t' ≠ t) (up : Bool) :
    clearBits bits t up t' = bits t' := by
  cases up with
  | false => rfl
  | true => exact update_of_ne ht _ _

lemma clearBits_eq_self {up : Bool} (h : ¬ (up = true ∧ bits t = true)) :
    clearBits bits t up = bits := by
  cases up with
  | false => rfl
  | true =>
    have hbit : bits t = false := by simpa using h
    exact Function.update_eq_self_iff.mpr hbit.symm

lemma anyTagSet_eq_true {P : Type} {n : Node P} :
    n.anyTagSet t = true ↔ ∃ o, n.tags t o = true := by
  simp [Node.anyTagSet]

lemma tagClearDown_spec (t : Tag) (hp : SlotWF h base (some p) bits) (hi : leading i h = base) :
    ∃ r p' up, tagClearDown i t h p = some (r, p', up) ∧
      r = (entry h (some p) bits i).map Prod.fst ∧
      Changed h base i (Entry.setTag · t false) (some p) bits (some p') (clearBits bits t up) := by
  induction h generalizing base p bits with
  | zero =>
    obtain ⟨a, rfl⟩ := hp.exists_item
    exact ⟨some a, .item a, true, rfl, rfl, changed_leaf hi hp rfl⟩
  | succ h ih =>
    obtain ⟨n, rfl⟩ := hp.exists_node
    have hchild := hp.child (offset i h)
    cases hs : n.slots (offset i h) with
    | none =>
      have hnone : entry (h + 1) (some (.node n)) bits i = none := by
        rw [entry, hs, entry_none]
      refine ⟨none, .node n, false, by simp only [tagClearDown, hs], by rw [hnone]; rfl,
        hp.unchanged ?_⟩
      rw [hnone]
      rfl
    | some =>
      rw [hs] at hchild
      obtain ⟨r, c', up, hdown, hr, hc⟩ := ih hchild (leading_child hi)
      rw [← hs] at hr hc
      by_cases hclear : up = true ∧ n.tags t (offset i h) = true
      · have hput := hp.put_setTag hs c' t false
        obtain ⟨rfl, htag⟩ := hclear
        refine ⟨r, _, _, by simp only [tagClearDown, hs, hdown, htag, and_self, if_true]; rfl,
          hr, hput.changed hp hc fun t' => ?_⟩
        by_cases ht : t' = t
        · subst ht
          rw [← anyTagSet_eq_true]
          -- the bit above stays set as long as a bit of the node is
          cases hany : Node.anyTagSet _ t' with
          | false => simp [clearBits]
          | true => simpa [clearBits] using (hp.bit t').mpr ⟨_, htag⟩
        · rw [clearBits_of_ne _ ht, hp.bit t', setTag_tags_of_ne_tag _ t _ _ ht]
      · -- the bit was clear already, or another item below the slot has the tag
        rw [clearBits_eq_self hclear] at hc
        exact ⟨r, _, false, by simp only [tagClearDown, hs, hdown, if_neg hclear], hr,
          (hp.put_replace hs c').changed hp hc hp.bit⟩

/-! ### Removing an item -/

lemma rcuFree_eq (hn : SlotWF (h + 1) base (some (.node n)) bits)
    (hslots : ∀ o, o ≠ 0 → n.slots o = none) : n.rcuFree = emptyNode n.height := by
  have hempty : update n.slots 0 none = fun _ => none := by
    funext o
    by_cases ho : o = 0
    · rw [ho, update_self]
    · rw [update_of_ne ho, hslots o ho]
  have htags : ((n.setTag 0 0 false).setTag 1 0 false).tags = fun _ _ => false := by
    funext t o
    by_cases ho : o = 0
    · subst ho
      match t with
      | 0 => rfl
      | 1 => rfl
    · rw [setTag_tags_of_ne _ _ _ _ _ ho, setTag_tags_of_ne _ _ _ _ _ ho,
        hn.tags_of_empty (hslots o ho)]
  simp only [Node.rcuFree, hempty, htags]
  rfl

lemma SlotWF.of_count_eq_zero (hn : SlotWF (h + 1) base (some (.node n)) bits) (hc : n.count = 0) :
    SlotWF (h + 1) base (none : Option (Ptr α)) bits ∧
      (∀ i, entry (h + 1) (some (.node n)) bits i = none) ∧ n.rcuFree = emptyNode n.height := by
  have hslots : ∀ o, n.slots o = none := slots_eq_none (by rw [← hn.count, hc])
  refine ⟨?_, ?_, rcuFree_eq hn fun o _ => hslots o⟩
  · intro t
    rw [← Bool.not_eq_true, hn.bit t]
    rintro ⟨o, ho⟩
    simp [hn.tags_of_empty (hslots o)] at ho
  · intro i
    rw [entry, hslots, entry_none]

/-- What is left in the slot. -/
def Removed.slot : Removed α → Option (Ptr α)
  | .freed => none
  | .kept p _ => some p

lemma removeDown_spec (hp : SlotWF h base (some p) bits) (hi : leading i h = base)
    (he : entry h (some p) bits i = some (a, fun _ => false)) :
    ∃ res nodes, removeDown i h p = some (res, nodes) ∧
      Changed h base i (fun _ => none) (some p) bits res.slot bits ∧
      ∀ n ∈ nodes, n.rcuFree = emptyNode n.height := by
  induction h generalizing base p bits with
  | zero =>
    obtain ⟨a', rfl⟩ := hp.exists_item
    cases he
    exact ⟨.freed, [], rfl, changed_leaf hi (slotWF_none.mpr fun _ => rfl) rfl, by simp⟩
  | succ _ ih =>
    obtain ⟨n, rfl⟩ := hp.exists_node
    obtain ⟨c, hs, hchild⟩ := hp.exists_child he
    rw [entry, hs] at he
    obtain ⟨res, nodes, hdown, hc, hfree⟩ := ih hchild (leading_child hi) he
    rw [← hs] at hc
    cases res with
    | kept c' =>
      exact ⟨.kept (.node _) false, nodes, by simp only [removeDown, hs, hdown],
        (hp.put_replace hs c').changed hp hc hp.bit, hfree⟩
    | freed =>
      have hc' := (hp.put_remove hs).changed hp hc hp.bit
      by_cases hcount : n.count - 1 ≠ 0
      · exact ⟨.kept (.node _) true, nodes,
          by simp only [removeDown, hs, hdown, if_pos hcount], hc', hfree⟩
      · obtain ⟨hnone, hent0, hfree0⟩ := hc'.wf.of_count_eq_zero (not_not.mp hcount)
        refine ⟨.freed, _, by simp only [removeDown, hs, hdown, if_neg hcount]; rfl,
          ⟨hnone, fun j hj => ?_⟩, fun m hm => ?_⟩
        · rw [← hc'.entry_eq j hj, hent0]
          exact entry_none _ _ _
        · rcases List.mem_append.mp hm with hm | hm
          · exact hfree m hm
          · rw [List.mem_singleton.mp hm]
            exact hfree0

end LklPort.RadixTree
