import LklPort.Machine.Basic
import LklPort.RadixTree.Map

/-!
# The laws of radix trees

The calls on a tree are the actions of a machine. Beside the tree, a run keeps the map that the
calls describe: which item was inserted at an index and not deleted since, and which of its tags
were set and not cleared since.
-/

namespace LklPort.RadixTree

open Option Function

variable {α : Type}

/-- A call. The list says which allocations succeed. -/
inductive Action (α : Type) where
  | insert (index : Index) (item : α) (allocs : List Bool)
  | delete (index : Index)
  | tagSet (index : Index) (t : Tag)
  | tagClear (index : Index) (t : Tag)

/-- The tree after a call, if the call returns. -/
def treeAfter (root : Root α) : Action α → Option (Root α)
  | .insert i a allocs => (insert root i a allocs).map Prod.snd
  | .delete i => (delete root i).map fun r => r.2.1
  | .tagSet i t => (tagSet root i t).map Prod.snd
  | .tagClear i t => (tagClear root i t).map Prod.snd

/-- Any calls may be made, but tags are set on items that are present. -/
def treeMachine (α : Type) : Machine (Root α) (Action α) where
  init := init α
  guard root a :=
    match a with
    | .tagSet i _ => (lookup root i).join.isSome = true
    | _ => True
  next root a := (treeAfter root a).getD root

instance (root : Root α) (a : Action α) : Decidable ((treeMachine α).guard root a) := by
  cases a <;> dsimp only [treeMachine] <;> infer_instance

/-- What the calls say that the tree has, with the tags of each item. -/
abbrev Contents (α : Type) := Index → Entry α

/-- An item that is inserted has no tags. -/
def note (root : Root α) (a : Action α) (m : Contents α) : Contents α :=
  match a with
  | .insert i a allocs =>
    if (insert root i a allocs).map Prod.fst = some .ok then
      update m i (some (a, fun _ => false))
    else m
  | .delete i => update m i none
  | .tagSet i t => update m i (Entry.setTag (m i) t true)
  | .tagClear i t => update m i (Entry.setTag (m i) t false)

/-- The calls on a tree, with the map that they describe. -/
def recordedMachine (α : Type) : Machine (Root α × Contents α) (Action α) :=
  (treeMachine α).record (fun _ => none) note

instance (s : Root α × Contents α) (a : Action α) : Decidable ((recordedMachine α).guard s a) :=
  inferInstanceAs (Decidable ((treeMachine α).guard s.1 a))

/-! ### The tree is the map -/

/-- A well-formed tree with the entries of a map. -/
structure Refines (root : Root α) (m : Contents α) : Prop where
  wf : RootWF root
  entry_eq : ∀ i, root.entry i = m i

section Step

variable {root : Root α} {m : Contents α} (h : Refines root m)

include h

lemma Refines.lookup_eq (i : Index) : lookup root i = some ((m i).map Prod.fst) := by
  rw [RadixTree.lookup_eq h.wf, h.entry_eq]

lemma Refines.change {root' : Root α} {i : Index} {f : Entry α → Entry α}
    (hc : RootChanged root i f root') : Refines root' (update m i (f (m i))) := by
  refine ⟨hc.wf, fun j => ?_⟩
  rw [hc.entry_eq, update_apply, h.entry_eq]
  split_ifs with hji
  · rw [hji]
  · rfl

lemma Refines.next_insert (i : Index) (a : α) (allocs : List Bool) :
    Refines ((treeMachine α).next root (.insert i a allocs))
      (note root (.insert i a allocs) m) := by
  obtain ⟨r, root', heq, hc, -, -⟩ := insert_spec h.wf i a allocs
  have hnext := h.change hc
  simp only [treeMachine, treeAfter, note, heq, map_some, getD_some, Option.some.injEq]
  rw [Ret.effect] at hnext
  split_ifs at hnext ⊢ with hok
  · exact hnext
  · rwa [update_eq_self] at hnext

lemma Refines.next_delete (i : Index) :
    Refines ((treeMachine α).next root (.delete i)) (note root (.delete i) m) := by
  obtain ⟨root', nodes, heq, hc, -⟩ := delete_spec h.wf i
  simp only [treeMachine, treeAfter, note, heq, map_some, getD_some]
  exact h.change hc

lemma Refines.next_tagSet (i : Index) (t : Tag) (hi : (m i).isSome) :
    Refines ((treeMachine α).next root (.tagSet i t)) (note root (.tagSet i t) m) := by
  obtain ⟨⟨a, b⟩, he⟩ := Option.isSome_iff_exists.mp hi
  obtain ⟨root', heq, hc⟩ := tagSet_spec h.wf t ((h.entry_eq i).trans he)
  simp only [treeMachine, treeAfter, note, heq, map_some, getD_some]
  exact h.change hc

lemma Refines.next_tagClear (i : Index) (t : Tag) :
    Refines ((treeMachine α).next root (.tagClear i t)) (note root (.tagClear i t) m) := by
  obtain ⟨root', heq, -, hc⟩ := tagClear_spec h.wf i t
  simp only [treeMachine, treeAfter, note, heq, map_some, getD_some]
  exact h.change hc

lemma Refines.next {a : Action α} (ha : (treeMachine α).guard root a) :
    Refines ((treeMachine α).next root a) (note root a m) := by
  cases a with
  | insert i a allocs => exact h.next_insert i a allocs
  | delete i => exact h.next_delete i
  | tagClear i t => exact h.next_tagClear i t
  | tagSet i =>
    apply h.next_tagSet
    have hpresent : (lookup root i).join.isSome = true := ha
    rw [h.lookup_eq] at hpresent
    simpa using hpresent

end Step

lemma refines_of_reachable {s : Root α × Contents α} (hs : (recordedMachine α).Reachable s) :
    Refines s.1 s.2 := by
  apply hs.invariant
  · exact ⟨rootWF_init, Root.entry_of_rnode rfl⟩
  · exact fun s a h => h.next

/-! ### Allocations -/

section Alloc

variable {i : Index} {a : α}

lemma insertDown_alloc {h : ℕ} {slot slot' : Option (Ptr α)} {al : List Bool} {r : Ret} (k : ℕ)
    (heq : insertDown i a h slot (List.replicate (k + h) true) = some (r, slot', al)) :
    r ≠ .enomem := by
  induction h generalizing slot slot' al r k with
  | zero =>
    cases slot with
    | none | some =>
      cases heq
      simp
  | succ h ih =>
    -- a slot that is empty takes one of the nodes
    have hchild : ∃ p k', childNode (h + 1) slot (List.replicate (k + (h + 1)) true) =
        (some p, List.replicate (k' + h) true) := by
      cases slot with
      | none => exact ⟨_, k, rfl⟩
      | some p =>
        refine ⟨p, k + 1, ?_⟩
        rw [childNode, add_assoc k 1 h, add_comm 1 h]
    obtain ⟨p, k', hchild⟩ := hchild
    rw [insertDown, hchild] at heq
    cases p with
    | item => cases heq
    | node n =>
      cases hdown : insertDown i a h (n.slots (offset i h)) (List.replicate (k' + h) true) with
      | none => simp [hdown] at heq
      | some x =>
        obtain ⟨r', child, al'⟩ := x
        simp only [hdown] at heq
        split at heq
        · cases heq
        · cases heq
          exact ih k' hdown

lemma insertDown_none (h k : ℕ) : ∃ p, insertDown i a h none (List.replicate k true) = some p ∧
    p.1 = if h ≤ k then .ok else .enomem := by
  induction h generalizing k with
  | zero => exact ⟨_, rfl, rfl⟩
  | succ h ih =>
    cases k with
    | zero => exact ⟨_, rfl, rfl⟩
    | succ k =>
      obtain ⟨p, hdown, hp⟩ := ih k
      have hchild : childNode (h + 1) (none : Option (Ptr α)) (List.replicate (k + 1) true) =
          (some (.node (emptyNode (h + 1))), List.replicate k true) := rfl
      simp only [insertDown, hchild, emptyNode, hdown, Nat.add_le_add_iff_right]
      rw [if_neg (by simp)]
      exact ⟨_, rfl, hp⟩

lemma extendLoop_alloc (rounds k : ℕ) (root : Root α) :
    ∃ root1, extendLoop (rounds + 1) root (List.replicate (k + (rounds + 1)) true) =
      (true, grow root1, List.replicate k true) ∧ root1.height = root.height + rounds := by
  induction rounds generalizing root with
  | zero => exact ⟨root, rfl, rfl⟩
  | succ rounds ih =>
    obtain ⟨root1, heq, hh⟩ := ih (grow root)
    exact ⟨root1, heq, by rw [hh, add_comm rounds, ← add_assoc]; rfl⟩

variable {root root' : Root α} {r : Ret} {k : ℕ}

lemma insertItem_ret {allocs : List Bool} (heq : insertItem root i a allocs = some (r, root')) :
    ∃ slot l, insertDown i a root.height (root.rnode.map Prod.snd) allocs = some (r, slot, l) := by
  rw [insertItem] at heq
  split at heq
  · cases heq
  · split at heq
    · cases heq
    · cases heq
      exact ⟨_, _, ‹_›⟩

lemma insertItem_alloc (hh : root.height ≤ k)
    (heq : insertItem root i a (List.replicate k true) = some (r, root')) : r ≠ .enomem := by
  obtain ⟨k', rfl⟩ := Nat.exists_eq_add_of_le' hh
  obtain ⟨slot, al, hdown⟩ := insertItem_ret heq
  exact insertDown_alloc k' hdown

lemma insertItem_grow (hi : leading i root.height ≠ 0) (hi' : leading i (root.height + 1) = 0)
    (heq : insertItem (grow root) i a (List.replicate k true) = some (r, root')) :
    r = .enomem ↔ k < root.height := by
  have ho : offset i root.height ≠ 0 := by
    intro ho
    rw [leading_eq_succ, hi', ho] at hi
    exact hi rfl
  obtain ⟨slot, al, hdown⟩ := insertItem_ret heq
  obtain ⟨p, hnone, hp⟩ := insertDown_none (i := i) (a := a) root.height k
  simp only [grow, map_some, insertDown, childNode, update_of_ne ho, hnone] at hdown
  obtain rfl : p.1 = r := by
    split at hdown
    · cases hdown
    · exact congrArg Prod.fst (Option.some.inj hdown)
  rw [hp]
  split_ifs with hle
  · simp [hle]
  · simpa using hle

/-- With eleven nodes or more, an insertion can fail if the tree has to grow, once for the new
levels and once for those below the new top. -/
lemma insert_enomem_iff (hr : RootWF root) (hk : 11 ≤ k)
    (heq : insert root i a (List.replicate k true) = some (r, root')) :
    r = .enomem ↔ root.rnode ≠ none ∧ leading i root.height ≠ 0 ∧
      root.height + 1 + k < 2 * growHeight i 11 (root.height + 1) := by
  have hle := hr.height_le
  by_cases hi : leading i root.height = 0
  · rw [insert, if_neg (not_maxindex_lt hi)] at heq
    simp [hi, insertItem_alloc (by omega) heq]
  have hne : root.height ≠ 11 := fun hh => hi (leading_of_ge i (by omega))
  obtain ⟨h1, h₂, h3, h4⟩ := growHeight_spec i 11 (k := root.height + 1) (by omega) (by omega)
  rw [insert, if_pos (maxindex_lt_iff.mpr hi), extend] at heq
  cases hn : root.rnode with
  | none =>
    rw [hn] at heq
    have hmem : r ≠ .enomem := insertItem_alloc (h₂.trans hk) heq
    simp [hmem]
  | some =>
    obtain ⟨d, hd⟩ := Nat.exists_eq_add_of_lt (Nat.lt_of_succ_le h1)
    obtain ⟨k', hk'⟩ := Nat.exists_eq_add_of_le' (show d + 1 ≤ k by omega)
    obtain ⟨root1, hloop, hh⟩ := extendLoop_alloc d k' root
    rw [hd] at h3 h4 ⊢
    rw [hn, hd, hk', show root.height + d + 1 - root.height = d + 1 by omega] at heq
    simp only [hloop] at heq
    have htop : leading i root1.height ≠ 0 := by
      rw [hh]
      cases d with
      | zero => exact hi
      | succ => exact h4 _ (by omega) (by omega)
    rw [insertItem_grow htop (by rw [hh]; exact h3) heq, hh]
    simp [hi]
    omega

lemma insert_alloc (hr : RootWF root) (he : root.entry i = none) (hk : 11 ≤ k)
    (h : root.rnode = none ∨ leading i root.height = 0 ∨
      2 * growHeight i 11 (root.height + 1) ≤ root.height + 1 + k) :
    ∃ root', insert root i a (List.replicate k true) = some (.ok, root') := by
  obtain ⟨r, root', heq, -, hexist, -⟩ := insert_spec hr i a (List.replicate k true)
  cases r with
  | ok => exact ⟨root', heq⟩
  | eexist => exact absurd he (hexist.mp rfl)
  | enomem =>
    obtain ⟨hn, hi, hlt⟩ := (insert_enomem_iff hr hk heq).mp rfl
    exact absurd h (by simp [hn, hi, hlt])

end Alloc

/-! ### The map law -/

/-- The tree does what the map says. A call that returns does not run into a `BUG_ON`. -/
structure MapLaw (root : Root α) (m : Contents α) : Prop where
  lookup : ∀ i, lookup root i = some ((m i).map Prod.fst)
  insert : ∀ i a allocs, ∃ r root', insert root i a allocs = some (r, root') ∧
    (r = .eexist ↔ m i ≠ none) ∧ (r = .eexist → root' = root) ∧
    (r = .enomem → ∀ j, RadixTree.lookup root' j = RadixTree.lookup root j)
  insert_ok : ∀ i a, m i = none →
    ∃ root', RadixTree.insert root i a (List.replicate 22 true) = some (.ok, root')
  delete : ∀ i, ∃ root' nodes, delete root i = some ((m i).map Prod.fst, root', nodes)
  tagSet : ∀ i t, m i ≠ none → ∃ root', tagSet root i t = some ((m i).map Prod.fst, root')
  tagClear : ∀ i t, ∃ root', tagClear root i t = some ((m i).map Prod.fst, root')

theorem radix_tree_map_law {s : Root α × Contents α} (hs : (recordedMachine α).Reachable s) :
    MapLaw s.1 s.2 := by
  have h := refines_of_reachable hs
  refine ⟨h.lookup_eq, ?_, ?_, ?_, ?_, ?_⟩
  · intro i a allocs
    obtain ⟨r, root', heq, hc, hexist, hsame⟩ := insert_spec h.wf i a allocs
    rw [h.entry_eq] at hexist
    refine ⟨r, root', heq, hexist, hsame, ?_⟩
    rintro rfl j
    rw [lookup_eq hc.wf, lookup_eq h.wf, hc.entry_eq]
    exact congrArg _ (congrArg _ (ite_self _))
  · intro i a he
    refine insert_alloc h.wf ((h.entry_eq i).trans he) (by decide) (.inr ?_)
    rcases Nat.lt_or_eq_of_le h.wf.height_le with hlt | hmax
    · obtain ⟨-, h₂, -⟩ := growHeight_spec i 11 (k := s.1.height + 1) hlt (by omega)
      exact .inr (by omega)
    · exact .inl (leading_of_ge i hmax.ge)
  · intro i
    obtain ⟨root', nodes, heq, -⟩ := delete_spec h.wf i
    rw [h.entry_eq] at heq
    exact ⟨root', nodes, heq⟩
  · intro i t hi
    obtain ⟨⟨a, b⟩, he⟩ := ne_none_iff_exists'.mp hi
    obtain ⟨root', heq, -⟩ := tagSet_spec h.wf t ((h.entry_eq i).trans he)
    rw [he]
    exact ⟨root', heq⟩
  · intro i t
    obtain ⟨root', heq, -⟩ := tagClear_spec h.wf i t
    rw [h.entry_eq] at heq
    exact ⟨root', heq⟩

/-- The tree grows, a node is missing for the second insertion, and it becomes lower again. -/
def sampleRun : List (Action ℕ) :=
  [.insert 0 7 [], .tagSet 0 1, .insert 5000 9 [true, false],
    .insert 5000 9 (List.replicate 4 true), .tagSet 5000 0, .delete 0]

def sampleState : Root ℕ × Contents ℕ :=
  (recordedMachine ℕ).runFrom (recordedMachine ℕ).init sampleRun

lemma reachable_sampleState : (recordedMachine ℕ).Reachable sampleState :=
  Machine.reachable_of_admits sampleRun (by decide +kernel)

theorem radix_tree_map_law_sampleRun : MapLaw sampleState.1 sampleState.2 :=
  radix_tree_map_law reachable_sampleState

/-! ### Preloading -/

/-- `RADIX_TREE_MAX_PATH`, the number of nodes that the buffer of a processor has room for. -/
def maxPath : ℕ := 11

/-- The number of nodes in the buffer. -/
abbrev Fill := { nr : ℕ // nr ≤ maxPath }

/-- A node that the buffer has no room for is freed. -/
def Fill.put (nr : Fill) : Fill := if h : nr.1 < maxPath then ⟨nr.1 + 1, h⟩ else nr

/-- `radix_tree_preload`: whether it returns 0, and what the buffer then has. An allocation that
succeeds comes with the buffer found after it, as others may use it meanwhile. -/
def preload (nr : Fill) : List (Option Fill) → Bool × Fill
  | some nr' :: allocs => if nr.1 < maxPath then preload nr'.put allocs else (true, nr)
  | _ => (decide (maxPath ≤ nr), nr)

lemma preload_full {nr nr' : Fill} {allocs : List (Option Fill)}
    (h : preload nr allocs = (true, nr')) : nr'.1 = maxPath := by
  apply le_antisymm nr'.2
  fun_induction preload nr allocs with
  | case1 nr nr' allocs hlt ih => exact ih h
  | case2 nr nr' allocs hlt =>
    cases h
    exact not_lt.mp hlt
  | case3 nr allocs =>
    simp only [Prod.mk.injEq, decide_eq_true_eq] at h
    exact h.2 ▸ h.1

/-- The least height of a tree that has the index. -/
def Needs (i : Index) (h : ℕ) : Prop := leading i h = 0 ∧ ∀ k < h, leading i k ≠ 0

lemma Needs.unique {i : Index} {h h' : ℕ} (hn : Needs i h) (hn' : Needs i h') : h = h' := by
  rcases lt_trichotomy h h' with hlt | heq | hlt
  · exact absurd hn.1 (hn'.2 h hlt)
  · exact heq
  · exact absurd hn'.1 (hn.2 h' hlt)

lemma needs_growHeight {i : Index} {k : ℕ} (hi : leading i k ≠ 0) :
    Needs i (growHeight i 11 (k + 1)) := by
  have hk : k < 11 := not_le.mp fun hk => hi (leading_of_ge i hk)
  obtain ⟨-, -, hzero, hbelow⟩ := growHeight_spec i 11 hk (by omega)
  refine ⟨hzero, fun h hlt => ?_⟩
  rcases Nat.lt_or_ge k h with hle | hle
  · exact hbelow h hle hlt
  · rw [Ne, leading_eq_zero_iff, not_lt] at hi ⊢
    exact (Nat.pow_le_pow_right (by decide) (by omega)).trans hi

/-- After `radix_tree_preload` the nodes of the buffer are all that an insertion is sure to get.
They are enough unless the tree has to grow by so much that the levels above the old top and those
below the new one are together more. -/
theorem radix_tree_preload_suffices_iff {s : Root α × Contents α}
    (hs : (recordedMachine α).Reachable s) {nr nr' : Fill}
    {allocs : List (Option Fill)} (hload : preload nr allocs = (true, nr')) (i : Index) (a : α) :
    (insert s.1 i a (List.replicate nr'.1 true)).map Prod.fst ≠ some .enomem ↔
      s.1.rnode = none ∨ leading i s.1.height = 0 ∨
        ∃ h, Needs i h ∧ 2 * h ≤ s.1.height + 1 + maxPath := by
  have h := refines_of_reachable hs
  rw [preload_full hload]
  obtain ⟨r, root', heq, -⟩ := insert_spec h.wf i a (List.replicate maxPath true)
  rw [heq, map_some, Ne, Option.some.injEq, insert_enomem_iff h.wf (le_refl 11) heq]
  simp only [not_and_or, not_not, not_lt, maxPath]
  refine or_congr_right (or_congr_right' fun hi => ?_)
  have hneeds := needs_growHeight hi
  exact ⟨fun hle => ⟨_, hneeds, hle⟩, fun ⟨_, hn, hle⟩ => hn.unique hneeds ▸ hle⟩

/-- The buffer has ten nodes, and one more is allocated. -/
theorem radix_tree_preload_suffices_sampleRun :
    (insert sampleState.1 70 8 (List.replicate maxPath true)).map Prod.fst ≠ some .enomem :=
  (radix_tree_preload_suffices_iff reachable_sampleState
    (show preload ⟨10, by decide⟩ [some ⟨10, by decide⟩] = (true, ⟨maxPath, le_refl _⟩) from rfl)
    70 8).mpr (.inr (.inr ⟨2, ⟨by decide, by decide⟩, by decide +kernel⟩))

/-- The tree has an item at 0 only, and grows by eleven levels for the last index. -/
theorem radix_tree_preload_runs_out :
    ∃ s, (recordedMachine ℕ).Reachable s ∧ s.2 (2 ^ 64 - 1) = none ∧
      preload ⟨maxPath, le_refl _⟩ [] = (true, ⟨maxPath, le_refl _⟩) ∧
      (insert s.1 (2 ^ 64 - 1) 8 (List.replicate maxPath true)).map Prod.fst = some .enomem :=
  ⟨(recordedMachine ℕ).runFrom (recordedMachine ℕ).init [.insert 0 7 []],
    Machine.reachable_of_admits _ (by decide +kernel), by decide +kernel, rfl, by decide +kernel⟩

/-! ### The tag law -/

/-- The node `n` of height `h` is in the tree, for the indices that begin with `base`. -/
inductive InTree (root : Root α) : ℕ → ℕ → Node (Ptr α) → Prop where
  | top {b : Bool} {n : Node (Ptr α)} (h : root.rnode = some (b, .node n)) :
    InTree root root.height 0 n
  | child {h base : ℕ} {n c : Node (Ptr α)} {o : Offset} (hn : InTree root (h + 1) base n)
    (hc : n.slots o = some (.node c)) : InTree root h (base * 64 + o) c

lemma InTree.spec {root : Root α} (hr : RootWF root) {h base : ℕ} {n : Node (Ptr α)}
    (hn : InTree root h base n) : ∃ bits, SlotWF h base (some (.node n)) bits ∧
      ∀ i, leading i h = base → entry h (some (.node n)) bits i = root.entry i := by
  induction hn with
  | top hn =>
    have hslot := hr.slot
    rw [hn] at hslot
    refine ⟨root.tags, hslot, ?_⟩
    intro i hi
    rw [Root.entry_of_leading hi, hn]
    rfl
  | @child _ _ _ _ o _ hc ih =>
    obtain ⟨bits, hwf, hent⟩ := ih
    have hchild := hwf.child o
    rw [hc] at hchild
    refine ⟨_, hchild, ?_⟩
    intro i hi
    obtain ⟨hbase, rfl⟩ := leading_eq_child.mp hi
    rw [← hent i hbase, entry, hc]

/-- A bit of a slot says whether an item below it has the tag, and so does that of the root for
the whole tree. -/
structure TagLaw (root : Root α) (m : Contents α) : Prop where
  slot : ∀ h base n, InTree root (h + 1) base n → ∀ t (o : Offset),
    n.tags t o = true ↔ ∃ i e, leading i h = base * 64 + o ∧ m i = some e ∧ e.2 t = true
  top : ∀ t, root.tags t = true ↔ ∃ i e, m i = some e ∧ e.2 t = true
  tagGet : ∀ i t, ∃ v, tagGet root i t = some v ∧ (v = true ↔ ∃ e, m i = some e ∧ e.2 t = true)

lemma tag_eq_true {e : Entry α} {t : Tag} :
    Entry.tag e t = true ↔ ∃ x, e = some x ∧ x.2 t = true := by
  cases e with
  | none | some => simp [Entry.tag]

theorem radix_tree_tag_law {s : Root α × Contents α} (hs : (recordedMachine α).Reachable s) :
    TagLaw s.1 s.2 := by
  have h := refines_of_reachable hs
  refine ⟨?_, ?_, ?_⟩
  · intro k base n hn t o
    obtain ⟨bits, hwf, hent⟩ := hn.spec h.wf
    simp only [(hwf.child o).bit_iff t, Prod.exists]
    refine exists_congr fun i => exists₂_congr fun a b => and_congr_right fun hi => ?_
    obtain ⟨hbase, rfl⟩ := leading_eq_child.mp hi
    rw [← h.entry_eq, ← hent i hbase, entry]
  · intro t
    rw [h.wf.slot.bit_iff t]
    constructor
    · rintro ⟨i, a, b, hi, he, hb⟩
      refine ⟨i, (a, b), ?_, hb⟩
      rw [← h.entry_eq, Root.entry_of_leading hi]
      exact he
    · rintro ⟨i, ⟨a, b⟩, he, hb⟩
      rw [← h.entry_eq] at he
      have hi := Root.leading_of_entry (by rw [he]; simp)
      rw [Root.entry_of_leading hi] at he
      exact ⟨i, a, b, hi, he, hb⟩
  · intro i t
    refine ⟨_, tagGet_eq h.wf i t, ?_⟩
    rw [h.entry_eq, tag_eq_true]

theorem radix_tree_tag_law_sampleRun : TagLaw sampleState.1 sampleState.2 :=
  radix_tree_tag_law reachable_sampleState

/-! ### The memory of the nodes -/

/-- The tree, the nodes that `call_rcu` has queued, and those that their callbacks have passed to
`kmem_cache_free`, as they were then. -/
structure Pool (α : Type) where
  tree : Root α
  queued : List (Node (Ptr α))
  slab : List (Node (Ptr α))

/-- The nodes that a call frees. -/
def freedBy (root : Root α) : Action α → List (Node (Ptr α))
  | .delete i => ((delete root i).map fun r => r.2.2).getD []
  | _ => []

inductive PoolAction (α : Type) where
  /-- A call, with the nodes that its allocations return. -/
  | call (a : Action α) (new : List (Node (Ptr α)))
  /-- The callback for a node of the queue. -/
  | rcuFree (k : ℕ)

/-- An allocation returns an object as the constructor of the slab has left it, or one that was
freed. The buffer of `radix_tree_preload` passes such objects on. -/
def poolMachine (α : Type) : Machine (Pool α) (PoolAction α) where
  init := ⟨init α, [], []⟩
  guard s a :=
    match a with
    | .call a new => (treeMachine α).guard s.tree a ∧ ∀ n ∈ new, n = emptyNode 0 ∨ n ∈ s.slab
    | .rcuFree k => k < s.queued.length
  next s a :=
    match a with
    | .call a _ =>
      { s with
        tree := (treeMachine α).next s.tree a
        queued := s.queued ++ freedBy s.tree a }
    | .rcuFree k =>
      { s with
        queued := s.queued.eraseIdx k
        slab := s.slab ++ s.queued[k]?.toList.map Node.rcuFree }

structure Node.Clean {P : Type} (n : Node P) : Prop where
  count : n.count = 0
  slots : ∀ o, n.slots o = none
  tags : ∀ t o, n.tags t o = false

/-- What `radix_tree_extend` makes of a new node. -/
def Node.onTop (n : Node (Ptr α)) (root : Root α) : Node (Ptr α) where
  height := root.height + 1
  count := 1
  slots := update n.slots 0 (root.rnode.map Prod.snd)
  tags t := if root.tags t then update (n.tags t) 0 true else n.tags t

/-- What was freed is clean, and so is every new node. With its height set, it is the empty node
that `insert` puts in a slot, and `grow` is right about the new top. -/
structure CleanLaw (s : Pool α) : Prop where
  freed : ∀ n ∈ s.slab, n.Clean
  linked : ∀ a new, (poolMachine α).guard s (.call a new) → ∀ n ∈ new, n.Clean ∧
    (∀ h, { n with height := h } = emptyNode h) ∧
    ∀ root, (grow root).rnode = some (true, .node (n.onTop root))

lemma clean_emptyNode {P : Type} (h : ℕ) : (emptyNode h : Node P).Clean :=
  ⟨rfl, fun _ => rfl, fun _ _ => rfl⟩

section

variable {n : Node (Ptr α)}

lemma Node.Clean.eq_emptyNode (h : n.Clean) : n = emptyNode n.height := by
  obtain ⟨height, count, slots, tags⟩ := n
  obtain ⟨rfl, hslots, htags⟩ := h
  obtain rfl : slots = fun _ => none := funext hslots
  obtain rfl : tags = fun _ _ => false := funext fun t => funext (htags t)
  rfl

lemma Node.Clean.grow_rnode (h : n.Clean) (root : Root α) :
    (grow root).rnode = some (true, .node (n.onTop root)) := by
  rw [h.eq_emptyNode, grow]
  dsimp only
  congr 4
  funext t o
  cases root.tags t <;> simp [emptyNode, update_apply]

lemma clean_freedBy {root : Root α} (hr : RootWF root) {a : Action α} (hn : n ∈ freedBy root a) :
    n.rcuFree.Clean := by
  cases a with
  | insert | tagSet | tagClear => cases hn
  | delete i =>
    obtain ⟨root', nodes, heq, -, hclean⟩ := delete_spec hr i
    rw [freedBy, heq] at hn
    rw [hclean n hn]
    exact clean_emptyNode _

end

/-- The nodes that are to be freed become clean. -/
structure PoolInv (s : Pool α) : Prop where
  tree : RootWF s.tree
  queued : ∀ n ∈ s.queued, n.rcuFree.Clean
  slab : ∀ n ∈ s.slab, n.Clean

lemma PoolInv.next {s : Pool α} {a : PoolAction α} (h : PoolInv s)
    (ha : (poolMachine α).guard s a) : PoolInv ((poolMachine α).next s a) := by
  cases a with
  | call a =>
    have href : Refines s.tree s.tree.entry := ⟨h.tree, fun _ => rfl⟩
    refine ⟨(href.next ha.1).wf, fun n hn => ?_, h.slab⟩
    exact (List.mem_append.mp hn).elim (h.queued n) (clean_freedBy h.tree)
  | rcuFree k =>
    refine ⟨h.tree, fun n hn => h.queued n (List.mem_of_mem_eraseIdx hn), fun n hn => ?_⟩
    rcases List.mem_append.mp hn with hn | hn
    · exact h.slab n hn
    · obtain ⟨m, hm, rfl⟩ := List.mem_map.mp hn
      exact h.queued m (List.mem_of_getElem? (Option.mem_toList.mp hm))

theorem radix_tree_nodes_clean {s : Pool α} (hs : (poolMachine α).Reachable s) : CleanLaw s := by
  have h : PoolInv s := by
    apply hs.invariant
    · exact ⟨rootWF_init, by simp [poolMachine], by simp [poolMachine]⟩
    · exact fun s a h ha => h.next ha
  refine ⟨h.slab, fun a new ha n hn => ?_⟩
  have hn : n.Clean := (ha.2 n hn).elim (fun hnew => hnew ▸ clean_emptyNode 0) (h.slab n)
  exact ⟨hn, fun h => by rw [hn.eq_emptyNode]; rfl, hn.grow_rnode⟩

/-- The last item of a node goes, and its tree becomes lower with the other item in slot 0. -/
def poolRun : List (PoolAction ℕ) :=
  [.call (.insert 0 7 []) [], .call (.insert 70 9 [true, true, true]) [], .call (.tagSet 0 1) [],
    .call (.delete 70) [], .rcuFree 2, .rcuFree 0]

theorem radix_tree_nodes_clean_poolRun :
    ((poolMachine ℕ).runFrom (poolMachine ℕ).init poolRun).slab.length = 2 ∧
      CleanLaw ((poolMachine ℕ).runFrom (poolMachine ℕ).init poolRun) := by
  refine ⟨by decide +kernel, radix_tree_nodes_clean (Machine.reachable_of_admits poolRun ?_)⟩
  refine ⟨⟨trivial, nofun⟩, ⟨trivial, nofun⟩, ⟨by decide +kernel, nofun⟩, ⟨trivial, nofun⟩,
    show 2 < List.length _ from ?_, show 0 < List.length _ from ?_, trivial⟩
  all_goals decide +kernel

end LklPort.RadixTree
