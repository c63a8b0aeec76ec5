import LklPort.Machine.Basic
import LklPort.Rbtree.Rebalancing

/-!
# The law of red-black trees

Insertions, removals and replacements are the actions of a machine. Beside the memory, a run keeps
the sequence of the nodes that the calls describe. The memory has a balanced tree whose nodes are
in this order, the functions that walk along the tree follow the sequence, and no function reads
or writes through `NULL`.
-/

namespace LklPort.Rbtree.Heap

open Program List

open LklPort.Rbtree.Tree (mk)

attribute [local simp] Tree.toList

variable {m : Mem} {p : Path Ptr} {t x y l r : Tree Ptr} {a b : Ptr} {c : Color} {d : Dir}
  {n : ℕ}

/-! ### Places in a tree -/

lemma exists_plug (ha : a ∈ t.toList) : ∃ p c l r, plug p (.node c l a r) = t := by
  induction t with
  | nil => simp at ha
  | node c l b r ihl ihr =>
    rw [Tree.toList, mem_append, mem_cons] at ha
    rcases ha with ha | rfl | ha
    · obtain ⟨p, c', l', r', hplug⟩ := ihl ha
      exact ⟨p ++ [⟨.left, c, b, r⟩], c', l', r', by rw [plug_append, hplug]; rfl⟩
    · exact ⟨[], c, l, r, rfl⟩
    · obtain ⟨p, c', l', r', hplug⟩ := ihr ha
      exact ⟨p ++ [⟨.right, c, b, l⟩], c', l', r', by rw [plug_append, hplug]; rfl⟩

lemma hole_of_plug (h : RB .black n (plug p t)) : ∃ c k, Hole p c k ∧ RB c k t := by
  induction p generalizing t with
  | nil => exact ⟨.black, n, .root, h⟩
  | cons q p ih =>
    obtain ⟨c, k, hp, hq⟩ := ih h
    obtain ⟨d, cq, b, o⟩ := q
    cases cq with
    | red =>
      have hc : c = .red := by cases d <;> cases hq <;> rfl
      subst hc
      obtain ⟨x, e, z, heq, hx, hz⟩ := hq.exists_of_red d
      have hsplit := congrArg (Tree.split d) heq
      rw [split_mk, split_mk] at hsplit
      cases hsplit
      exact ⟨.black, k, .red hp hz, hx⟩
    | black =>
      have hc : c = .black := by cases d <;> cases hq <;> rfl
      subst hc
      cases k with
      | zero => cases d <;> cases hq
      | succ k =>
        obtain ⟨c1, x, e, c2, z, heq, hx, hz⟩ := hq.exists_of_black d
        have hsplit := congrArg (Tree.split d) heq
        rw [split_mk, split_mk] at hsplit
        cases hsplit
        exact ⟨c1, k, .black hp hz, hx⟩

/-! ### Walking -/

/-- The first parent on the way up from a place that is not on the side `d`. -/
def beyond (d : Dir) : Path Ptr → Option Ptr
  | [] => none
  | q :: p => if q.dir = d then beyond d p else some q.val

lemma beyond_right (p : Path Ptr) : beyond .right p = (after p).head? := by
  induction p with
  | nil => rfl
  | cons q p ih => cases hd : q.dir <;> simp [beyond, after, hd, ih]

lemma beyond_left (p : Path Ptr) : beyond .left p = (before p).getLast? := by
  induction p with
  | nil => rfl
  | cons q p ih => cases hd : q.dir <;> simp [beyond, before, hd, ih]

lemma Place.climb_loop (h : Place m p t) (ht : t ≠ .nil) (d : Dir) (fuel : ℕ)
    (hfuel : p.length < fuel) :
    Runs (loop (climbBody d) fuel (ptr t)) m ((beyond d p).getD 0) m := by
  induction p generalizing t fuel with
  | nil =>
    obtain ⟨fuel, rfl⟩ := Nat.exists_eq_succ_of_ne_zero (ne_of_gt hfuel)
    obtain ⟨c, x, a, y, rfl⟩ := exists_mk ht .left
    exact .loop_inr (.bind h.parent_runs (.ite_pos rfl (.pure _ m)))
  | cons q p ih =>
    obtain ⟨fuel, rfl⟩ := Nat.exists_eq_succ_of_ne_zero (ne_of_gt (Nat.zero_lt_of_lt hfuel))
    rw [length_cons] at hfuel
    have hup := place_cons.mp h
    have hne := hup.ptr_ne (.inl ht)
    obtain ⟨c, x, a, y, rfl⟩ := exists_mk ht .left
    have hparent := h.parent_runs
    rw [beyond]
    split_ifs with hd
    · have hnext := ih hup mk_ne_nil fuel (by omega)
      have hchild := hup.child_runs
      rw [ptr_mk] at hnext hchild
      rw [← hd] at hnext ⊢
      exact .loop_inl (.bind hparent (.ite_neg hup.good.ne_zero
        (.bind hchild (.ite_pos rfl (.pure _ m))))) hnext
    · rw [eq_flip_of_ne (Ne.symm hd)]
      exact .loop_inr (.bind hparent (.ite_neg hup.good.ne_zero
        (.bind hup.child_flip_runs (.ite_neg hne (.pure _ m)))))

lemma step_runs (h : Place m p (mk d c x a y)) :
    Runs (rbStep d a) m (((extreme d.flip x).or (beyond d p)).getD 0) m := by
  have hx := (layout_mk.mp h.tree).2.2.1
  have hap : a ∉ nodes p := by
    intro hmem
    have hn := h.nodup_mk
    simp [hmem] at hn
  refine .bind h.parent_runs (.ite_neg (Ne.symm (ne_above h.good.ne_zero hap))
    (.bind h.child_runs ?_))
  by_cases hnil : x = .nil
  · subst hnil
    have hlt := h.length_lt
    have hle := length_le_nodes p
    have hclimb := h.climb_loop mk_ne_nil d rounds (by omega)
    rw [ptr_mk] at hclimb
    exact .ite_pos rfl hclimb
  · have hx0 : ptr x ≠ 0 := fun h0 => hnil ((ptr_eq_zero hx).mp h0)
    have hdown : Place m (⟨d, c, a, y⟩ :: p) x := place_cons.mpr h
    obtain ⟨b, hb, hrun⟩ := hdown.descend_runs hnil d.flip
    rw [hb]
    exact .ite_neg hx0 hrun

lemma Place.end_runs (h : Place m [] t) (d : Dir) : Runs (rbEnd d) m ((extreme d t).getD 0) m := by
  refine .bind (root_runs m) ?_
  rw [h.root]
  by_cases ht : t = .nil
  · subst ht
    exact .ite_pos rfl (.pure 0 m)
  · have ht0 : ptr t ≠ 0 := fun h0 => ht ((ptr_eq_zero h.tree).mp h0)
    obtain ⟨b, hb, hrun⟩ := h.descend_runs ht d
    rw [hb]
    exact .ite_neg ht0 hrun

/-! ### The calls -/

instance (a : Ptr) : Decidable (Good a) :=
  decidable_of_iff (a ≠ 0 ∧ a &&& 7 = 0) ⟨fun h => ⟨h.1, h.2⟩, fun h => ⟨h.ne_zero, h.aligned⟩⟩

inductive Action where
  /-- `rb_link_node` at an empty place, and `rb_insert_color`. -/
  | insert (node : Ptr) (link : Link)
  | erase (node : Ptr)
  | replace (victim new : Ptr)
  /-- Something else writes to a node that is not in the tree. -/
  | write (node : Ptr) (value : RbNode)

def Action.program : Action → Program Mem Unit
  | .insert node link => do
    rbLinkNode node link
    rbInsertColor node
  | .erase node => rbErase node
  | .replace victim new => rbReplaceNode victim new
  | .write node value => store node fun _ => value

/-- The node is added next to the parent it is linked to. -/
def insertAt (node : Ptr) : Link → List Ptr → List Ptr
  | none, s => node :: s
  | some (parent, d), s => s.flatMap fun x =>
    if x = parent then
      match d with
      | .left => [node, x]
      | .right => [x, node]
    else [x]

/-- The sequence of the nodes after a call. -/
def note (s : List Ptr) : Action → List Ptr
  | .insert node link => insertAt node link s
  | .erase node => s.erase node
  | .replace victim new => s.map fun x => if x = victim then new else x
  | .write _ _ => s

/-- The place of a link is empty. -/
def Vacant (m : Mem) (s : List Ptr) : Link → Prop
  | none => m.root = 0
  | some (parent, d) => parent ∈ s ∧ (m.node parent).child d = 0

/-- A new node is not in the tree, and a node that is removed or replaced is. -/
def Allowed (m : Mem) (s : List Ptr) : Action → Prop
  | .insert node link => Good node ∧ node ∉ s ∧ Vacant m s link
  | .erase node => node ∈ s
  | .replace victim new => victim ∈ s ∧ Good new ∧ new ∉ s
  | .write node _ => Good node ∧ node ∉ s

instance (m : Mem) (s : List Ptr) (link : Link) : Decidable (Vacant m s link) := by
  cases link <;> dsimp only [Vacant] <;> infer_instance

/-- The calls on one tree, which is empty at first. -/
def treeMachine (node : Ptr → RbNode) : Machine (Mem × List Ptr) Action where
  init := (⟨node, 0⟩, [])
  guard s a := Allowed s.1 s.2 a
  next s a := (((a.program.run s.1).map Prod.snd).getD s.1, note s.2 a)

instance (node : Ptr → RbNode) (s : Mem × List Ptr) (a : Action) :
    Decidable ((treeMachine node).guard s a) := by
  cases a <;> dsimp only [treeMachine, Allowed] <;> infer_instance

/-! ### The tree of a memory -/

/-- The memory has a balanced tree with the nodes in the order of the sequence: all pointers and
colours of its nodes are those of the tree, and its root is black. -/
def HasTree (m : Mem) (s : List Ptr) : Prop :=
  ∃ t n, Place m [] t ∧ RB .black n t ∧ t.toList = s

/-- What a call does to a memory with a tree. -/
def Preserves (m : Mem) (s : List Ptr) (a : Action) : Prop :=
  ∃ m', Runs a.program m () m' ∧ HasTree m' (note s a)

section Lists

variable {s s₁ s₂ : List Ptr}

lemma flatMap_of_notMem {f : Ptr → List Ptr} (h : a ∉ s) :
    (s.flatMap fun x => if x = a then f x else [x]) = s := by
  induction s with
  | nil => rfl
  | cons b s ih =>
    rw [mem_cons, not_or] at h
    rw [flatMap_cons, if_neg (Ne.symm h.1), ih h.2]
    rfl

lemma insertAt_split (h : (s₁ ++ a :: s₂).Nodup) (node : Ptr) (d : Dir) :
    insertAt node (some (a, d)) (s₁ ++ a :: s₂) =
      match d with
      | .left => s₁ ++ node :: a :: s₂
      | .right => s₁ ++ a :: node :: s₂ := by
  rw [nodup_middle, nodup_cons, mem_append, not_or] at h
  rw [insertAt, flatMap_append, flatMap_cons, flatMap_of_notMem h.1.1,
    flatMap_of_notMem h.1.2]
  cases d <;> simp

lemma map_of_notMem (h : a ∉ s) : (s.map fun x => if x = a then b else x) = s := by
  induction s with
  | nil => rfl
  | cons e s ih =>
    rw [mem_cons, not_or] at h
    rw [map_cons, if_neg (Ne.symm h.1), ih h.2]

end Lists

variable {s : List Ptr} {lk : Link}

lemma HasTree.nodup (h : HasTree m s) : s.Nodup := by
  obtain ⟨t, n, hplace, -, rfl⟩ := h
  simpa [nodes] using hplace.nodup

lemma HasTree.place (h : HasTree m s) (ha : a ∈ s) :
    ∃ p c l r n, Place m p (.node c l a r) ∧ RB .black n (plug p (.node c l a r)) ∧
      s = before p ++ (l.toList ++ a :: r.toList) ++ after p := by
  obtain ⟨t, n, hplace, hbal, rfl⟩ := h
  obtain ⟨p, c, l, r, rfl⟩ := exists_plug ha
  exact ⟨p, c, l, r, n, place_plug.mp hplace, hbal, toList_plug⟩

lemma HasTree.place_mk (h : HasTree m s) (ha : a ∈ s) (d : Dir) :
    ∃ p c x y n, Place m p (mk d c x a y) ∧ RB .black n (plug p (mk d c x a y)) ∧
      s = before p ++ (mk d c x a y).toList ++ after p := by
  obtain ⟨p, c, l, r, hplace⟩ := h.place ha
  cases d with
  | left => exact ⟨p, c, l, r, hplace⟩
  | right => exact ⟨p, c, r, l, hplace⟩

lemma append_middle (w x y z : List Ptr) : w ++ (x ++ a :: y) ++ z = w ++ x ++ a :: (y ++ z) := by
  simp

lemma HasTree.vacant (h : HasTree m s) (hv : Vacant m s lk) :
    ∃ p n, Place m p .nil ∧ RB .black n (plug p .nil) ∧ link p = lk ∧
      s = before p ++ after p ∧ ∀ b, insertAt b lk s = before p ++ b :: after p := by
  match lk, hv with
  | none, hv =>
    obtain ⟨t, n, hplace, hbal, rfl⟩ := h
    have ht : t = .nil := (ptr_eq_zero hplace.tree).mp (hplace.root.symm.trans hv)
    subst ht
    exact ⟨[], n, hplace, hbal, rfl, rfl, fun b => rfl⟩
  | some (a, d), hv =>
    have hn := h.nodup
    obtain ⟨p, c, x, y, n, hplace, hbal, rfl⟩ := h.place_mk hv.1 d
    have hchild := hv.2
    rw [hplace.record, of_child, ptr_eq_zero (layout_mk.mp hplace.tree).2.2.1] at hchild
    subst hchild
    refine ⟨⟨d, c, a, y⟩ :: p, n, place_cons.mpr hplace, hbal, rfl, ?_, fun b => ?_⟩
    · cases d <;> simp [before, after, mk]
    · cases d <;>
      · rw [mk, Tree.toList, append_middle] at hn ⊢
        rw [insertAt_split hn]
        simp [before, after]

/-! ### What a call preserves -/

variable {s : List Ptr}

lemma Preserves.of_insert (h : HasTree m s) (ha : Good a) (has : a ∉ s) (hv : Vacant m s lk) :
    Preserves m s (.insert a lk) := by
  obtain ⟨p, n, hplace, hbal, rfl, rfl, hseq⟩ := h.vacant hv
  have hap : a ∉ nodes p := by
    intro hmem
    have hperm := toList_plug_perm (p := p) (t := .nil)
    rw [toList_plug] at hperm
    exact has (by simpa using hperm.mem_iff.mpr (mem_append_right _ hmem))
  obtain ⟨_, m1, hlink, hplace1⟩ := hplace.linkNode ha hap
  obtain ⟨c, k, hhole, hnil⟩ := hole_of_plug hbal
  cases hnil
  obtain ⟨n', T, hT, hbal'⟩ := rbInsert_balanced hhole a
  obtain ⟨_, m2, hrun, hplace2⟩ := hplace1.insertColor (by simp) hT
  refine ⟨m2, .bind hlink hrun, T, n', hplace2, hbal', ?_⟩
  rw [toList_rbInsert hT, note, hseq]

section

variable (h : HasTree m s)

include h

lemma Preserves.of_erase (ha : a ∈ s) : Preserves m s (.erase a) := by
  have hn := h.nodup
  obtain ⟨p, c, l, r, n, hplace, hbal, rfl⟩ := h.place ha
  obtain ⟨c', k, hhole, ht⟩ := hole_of_plug hbal
  have hc : c' = c := by cases ht <;> rfl
  subst hc
  obtain ⟨n', T, hT, hbal'⟩ := rbErase_balanced hhole ht
  obtain ⟨_, m', hrun, hplace'⟩ := hplace.erase hT
  refine ⟨m', hrun, T, n', hplace', hbal', ?_⟩
  rw [append_middle] at hn ⊢
  rw [nodup_middle, nodup_cons, mem_append, not_or] at hn
  rw [toList_rbErase hT, note, erase_append_right _ hn.1.1, erase_cons_head]
  simp

lemma Preserves.of_replace (ha : a ∈ s) (hb : Good b) (hbs : b ∉ s) :
    Preserves m s (.replace a b) := by
  have hn := h.nodup
  obtain ⟨p, c, l, r, n, hplace, hbal, rfl⟩ := h.place ha
  have hbt : b ∉ (Tree.node c l a r).toList ++ nodes p := by
    rw [← toList_plug_perm.mem_iff, toList_plug]
    exact hbs
  obtain ⟨_, m', hrun, hplace'⟩ := hplace.replaceNode hb hbt
  obtain ⟨c', k, hhole, ht⟩ := hole_of_plug hbal
  have ht' : RB c' k (.node c l b r) := by
    cases ht with
    | red hl hr => exact .red hl hr
    | black hl hr => exact .black hl hr
  obtain ⟨n', hbal'⟩ := hhole.plug ht'
  refine ⟨m', hrun, _, n', place_plug.mpr hplace', hbal', ?_⟩
  rw [append_middle] at hn ⊢
  rw [nodup_middle, nodup_cons, mem_append, not_or] at hn
  rw [toList_plug, note, map_append, map_cons, map_of_notMem hn.1.1,
    map_of_notMem hn.1.2]
  simp

lemma Preserves.of_write (ha : Good a) (has : a ∉ s) (v : RbNode) : Preserves m s (.write a v) := by
  obtain ⟨t, n, hplace, hbal, rfl⟩ := h
  refine ⟨_, store_runs ha.ne_zero _ m, t, n, ⟨hplace.path, ?_, hplace.root, hplace.nodup⟩, hbal,
    rfl⟩
  refine hplace.tree.congr fun e he => ?_
  rw [update_node, if_neg]
  rintro rfl
  exact has he

lemma HasTree.preserves : ∀ {a : Action}, Allowed m s a → Preserves m s a
  | .insert _ _, ha => .of_insert h ha.1 ha.2.1 ha.2.2
  | .erase _, ha => .of_erase h ha
  | .replace _ _, ha => .of_replace h ha.1 ha.2.1 ha.2.2
  | .write _ v, ha => .of_write h ha.1 ha.2 v

/-! ### What the walks return -/

lemma HasTree.first : Runs rbFirst m (s.head?.getD 0) m := by
  obtain ⟨t, n, hplace, -, rfl⟩ := h
  rw [← extreme_left]
  exact hplace.end_runs .left

lemma HasTree.last : Runs rbLast m (s.getLast?.getD 0) m := by
  obtain ⟨t, n, hplace, -, rfl⟩ := h
  rw [← extreme_right]
  exact hplace.end_runs .right

end

lemma HasTree.neighbours {s₁ s₂ : List Ptr} (h : HasTree m (s₁ ++ a :: s₂)) :
    Runs (rbNext a) m (s₂.head?.getD 0) m ∧ Runs (rbPrev a) m (s₁.getLast?.getD 0) m := by
  have hn := h.nodup
  obtain ⟨p, c, l, r, n, hplace, -, heq⟩ := h.place (a := a) (by simp)
  rw [nodup_middle, nodup_cons, mem_append, not_or] at hn
  obtain ⟨rfl, -, rfl⟩ := (append_cons_inj_of_notMem hn.1.1 hn.1.2).mp
    (heq.trans (append_middle ..))
  constructor
  · have hrun := step_runs (d := .right) hplace
    rwa [beyond_right, Dir.flip, extreme_left, ← List.head?_append] at hrun
  · have hrun := step_runs (d := .left) hplace
    rwa [beyond_left, Dir.flip, extreme_right, ← List.getLast?_append] at hrun

/-! ### The law -/

/-- The pointers and colours in memory make up a balanced tree with the nodes of the sequence in
order, every call that may come next runs to its end, and the walks go along the sequence. -/
structure TreeLaw (m : Mem) (s : List Ptr) : Prop where
  tree : HasTree m s
  calls : ∀ a, Allowed m s a → ∃ m', Runs a.program m () m'
  first : Runs rbFirst m (s.head?.getD 0) m
  last : Runs rbLast m (s.getLast?.getD 0) m
  next : ∀ s₁ a s₂, s = s₁ ++ a :: s₂ → Runs (rbNext a) m (s₂.head?.getD 0) m
  prev : ∀ s₁ a s₂, s = s₁ ++ a :: s₂ → Runs (rbPrev a) m (s₁.getLast?.getD 0) m

lemma HasTree.law (h : HasTree m s) : TreeLaw m s where
  tree := h
  calls a ha := by
    obtain ⟨m', hrun, -⟩ := h.preserves ha
    exact ⟨m', hrun⟩
  first := h.first
  last := h.last
  next s₁ a s₂ hs := (neighbours (hs ▸ h)).1
  prev s₁ a s₂ hs := (neighbours (hs ▸ h)).2

lemma hasTree_init (node : Ptr → RbNode) : HasTree ⟨node, 0⟩ [] :=
  ⟨.nil, 0, ⟨trivial, trivial, rfl, nodup_nil⟩, .nil, rfl⟩

lemma HasTree.step {node : Ptr → RbNode} {st : Mem × List Ptr} (h : HasTree st.1 st.2)
    {a : Action} (ha : (treeMachine node).guard st a) :
    HasTree ((treeMachine node).next st a).1 ((treeMachine node).next st a).2 := by
  obtain ⟨m', hrun, htree⟩ := h.preserves ha
  have hnext : (treeMachine node).next st a = (m', note st.2 a) := by
    simp only [treeMachine]
    rw [show a.program.run st.1 = some ((), m') from hrun]
    rfl
  rwa [hnext]

/-- After any sequence of insertions, removals and replacements on an empty tree. -/
theorem rbtree_law (node : Ptr → RbNode) {st : Mem × List Ptr}
    (h : (treeMachine node).Reachable st) : TreeLaw st.1 st.2 := by
  have htree : HasTree st.1 st.2 :=
    h.invariant (I := fun st => HasTree st.1 st.2) (hasTree_init node)
      fun st a hst ha => hst.step ha
  exact htree.law

/-- Three nodes in ascending order, after which the middle one is removed and the first one is
replaced. -/
def sampleRun : List Action :=
  [.insert 8 none, .insert 16 (some (8, .right)), .insert 24 (some (16, .right)), .erase 16,
    .replace 8 32]

theorem rbtree_law_sampleRun :
    TreeLaw ((treeMachine fun _ => ⟨0, 0, 0⟩).runFrom (⟨fun _ => ⟨0, 0, 0⟩, 0⟩, []) sampleRun).1
      [32, 24] := by
  have hadm : (treeMachine fun _ => ⟨0, 0, 0⟩).Admits (⟨fun _ => ⟨0, 0, 0⟩, 0⟩, []) sampleRun := by
    decide +kernel
  exact rbtree_law _ (Machine.Reachable.init.runFrom hadm)

/-- The largest number of nodes on a way down. -/
def depth : Tree Ptr → ℕ
  | .nil => 0
  | .node _ l _ r => max (depth l) (depth r) + 1

lemma depth_le (h : RB c n t) : depth t ≤ 2 * n + if c = .red then 1 else 0 := by
  induction h with
  | nil => exact le_rfl
  | red _ _ ihl ihr | black _ _ ihl ihr =>
    simp only [depth, reduceCtorEq, if_false, if_true] at ihl ihr ⊢
    grind

lemma two_pow_le_length (h : RB c n t) : 2 ^ n ≤ t.toList.length + 1 := by
  induction h with
  | nil => exact le_rfl
  | red _ _ ihl ihr | black _ _ ihl ihr =>
    simp only [Tree.toList, length_append, length_cons, pow_succ]
    omega

/-- No way down is longer than twice the logarithm of the number of nodes. -/
theorem rbtree_depth (node : Ptr → RbNode) {st : Mem × List Ptr}
    (h : (treeMachine node).Reachable st) :
    ∃ t, Place st.1 [] t ∧ t.toList = st.2 ∧ depth t ≤ 2 * (st.2.length + 1).log2 := by
  obtain ⟨t, n, hplace, hbal, hlist⟩ : HasTree st.1 st.2 :=
    h.invariant (I := fun st => HasTree st.1 st.2) (hasTree_init node) fun _ _ hst => hst.step
  refine ⟨t, hplace, hlist, (depth_le hbal).trans ?_⟩
  rw [← hlist]
  exact Nat.mul_le_mul_left 2 ((Nat.le_log2 (Nat.succ_ne_zero _)).mpr (two_pow_le_length hbal))

theorem rbtree_depth_sampleRun : ∃ t, Place ((treeMachine fun _ => ⟨0, 0, 0⟩).runFrom
      (⟨fun _ => ⟨0, 0, 0⟩, 0⟩, []) sampleRun).1 [] t ∧ t.toList = [32, 24] ∧
    depth t ≤ 2 :=
  rbtree_depth _ (Machine.Reachable.init.runFrom (by decide +kernel))

end LklPort.Rbtree.Heap
