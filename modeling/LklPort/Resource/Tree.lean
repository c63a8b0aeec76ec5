import LklPort.LinkedList.Basic
import LklPort.Resource.Basic

/-!
# Well-formed resource trees

A memory is well formed if its links describe a tree, given by the list of the children of every
node, and if the ranges of the nodes fit this tree. Linking a node in, taking a leaf out and moving
a run of children below a new node are three changes of these lists.
-/

namespace LklPort.Resource

open LinkedList Relation List Function

/-- The field `sibling`. -/
def Mem.sib (m : Mem) (n : ℕ) : Option ℕ := (m.res n).sibling

/-- The range of every node. -/
def range (m : Mem) (n : ℕ) : ℕ × ℕ := ((m.res n).start, (m.res n).end_)

/-- The nodes below the root. -/
def InTree (kids : ℕ → List ℕ) (root : ℕ) : ℕ → Prop := ReflTransGen (fun p c => c ∈ kids p) root

/-- The links of the nodes agree with the lists of children `kids`, and these form a tree. -/
structure Shape (m : Mem) (kids : ℕ → List ℕ) : Prop where
  chain : ∀ p, Seg m.sib (m.res p).child (kids p) none
  parent : ∀ p c, (m.res c).parent = some p ↔ c ∈ kids p
  root : (m.res m.root).parent = none
  rooted : ∀ p c, c ∈ kids p → InTree kids m.root p
  bound : ∀ p c, c ∈ kids p → c < m.size
  root_lt : m.root < m.size

/-- The range of `c` is one, and lies in that of `p`. -/
structure Inside (m : Mem) (p c : ℕ) : Prop where
  start : (m.res p).start ≤ (m.res c).start
  le : (m.res c).start ≤ (m.res c).end_
  end_ : (m.res c).end_ ≤ (m.res p).end_

/-- Every node lies inside its parent, and siblings are in the order of their addresses. -/
structure Ordered (m : Mem) (kids : ℕ → List ℕ) : Prop where
  root : (m.res m.root).start ≤ (m.res m.root).end_
  inside : ∀ p, ∀ c ∈ kids p, Inside m p c
  sorted : ∀ p, (kids p).Pairwise fun a b => (m.res a).end_ < (m.res b).start

def WellFormed (m : Mem) : Prop := ∃ kids, Shape m kids ∧ Ordered m kids

variable {m m' : Mem} {kids : ℕ → List ℕ} {n p q c new : ℕ} {l pre post : List ℕ}

/-! ### Memory -/

@[simp] lemma modify_self (f : Res → Res) : (m.modify n f).res n = f (m.res n) :=
  update_self ..

@[simp] lemma modify_of_ne (f : Res → Res) (h : p ≠ n) : (m.modify n f).res p = m.res p :=
  update_of_ne h ..

section

variable (v : Option ℕ)

@[simp] lemma setParent_size : (m.setParent n v).size = m.size := rfl

@[simp] lemma setParent_root : (m.setParent n v).root = m.root := rfl

@[simp] lemma setSibling_size : (m.setSibling n v).size = m.size := rfl

@[simp] lemma setSibling_root : (m.setSibling n v).root = m.root := rfl

@[simp] lemma setChild_size : (m.setChild n v).size = m.size := rfl

@[simp] lemma setChild_root : (m.setChild n v).root = m.root := rfl

lemma modify_field {α : Type*} (field : Res → α) {f : Res → Res}
    (hf : field (f (m.res n)) = field (m.res n)) :
    field ((m.modify n f).res p) = field (m.res p) := by
  by_cases hp : p = n
  · rw [hp, modify_self, hf]
  · rw [modify_of_ne f hp]

lemma setParent_parent :
    ((m.setParent n v).res p).parent = if p = n then v else (m.res p).parent := by
  unfold Mem.setParent
  by_cases hp : p = n <;> simp [hp]

@[simp] lemma setParent_child :
    ((m.setParent n v).res p).child = (m.res p).child := modify_field Res.child rfl

@[simp] lemma setParent_sib : (m.setParent n v).sib = m.sib :=
  funext fun _ => modify_field Res.sibling rfl

@[simp] lemma setChild_parent :
    ((m.setChild n v).res p).parent = (m.res p).parent := modify_field Res.parent rfl

lemma setChild_child : ((m.setChild n v).res p).child = if p = n then v else (m.res p).child := by
  unfold Mem.setChild
  by_cases hp : p = n <;> simp [hp]

@[simp] lemma setChild_sib : (m.setChild n v).sib = m.sib :=
  funext fun _ => modify_field Res.sibling rfl

@[simp] lemma setSibling_parent :
    ((m.setSibling n v).res p).parent = (m.res p).parent := modify_field Res.parent rfl

@[simp] lemma setSibling_child :
    ((m.setSibling n v).res p).child = (m.res p).child := modify_field Res.child rfl

lemma setSibling_sib : (m.setSibling n v).sib = update m.sib n v := by
  funext p
  unfold Mem.setSibling Mem.sib
  by_cases hp : p = n <;> simp [hp]

@[simp] lemma setParent_range : range (m.setParent n v) = range m :=
  funext fun _ => modify_field (fun r => (r.start, r.end_)) rfl

@[simp] lemma setChild_range : range (m.setChild n v) = range m :=
  funext fun _ => modify_field (fun r => (r.start, r.end_)) rfl

@[simp] lemma setSibling_range : range (m.setSibling n v) = range m :=
  funext fun _ => modify_field (fun r => (r.start, r.end_)) rfl

end

namespace Shape

section

variable (h : Shape m kids)

include h

lemma nodup (p : ℕ) : (kids p).Nodup := (h.chain p).nodup

lemma eq_of_mem (hp : c ∈ kids p) (hq : c ∈ kids q) : p = q :=
  Option.some_inj.1 (((h.parent p c).2 hp).symm.trans ((h.parent q c).2 hq))

lemma length_le (p : ℕ) : (kids p).length ≤ m.size :=
  (h.nodup p).length_le_of_forall_lt (h.bound p)

lemma root_not_mem : m.root ∉ kids p := fun hmem => by
  have hparent := (h.parent p m.root).2 hmem
  simp [h.root] at hparent

lemma linked_of_mem (hc : c ∈ kids p) : m.Linked c := by
  refine .inr ?_
  rw [(h.parent p c).2 hc]
  rfl

lemma linked_iff : m.Linked n ↔ InTree kids m.root n := by
  constructor
  · rintro (rfl | hn)
    · exact .refl
    · obtain ⟨p, hp⟩ := Option.isSome_iff_exists.1 hn
      have hmem := (h.parent p n).1 hp
      exact (h.rooted p n hmem).tail hmem
  · intro hn
    rcases hn.cases_tail with rfl | ⟨p, -, hmem⟩
    · exact .inl rfl
    · exact h.linked_of_mem hmem

lemma linked_parent (hc : c ∈ kids p) : m.Linked p :=
  h.linked_iff.2 (h.rooted p c hc)

lemma not_mem (hn : ¬ m.Linked n) : n ∉ kids p :=
  fun hmem => hn (h.linked_of_mem hmem)

lemma kids_eq_nil (hn : ¬ m.Linked n) : kids n = [] :=
  List.eq_nil_iff_forall_not_mem.2 fun _ hc => hn (h.linked_parent hc)

end

end Shape

/-! ### Links -/

/-- The link behind the nodes of `l`, which start at the link `p`. -/
def Link.advance : Link → List ℕ → Link
  | p, [] => p
  | _, a :: l => advance (.sibling a) l

@[simp] lemma advance_concat (p : Link) (a : ℕ) : p.advance (l ++ [a]) = .sibling a := by
  induction l generalizing p with
  | nil => rfl
  | cons _ _ ih => exact ih _

lemma get_advance {link : Link} {t : Option ℕ} (h : Seg m.sib (link.get m) l t) :
    (link.advance l).get m = t := by
  induction l generalizing link with
  | nil => exact h
  | cons _ _ ih => exact ih h.2

section Set

variable (m q pre) (v : Option ℕ)

/-- The link behind the first children `pre` of `q` is set to `v`. -/
def setBehind : Mem := ((Link.child q).advance pre).set m v

variable {m q pre v}

lemma setBehind_nil : setBehind m q [] v = m.setChild q v := rfl

lemma setBehind_concat (a : ℕ) : setBehind m q (l ++ [a]) v = m.setSibling a v := by
  rw [setBehind, advance_concat]
  rfl

lemma setBehind_cases :
    setBehind m q pre v = m.setChild q v ∨ ∃ a ∈ pre, setBehind m q pre v = m.setSibling a v := by
  rcases eq_nil_or_concat pre with rfl | ⟨l, a, rfl⟩
  · exact .inl rfl
  · rw [concat_eq_append]
    exact .inr ⟨a, by simp, setBehind_concat a⟩

@[simp] lemma setBehind_size : (setBehind m q pre v).size = m.size := by
  rcases @setBehind_cases m q pre v with h | ⟨a, -, h⟩ <;> rw [h] <;> rfl

@[simp] lemma setBehind_root : (setBehind m q pre v).root = m.root := by
  rcases @setBehind_cases m q pre v with h | ⟨a, -, h⟩ <;> rw [h] <;> rfl

@[simp] lemma setBehind_parent : ((setBehind m q pre v).res n).parent = (m.res n).parent := by
  rcases @setBehind_cases m q pre v with h | ⟨a, -, h⟩ <;> simp [h]

@[simp] lemma setBehind_range : range (setBehind m q pre v) = range m := by
  rcases @setBehind_cases m q pre v with h | ⟨a, -, h⟩ <;> simp [h]

lemma setBehind_child (hn : n ≠ q) : ((setBehind m q pre v).res n).child = (m.res n).child := by
  rcases @setBehind_cases m q pre v with h | ⟨a, -, h⟩ <;> simp [h, setChild_child, hn]

lemma setBehind_sib (hn : n ∉ pre) : (setBehind m q pre v).sib n = m.sib n := by
  rcases @setBehind_cases m q pre v with h | ⟨a, ha, h⟩
  · rw [h, setChild_sib]
  · rw [h, setSibling_sib, update_of_ne (ne_of_mem_of_not_mem ha hn).symm]

lemma setBehind_seg {t : Option ℕ} (h : Seg m.sib (m.res q).child pre t) (hpre : pre.Nodup) :
    Seg (setBehind m q pre v).sib ((setBehind m q pre v).res q).child pre v := by
  rcases eq_nil_or_concat pre with rfl | ⟨l, a, rfl⟩
  · simp [setBehind_nil, setChild_child]
  · rw [concat_eq_append] at *
    have ha : a ∉ l := fun hmem => by
      simpa using (List.nodup_append.1 hpre).2.2 a hmem a
    rw [setBehind_concat, setSibling_sib, setSibling_child]
    exact h.relink ha

end Set

section

variable (h : Shape m kids) (hkids : kids q = pre ++ post)

include h hkids

lemma Shape.seg_pre : Seg m.sib (m.res q).child pre post.head? := by
  have hchain := h.chain q
  rw [hkids] at hchain
  obtain ⟨u, hpre, hpost⟩ := seg_append.1 hchain
  rwa [← hpost.start_eq]

lemma Shape.seg_post : Seg m.sib post.head? post none := by
  have hchain := h.chain q
  rw [hkids] at hchain
  obtain ⟨u, -, hpost⟩ := seg_append.1 hchain
  rwa [hpost.start_eq] at hpost

lemma Shape.nodup_append : (pre ++ post).Nodup := hkids ▸ h.nodup q

end

lemma inTree_of_subset {kids' : ℕ → List ℕ} {root : ℕ} (h : ∀ p, ∀ c ∈ kids p, InTree kids' root p →
    InTree kids' root c) (hn : InTree kids root n) : InTree kids' root n := by
  induction hn with
  | refl => exact .refl
  | tail _ hc ih => exact h _ _ hc ih

/-! ### A new node -/

section Graft

variable {run : List ℕ}

/-- The lists of children with `new` between `q` and the nodes of `run`. -/
def regroupKids (kids : ℕ → List ℕ) (q new : ℕ) (pre run post : List ℕ) : ℕ → List ℕ :=
  update (update kids q (pre ++ new :: post)) new run

lemma regroupKids_new : regroupKids kids q new pre run post new = run := update_self ..

lemma regroupKids_self (h : q ≠ new) :
    regroupKids kids q new pre run post q = pre ++ new :: post := by
  rw [regroupKids, update_of_ne h, update_self]

lemma regroupKids_of_ne (hp : p ≠ q) (hnew : p ≠ new) :
    regroupKids kids q new pre run post p = kids p := by
  rw [regroupKids, update_of_ne hnew, update_of_ne hp]

/-- In `m'` the node `new` is below `q`, behind the nodes of `pre`, and the nodes of `run` are below
`new`. -/
structure Grafted (m m' : Mem) (q new : ℕ) (pre run post : List ℕ) : Prop where
  size : m'.size = m.size
  root : m'.root = m.root
  parent : ∀ n, (m'.res n).parent =
    if n ∈ run then some new else if n = new then some q else (m.res n).parent
  child : ∀ n, n ≠ q → n ≠ new → (m'.res n).child = (m.res n).child
  sib : ∀ n ∉ pre, n ∉ run → n ≠ new → m'.sib n = m.sib n
  front : Seg m'.sib (m'.res q).child pre (some new)
  below : Seg m'.sib (m'.res new).child run none
  behind : m'.sib new = post.head?

variable (h : Shape m kids) (hq : m.Linked q) (hnew : ¬ m.Linked new) (hlt : new < m.size)
  (hkids : kids q = pre ++ (run ++ post))

include hkids

lemma mem_group : c ∈ kids q ↔ c ∈ pre ∨ c ∈ run ∨ c ∈ post := by simp [hkids]

include h

lemma Shape.group_disjoint :
    (∀ c ∈ run, c ∉ pre ∧ c ∉ post) ∧ (∀ c ∈ post, c ∉ pre) ∧ pre.Nodup ∧ run.Nodup := by
  obtain ⟨hpre, hrest, hdisj⟩ := List.nodup_append.1 (h.nodup_append hkids)
  obtain ⟨hrun, -, hdisj'⟩ := List.nodup_append.1 hrest
  refine ⟨fun c hc => ⟨fun hm => ?_, fun hm => hdisj' c hc c hm rfl⟩, fun c hc hm => ?_, hpre, hrun⟩
  · exact hdisj c hm c (mem_append_left _ hc) rfl
  · exact hdisj c hm c (mem_append_right _ hc) rfl

include hq hnew

lemma Shape.mem_regroupKids : c ∈ regroupKids kids q new pre run post p ↔
    (p = new ∧ c ∈ run) ∨ (p = q ∧ c = new) ∨ (c ∈ kids p ∧ c ∉ run) := by
  have hne : q ≠ new := fun he => hnew (he ▸ hq)
  have hdisj := (h.group_disjoint hkids).1 c
  have hgroup := mem_group (c := c) hkids
  by_cases hp : p = new
  · subst hp
    rw [regroupKids_new, h.kids_eq_nil hnew]
    simp [hne.symm]
  by_cases hpq : p = q
  · subst hpq
    rw [regroupKids_self hne, hgroup]
    simp only [mem_append, mem_cons, hp, false_and, false_or, true_and]
    tauto
  · rw [regroupKids_of_ne hpq hp]
    simp only [hp, hpq, false_and, false_or]
    exact ⟨fun hc => ⟨hc, fun hm => hpq (h.eq_of_mem hc (hgroup.2 (.inr (.inl hm))))⟩, And.left⟩

include hlt

lemma Shape.graft (hg : Grafted m m' q new pre run post) :
    Shape m' (regroupKids kids q new pre run post) := by
  have hne : q ≠ new := fun he => hnew (he ▸ hq)
  have hmem : ∀ p, new ∉ kids p := fun p => h.not_mem hnew
  have hmemq := fun a => (mem_group (c := a) hkids).2
  have hdisj := h.group_disjoint hkids
  refine ⟨fun p => ?_, fun p c => ?_, ?_, fun p c hc => ?_, fun p c hc => ?_, ?_⟩
  · by_cases hp : p = new
    · subst hp
      rw [regroupKids_new]
      exact hg.below
    by_cases hpq : p = q
    · subst hpq
      rw [regroupKids_self hne]
      refine seg_append.2 ⟨some new, hg.front, rfl, ?_⟩
      rw [hg.behind]
      have hpost := h.seg_post (show kids p = pre ++ run ++ post by simpa using hkids)
      exact hpost.congr fun a ha => hg.sib a (hdisj.2.1 a ha) (fun hm => (hdisj.1 a hm).2 ha)
        fun he => hmem p (hmemq new (.inr (.inr (he ▸ ha))))
    · rw [regroupKids_of_ne hpq hp, hg.child p hpq hp]
      refine (h.chain p).congr fun a ha => ?_
      have hnot : a ∉ kids q := fun hm => hpq (h.eq_of_mem ha hm)
      exact hg.sib a (fun hm => hnot (hmemq a (.inl hm)))
        (fun hm => hnot (hmemq a (.inr (.inl hm)))) fun he => hmem p (he ▸ ha)
  · rw [h.mem_regroupKids hq hnew hkids, hg.parent]
    by_cases hc : c ∈ run
    · have hcnew : c ≠ new := fun he => hmem q (hmemq new (.inr (.inl (he ▸ hc))))
      simp [hc, hcnew, eq_comm]
    by_cases hcn : c = new
    · subst hcn
      simp [hc, hmem p, eq_comm]
    · simp [hc, hcn, h.parent p c]
  · have hnot : m.root ∉ run := fun hm => h.root_not_mem (hmemq m.root (.inr (.inl hm)))
    rw [hg.root, hg.parent, if_neg hnot, if_neg fun he => hnew (.inl he.symm)]
    exact h.root
  · -- a path through `q` and the run now goes through `new`
    rw [hg.root]
    have hvia := fun (hn : InTree (regroupKids kids q new pre run post) m.root q) =>
      hn.tail ((h.mem_regroupKids hq hnew hkids).2 (.inr (.inl ⟨rfl, rfl⟩)))
    have hkeep : ∀ n, InTree kids m.root n →
        InTree (regroupKids kids q new pre run post) m.root n := by
      intro n hn
      refine inTree_of_subset (fun p c hc hp => ?_) hn
      by_cases hcm : c ∈ run
      · obtain rfl : p = q := h.eq_of_mem hc (hmemq c (.inr (.inl hcm)))
        exact (hvia hp).tail ((h.mem_regroupKids hq hnew hkids).2 (.inl ⟨rfl, hcm⟩))
      · exact hp.tail ((h.mem_regroupKids hq hnew hkids).2 (.inr (.inr ⟨hc, hcm⟩)))
    rcases (h.mem_regroupKids hq hnew hkids).1 hc with ⟨rfl, -⟩ | ⟨rfl, -⟩ | ⟨hc, -⟩
    · exact hvia (hkeep q (h.linked_iff.1 hq))
    · exact hkeep p (h.linked_iff.1 hq)
    · exact hkeep p (h.rooted p c hc)
  · rw [hg.size]
    rcases (h.mem_regroupKids hq hnew hkids).1 hc with ⟨-, hc⟩ | ⟨-, rfl⟩ | ⟨hc, -⟩
    · exact h.bound q c (hmemq c (.inr (.inl hc)))
    · exact hlt
    · exact h.bound p c hc
  · rw [hg.root, hg.size]
    exact h.root_lt

end Graft

section Link

lemma linkAt_range (p : Link) : range (linkAt m q new p) = range m := by
  cases p <;> simp [linkAt, Link.set]

lemma Shape.linkAt (h : Shape m kids) (hq : m.Linked q) (hnew : ¬ m.Linked new)
    (hkids : kids q = pre ++ post) :
    Grafted m (linkAt m q new ((Link.child q).advance pre)) q new pre [] post := by
  have hne : new ≠ q := fun he => hnew (he ▸ hq)
  have hseg := h.seg_pre hkids
  have hpre : new ∉ pre := fun hm => h.not_mem (p := q) hnew (by simp [hkids, hm])
  change Grafted m ((setBehind (m.setSibling new _) q pre (some new)).setParent new _) _ _ _ _ _
  rw [get_advance hseg]
  refine ⟨by simp, by simp, fun n => by simp [setParent_parent], fun n hn _ => ?_,
    fun n hn _ hne => ?_, ?_, ?_, ?_⟩
  · rw [setParent_child, setBehind_child hn, setSibling_child]
  · rw [setParent_sib, setBehind_sib hn, setSibling_sib, update_of_ne hne]
  · rw [setParent_sib, setParent_child]
    refine setBehind_seg (t := post.head?) ?_ (List.nodup_append.1 (h.nodup_append hkids)).1
    rw [setSibling_child, setSibling_sib]
    exact hseg.congr fun a ha => update_of_ne (ne_of_mem_of_not_mem ha hpre) ..
  · have hchain := h.chain new
    rw [h.kids_eq_nil hnew] at hchain
    rwa [setParent_child, setBehind_child hne, setSibling_child]
  · rw [setParent_sib, setBehind_sib hpre, setSibling_sib, update_self]

end Link

/-! ### A leaf less -/

section Remove

variable {old : ℕ} (h : Shape m kids) (hkids : kids q = pre ++ old :: post)

/-- The lists of children without one of those of `q`. -/
def removeKid (kids : ℕ → List ℕ) (q : ℕ) (pre post : List ℕ) : ℕ → List ℕ :=
  update kids q (pre ++ post)

include h hkids

lemma Shape.mem_removeKid : c ∈ removeKid kids q pre post p ↔ c ∈ kids p ∧ c ≠ old := by
  have hnodup := h.nodup_append hkids
  unfold removeKid
  by_cases hp : p = q
  · subst hp
    have hold : old ∉ pre ++ post := by
      rw [List.nodup_append, List.nodup_cons] at hnodup
      intro hmem
      rcases List.mem_append.1 hmem with hmem | hmem
      · exact hnodup.2.2 old hmem old mem_cons_self rfl
      · exact hnodup.2.1.1 hmem
    rw [update_self, hkids]
    constructor
    · intro hc
      refine ⟨?_, ne_of_mem_of_not_mem hc hold⟩
      rcases List.mem_append.1 hc with hc | hc <;> simp [hc]
    · rintro ⟨hc, hne⟩
      simpa [hne] using hc
  · rw [update_of_ne hp]
    refine ⟨fun hc => ⟨hc, ?_⟩, And.left⟩
    rintro rfl
    exact hp (h.eq_of_mem hc (by simp [hkids]))

lemma Shape.release (hleaf : kids old = []) :
    Shape ((setBehind m q pre (m.res old).sibling).setParent old none)
      (removeKid kids q pre post) := by
  have hnodup := h.nodup_append hkids
  have hpost := h.seg_post hkids
  have hsibling : (m.res old).sibling = post.head? := hpost.2.start_eq
  have hmemq : old ∈ kids q := by simp [hkids]
  rw [hsibling]
  refine ⟨fun p => ?_, fun p c => ?_, ?_, fun p c hc => ?_, fun p c hc => ?_,
    by simpa using h.root_lt⟩
  · rw [setParent_sib, setParent_child]
    by_cases hp : p = q
    · subst hp
      rw [removeKid, update_self]
      refine seg_append.2 ⟨post.head?, ?_, ?_⟩
      · exact setBehind_seg (h.seg_pre hkids) (List.nodup_append.1 hnodup).1
      · rw [← hsibling]
        refine hpost.2.congr fun a ha => setBehind_sib fun hpre => ?_
        exact (List.nodup_append.1 hnodup).2.2 a hpre a (mem_cons_of_mem _ ha) rfl
    · rw [removeKid, update_of_ne hp, setBehind_child hp]
      refine (h.chain p).congr fun a ha => setBehind_sib fun hpre => ?_
      exact hp (h.eq_of_mem ha (by simp [hkids, hpre]))
  · rw [setParent_parent, setBehind_parent, h.mem_removeKid hkids]
    by_cases hc : c = old
    · simp [hc]
    · simp [hc, h.parent p c]
  · have hroot : m.root ≠ old := fun he => h.root_not_mem (he ▸ hmemq)
    rw [setParent_parent, setBehind_parent, setParent_root, setBehind_root, if_neg hroot]
    exact h.root
  · rw [setParent_root, setBehind_root]
    -- a path from the root does not go through a leaf
    have hkeep : ∀ n, InTree kids m.root n → n ≠ old →
        InTree (removeKid kids q pre post) m.root n := by
      intro n hn
      induction hn with
      | refl => exact fun _ => .refl
      | @tail p _ _ hc ih =>
        intro hne
        have hp : p ≠ old := by
          rintro rfl
          simp [hleaf] at hc
        exact (ih hp).tail ((h.mem_removeKid hkids).2 ⟨hc, hne⟩)
    obtain ⟨hc, -⟩ := (h.mem_removeKid hkids).1 hc
    apply hkeep p (h.rooted p c hc)
    rintro rfl
    simp [hleaf] at hc
  · rw [setParent_size, setBehind_size]
    exact h.bound p c ((h.mem_removeKid hkids).1 hc).1

end Remove

/-! ### A node between others -/

section Regroup

variable {next first : ℕ} {run : List ℕ}

/-- The nodes of `run` get the parent `new`. -/
def adoptAll (m : Mem) (new : ℕ) (run : List ℕ) : Mem :=
  { m with res := fun n => if n ∈ run then { m.res n with parent := some new } else m.res n }

@[simp] lemma adoptAll_size : (adoptAll m new run).size = m.size := rfl

@[simp] lemma adoptAll_root : (adoptAll m new run).root = m.root := rfl

@[simp] lemma adoptAll_child : ((adoptAll m new run).res n).child = (m.res n).child := by
  unfold adoptAll
  by_cases hn : n ∈ run <;> simp [hn]

@[simp] lemma adoptAll_sib : (adoptAll m new run).sib = m.sib := by
  funext n
  unfold adoptAll Mem.sib
  by_cases hn : n ∈ run <;> simp [hn]

lemma adoptAll_parent : ((adoptAll m new run).res n).parent =
    if n ∈ run then some new else (m.res n).parent := by
  unfold adoptAll
  by_cases hn : n ∈ run <;> simp [hn]

@[simp] lemma adoptAll_range : range (adoptAll m new run) = range m := by
  funext n
  unfold adoptAll range
  by_cases hn : n ∈ run <;> simp [hn]

/-- The memory when the new node has its links and the last of its children is cut off. -/
def cutOff (m : Mem) (q new next : ℕ) (first : ℕ) : Mem :=
  (((m.setParent new (some q)).setSibling new (m.res next).sibling).setChild new
    (some first)).setSibling next none

lemma cutOff_parent : ((cutOff m q new next first).res n).parent =
    if n = new then some q else (m.res n).parent := by
  simp [cutOff, setParent_parent]

lemma cutOff_child : ((cutOff m q new next first).res n).child =
    if n = new then some first else (m.res n).child := by
  simp [cutOff, setChild_child]

lemma cutOff_sib : (cutOff m q new next first).sib =
    update (update m.sib new (m.res next).sibling) next none := by
  simp [cutOff, setSibling_sib]

/-- The memory when `new` stands between `q` and the nodes of `run` with `next`. -/
def regrouped (m : Mem) (q new next first : ℕ) (pre run : List ℕ) : Mem :=
  setBehind (adoptAll (cutOff m q new next first) new (run ++ [next])) q pre (some new)

@[simp] lemma regrouped_range : range (regrouped m q new next first pre run) = range m := by
  simp [regrouped, cutOff]

variable (h : Shape m kids) (hq : m.Linked q) (hnew : ¬ m.Linked new)
  (hkids : kids q = pre ++ ((run ++ [next]) ++ post)) (hfirst : (run ++ [next]).head? = some first)

include hfirst

lemma head_group : ((run ++ [next]) ++ post).head? = some first := by
  rw [List.head?_append, hfirst]
  rfl

include h hnew hkids

lemma Shape.cutOff_run : Seg (cutOff m q new next first).sib (some first) (run ++ [next]) none := by
  have hseg := h.seg_post hkids
  rw [head_group hfirst] at hseg
  obtain ⟨u, hrun, -⟩ := seg_append.1 hseg
  have hnot : next ∉ run := fun hm =>
    (List.nodup_append.1 (h.group_disjoint hkids).2.2.2).2.2 next hm next mem_cons_self rfl
  have hmoved : Seg (update m.sib new (m.res next).sibling) (some first) (run ++ [next]) u :=
    hrun.congr fun a ha => update_of_ne
      (ne_of_mem_of_not_mem ((mem_group hkids).2 (.inr (.inl ha))) (h.not_mem hnew)) ..
  rw [cutOff_sib]
  exact hmoved.relink hnot

include hq

lemma Shape.cutOff_pre : Seg (cutOff m q new next first).sib
    ((cutOff m q new next first).res q).child pre (some first) := by
  have hne : q ≠ new := fun he => hnew (he ▸ hq)
  have hseg := h.seg_pre hkids
  rw [head_group hfirst] at hseg
  rw [cutOff_child, if_neg hne, cutOff_sib]
  refine hseg.congr fun a ha => ?_
  have hanext : a ≠ next := fun he => ((h.group_disjoint hkids).1 next (by simp)).1 (he ▸ ha)
  have hanew : a ≠ new :=
    ne_of_mem_of_not_mem ((mem_group hkids).2 (.inl ha)) (h.not_mem hnew)
  rw [update_of_ne hanext, update_of_ne hanew]

lemma Shape.regroup :
    Grafted m (regrouped m q new next first pre run) q new pre (run ++ [next]) post := by
  have hne : new ≠ q := fun he => hnew (he ▸ hq)
  have hdisj := h.group_disjoint hkids
  have hnewq : ∀ a ∈ kids q, new ≠ a := fun a ha he => h.not_mem hnew (he ▸ ha)
  have hpre : new ∉ pre := fun hm => hnewq new ((mem_group hkids).2 (.inl hm)) rfl
  refine ⟨by simp [regrouped, cutOff], by simp [regrouped, cutOff], fun n => ?_,
    fun n hn hnew => ?_, fun n hpre hrun hnew => ?_, ?_, ?_, ?_⟩
  · rw [regrouped, setBehind_parent, adoptAll_parent, cutOff_parent]
  · rw [regrouped, setBehind_child hn, adoptAll_child, cutOff_child, if_neg hnew]
  · have hnext : n ≠ next := fun he => hrun (by simp [he])
    rw [regrouped, setBehind_sib hpre, adoptAll_sib, cutOff_sib, update_of_ne hnext,
      update_of_ne hnew]
  · refine setBehind_seg (t := some first) ?_ hdisj.2.2.1
    rw [adoptAll_sib, adoptAll_child]
    exact h.cutOff_pre hq hnew hkids hfirst
  · rw [regrouped, setBehind_child hne, adoptAll_child, cutOff_child, if_pos rfl]
    refine (h.cutOff_run hnew hkids hfirst).congr fun a ha => ?_
    rw [setBehind_sib (hdisj.1 a ha).1, adoptAll_sib]
  · have hpost := h.seg_post (show kids q = pre ++ run ++ next :: post by simp [hkids])
    rw [regrouped, setBehind_sib hpre, adoptAll_sib, cutOff_sib,
      update_of_ne (hnewq next (by simp [hkids])), update_self]
    exact hpost.2.start_eq

end Regroup

/-! ### The order of the ranges -/

section Order

lemma range_eq_iff : range m' = range m ↔
    ∀ n, (m'.res n).start = (m.res n).start ∧ (m'.res n).end_ = (m.res n).end_ := by
  simp [funext_iff, range]

lemma Ordered.of_range_eq (h : Ordered m kids) (hrange : range m' = range m)
    (hroot : m'.root = m.root) : Ordered m' kids := by
  have hr := range_eq_iff.1 hrange
  refine ⟨?_, fun p c hc => ?_, fun p => ?_⟩
  · rw [hroot, (hr _).1, (hr _).2]
    exact h.root
  · obtain ⟨hs, hle, he⟩ := h.inside p c hc
    exact ⟨by rwa [(hr _).1, (hr _).1], by rwa [(hr _).1, (hr _).2], by rwa [(hr _).2, (hr _).2]⟩
  · refine (h.sorted p).imp fun {a b} hab => ?_
    rwa [(hr _).1, (hr _).2]

variable {x : ℕ}

section

variable (h : Ordered m kids)

include h

lemma Ordered.lt_of_head (hkids : kids q = pre ++ post)
    (hhead : ∀ b ∈ post.head?, x < (m.res b).start) : ∀ b ∈ post, x < (m.res b).start := by
  have hsorted := h.sorted q
  rw [hkids] at hsorted
  cases post with
  | nil => simp
  | cons a =>
    have ha : x < (m.res a).start := hhead a rfl
    have hle := (h.inside q a (by simp [hkids])).le
    refine List.forall_mem_cons.2 ⟨ha, fun b hb => ?_⟩
    have hab := (List.pairwise_cons.1 (List.pairwise_append.1 hsorted).2.1).1 b hb
    omega

lemma Ordered.lt_of_last {a : ℕ} (hkids : kids q = (l ++ [a]) ++ post)
    (hlast : (m.res a).end_ < x) : ∀ b ∈ l ++ [a], (m.res b).end_ < x := by
  have hsorted := h.sorted q
  rw [hkids] at hsorted
  have hpre := (List.pairwise_append.1 hsorted).1
  have hle := (h.inside q a (by simp [hkids])).le
  intro b hb
  rcases List.mem_append.1 hb with hb | hb
  · have hba := (List.pairwise_append.1 hpre).2.2 b hb a mem_cons_self
    omega
  · rwa [List.mem_singleton.1 hb]

lemma Ordered.removeKid {old : ℕ} (hkids : kids q = pre ++ old :: post) :
    Ordered m (removeKid kids q pre post) := by
  have hsub : (pre ++ post).Sublist (kids q) := by
    rw [hkids]
    exact List.Sublist.append_left (sublist_cons_self old post) pre
  refine ⟨h.root, fun p c hc => ?_, fun p => ?_⟩ <;> unfold Resource.removeKid at * <;>
    by_cases hp : p = q
  · subst hp
    rw [update_self] at hc
    exact h.inside p c (hsub.subset hc)
  · rw [update_of_ne hp] at hc
    exact h.inside p c hc
  · subst hp
    rw [update_self]
    exact (h.sorted p).sublist hsub
  · rw [update_of_ne hp]
    exact h.sorted p

lemma Ordered.regroup {run : List ℕ} (hne : q ≠ new)
    (hkids : kids q = pre ++ (run ++ post)) (hin : Inside m q new)
    (hpre : ∀ a ∈ pre, (m.res a).end_ < (m.res new).start)
    (hrun : ∀ a ∈ run, (m.res new).start ≤ (m.res a).start ∧ (m.res a).end_ ≤ (m.res new).end_)
    (hpost : ∀ b ∈ post, (m.res new).end_ < (m.res b).start) :
    Ordered m (regroupKids kids q new pre run post) := by
  have hsorted := h.sorted q
  rw [hkids] at hsorted
  obtain ⟨hspre, hrest, hcross⟩ := List.pairwise_append.1 hsorted
  obtain ⟨hsrun, hspost, -⟩ := List.pairwise_append.1 hrest
  refine ⟨h.root, fun p c hc => ?_, fun p => ?_⟩ <;> by_cases hp : p = new
  · subst hp
    rw [regroupKids_new] at hc
    have hcq : c ∈ kids q := (mem_group hkids).2 (.inr (.inl hc))
    exact ⟨(hrun c hc).1, (h.inside q c hcq).le, (hrun c hc).2⟩
  · by_cases hpq : p = q
    · subst hpq
      rw [regroupKids_self hne, mem_append, mem_cons] at hc
      rcases hc with hc | rfl | hc
      · exact h.inside p c ((mem_group hkids).2 (.inl hc))
      · exact hin
      · exact h.inside p c ((mem_group hkids).2 (.inr (.inr hc)))
    · rw [regroupKids_of_ne hpq hp] at hc
      exact h.inside p c hc
  · subst hp
    rwa [regroupKids_new]
  · by_cases hpq : p = q
    · subst hpq
      rw [regroupKids_self hne]
      refine List.pairwise_append.2
        ⟨hspre, List.pairwise_cons.2 ⟨hpost, hspost⟩, fun a ha b hb => ?_⟩
      rcases List.mem_cons.1 hb with rfl | hb
      · exact hpre a ha
      · exact hcross a ha b (mem_append_right _ hb)
    · rw [regroupKids_of_ne hpq hp]
      exact h.sorted p

end

end Order

end LklPort.Resource
