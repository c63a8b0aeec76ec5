import LklPort.Resource.Steps

/-!
# The resource tree stays well formed

Every call keeps the tree well formed, with one exception: `adjust_resource` computes the new end
as `start + size - 1` in 64 bits and does not compare it with the start. A size of 0, or one that
goes beyond the last address, gives a node that ends before it starts.
-/

namespace LklPort.Resource

open Machine List

variable {m : Mem} {kids : ℕ → List ℕ} {p q c n new start end_ rounds : ℕ}

/-! ### Setting a range -/

@[simp] lemma setRange_root : (setRange m n start end_).root = m.root := rfl

@[simp] lemma setRange_self : (setRange m n start end_).res n =
    { m.res n with start := start, end_ := end_ } := modify_self _

@[simp] lemma setRange_of_ne (h : p ≠ n) : (setRange m n start end_).res p = m.res p :=
  modify_of_ne _ h

@[simp] lemma setRange_parent : ((setRange m n start end_).res p).parent = (m.res p).parent := by
  by_cases hp : p = n <;> simp [hp]

@[simp] lemma setRange_child : ((setRange m n start end_).res p).child = (m.res p).child := by
  by_cases hp : p = n <;> simp [hp]

@[simp] lemma setRange_sib : (setRange m n start end_).sib = m.sib := by
  funext p
  unfold Mem.sib
  by_cases hp : p = n <;> simp [hp]

@[simp] lemma setRange_linked : (setRange m n start end_).Linked p ↔ m.Linked p := by
  simp [Mem.Linked]

lemma Shape.setRange (h : Shape m kids) : Shape (setRange m n start end_) kids :=
  ⟨by simpa using h.chain, by simpa using h.parent,
    by simpa using h.root, h.rooted, h.bound, h.root_lt⟩

lemma Ordered.setRange_new (ho : Ordered m kids) (h : Shape m kids) (hnew : ¬ m.Linked new) :
    Ordered (setRange m new start end_) kids := by
  have hne : ∀ p, ∀ c ∈ kids p, p ≠ new ∧ c ≠ new := fun p c hc =>
    ⟨fun he => hnew (he ▸ h.linked_parent hc), fun he => hnew (he ▸ h.linked_of_mem hc)⟩
  refine ⟨?_, fun p c hc => ?_, fun p => ?_⟩
  · rw [setRange_root, setRange_of_ne fun he => hnew (.inl he.symm)]
    exact ho.root
  · obtain ⟨hs, hle, he⟩ := ho.inside p c hc
    refine ⟨?_, ?_, ?_⟩ <;> simpa [(hne p c hc).1, (hne p c hc).2]
  · refine (ho.sorted p).imp_of_mem fun {a b} ha hb hab => ?_
    rwa [setRange_of_ne (hne p a ha).2, setRange_of_ne (hne p b hb).2]

/-! ### A tree that stays the same -/

/-- The same nodes are in the tree, with the same ranges and links. -/
structure SameTree (m m' : Mem) : Prop where
  root : m'.root = m.root
  linked : ∀ n, m'.Linked n ↔ m.Linked n
  res : ∀ n, m.Linked n → m'.res n = m.res n

lemma SameTree.refl (m : Mem) : SameTree m m := ⟨rfl, fun _ => Iff.rfl, fun _ _ => rfl⟩

lemma sameTree_setRange (hnew : ¬ m.Linked new) : SameTree m (setRange m new start end_) :=
  ⟨rfl, fun _ => setRange_linked, fun _ hn => setRange_of_ne fun he => hnew (he ▸ hn)⟩

variable {r : Option ℕ × Mem} {top old size : ℕ}

/-! ### Requests, insertions and releases -/

section

variable (h : Shape m kids) (ho : Ordered m kids)

include h ho

lemma RequestOutcome.wellFormed (hq : m.Linked q)
    (hnew : ¬ m.Linked new) (hlt : new < m.size) (hr : RequestOutcome m kids q new r) :
    WellFormed r.2 ∧ (r.1 ≠ none → r.2 = m) := by
  cases hr with
  | outside | conflict => exact ⟨⟨kids, h, ho⟩, fun _ => rfl⟩
  | linked _ _ hkids hin hpre hpost =>
    have hgraft := h.linkAt hq hnew hkids
    refine ⟨⟨_, h.graft hq hnew hlt hkids hgraft, ?_⟩, absurd rfl⟩
    have hne : q ≠ new := fun he => hnew (he ▸ hq)
    exact (ho.regroup hne hkids hin hpre (by simp) (ho.lt_of_head hkids hpost)).of_range_eq
      (linkAt_range _) hgraft.root

lemma InsertOutcome.wellFormed (hnew : ¬ m.Linked new)
    (hlt : new < m.size) (hr : InsertOutcome m kids top new r) :
    WellFormed r.2 ∧ (r.1 ≠ none → r.2 = m) := by
  cases hr with
  | outside | overlap => exact ⟨⟨kids, h, ho⟩, fun _ => rfl⟩
  | linked _ _ hq hr => exact hr.wellFormed h ho hq hnew hlt
  | regrouped q pre run post _ next hq hkids hfirst hin hpre hrun hpost =>
    have hkids : kids q = pre ++ ((run ++ [next]) ++ post) := by simp [hkids]
    have hgraft := h.regroup hq hnew hkids hfirst
    refine ⟨⟨_, h.graft hq hnew hlt hkids hgraft, ?_⟩, absurd rfl⟩
    have hne : q ≠ new := fun he => hnew (he ▸ hq)
    have hpost := ho.lt_of_head (hkids.trans (append_assoc _ _ _).symm) hpost
    exact (ho.regroup hne hkids hin hpre hrun hpost).of_range_eq regrouped_range hgraft.root

lemma releaseResource_spec (hlinked : m.Linked old)
    (hne : old ≠ m.root) (hleaf : (m.res old).child = none) :
    ∃ m', releaseResource m old = some (true, m') ∧ WellFormed m' := by
  obtain ⟨q, hq⟩ := Option.isSome_iff_exists.1 (hlinked.resolve_left hne)
  obtain ⟨pre, post, hkids⟩ := append_of_mem ((h.parent q old).1 hq)
  have hnot : old ∉ pre := fun hm =>
    (List.nodup_append.1 (h.nodup_append hkids)).2.2 old hm old mem_cons_self rfl
  have hnil : kids old = [] := by
    have hchain := h.chain old
    rw [hleaf] at hchain
    exact hchain.unique rfl
  have hlen := h.length_le q
  have hchain := h.chain q
  rw [hkids] at hlen hchain
  have hrun := releaseAt_spec (.child q) hchain hnot (Nat.lt_succ_of_le hlen)
  refine ⟨(setBehind m q pre (m.res old).sibling).setParent old none, ?_, _,
    h.release hkids hnil, ?_⟩
  · rw [releaseResource, hq]
    dsimp only
    rw [hrun]
    rfl
  · exact (ho.removeKid hkids).of_range_eq (by simp) (by simp)

end

/-! ### Insertions that expand -/

lemma cover_eq (hne : c ≠ new) : cover m new c = setRange m new
    (min (m.res new).start (m.res c).start) (max (m.res new).end_ (m.res c).end_) := by
  unfold cover setRange Mem.modify
  dsimp only
  rw [Function.update_idem]
  simp only [Function.update_self, Function.update_of_ne hne]
  split_ifs with hs he he
  · rw [min_eq_right (le_of_lt hs), max_eq_right (le_of_lt he)]
  · rw [min_eq_right (le_of_lt hs), max_eq_left (not_lt.1 he)]
  · rw [min_eq_left (not_lt.1 hs), max_eq_right (le_of_lt he)]
  · rw [min_eq_left (not_lt.1 hs), max_eq_left (not_lt.1 he)]

lemma expandLoop_spec (h : Shape m kids) (ho : Ordered m kids) (htop : m.Linked top)
    (hnew : ¬ m.Linked new) (hlt : new < m.size)
    (hr : (m.res new).start + ((m.res top).end_ - (m.res new).end_) < rounds) :
    ∃ m', expandLoop top new rounds m = some m' ∧ WellFormed m' := by
  induction rounds generalizing m with
  | zero => exact absurd hr (Nat.not_lt_zero _)
  | succ _ ih =>
    obtain ⟨r, hrun, hout⟩ := insertResource_spec h ho htop hnew
    have hwf := hout.wellFormed h ho hnew hlt
    rw [expandLoop, hrun]
    cases hout with
    | outside => exact ⟨m, if_pos rfl, hwf.1⟩
    | linked | regrouped => exact ⟨_, rfl, hwf.1⟩
    | overlap q c hc =>
      dsimp only
      split_ifs with htop'
      · exact ⟨m, rfl, hwf.1⟩
      have hne : c ≠ new := fun he => hnew (he ▸ h.linked_of_mem hc)
      have htopne : top ≠ new := fun he => hnew (he ▸ htop)
      have hcin := ho.inside q c hc
      have h3 := hcin.end_
      rw [cover_eq hne]
      refine ih h.setRange (ho.setRange_new h hnew) (setRange_linked.2 htop)
        (fun hl => hnew (setRange_linked.1 hl)) hlt ?_
      rw [setRange_self, setRange_of_ne htopne]
      dsimp only
      omega

variable {w : Wish} {res : ℕ} {pre post : List ℕ} {ok : Prop}

/-! ### Allocations -/

lemma findLoop_spec {tmp : Res} {s : Option ℕ} {l : List ℕ} (h : LinkedList.Seg m.sib s l none)
    (hr : l.length < rounds) : ∃ r, findLoop m q w rounds tmp s = some r := by
  induction rounds generalizing tmp s l with
  | zero => exact absurd hr (Nat.not_lt_zero _)
  | succ _ ih =>
    cases l with
    | nil =>
      rw [LinkedList.seg_nil.1 h, findLoop]
      split_ifs
      · exact ⟨_, rfl⟩
      · exact ⟨_, rfl⟩
    | cons =>
      obtain ⟨rfl, hl⟩ := h
      rw [findLoop]
      split_ifs
      · exact ⟨_, rfl⟩
      · exact ih hl (by simpa using hr)

section

variable (h : Shape m kids)

include h

lemma findResource_spec : ∃ r, findResource m q new w = some r := by
  have hchain := h.chain q
  have hlen := h.length_le q
  unfold findResource
  cases hk : kids q with
  | nil =>
    rw [hk] at hchain
    rw [LinkedList.seg_nil.1 hchain]
    exact findLoop_spec (l := []) rfl (by simp)
  | cons a l =>
    rw [hk] at hchain hlen
    rw [hchain.1]
    dsimp only
    split_ifs
    · exact findLoop_spec hchain.2 (by simp at hlen; omega)
    · exact findLoop_spec (l := a :: l) ⟨rfl, hchain.2⟩ (by omega)

/-! ### Changes of a range -/

lemma behindPrevious_spec (ho : Ordered m kids)
    (hkids : kids q = pre ++ res :: post) : ∃ b, behindPrevious m q res start = some b ∧
      (b = true → ∀ a ∈ pre, (m.res a).end_ < start) := by
  have hnot : res ∉ pre := fun hm =>
    (List.nodup_append.1 (h.nodup_append hkids)).2.2 res hm res mem_cons_self rfl
  have hseg : LinkedList.Seg m.sib (m.res q).child pre (some res) := h.seg_pre hkids
  have hlen := h.length_le q
  rw [hkids, length_append] at hlen
  unfold behindPrevious
  rcases previous_cases hseg hnot (Nat.le_of_add_right_le hlen) with
    ⟨rfl, hchild⟩ | ⟨l, a, b, rfl, hchild, hne, hpred⟩
  · exact ⟨true, if_pos hchild, fun _ => by simp⟩
  · rw [if_neg hne, hchild]
    dsimp only
    rw [hpred]
    refine ⟨_, rfl, fun htrue => ho.lt_of_last hkids ?_⟩
    simpa using htrue

lemma adjustable_spec {res : ℕ} {pre post : List ℕ} (ho : Ordered m kids)
    (hkids : kids q = pre ++ res :: post) :
    ∃ b, adjustable m q res start end_ = some b ∧ (b = true →
      ((m.res q).start ≤ start ∧ end_ ≤ (m.res q).end_) ∧
      (∀ a ∈ kids res, start ≤ (m.res a).start ∧ (m.res a).end_ ≤ end_) ∧
      (∀ b ∈ post, end_ < (m.res b).start) ∧ ∀ a ∈ pre, (m.res a).end_ < start) := by
  unfold adjustable
  by_cases hout : start < (m.res q).start ∨ end_ > (m.res q).end_
  · exact ⟨false, if_pos hout, nofun⟩
  rw [if_neg hout]
  obtain ⟨b, hrun, hb⟩ := childrenInside_spec (h.chain res) (Nat.lt_succ_of_le (h.length_le res))
  rw [hrun]
  cases b with
  | false => exact ⟨false, rfl, nofun⟩
  | true =>
    have hsib : (m.res res).sibling = post.head? := (h.seg_post hkids).2.start_eq
    rw [hsib]
    split_ifs with hpost
    · exact ⟨false, rfl, nofun⟩
    obtain ⟨b, hrun', hb'⟩ := behindPrevious_spec h ho hkids
    refine ⟨b, hrun', fun htrue => ⟨by omega, hb rfl, ?_, hb' htrue⟩⟩
    have hkids' : kids q = (pre ++ [res]) ++ post := by simp [hkids]
    refine ho.lt_of_head hkids' fun b hb => ?_
    rw [hb] at hpost
    simpa using hpost

lemma Ordered.adjust (ho : Ordered m kids) (hkids : kids q = pre ++ res :: post)
    (hle : start ≤ end_) (hq : (m.res q).start ≤ start ∧ end_ ≤ (m.res q).end_)
    (hchildren : ∀ a ∈ kids res, start ≤ (m.res a).start ∧ (m.res a).end_ ≤ end_)
    (hpost : ∀ b ∈ post, end_ < (m.res b).start) (hpre : ∀ a ∈ pre, (m.res a).end_ < start) :
    Ordered (Resource.setRange m res start end_) kids := by
  have hmem : res ∈ kids q := by simp [hkids]
  refine ⟨?_, fun p c hc => ?_, fun p => ?_⟩
  · have hroot : m.root ≠ res := fun he => h.root_not_mem (by rwa [he])
    rw [setRange_root, setRange_of_ne hroot]
    exact ho.root
  · have hin := ho.inside p c hc
    have hpc : p ≠ c := by
      rintro rfl
      obtain ⟨l, hl⟩ := exists_line (h.rooted p p hc)
      exact (List.nodup_cons.1 (h.nodup_line (hl.step hc))).1 mem_cons_self
    by_cases hcr : c = res
    · subst hcr
      obtain rfl := h.eq_of_mem hc hmem
      refine ⟨?_, ?_, ?_⟩ <;> rw [setRange_self] <;> try rw [setRange_of_ne hpc]
      exacts [hq.1, hle, hq.2]
    by_cases hpr : p = res
    · subst hpr
      have hcin := hchildren c hc
      refine ⟨?_, ?_, ?_⟩ <;> rw [setRange_of_ne hcr] <;> try rw [setRange_self]
      exacts [hcin.1, hin.le, hcin.2]
    · refine ⟨?_, ?_, ?_⟩ <;> rw [setRange_of_ne hcr] <;> try rw [setRange_of_ne hpr]
      exacts [hin.start, hin.le, hin.end_]
  · have hsorted := ho.sorted q
    rw [hkids] at hsorted
    obtain ⟨-, hscons, hcross⟩ := List.pairwise_append.1 hsorted
    refine (ho.sorted p).imp_of_mem fun {a b} ha hb hab => ?_
    have hale := (ho.inside p a ha).le
    have hble := (ho.inside p b hb).le
    by_cases har : a = res
    · subst har
      obtain rfl := h.eq_of_mem ha hmem
      have hba : b ≠ a := by
        rintro rfl
        omega
      rw [setRange_self, setRange_of_ne hba]
      rcases List.mem_append.1 (hkids ▸ hb) with hb | hb
      · have hlt := hcross b hb a mem_cons_self
        omega
      · exact hpost b ((List.mem_cons.1 hb).resolve_left hba)
    rw [setRange_of_ne har]
    by_cases hbr : b = res
    · subst hbr
      obtain rfl := h.eq_of_mem hb hmem
      rw [setRange_self]
      rcases List.mem_append.1 (hkids ▸ ha) with ha | ha
      · exact hpre a ha
      · have hlt := (List.pairwise_cons.1 hscons).1 a ((List.mem_cons.1 ha).resolve_left har)
        omega
    · rwa [setRange_of_ne hbr]

end

/-! ### Every call -/

/-- The arguments of `adjust_resource` name a range of addresses: there is a first one, and the
last one is a 64-bit word. For the start 0 a size of 0 stands for all addresses. -/
def NoWrap (_ : Mem) : Action → Prop
  | .adjust _ start size => (0 < size ∧ start + size ≤ 2 ^ 64) ∨ (start = 0 ∧ size = 0)
  | _ => True

lemma le_lastOf (h : (0 < size ∧ start + size ≤ 2 ^ 64) ∨ (start = 0 ∧ size = 0)) :
    start ≤ lastOf start size := by
  unfold lastOf
  omega

instance (m : Mem) (a : Action) : Decidable (NoWrap m a) := by
  induction a using Action.casesOn <;> dsimp only [NoWrap] <;> infer_instance

/-- What a call `a` is to guarantee: it returns, the tree it leaves is well formed if `ok` holds,
and it is the same tree if the call reports a conflict. -/
def Keeps (m : Mem) (a : Action) (ok : Prop) : Prop :=
  ∃ b m', call m a = some (b, m') ∧ (ok → WellFormed m') ∧ (b = false → SameTree m m')

lemma Keeps.of_result {a : Action} (hnew : ¬ m.Linked new)
    (hcall : call m a = some (r.1.isNone, r.2))
    (hwf : WellFormed r.2 ∧ (r.1 ≠ none → r.2 = setRange m new start end_)) : Keeps m a ok := by
  refine ⟨_, _, hcall, fun _ => hwf.1, fun hb => ?_⟩
  rw [hwf.2 fun hn => by simp [hn] at hb]
  exact sameTree_setRange hnew

section

variable (h : Shape m kids) (ho : Ordered m kids)

include h ho

lemma keeps_request
    (ha : Allowed m (.request q new start end_)) : Keeps m (.request q new start end_) ok := by
  obtain ⟨hq, hnew, hlt⟩ := ha
  have hnew' : ¬ (setRange m new start end_).Linked new := mt setRange_linked.1 hnew
  obtain ⟨r, hrun, hout⟩ := requestResource_spec h.setRange q new
  have hwf := hout.wellFormed h.setRange (ho.setRange_new h hnew) (setRange_linked.2 hq) hnew' hlt
  exact .of_result hnew (by rw [call, hrun]; rfl) hwf

lemma keeps_insert
    (ha : Allowed m (.insert q new start end_)) : Keeps m (.insert q new start end_) ok := by
  obtain ⟨hq, hnew, hlt⟩ := ha
  have hnew' : ¬ (setRange m new start end_).Linked new := mt setRange_linked.1 hnew
  obtain ⟨r, hrun, hout⟩ := insertResource_spec h.setRange (ho.setRange_new h hnew)
    (setRange_linked.2 hq) hnew'
  have hwf := hout.wellFormed h.setRange (ho.setRange_new h hnew) hnew' hlt
  exact .of_result hnew (by rw [call, hrun]; rfl) hwf

lemma keeps_expand
    (ha : Allowed m (.expand q new start end_)) : Keeps m (.expand q new start end_) ok := by
  obtain ⟨hq, hnew, hlt⟩ := ha
  have hnew' : ¬ (setRange m new start end_).Linked new := mt setRange_linked.1 hnew
  have hparent : ((setRange m new start end_).res new).parent.isSome = false := by
    rw [setRange_parent]
    exact Bool.eq_false_iff.2 fun hs => hnew (.inr hs)
  obtain ⟨m', hrun, hwf⟩ := expandLoop_spec h.setRange (ho.setRange_new h hnew)
    (setRange_linked.2 hq) hnew' hlt (show _ < ((setRange m new start end_).res new).start +
      ((setRange m new start end_).res q).end_ + 1 by omega)
  refine ⟨true, m', ?_, fun _ => hwf, nofun⟩
  rw [call, insertResourceExpandToFit, hparent, if_neg (by decide), hrun]
  rfl

lemma keeps_allocate (ha : Allowed m (.allocate q new w)) : Keeps m (.allocate q new w) ok := by
  obtain ⟨r, hfind⟩ := findResource_spec h
  unfold Keeps
  rw [call, allocateResource, hfind]
  match r with
  | none => exact ⟨false, m, rfl, fun _ => ⟨kids, h, ho⟩, fun _ => .refl m⟩
  | some (start, end_) =>
    obtain ⟨b, m', hcall, hwf, hsame⟩ := keeps_request h ho ha
    rw [call, Option.map_eq_some_iff] at hcall
    obtain ⟨r, hrun, hr⟩ := hcall
    dsimp only
    rw [hrun]
    exact ⟨b, m', congrArg some hr, fun _ => hwf trivial, hsame⟩

lemma keeps_release (ha : Allowed m (.release old)) : Keeps m (.release old) ok := by
  obtain ⟨m', hrun, hwf⟩ := releaseResource_spec h ho ha.1 ha.2.1 ha.2.2
  exact ⟨true, m', hrun, fun _ => hwf, nofun⟩

lemma keeps_adjust (ha : Allowed m (.adjust res start size)) :
    Keeps m (.adjust res start size) (NoWrap m (.adjust res start size)) := by
  obtain ⟨q, hq⟩ := Option.isSome_iff_exists.1 (ha.1.resolve_left ha.2)
  obtain ⟨pre, post, hkids⟩ := append_of_mem ((h.parent q res).1 hq)
  obtain ⟨b, hrun, hb⟩ := adjustable_spec h ho hkids
  unfold Keeps
  rw [call, adjustResource, hq]
  dsimp only
  rw [hrun]
  cases b with
  | false => exact ⟨false, m, rfl, fun _ => ⟨kids, h, ho⟩, fun _ => .refl m⟩
  | true =>
    obtain ⟨hin, hchildren, hpost, hpre⟩ := hb rfl
    refine ⟨true, _, rfl, fun hwrap => ⟨kids, h.setRange, ?_⟩, nofun⟩
    exact Ordered.adjust h ho hkids (le_lastOf hwrap) hin hchildren hpost hpre

end

lemma WellFormed.keeps {a : Action} (h : WellFormed m) (ha : Allowed m a) :
    Keeps m a (NoWrap m a) := by
  obtain ⟨kids, hs, ho⟩ := h
  cases a with
  | request => exact keeps_request hs ho ha
  | release => exact keeps_release hs ho ha
  | insert => exact keeps_insert hs ho ha
  | expand => exact keeps_expand hs ho ha
  | allocate => exact keeps_allocate hs ho ha
  | adjust => exact keeps_adjust hs ho ha

lemma wellFormed_of_reachable {m₀ : Mem} (h₀ : WellFormed m₀)
    (h : ((machine m₀).restrict NoWrap).Reachable m) : WellFormed m := by
  refine h.invariant h₀ fun s a hs ha => ?_
  obtain ⟨b, m', hcall, hwf, -⟩ := hs.keeps ha.1
  rw [show ((machine m₀).restrict NoWrap).next s a = m' by
    simp only [Machine.restrict, machine, hcall]]
  exact hwf ha.2

/-- In every run of calls without a wrapping `adjust_resource` from a well-formed tree, the tree
is well formed, every call returns, and one that reports a conflict leaves the tree as it was. -/
theorem resource_tree_law {m₀ : Mem} (h₀ : WellFormed m₀)
    (h : ((machine m₀).restrict NoWrap).Reachable m) :
    WellFormed m ∧ ∀ a, Allowed m a → ∃ b m', call m a = some (b, m') ∧
      (b = false → SameTree m m') := by
  have hwf := wellFormed_of_reachable h₀ h
  refine ⟨hwf, fun a ha => ?_⟩
  obtain ⟨b, m', hcall, -, hsame⟩ := hwf.keeps ha
  exact ⟨b, m', hcall, hsame⟩

/-- The addresses from 0 to 100 with one node below, from 10 to 20, and one that is not in use. -/
def sampleTree : Mem where
  size := 3
  root := 0
  res n := if n = 0 then ⟨0, 100, none, some 1, none⟩
    else if n = 1 then ⟨10, 20, some 0, none, none⟩
    else ⟨0, 0, none, none, none⟩

lemma wellFormed_sampleTree : WellFormed sampleTree := by
  refine ⟨fun p => if p = 0 then [1] else [], ?_, ?_⟩
  · refine ⟨fun p => ?_, fun p c => ?_, rfl, fun p c hc => ?_, fun p c hc => ?_, by decide⟩
    · by_cases hp : p = 0
      · subst hp
        exact ⟨rfl, rfl⟩
      · by_cases hp1 : p = 1 <;> simp [sampleTree, hp, hp1]
    · by_cases hp : p = 0 <;> by_cases hc : c = 0 <;> by_cases hc1 : c = 1 <;>
        simp [sampleTree, hp, hc, hc1]
      exact fun h => hp h.symm
    · by_cases hp : p = 0
      · subst hp
        exact .refl
      · simp [hp] at hc
    · by_cases hp : p = 0
      · simp only [hp, if_pos, mem_singleton] at hc
        subst hc
        decide
      · simp [hp] at hc
  · refine ⟨by decide, fun p c hc => ?_, fun p => ?_⟩
    · by_cases hp : p = 0
      · simp only [hp, if_pos, mem_singleton] at hc
        subst hc
        subst hp
        exact ⟨by decide, by decide, by decide⟩
      · simp [hp] at hc
    · by_cases hp : p = 0 <;> simp [hp]

/-- A second node is inserted around the first one, which then gets smaller. -/
def insertAround : List Action := [.insert 0 2 5 50, .adjust 1 12 4]

theorem resource_tree_law_insertAround : WellFormed sampleTree ∧
    ((machine sampleTree).restrict NoWrap).Reachable
      (((machine sampleTree).restrict NoWrap).runFrom sampleTree insertAround) ∧
    WellFormed (((machine sampleTree).restrict NoWrap).runFrom sampleTree insertAround) := by
  have hadm : ((machine sampleTree).restrict NoWrap).Admits sampleTree insertAround := by
    decide +kernel
  have hreach := Reachable.init.runFrom hadm
  exact ⟨wellFormed_sampleTree, hreach, (resource_tree_law wellFormed_sampleTree hreach).1⟩

/-- `adjust_resource` accepts a size of 0 and leaves a node from 50 to 49. -/
theorem adjust_ends_before_start : WellFormed sampleTree ∧
    (machine sampleTree).Reachable ((machine sampleTree).next sampleTree (.adjust 1 50 0)) ∧
    ¬ WellFormed ((machine sampleTree).next sampleTree (.adjust 1 50 0)) := by
  have hguard : (machine sampleTree).guard sampleTree (.adjust 1 50 0) := by
    exact ⟨by decide, by decide⟩
  refine ⟨wellFormed_sampleTree, .step .init _ hguard, ?_⟩
  rintro ⟨kids, h, ho⟩
  have hparent : (((machine sampleTree).next sampleTree (.adjust 1 50 0)).res 1).parent =
      some 0 := by decide +kernel
  have hle := (ho.inside 0 1 ((h.parent 0 1).1 hparent)).le
  revert hle
  decide +kernel

end LklPort.Resource
