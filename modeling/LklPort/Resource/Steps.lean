import LklPort.Resource.Tree

/-!
# What the functions of the resource tree do

One lemma for every loop, in terms of the lists of children, and from these the outcomes of
`__request_resource` and `__insert_resource`.
-/

namespace LklPort.Resource

open LinkedList List

variable {m : Mem} {kids : ℕ → List ℕ} {p q c new start end_ rounds : ℕ} {l pre post : List ℕ}

/-! ### Loops over a list of siblings -/

/-- The node ends before the range starts. -/
def Before (m : Mem) (start n : ℕ) : Prop := (m.res n).end_ < start

/-- How the loop of `__request_resource` can end on the siblings `l` behind the link `p`. -/
inductive RequestAt (m : Mem) (start end_ : ℕ) (p : Link) (l : List ℕ) : Link ⊕ ℕ → Prop where
  | free (pre post : List ℕ) (hl : l = pre ++ post) (hpre : ∀ a ∈ pre, Before m start a)
      (hpost : ∀ b ∈ post.head?, end_ < (m.res b).start) :
      RequestAt m start end_ p l (.inl (p.advance pre))
  | conflict (pre post : List ℕ) (c : ℕ) (hl : l = pre ++ c :: post)
      (hpre : ∀ a ∈ pre, Before m start a) (hstart : (m.res c).start ≤ end_)
      (hend : start ≤ (m.res c).end_) : RequestAt m start end_ p l (.inr c)

variable {link : Link} {s : Option ℕ} {top first : ℕ}

lemma RequestAt.cons {r : Link ⊕ ℕ} (hc : Before m start c)
    (h : RequestAt m start end_ (.sibling c) l r) : RequestAt m start end_ link (c :: l) r := by
  cases h with
  | free pre post hl hpre hpost =>
    exact .free (c :: pre) post (by rw [hl]; rfl) (List.forall_mem_cons.2 ⟨hc, hpre⟩) hpost
  | conflict pre post b hl hpre hstart hend =>
    exact .conflict (c :: pre) post b (by rw [hl]; rfl) (List.forall_mem_cons.2 ⟨hc, hpre⟩)
      hstart hend

lemma requestAt_spec (link : Link) (h : Seg m.sib (link.get m) l none) (hr : l.length < rounds) :
    ∃ r, requestAt m start end_ rounds link = some r ∧ RequestAt m start end_ link l r := by
  induction rounds generalizing link l with
  | zero => exact absurd hr (Nat.not_lt_zero _)
  | succ _ ih =>
    rw [requestAt]
    cases l with
    | nil =>
      rw [seg_nil.1 h]
      exact ⟨_, rfl, .free [] [] rfl (by simp) (by simp)⟩
    | cons a l =>
      rw [h.1]
      dsimp only
      split_ifs with hstart hend
      · exact ⟨_, rfl, .free [] (a :: l) rfl (by simp) (by simpa using hstart)⟩
      · obtain ⟨r, hrun, hspec⟩ := ih (.sibling a) h.2 (by simpa using hr)
        exact ⟨r, hrun, hspec.cons hend⟩
      · exact ⟨_, rfl, .conflict [] l a rfl (by simp) (by omega) (by omega)⟩

lemma releaseAt_spec {old : ℕ} (link : Link) (h : Seg m.sib (link.get m) (pre ++ old :: post) none)
    (hnot : old ∉ pre) (hr : (pre ++ old :: post).length < rounds) :
    releaseAt m old rounds link = some (some (link.advance pre)) := by
  induction rounds generalizing link pre with
  | zero => exact absurd hr (Nat.not_lt_zero _)
  | succ _ ih =>
    rw [releaseAt]
    cases pre with
    | nil =>
      rw [h.1]
      exact if_pos rfl
    | cons a =>
      rw [h.1]
      have ha : a ≠ old := fun he => hnot (by simp [he])
      dsimp only
      rw [if_neg ha]
      exact ih (.sibling a) h.2 (fun hm => hnot (by simp [hm])) (by simpa using hr)

lemma predecessor_spec {node a : ℕ} (h : Seg m.sib (some a) (l ++ [c]) (some node))
    (hnot : node ∉ l ++ [c]) (hr : (l ++ [c]).length < rounds) :
    predecessor m node rounds a = some c := by
  induction rounds generalizing l a with
  | zero => exact absurd hr (Nat.not_lt_zero _)
  | succ _ ih =>
    rw [predecessor]
    cases l with
    | nil =>
      obtain ⟨ha, hnext⟩ := h
      cases ha
      exact if_pos hnext
    | cons =>
      obtain ⟨ha, hl⟩ := h
      cases ha
      obtain ⟨d, hdmem, hd⟩ := hl.exists_head
      have hne : d ≠ node := ne_of_mem_of_not_mem hdmem fun hm => hnot (by simp_all)
      have hsib : (m.res a).sibling = some d := hd
      rw [hsib, if_neg (by simpa using hne)]
      rw [hd] at hl
      exact ih hl (fun hm => hnot (mem_cons_of_mem _ hm)) (by simpa using hr)

lemma adopt_spec (h : Seg m.sib s l none) (hr : l.length < rounds) :
    adopt new rounds s m = some (adoptAll m new l) := by
  induction rounds generalizing s l m with
  | zero => exact absurd hr (Nat.not_lt_zero _)
  | succ _ ih =>
    cases l with
    | nil =>
      rw [seg_nil.1 h, adopt]
      simp [adoptAll]
    | cons a l =>
      obtain ⟨rfl, hl⟩ := h
      have hl' : Seg (m.setParent a (some new)).sib (m.res a).sibling l none := by
        rw [setParent_sib]
        exact hl
      rw [adopt, ih hl' (by simpa using hr)]
      have hnot : a ∉ l := by
        have hnodup := Seg.nodup (l := a :: l) ⟨rfl, hl⟩
        exact (List.nodup_cons.1 hnodup).1
      congr 1
      unfold adoptAll
      congr 1
      funext n
      by_cases hn : n = a
      · subst hn
        simp [hnot, Mem.setParent]
      · simp [hn, Mem.setParent]

lemma childrenInside_spec (h : Seg m.sib s l none) (hr : l.length < rounds) :
    ∃ b, childrenInside m start end_ rounds s = some b ∧
      (b = true → ∀ a ∈ l, start ≤ (m.res a).start ∧ (m.res a).end_ ≤ end_) := by
  induction rounds generalizing s l with
  | zero => exact absurd hr (Nat.not_lt_zero _)
  | succ _ ih =>
    cases l with
    | nil =>
      rw [seg_nil.1 h]
      exact ⟨true, rfl, fun _ => by simp⟩
    | cons =>
      obtain ⟨rfl, hl⟩ := h
      rw [childrenInside]
      split_ifs with hout
      · exact ⟨false, rfl, nofun⟩
      · obtain ⟨b, hrun, hb⟩ := ih hl (by simpa using hr)
        refine ⟨b, hrun, fun hbt => List.forall_mem_cons.2 ⟨by omega, hb hbt⟩⟩

/-- How the second loop of `__insert_resource` can end on the siblings `l`. -/
inductive LastCovered (m : Mem) (new : ℕ) (l : List ℕ) : ℕ ⊕ ℕ → Prop where
  | covered (run post : List ℕ) (next : ℕ) (hl : l = run ++ next :: post)
      (hrun : ∀ a ∈ run ++ [next], (m.res new).start ≤ (m.res a).start ∧
        (m.res a).end_ ≤ (m.res new).end_)
      (hpost : ∀ b ∈ post.head?, (m.res new).end_ < (m.res b).start) :
      LastCovered m new l (.inl next)
  | overlap (c : ℕ) (hc : c ∈ l)
      (hout : (m.res c).start < (m.res new).start ∨ (m.res new).end_ < (m.res c).end_) :
      LastCovered m new l (.inr c)

lemma lastCovered_spec (h : Seg m.sib (some c) (c :: l) none) (hr : l.length < rounds) :
    ∃ r, lastCovered m new rounds c = some r ∧ LastCovered m new (c :: l) r := by
  induction rounds generalizing c l with
  | zero => exact absurd hr (Nat.not_lt_zero _)
  | succ _ ih =>
    rw [lastCovered]
    split_ifs with hout
    · exact ⟨_, rfl, .overlap c mem_cons_self (by omega)⟩
    have hsib : (m.res c).sibling = l.head? := h.2.start_eq
    cases l with
    | nil =>
      rw [hsib]
      exact ⟨_, rfl, .covered [] [] c rfl (by simp; omega) (by simp)⟩
    | cons b l =>
      rw [hsib]
      dsimp only [List.head?_cons]
      split_ifs with hstart
      · exact ⟨_, rfl, .covered [] (b :: l) c rfl (by simp; omega) (by simpa using hstart)⟩
      · obtain ⟨r, hrun, hspec⟩ := ih ⟨rfl, h.2.2⟩ (by simpa using hr)
        refine ⟨r, hrun, ?_⟩
        cases hspec with
        | covered run post next hl hcov hpost =>
          refine .covered (c :: run) post next (by rw [hl]; rfl) ?_ hpost
          exact List.forall_mem_cons.2 ⟨by omega, hcov⟩
        | overlap d hd hout => exact .overlap d (mem_cons_of_mem _ hd) hout

/-! ### Requests -/

/-- The outcomes of `__request_resource`, where the children of `q` are `kids q`. -/
inductive RequestOutcome (m : Mem) (kids : ℕ → List ℕ) (q new : ℕ) : Option ℕ × Mem → Prop where
  | outside (h : ¬ Inside m q new) : RequestOutcome m kids q new (some q, m)
  | linked (pre post : List ℕ) (hkids : kids q = pre ++ post) (hin : Inside m q new)
      (hpre : ∀ a ∈ pre, Before m (m.res new).start a)
      (hpost : ∀ b ∈ post.head?, (m.res new).end_ < (m.res b).start) :
      RequestOutcome m kids q new (none, linkAt m q new ((Link.child q).advance pre))
  | conflict (pre post : List ℕ) (c : ℕ) (hkids : kids q = pre ++ c :: post) (hin : Inside m q new)
      (hpre : ∀ a ∈ pre, Before m (m.res new).start a) : RequestOutcome m kids q new (some c, m)

lemma requestResource_spec (h : Shape m kids) (q new : ℕ) :
    ∃ r, requestResource m q new = some r ∧ RequestOutcome m kids q new r := by
  unfold requestResource
  dsimp only
  split_ifs with hle hstart hend
  · exact ⟨_, rfl, .outside fun hin => absurd hin.le (not_le.2 hle)⟩
  · exact ⟨_, rfl, .outside fun hin => absurd hin.start (not_le.2 hstart)⟩
  · exact ⟨_, rfl, .outside fun hin => absurd hin.end_ (not_le.2 hend)⟩
  · have hin : Inside m q new := ⟨not_lt.1 hstart, not_lt.1 hle, not_lt.1 hend⟩
    obtain ⟨r, hrun, hr⟩ := requestAt_spec (.child q) (h.chain q)
      (Nat.lt_succ_of_le (h.length_le q))
    rw [hrun]
    cases hr with
    | free pre post hl hpre hpost => exact ⟨_, rfl, .linked pre post hl hin hpre hpost⟩
    | conflict pre post c hl hpre => exact ⟨_, rfl, .conflict pre post c hl hin hpre⟩

/-! ### The way down -/

/-- The nodes from one in the tree up to the root. -/
inductive Line (kids : ℕ → List ℕ) (root : ℕ) : List ℕ → Prop where
  | root : Line kids root [root]
  | step {p c : ℕ} {l : List ℕ} (h : Line kids root (p :: l)) (hc : c ∈ kids p) :
      Line kids root (c :: p :: l)

lemma exists_line (h : InTree kids m.root p) : ∃ l, Line kids m.root (p :: l) := by
  induction h with
  | refl => exact ⟨[], .root⟩
  | tail _ hc ih =>
    obtain ⟨l, hl⟩ := ih
    exact ⟨_, hl.step hc⟩

lemma Line.mem_cases {root x : ℕ} (h : Line kids root (p :: l)) (hx : x ∈ p :: l) :
    x = root ∨ ∃ y ∈ l, x ∈ kids y := by
  generalize hline : p :: l = line at h hx
  induction h generalizing p l with
  | root => exact .inl (List.mem_singleton.1 hx)
  | @step y _ _ _ hc ih =>
    cases hline
    rcases List.mem_cons.1 hx with rfl | hx
    · exact .inr ⟨y, mem_cons_self, hc⟩
    · rcases ih rfl hx with h | ⟨z, hz, hxz⟩
      · exact .inl h
      · exact .inr ⟨z, mem_cons_of_mem _ hz, hxz⟩

lemma Shape.nodup_line (h : Shape m kids) (hl : Line kids m.root l) : l.Nodup := by
  induction hl with
  | root => exact nodup_singleton _
  | @step _ _ _ hl hc ih =>
    refine List.nodup_cons.2 ⟨fun hmem => ?_, ih⟩
    rcases hl.mem_cases hmem with rfl | ⟨y, hy, hcy⟩
    · exact h.root_not_mem hc
    · rw [h.eq_of_mem hcy hc] at hy
      exact (List.nodup_cons.1 ih).1 hy

lemma Shape.line_lt_size (h : Shape m kids) (hl : Line kids m.root l) : ∀ a ∈ l, a < m.size := by
  induction hl with
  | root => simpa using h.root_lt
  | @step p c _ _ hc ih => exact List.forall_mem_cons.2 ⟨h.bound p c hc, ih⟩

/-- Where the first loop of `__insert_resource` can end, from the node `top` on. -/
inductive DescentOutcome (m : Mem) (kids : ℕ → List ℕ) (top new : ℕ) : Descent → Prop where
  | outside (h : ¬ Inside m top new) : DescentOutcome m kids top new (.result (some top) m)
  | linked (q : ℕ) (m' : Mem) (hq : m.Linked q) (h : RequestOutcome m kids q new (none, m')) :
      DescentOutcome m kids top new (.result none m')
  | stop (q : ℕ) (pre post : List ℕ) (first : ℕ) (hkids : kids q = pre ++ first :: post)
      (hin : Inside m q new) (hend : (m.res q).end_ ≤ (m.res top).end_)
      (hpre : ∀ a ∈ pre, Before m (m.res new).start a) :
      DescentOutcome m kids top new (.stop q first)

lemma descend_spec (h : Shape m kids) (ho : Ordered m kids) (hl : Line kids m.root (q :: l))
    (hr : m.size < (q :: l).length + rounds) (htop : (m.res q).end_ ≤ (m.res top).end_)
    (hin : q = top ∨ Inside m q new) :
    ∃ d, descend m new rounds q = some d ∧ DescentOutcome m kids top new d := by
  induction rounds generalizing q l with
  | zero =>
    -- there are not more nodes on the way to the root than nodes
    have hlen := (h.nodup_line hl).length_le_of_forall_lt (h.line_lt_size hl)
    exact absurd hr (not_lt.2 hlen)
  | succ _ ih =>
    rw [descend]
    obtain ⟨r, hrun, hout⟩ := requestResource_spec h q new
    rw [hrun]
    have hq : m.Linked q := by
      cases hl with
      | root => exact .inl rfl
      | step _ hc => exact h.linked_of_mem hc
    cases hout with
    | outside hnot =>
      obtain rfl := hin.resolve_right hnot
      exact ⟨_, if_pos rfl, .outside hnot⟩
    | linked pre post hkids hin hpre hpost =>
      exact ⟨_, rfl, .linked q _ hq (.linked pre post hkids hin hpre hpost)⟩
    | conflict pre post c hkids hin hpre =>
      have hc : c ∈ kids q := by simp [hkids]
      have hne : c ≠ q := by
        rintro rfl
        exact (List.nodup_cons.1 (h.nodup_line (hl.step hc))).1 mem_cons_self
      have hcin := ho.inside q c hc
      dsimp only
      rw [if_neg hne]
      split_ifs with hfit heq
      · exact ⟨_, rfl, .stop q pre post c hkids hin htop hpre⟩
      · exact ⟨_, rfl, .stop q pre post c hkids hin htop hpre⟩
      · refine ih (hl.step hc) (by simp at hr ⊢; omega) (hcin.end_.trans htop) (.inr ?_)
        exact ⟨by omega, hin.le, by omega⟩

/-! ### Insertions -/

lemma previous_cases (h : Seg m.sib (m.res q).child pre (some c)) (hnot : c ∉ pre)
    (hr : pre.length ≤ m.size) : pre = [] ∧ (m.res q).child = some c ∨
      ∃ l a b, pre = l ++ [a] ∧ (m.res q).child = some b ∧ (m.res q).child ≠ some c ∧
        predecessor m c (m.size + 1) b = some a := by
  rcases eq_nil_or_concat pre with rfl | ⟨l, a, rfl⟩
  · exact .inl ⟨rfl, seg_nil.1 h⟩
  · rw [concat_eq_append] at *
    obtain ⟨b, hmem, hb⟩ := h.exists_head
    have hne : b ≠ c := ne_of_mem_of_not_mem hmem hnot
    rw [hb] at h ⊢
    exact .inr ⟨l, a, b, rfl, rfl, by simpa using hne,
      predecessor_spec h hnot (Nat.lt_succ_of_le hr)⟩

lemma replaceFirst_spec (h : Seg m.sib (m.res q).child pre (some first)) (hnot : first ∉ pre)
    (hr : pre.length ≤ m.size) :
    replaceFirst m q first new = some (setBehind m q pre (some new)) := by
  unfold replaceFirst
  rcases previous_cases h hnot hr with ⟨rfl, hchild⟩ | ⟨l, a, b, rfl, hchild, hne, hpred⟩
  · rw [if_pos hchild]
    rfl
  · rw [if_neg hne, hchild, setBehind_concat]
    dsimp only
    rw [hpred]

lemma regroup_spec {next : ℕ} {run : List ℕ} (h : Shape m kids) (hq : m.Linked q)
    (hnew : ¬ m.Linked new) (hkids : kids q = pre ++ ((run ++ [next]) ++ post))
    (hfirst : (run ++ [next]).head? = some first) :
    regroup m q first next new = some (regrouped m q new next first pre run) := by
  have hlen := h.length_le q
  rw [hkids] at hlen
  simp only [length_append, length_singleton] at hlen
  have hcut : ((((m.setParent new (some q)).setSibling new
      ((m.setParent new (some q)).res next).sibling).setChild new (some first)).setSibling next
      none) = cutOff m q new next first := by
    have hsib : ((m.setParent new (some q)).res next).sibling = (m.res next).sibling :=
      congrFun (setParent_sib (some q)) next
    rw [hsib]
    rfl
  unfold regroup
  dsimp only
  rw [hcut, adopt_spec (h.cutOff_run hnew hkids hfirst) (by simp [cutOff]; omega)]
  refine replaceFirst_spec ?_ ?_ (by simp [cutOff]; omega)
  · rw [adoptAll_sib, adoptAll_child]
    exact h.cutOff_pre hq hnew hkids hfirst
  · exact ((h.group_disjoint hkids).1 first (mem_of_mem_head? hfirst)).1

/-- The outcomes of `__insert_resource` below the node `top`. -/
inductive InsertOutcome (m : Mem) (kids : ℕ → List ℕ) (top new : ℕ) : Option ℕ × Mem → Prop where
  | outside (h : ¬ Inside m top new) : InsertOutcome m kids top new (some top, m)
  | linked (q : ℕ) (m' : Mem) (hq : m.Linked q) (h : RequestOutcome m kids q new (none, m')) :
      InsertOutcome m kids top new (none, m')
  | regrouped (q : ℕ) (pre run post : List ℕ) (first next : ℕ) (hq : m.Linked q)
      (hkids : kids q = pre ++ (run ++ next :: post))
      (hfirst : (run ++ [next]).head? = some first) (hin : Inside m q new)
      (hpre : ∀ a ∈ pre, Before m (m.res new).start a)
      (hrun : ∀ a ∈ run ++ [next], (m.res new).start ≤ (m.res a).start ∧
        (m.res a).end_ ≤ (m.res new).end_)
      (hpost : ∀ b ∈ post.head?, (m.res new).end_ < (m.res b).start) :
      InsertOutcome m kids top new (none, Resource.regrouped m q new next first pre run)
  | overlap (q c : ℕ) (hc : c ∈ kids q) (hin : Inside m q new)
      (hend : (m.res q).end_ ≤ (m.res top).end_)
      (hout : (m.res c).start < (m.res new).start ∨ (m.res new).end_ < (m.res c).end_) :
      InsertOutcome m kids top new (some c, m)

lemma insertResource_spec (h : Shape m kids) (ho : Ordered m kids) (htop : m.Linked top)
    (hnew : ¬ m.Linked new) :
    ∃ r, insertResource m top new = some r ∧ InsertOutcome m kids top new r := by
  obtain ⟨l, hl⟩ := exists_line (h.linked_iff.1 htop)
  obtain ⟨d, hd, hout⟩ := descend_spec h ho hl
    (show m.size < _ + (m.size + 1) by omega) (le_refl _) (.inl rfl)
  rw [insertResource, hd]
  cases hout with
  | outside hnot => exact ⟨_, rfl, .outside hnot⟩
  | linked q m' hq h => exact ⟨_, rfl, .linked q m' hq h⟩
  | stop q pre _ first hkids hin hend hpre =>
    have hseg := h.seg_post hkids
    have hlen := h.length_le q
    rw [hkids] at hlen
    simp only [length_append, length_cons] at hlen
    obtain ⟨r, hr, hcov⟩ := lastCovered_spec hseg (show _ < m.size + 1 by omega)
    dsimp only
    rw [hr]
    have hq : m.Linked q := h.linked_parent (c := first) (by simp [hkids])
    cases hcov with
    | covered run rest next hl hrun hpost =>
      rw [hl] at hkids
      have hfirst : (run ++ [next]).head? = some first := by
        cases run with
        | nil | cons =>
          have hf := (List.cons.inj hl).1
          simp [hf]
      dsimp only
      rw [regroup_spec h hq hnew (by simpa using hkids) hfirst]
      exact ⟨_, rfl, .regrouped q pre run rest first next hq hkids hfirst hin hpre hrun hpost⟩
    | overlap c hc hout =>
      refine ⟨_, rfl, .overlap q c ?_ hin hend hout⟩
      rw [hkids]
      exact mem_append_right _ hc

end LklPort.Resource
