import LklPort.PosixLock.Apply

/-!
# The list of an inode

The POSIX locks of an inode are a map from owners and offsets to types of locks. The list is made
of one group for each owner, and every lock has a number of its own. A request changes the group
of its owner.
-/

namespace LklPort.PosixLock

open RangeMap List Option

variable {Owner : Type} [DecidableEq Owner]

/-- The type of the lock that an owner holds at an offset. -/
def view (ls : List (Lock Owner)) (o : Owner) (x : ℤ) : Option LockType :=
  (ls.find? fun fl => fl.posix && decide (fl.owner = o) && decide (fl.start ≤ x ∧ x ≤ fl.end_)).map
    (·.type)

/-- What a lock of a type is in the map. -/
def LockType.held : LockType → Option LockType
  | .unlck => none
  | t => some t

variable {ls ls' a m b : List (Lock Owner)} {o : Owner} {x : ℤ} {n : ℕ}

/-! ### Reading the map -/

lemma view_append : view (ls ++ ls') o x = (view ls o x).or (view ls' o x) := by
  unfold view
  rw [List.find?_append, map_or]

lemma view_eq_none (h : ∀ fl ∈ ls, fl.posix = true → fl.owner ≠ o) : view ls o x = none := by
  unfold view
  rw [map_eq_none_iff, List.find?_eq_none]
  intro fl hfl
  cases hposix : fl.posix with
  | false => simp
  | true => simp [h fl hfl hposix]

lemma view_own (h : ∀ fl ∈ ls, Own o fl) : view ls o x = lookup (ls.map toRange) x := by
  induction ls with
  | nil => rfl
  | cons fl ls ih =>
    obtain ⟨hfl, hls⟩ := List.forall_mem_cons.1 h
    have hhead : lookup (toRange fl :: ls.map toRange) x =
        if fl.start ≤ x ∧ x ≤ fl.end_ then some fl.type else lookup (ls.map toRange) x := rfl
    rw [map_cons, hhead, ← ih hls]
    unfold view
    by_cases hx : fl.start ≤ x ∧ x ≤ fl.end_
    · rw [List.find?_cons_of_pos (by simp [hfl.posix, hfl.owner, hx]), if_pos hx]
      rfl
    · rw [List.find?_cons_of_neg (by simp [hx]), if_neg hx]

lemma view_group (ha : ∀ fl ∈ a, fl.posix = true → fl.owner ≠ o)
    (hb : ∀ fl ∈ b, fl.posix = true → fl.owner ≠ o) (hm : ∀ fl ∈ m, Own o fl) :
    view (a ++ (m ++ b)) o x = lookup (m.map toRange) x := by
  rw [view_append, view_append, view_eq_none ha, view_eq_none hb, view_own hm, none_or, or_none]

variable {m' : List (Lock Owner)}

lemma view_other {o' : Owner} (hm : ∀ fl ∈ m, Own o fl) (hm' : ∀ fl ∈ m', Own o fl) (hne : o' ≠ o) :
    view (a ++ (m' ++ b)) o' x = view (a ++ (m ++ b)) o' x := by
  have hnone : ∀ l : List (Lock Owner), (∀ fl ∈ l, Own o fl) → view l o' x = none := fun l hl =>
    view_eq_none fun fl hfl _ => by
      rw [(hl fl hfl).owner]
      exact hne.symm
  rw [view_append, view_append, view_append, view_append, hnone m hm, hnone m' hm']

omit [DecidableEq Owner] in
lemma view_applied {req : Request Owner} {woken : List ℕ} (h : Applied req m n woken m')
    (hm : ∀ fl ∈ m, Own o fl) (htidy : Tidy (m.map toRange)) (hle : req.start ≤ req.end_) :
    lookup (m'.map toRange) x =
      if req.start ≤ x ∧ x ≤ req.end_ then req.type.held else lookup (m.map toRange) x := by
  have hset := tidy_set (show (⟨req.start, req.end_, req.type⟩ : Range LockType).lo ≤ _ from hle)
    htidy
  rw [h.ranges, hset.lookup_filter (fun t => decide (t ≠ .unlck)) x, lookup_set]
  by_cases hx : req.start ≤ x ∧ x ≤ req.end_
  · rw [if_pos hx, if_pos hx]
    cases req.type <;> rfl
  · rw [if_neg hx, if_neg hx]
    cases ht : lookup (m.map toRange) x with
    | none => rfl
    | some =>
      obtain ⟨y, hy, -, rfl⟩ := mem_of_lookup_eq_some ht
      obtain ⟨fl, hfl, rfl⟩ := List.mem_map.1 hy
      exact filter_some_pos (decide_eq_true (hm fl hfl).type)

/-! ### Groups -/

/-- The list of an inode: locks of other kinds, then one group of POSIX locks for each owner. -/
structure Layout (ls np : List (Lock Owner)) (gs : List (List (Lock Owner))) : Prop where
  eq : ls = np ++ gs.flatten
  others : ∀ fl ∈ np, fl.posix = false
  group : ∀ g ∈ gs, g ≠ [] ∧ ∃ o, (∀ fl ∈ g, Own o fl) ∧ Tidy (g.map toRange)
  owners : gs.Pairwise fun g g' => ∀ fl ∈ g, ∀ fl' ∈ g', fl.owner ≠ fl'.owner

/-- The numbers of the POSIX locks are different and in use. -/
structure Numbered (ls : List (Lock Owner)) (fresh : ℕ) : Prop where
  nodup : ((ls.filter (·.posix)).map (·.id)).Nodup
  lt : ∀ fl ∈ ls, fl.posix = true → fl.id < fresh

/-- A group, if there are any locks in it. -/
def single (m : List (Lock Owner)) : List (List (Lock Owner)) := if m = [] then [] else [m]

omit [DecidableEq Owner] in
@[simp] lemma flatten_single : (single m).flatten = m := by
  unfold single
  split_ifs with h <;> simp [h]

omit [DecidableEq Owner] in
lemma mem_single {g : List (Lock Owner)} : g ∈ single m ↔ m ≠ [] ∧ g = m := by
  unfold single
  split_ifs with h <;> simp [h]

variable {np : List (Lock Owner)} {gs gs₁ gs₂ : List (List (Lock Owner))}

/-- The group of an owner in the list. -/
structure GroupOf (o : Owner) (gs₁ : List (List (Lock Owner))) (m : List (Lock Owner))
    (gs₂ : List (List (Lock Owner))) : Prop where
  own : ∀ fl ∈ m, Own o fl
  tidy : Tidy (m.map toRange)
  last : m = [] → gs₂ = []
  others₁ : ∀ g ∈ gs₁, ∀ fl ∈ g, fl.owner ≠ o
  others₂ : ∀ g ∈ gs₂, ∀ fl ∈ g, fl.owner ≠ o

omit [DecidableEq Owner] in
lemma Layout.split (h : Layout ls np gs) (o : Owner) :
    ∃ gs₁ m gs₂, gs = gs₁ ++ (single m ++ gs₂) ∧ GroupOf o gs₁ m gs₂ := by
  by_cases hex : ∃ g ∈ gs, ∃ fl ∈ g, fl.owner = o
  · obtain ⟨m, hm, fl, hfl, rfl⟩ := hex
    obtain ⟨hne, o, hown, htidy⟩ := h.group m hm
    obtain rfl := (hown fl hfl).owner
    obtain ⟨gs₁, gs₂, rfl⟩ := append_of_mem hm
    obtain ⟨-, hright, hleft⟩ := List.pairwise_append.1 h.owners
    refine ⟨gs₁, m, gs₂, by simp [single, hne], hown, htidy, fun he => absurd he hne, ?_, ?_⟩
    · exact fun g hg x hx => hleft g hg m mem_cons_self x hx fl hfl
    · intro g hg x hx
      exact ((List.pairwise_cons.1 hright).1 g hg fl hfl x hx).symm
  · refine ⟨gs, [], [], by simp [single], nofun, tidy_nil, fun _ => rfl, ?_, nofun⟩
    exact fun g hg fl hfl he => hex ⟨g, hg, fl, hfl, he⟩

omit [DecidableEq Owner] in
lemma Layout.replace (h : Layout ls np (gs₁ ++ (single m ++ gs₂))) (hgroup : GroupOf o gs₁ m gs₂)
    (hown : ∀ fl ∈ m', Own o fl) (htidy : Tidy (m'.map toRange)) :
    Layout (np ++ gs₁.flatten ++ (m' ++ gs₂.flatten)) np (gs₁ ++ (single m' ++ gs₂)) := by
  obtain ⟨hpair1, hright, hleft⟩ := List.pairwise_append.1 h.owners
  obtain ⟨-, hpair2, -⟩ := List.pairwise_append.1 hright
  refine ⟨by simp, h.others, fun g hg => ?_, ?_⟩
  · rcases List.mem_append.1 hg with hg | hg
    · exact h.group g (mem_append_left _ hg)
    rcases List.mem_append.1 hg with hg | hg
    · obtain ⟨hne, rfl⟩ := mem_single.1 hg
      exact ⟨hne, o, hown, htidy⟩
    · exact h.group g (by simp [hg])
  · refine List.pairwise_append.2 ⟨hpair1, List.pairwise_append.2 ⟨?_, hpair2, ?_⟩, ?_⟩
    · unfold single
      split_ifs <;> simp
    · intro g hg g' hg' fl hfl fl' hfl'
      obtain ⟨-, rfl⟩ := mem_single.1 hg
      rw [(hown fl hfl).owner]
      exact (hgroup.others₂ g' hg' fl' hfl').symm
    · intro g hg g' hg' fl hfl fl' hfl'
      rcases List.mem_append.1 hg' with hg' | hg'
      · obtain ⟨-, rfl⟩ := mem_single.1 hg'
        rw [(hown fl' hfl').owner]
        exact hgroup.others₁ g hg fl hfl
      · exact hleft g hg g' (mem_append_right _ hg') fl hfl fl' hfl'

omit [DecidableEq Owner] in
lemma Numbered.apart (h : Numbered (a ++ (m ++ b)) n) (hm : ∀ fl ∈ m, fl.posix = true) :
    Apart a m ∧ Apart b m ∧ (m.map (·.id)).Nodup := by
  have hnodup := h.nodup
  simp only [filter_append, map_append, List.filter_eq_self.2 hm] at hnodup
  obtain ⟨-, hright, hleft⟩ := List.nodup_append.1 hnodup
  obtain ⟨hmid, -, hmb⟩ := List.nodup_append.1 hright
  have hmem : ∀ {l : List (Lock Owner)} {x : Lock Owner}, x ∈ l → x.posix = true →
      x.id ∈ (l.filter (·.posix)).map (·.id) := fun hx hposix =>
    mem_map_of_mem (List.mem_filter.2 ⟨hx, hposix⟩)
  refine ⟨fun x hx hposix y hy => ?_, fun x hx hposix y hy he => ?_, hmid⟩
  · exact hleft _ (hmem hx hposix) _ (mem_append_left _ (mem_map_of_mem hy))
  · exact hmb _ (mem_map_of_mem hy) _ (hmem hx hposix) he.symm

omit [DecidableEq Owner] in
lemma Numbered.replace (h : Numbered (a ++ (m ++ b)) n) (hm : ∀ fl ∈ m, fl.posix = true)
    (hm' : ∀ fl ∈ m', fl.posix = true) (hnodup' : (m'.map (·.id)).Nodup)
    (hids : ∀ fl ∈ m', fl.id ∈ m.map (·.id) ∨ fl.id = n ∨ fl.id = n + 1) :
    Numbered (a ++ (m' ++ b)) (n + 2) := by
  have hnodup := h.nodup
  have hlt := h.lt
  have hfilter : ∀ {l : List (Lock Owner)}, (∀ fl ∈ l, fl.posix = true) →
      l.filter (·.posix) = l := fun hl => List.filter_eq_self.2 hl
  simp only [filter_append, map_append, hfilter hm] at hnodup
  obtain ⟨ha, hright, hleft⟩ := List.nodup_append.1 hnodup
  obtain ⟨hmid, hb, hmb⟩ := List.nodup_append.1 hright
  -- a number of the new locks is an old one of `m`, or not in use
  have hnew : ∀ l : List (Lock Owner), (∀ x ∈ l, x.posix = true → x.id < n) →
      (∀ i ∈ (l.filter (·.posix)).map (·.id), ∀ j ∈ m.map (·.id), i ≠ j) →
      ∀ i ∈ (l.filter (·.posix)).map (·.id), ∀ j ∈ m'.map (·.id), i ≠ j := by
    intro l hl hne i hi j hj
    obtain ⟨x, hx, rfl⟩ := List.mem_map.1 hi
    obtain ⟨y, hy, rfl⟩ := List.mem_map.1 hj
    obtain ⟨hx, hposix⟩ := List.mem_filter.1 hx
    have hxlt := hl x hx hposix
    rcases hids y hy with hold | hfresh
    · exact hne _ hi _ hold
    · omega
  constructor
  · simp only [filter_append, map_append, hfilter hm']
    refine List.nodup_append.2 ⟨ha, List.nodup_append.2 ⟨hnodup', hb, ?_⟩, ?_⟩
    · have hother := hnew b (fun x hx => hlt x (by simp [hx])) fun i hi j hj he =>
        hmb j hj i hi he.symm
      exact fun i hi j hj he => hother j hj i hi he.symm
    · intro i hi j hj
      rcases List.mem_append.1 hj with hj | hj
      · exact hnew a (fun x hx => hlt x (by simp [hx]))
          (fun i hi j hj => hleft i hi j (mem_append_left _ hj)) i hi j hj
      · exact hleft i hi j (mem_append_right _ hj)
  · intro x hx hposix
    simp only [mem_append] at hx
    rcases hx with hx | hx | hx
    · have hxlt := hlt x (by simp [hx]) hposix
      omega
    · rcases hids x hx with hold | hfresh
      · obtain ⟨y, hy, hyid⟩ := List.mem_map.1 hold
        have hylt := hlt y (by simp [hy]) (hm y hy)
        omega
      · omega
    · have hxlt := hlt x (by simp [hx]) hposix
      omega

/-! ### One request -/

/-- The list of an inode is as it should be. -/
def Sound (ls : List (Lock Owner)) (fresh : ℕ) : Prop :=
  (∃ np gs, Layout ls np gs) ∧ Numbered ls fresh

/-- What a request does to the list of an inode. -/
structure Changed (req : Request Owner) (ls : List (Lock Owner)) (n : ℕ)
    (r : Ret × List (Lock Owner) × List ℕ) : Prop where
  sound : Sound r.2.1 (n + 2)
  ok : r.1 = .ok → ∀ o x, view r.2.1 o x =
    if o = req.owner ∧ req.start ≤ x ∧ x ≤ req.end_ then req.type.held else view ls o x
  failed : r.1 ≠ .ok → r.2.1 = ls
  kept : ∀ fl ∈ ls, fl.posix = true → fl.id ∈ r.2.2 ∨
    ∃ fl' ∈ r.2.1, fl'.posix = true ∧ fl'.id = fl.id ∧ fl'.owner = fl.owner

omit [DecidableEq Owner] in
lemma Sound.mono {n' : ℕ} (h : Sound ls n) (hle : n ≤ n') : Sound ls n' :=
  ⟨h.1, h.2.nodup, fun fl hfl hposix => Nat.lt_of_lt_of_le (h.2.lt fl hfl hposix) hle⟩

/-- The range of a request. -/
def ValidRange (req : Request Owner) : Prop :=
  0 ≤ req.start ∧ req.start ≤ req.end_ ∧ req.end_ ≤ offsetMax
  deriving Decidable

lemma applyRequest_changed {req : Request Owner} (h : Sound ls n) (hreq : ValidRange req)
    (new1 new2 : Bool) : Changed req ls n (applyRequest req ls n new1 new2) := by
  obtain ⟨⟨np, gs, hlayout⟩, hnum⟩ := h
  obtain ⟨gs₁, m, gs₂, rfl, hgroup⟩ := hlayout.split req.owner
  obtain rfl : ls = np ++ gs₁.flatten ++ (m ++ gs₂.flatten) := by
    rw [hlayout.eq]
    simp
  have hposix : ∀ fl ∈ m, fl.posix = true := fun fl hfl => (hgroup.own fl hfl).posix
  obtain ⟨ha, hb, hnodup⟩ := hnum.apart hposix
  have hskip : ∀ fl ∈ np ++ gs₁.flatten, fl.posix = true → fl.owner ≠ req.owner := by
    intro fl hfl hfl'
    rcases List.mem_append.1 hfl with hfl | hfl
    · simp [hlayout.others fl hfl] at hfl'
    · obtain ⟨g, hg, hfl⟩ := List.mem_flatten.1 hfl
      exact hgroup.others₁ g hg fl hfl
  have hrest : ∀ fl ∈ gs₂.flatten, fl.owner ≠ req.owner := by
    intro fl hfl
    obtain ⟨g, hg, hfl⟩ := List.mem_flatten.1 hfl
    exact hgroup.others₂ g hg fl hfl
  have hlast : m = [] → gs₂.flatten = [] := fun he => by rw [hgroup.last he, flatten_nil]
  have houtcome := applyRequest_spec new1 new2 hreq.1 hreq.2.1 hreq.2.2 hskip hgroup.own
    hgroup.tidy hrest hlast ha hb hnodup hnum.lt
  generalize applyRequest req (np ++ gs₁.flatten ++ (m ++ gs₂.flatten)) n new1 new2 = r at *
  cases houtcome with
  | failed _ _ hret =>
    refine ⟨Sound.mono ⟨⟨np, _, hlayout⟩, hnum⟩ (by omega), fun hok => absurd hok hret,
      fun _ => rfl, fun fl hfl hfl' => .inr ⟨fl, hfl, hfl', rfl, rfl⟩⟩
  | done m' _ hm' =>
    have htidy : Tidy (m'.map toRange) := by
      rw [hm'.ranges]
      exact (tidy_set hreq.2.1 hgroup.tidy).sublist filter_sublist
    refine ⟨⟨⟨np, _, hlayout.replace hgroup hm'.own htidy⟩, hnum.replace hposix
      (fun fl hfl => (hm'.own fl hfl).posix) hm'.nodup hm'.ids⟩, fun _ o x => ?_,
      absurd rfl, ?_⟩
    · by_cases ho : o = req.owner
      · subst ho
        have hrest' : ∀ fl ∈ gs₂.flatten, fl.posix = true → fl.owner ≠ req.owner :=
          fun fl hfl _ => hrest fl hfl
        rw [view_group hskip hrest' hm'.own, view_group hskip hrest' hgroup.own,
          view_applied hm' hgroup.own hgroup.tidy hreq.2.1]
        simp
      · rw [if_neg fun hand => ho hand.1]
        exact view_other hgroup.own hm'.own ho
    · intro fl hfl hfl'
      rcases List.mem_append.1 hfl with hfl | hfl
      · exact .inr ⟨fl, mem_append_left _ hfl, hfl', rfl, rfl⟩
      rcases List.mem_append.1 hfl with hfl | hfl
      · refine (hm'.kept fl hfl).symm.imp_right fun hid => ?_
        obtain ⟨fl1, hfl1, hid⟩ := List.mem_map.1 hid
        have hown := hm'.own fl1 hfl1
        exact ⟨fl1, by simp [hfl1], hown.posix, hid,
          hown.owner.trans (hgroup.own fl hfl).owner.symm⟩
      · exact .inr ⟨fl, by simp [hfl], hfl', rfl, rfl⟩

/-!
## POSIX locks as a map

In every run a request that is granted sets the offsets of its range for its owner, and nothing
else changes the map. The list of an inode stays in order.
-/

open Machine Function

variable {s : State Owner} {req : Request Owner}

/-- The locks of each owner are consecutive, sorted, not empty, disjoint and as large as
possible. -/
structure WellFormed (ls : List (Lock Owner)) : Prop where
  consecutive : ∀ o, ∃ a m b, ls = a ++ (m ++ b) ∧
    (∀ fl ∈ m, fl.posix = true ∧ fl.owner = o) ∧
    ∀ fl ∈ a ++ b, fl.posix = true → fl.owner ≠ o
  tidy : ∀ o, Tidy ((ls.filter fun fl => fl.posix && decide (fl.owner = o)).map toRange)
  valid : ∀ fl ∈ ls, fl.posix = true → fl.type ≠ .unlck ∧ 0 ≤ fl.start ∧ fl.end_ ≤ offsetMax

lemma Sound.wellFormed (h : Sound ls n) : WellFormed ls := by
  obtain ⟨⟨np, gs, hlayout⟩, -⟩ := h
  -- where the locks of an owner are
  have hsplit : ∀ o, ∃ a m b, ls = a ++ (m ++ b) ∧ (∀ fl ∈ m, Own o fl) ∧
      Tidy (m.map toRange) ∧ ∀ fl ∈ a ++ b, fl.posix = true → fl.owner ≠ o := by
    intro o
    obtain ⟨gs1, m, gs2, rfl, hgroup⟩ := hlayout.split o
    refine ⟨np ++ gs1.flatten, m, gs2.flatten, by simp [hlayout.eq], hgroup.own, hgroup.tidy, ?_⟩
    intro fl hfl hposix
    simp only [mem_append, mem_flatten] at hfl
    rcases hfl with (hfl | ⟨g, hg, hfl⟩) | ⟨g, hg, hfl⟩
    · simp [hlayout.others fl hfl] at hposix
    · exact hgroup.others₁ g hg fl hfl
    · exact hgroup.others₂ g hg fl hfl
  refine ⟨fun o => ?_, fun o => ?_, fun fl hfl hposix => ?_⟩
  · obtain ⟨a, m, b, hls, hown, -, hother⟩ := hsplit o
    exact ⟨a, m, b, hls, fun fl hfl => ⟨(hown fl hfl).posix, (hown fl hfl).owner⟩, hother⟩
  · obtain ⟨a, m, b, rfl, hown, htidy, hother⟩ := hsplit o
    have hnone : ∀ l : List (Lock Owner), (∀ fl ∈ l, fl.posix = true → fl.owner ≠ o) →
        l.filter (fun fl => fl.posix && decide (fl.owner = o)) = [] := by
      intro l hl
      rw [filter_eq_nil_iff]
      intro fl hfl hand
      simp only [Bool.and_eq_true, decide_eq_true_eq] at hand
      exact hl fl hfl hand.1 hand.2
    have hall : m.filter (fun fl => fl.posix && decide (fl.owner = o)) = m :=
      List.filter_eq_self.2 fun fl hfl => by simp [(hown fl hfl).posix, (hown fl hfl).owner]
    obtain ⟨ha, hb⟩ := List.forall_mem_append.1 hother
    rw [filter_append, filter_append, hnone a ha, hnone b hb, hall]
    simpa using htidy
  · obtain ⟨a, m, b, rfl, hown, -, hother⟩ := hsplit fl.owner
    have hfl' : fl ∈ m := by
      simp only [mem_append] at hfl hother
      rcases hfl with hfl | hfl | hfl
      · exact absurd rfl (hother fl (.inl hfl) hposix)
      · exact hfl
      · exact absurd rfl (hother fl (.inr hfl) hposix)
    exact ⟨(hown fl hfl').type, (hown fl hfl').start, (hown fl hfl').end_⟩

/-! ### Runs -/

/-- The state after a request that has been applied with the result `r`. -/
def State.applied (s : State Owner) (inode : ℕ) (r : Ret × List (Lock Owner) × List ℕ) :
    State Owner where
  files := update s.files inode r.2.1
  blocked := s.blocked.filter fun w => !(decide (w.inode = inode) && r.2.2.contains w.lock)
  fresh := s.fresh + 2

/-- What `__posix_lock_file` can do. -/
inductive LockFile (s : State Owner) (inode : ℕ) (req : Request Owner) : Ret × State Owner → Prop
  | eagain : LockFile s inode req (.eagain, s)
  | edeadlk (fl : Lock Owner) (h : firstConflict req (s.files inode) = some fl)
      (hdead : posixLocksDeadlock s req.owner fl = true) : LockFile s inode req (.edeadlk, s)
  | deferred (fl : Lock Owner) (h : firstConflict req (s.files inode) = some fl)
      (hsleep : req.flSleep = true) (hdead : ¬ posixLocksDeadlock s req.owner fl = true) :
      LockFile s inode req (.deferred, locksInsertBlock s inode fl req.owner)
  | access (h : req.flAccess = true) : LockFile s inode req (.ok, s)
  | applied (h : firstConflict req (s.files inode) = none) (new₁ new₂ : Bool) :
      LockFile s inode req ((applyRequest req (s.files inode) s.fresh new₁ new₂).1,
        s.applied inode (applyRequest req (s.files inode) s.fresh new₁ new₂))

lemma posixLockFile_spec (s : State Owner) (inode : ℕ) (req : Request Owner)
    (alloc₁ alloc₂ : Bool) : LockFile s inode req (posixLockFile s inode req alloc₁ alloc₂) := by
  unfold posixLockFile
  cases hconflict : firstConflict req (s.files inode) with
  | some fl =>
    dsimp only
    split_ifs with hsleep hdead
    · exact .eagain
    · exact .edeadlk fl hconflict hdead
    · exact .deferred fl hconflict (by simpa using hsleep) hdead
  | none =>
    dsimp only
    split_ifs with haccess
    · exact .access haccess
    · exact .applied hconflict _ _

lemma reachable_sound (h : (machine Owner).Reachable s) (inode : ℕ) :
    Sound (s.files inode) s.fresh := by
  induction h generalizing inode with
  | init => exact ⟨⟨[], [], rfl, nofun, nofun, .nil⟩, nodup_nil, nofun⟩
  | @step s _ action hvalid ih =>
    cases action with
    | cancel => exact ih inode
    | request i req alloc₁ alloc₂ =>
      have hspec := posixLockFile_spec s i req alloc₁ alloc₂
      change Sound ((posixLockFile s i req alloc₁ alloc₂).2.files inode)
        (posixLockFile s i req alloc₁ alloc₂).2.fresh
      generalize posixLockFile s i req alloc₁ alloc₂ = p at hspec
      cases hspec with
      | eagain | edeadlk | deferred | access => exact ih inode
      | applied =>
        dsimp only [State.applied]
        by_cases hi : inode = i
        · subst hi
          rw [update_self]
          exact (applyRequest_changed (ih inode) hvalid _ _).sound
        · rw [update_of_ne hi]
          exact (ih inode).mono (by omega)
    | others i ls =>
      by_cases hi : inode = i
      · subst hi
        obtain ⟨⟨np, gs, hlayout⟩, hnum⟩ := ih inode
        have hfiles : ((machine Owner).next s (.others inode ls)).files inode =
            ls ++ (s.files inode).filter (·.posix) := update_self ..
        have hnone : ls.filter (·.posix) = [] :=
          List.filter_eq_nil_iff.2 fun fl hfl => by simp [hvalid fl hfl]
        rw [hfiles]
        refine ⟨⟨ls, gs, ?_, hvalid, hlayout.group, hlayout.owners⟩, ?_, ?_⟩
        · have hnp : np.filter (·.posix) = [] :=
            List.filter_eq_nil_iff.2 fun fl hfl => by simp [hlayout.others fl hfl]
          have hgs : gs.flatten.filter (·.posix) = gs.flatten := by
            refine List.filter_eq_self.2 fun fl hfl => ?_
            obtain ⟨g, hg, hfl⟩ := List.mem_flatten.1 hfl
            obtain ⟨-, o, hown, -⟩ := hlayout.group g hg
            exact (hown fl hfl).posix
          rw [hlayout.eq, filter_append, hnp, hgs, nil_append]
        · rw [filter_append, hnone, List.filter_filter]
          simpa using hnum.nodup
        · intro fl hfl hposix
          rcases List.mem_append.1 hfl with hfl | hfl
          · simp [hvalid fl hfl] at hposix
          · exact hnum.lt fl (List.mem_filter.1 hfl).1 hposix
      · have hfiles : ((machine Owner).next s (.others i ls)).files inode = s.files inode :=
          update_of_ne hi ..
        rw [hfiles]
        exact ih inode

/-! ### The law -/

/-- Two types of locks cannot be held by different owners at one offset. -/
def Conflict (t t' : LockType) : Prop := t = .wrlck ∨ t' = .wrlck

lemma posixLocksConflict_iff {fl : Lock Owner} : posixLocksConflict req fl = true ↔
    fl.posix = true ∧ req.owner ≠ fl.owner ∧ (fl.start ≤ req.end_ ∧ req.start ≤ fl.end_) ∧
      Conflict fl.type req.type := by
  unfold posixLocksConflict locksOverlap locksConflict Conflict
  cases fl.posix <;> simp

lemma not_conflict {o : Owner} {x : ℤ} {t : LockType} (h : firstConflict req ls = none)
    (htype : req.type ≠ .unlck) (ho : o ≠ req.owner) (hx : req.start ≤ x ∧ x ≤ req.end_)
    (ht : view ls o x = some t) : ¬ Conflict t req.type := by
  obtain ⟨fl, hfind, rfl⟩ := Option.map_eq_some_iff.1 ht
  have hfl := mem_of_find?_eq_some hfind
  have hprop := List.find?_some hfind
  simp only [Bool.and_eq_true, decide_eq_true_eq] at hprop
  obtain ⟨⟨hposix, rfl⟩, hstart, hend⟩ := hprop
  rw [firstConflict, if_neg htype, List.find?_eq_none] at h
  have hnot := h fl hfl
  rw [hposix, Bool.true_and, posixLocksConflict_iff] at hnot
  exact fun hc => hnot ⟨hposix, ho.symm, ⟨by omega, by omega⟩, hc⟩

/-- In every run a request sets its range in the map or leaves the map alone. -/
theorem posix_lock_law (h : (machine Owner).Reachable s) (inode : ℕ) (req : Request Owner)
    (alloc₁ alloc₂ : Bool) (hreq : ValidRange req) (haccess : req.flAccess = false) :
    WellFormed (s.files inode) ∧
      WellFormed ((posixLockFile s inode req alloc₁ alloc₂).2.files inode) ∧
      ((posixLockFile s inode req alloc₁ alloc₂).1 = .ok →
        (∀ o x, view ((posixLockFile s inode req alloc₁ alloc₂).2.files inode) o x =
          if o = req.owner ∧ req.start ≤ x ∧ x ≤ req.end_ then req.type.held
          else view (s.files inode) o x) ∧
        (req.type ≠ .unlck → ∀ o x t, o ≠ req.owner → req.start ≤ x ∧ x ≤ req.end_ →
          view (s.files inode) o x = some t → ¬ Conflict t req.type)) ∧
      ((posixLockFile s inode req alloc₁ alloc₂).1 ≠ .ok →
        ∀ o x, view ((posixLockFile s inode req alloc₁ alloc₂).2.files inode) o x =
          view (s.files inode) o x) ∧
      ∀ other, other ≠ inode →
        (posixLockFile s inode req alloc₁ alloc₂).2.files other = s.files other := by
  have hsound := reachable_sound h inode
  refine ⟨hsound.wellFormed, ?_⟩
  have hspec := posixLockFile_spec s inode req alloc₁ alloc₂
  generalize posixLockFile s inode req alloc₁ alloc₂ = p at hspec
  cases hspec with
  | eagain | edeadlk | deferred =>
    exact ⟨hsound.wellFormed, (by cases ·), fun _ _ _ => rfl, fun _ _ => rfl⟩
  | access htrue =>
    rw [haccess] at htrue
    cases htrue
  | applied hnone new₁ new₂ =>
    have hchanged := applyRequest_changed hsound hreq new₁ new₂
    dsimp only [State.applied]
    rw [update_self]
    refine ⟨hchanged.sound.wellFormed, fun hok => ⟨hchanged.ok hok, ?_⟩, fun hne o x => ?_,
      fun other hother => update_of_ne hother ..⟩
    · exact fun htype o x t ho hx ht => not_conflict hnone htype ho hx ht
    · rw [hchanged.failed hne]

/-- A lock is broken in two pieces by another one of its owner. -/
theorem posix_lock_law_middle :
    let s := (posixLockFile (machine ℕ).init 0 ⟨1, .wrlck, 5, 10, false, false, false⟩ true true).2
    let r := posixLockFile s 0 ⟨1, .rdlck, 7, 8, false, false, false⟩ true true
    r.1 = .ok ∧ WellFormed (r.2.files 0) ∧ view (r.2.files 0) 1 7 = some .rdlck ∧
      view (r.2.files 0) 1 9 = some .wrlck := by
  intro s r
  have hrange : ValidRange (⟨1, .wrlck, 5, 10, false, false, false⟩ : Request ℕ) := by decide
  have hreach : (machine ℕ).Reachable s :=
    reachable_of_admits [Action.request 0 ⟨1, .wrlck, 5, 10, false, false, false⟩ true true]
      ⟨hrange, trivial⟩
  have hok : r.1 = .ok := by decide +kernel
  obtain ⟨-, hwf, hgranted, -⟩ := posix_lock_law hreach 0
    ⟨1, .rdlck, 7, 8, false, false, false⟩ true true (by decide) rfl
  obtain ⟨hview, -⟩ := hgranted hok
  refine ⟨hok, hwf, (hview 1 7).trans rfl, (hview 1 9).trans ?_⟩
  decide +kernel

end LklPort.PosixLock
