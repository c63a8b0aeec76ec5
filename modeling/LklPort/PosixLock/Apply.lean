import LklPort.PosixLock.Pass

/-!
# What a request does to the list

After the pass new locks are put in, and the locks on both sides are cut. If the locks that are
needed could not be allocated, then nothing has been changed so far.
-/

namespace LklPort.PosixLock

open RangeMap List

variable {Owner : Type} {req : Request Owner} {a m b body tgt r : List (Lock Owner)}
  {c : Cursor Owner} {out : List (Range LockType)} {fl : Lock Owner} {id : ℕ}

/-- The locks of the owner have become `m'`, which has the range of the request set. -/
structure Applied (req : Request Owner) (m : List (Lock Owner)) (id : ℕ) (woken : List ℕ)
    (m' : List (Lock Owner)) : Prop where
  ranges : m'.map toRange =
    (set ⟨req.start, req.end_, req.type⟩ (m.map toRange)).filter fun x => decide (x.tag ≠ .unlck)
  own : ∀ fl ∈ m', Own req.owner fl
  nodup : (m'.map (·.id)).Nodup
  ids : ∀ fl ∈ m', fl.id ∈ m.map (·.id) ∨ fl.id = id ∨ fl.id = id + 1
  kept : ∀ fl ∈ m, fl.id ∈ m'.map (·.id) ∨ fl.id ∈ woken

/-- How the rest of `__posix_lock_file` ends. -/
inductive ApplyOutcome (req : Request Owner) (a m b : List (Lock Owner)) (id : ℕ) :
    Ret × List (Lock Owner) × List ℕ → Prop where
  | done (m' : List (Lock Owner)) (woken : List ℕ) (h : Applied req m id woken m') :
      ApplyOutcome req a m b id (.ok, a ++ (m' ++ b), woken)
  | failed (ret : Ret) (woken : List ℕ) (h : ret ≠ .ok) :
      ApplyOutcome req a m b id (ret, a ++ (m ++ b), woken)

/-- No POSIX lock in the list has this number. -/
def Free (id : ℕ) (ls : List (Lock Owner)) : Prop := ∀ fl ∈ ls, fl.posix = true → fl.id ≠ id

variable {ls back : List (Lock Owner)} {woken : List ℕ} {added : Bool}

lemma free_append {ls' : List (Lock Owner)} :
    Free id (ls ++ ls') ↔ Free id ls ∧ Free id ls' := forall_mem_append

variable {l1 l2 front new : List (Lock Owner)} {q : Range LockType} {l : List (Range LockType)}

lemma change_mid {f : Lock Owner → Lock Owner} (hposix : fl.posix = true) (h1 : Free fl.id l1)
    (h2 : Free fl.id l2) : change fl.id f (l1 ++ fl :: l2) = l1 ++ f fl :: l2 := by
  rw [change_append, change_of_ne h1, change_cons_self hposix, change_of_ne h2]

lemma cutEnd_append (h : LeftPart c.start c.left body out) (hown : ∀ fl ∈ body, Own req.owner fl)
    (hnodup : (body.map (·.id)).Nodup) (hstart : 0 ≤ c.start) (hle : c.start ≤ offsetMax)
    (h1 : ∀ id, c.left = some id → Free id l1) (h2 : ∀ id, c.left = some id → Free id l2) :
    ∃ body', cutEnd c c.left (l1 ++ (body ++ l2)) = l1 ++ (body' ++ l2) ∧
      body'.map toRange = out ∧ body'.map (·.id) = body.map (·.id) ∧
      ∀ fl ∈ body', Own req.owner fl := by
  generalize c.left = left at h h1 h2
  cases h with
  | whole => exact ⟨body, rfl, rfl, rfl, hown⟩
  | cut body fl =>
    have hposix := (hown fl (by simp)).posix
    have hfree : Free fl.id body := by
      intro x hx _ he
      rw [map_append] at hnodup
      exact (List.nodup_append.1 hnodup).2.2 x.id (mem_map_of_mem hx) fl.id (by simp) he
    refine ⟨body ++ [{ fl with end_ := c.start - 1 }], ?_, by simp [toRange], by simp, ?_⟩
    · have hmid := change_mid (f := fun fl => { fl with end_ := wrap (c.start - 1) }) hposix
        (free_append.2 ⟨h1 fl.id rfl, hfree⟩) (h2 fl.id rfl)
      unfold cutEnd
      simpa [wrap_of_mem (show -1 ≤ c.start - 1 by omega) (by omega)] using hmid
    · intro x hx
      rcases List.mem_append.1 hx with hx | hx
      · exact hown x (mem_append_left _ hx)
      · have hfl := hown fl (by simp)
        rw [List.mem_singleton.1 hx]
        exact ⟨hposix, hfl.owner, hfl.type, hfl.start, by dsimp only; omega⟩

lemma filter_set {l1 l2 : List (Range LockType)} (h1 : ∀ x ∈ l1, x.tag ≠ .unlck)
    (h2 : ∀ x ∈ l2, x.tag ≠ .unlck) : (l1 ++ q :: l2).filter (fun x => decide (x.tag ≠ .unlck)) =
      l1 ++ ((if q.tag = .unlck then [] else [q]) ++ l2) := by
  have hl1 := List.filter_eq_self.2 fun x hx => decide_eq_true (h1 x hx)
  have hl2 := List.filter_eq_self.2 fun x hx => decide_eq_true (h2 x hx)
  rw [filter_append, hl1, filter_cons, hl2]
  split_ifs <;> simp_all

lemma tag_ne (h : ∀ fl ∈ ls, Own req.owner fl) : ∀ x ∈ ls.map toRange, x.tag ≠ .unlck := by
  intro x hx
  obtain ⟨fl, hfl, rfl⟩ := List.mem_map.1 hx
  exact (h fl hfl).type

/-- The locks for the rest of the request, with the number `id`. -/
structure NewLocks (req : Request Owner) (c : Cursor Owner) (tgt : List (Lock Owner)) (id : ℕ)
    (new : List (Lock Owner)) : Prop where
  own : ∀ fl ∈ new, Own req.owner fl
  ids : ∀ fl ∈ new, fl.id = id
  nodup : (new.map (·.id)).Nodup
  ranges : (tgt ++ new).map toRange = if req.type = .unlck then [] else [c.range req]

lemma ranges_eq {mid : List (Lock Owner)}
    (hset : set ⟨req.start, req.end_, req.type⟩ (m.map toRange) =
      front.map toRange ++ q :: l) (hmid : mid.map toRange = if q.tag = .unlck then [] else [q])
    (hback : back.map toRange = l) (hfront : ∀ fl ∈ front, Own req.owner fl)
    (hback' : ∀ fl ∈ back, Own req.owner fl) : (front ++ (mid ++ back)).map toRange =
      (set ⟨req.start, req.end_, req.type⟩ (m.map toRange)).filter
        fun x => decide (x.tag ≠ .unlck) := by
  rw [hset, ← hback, filter_set (tag_ne hfront) (tag_ne hback'), ← hmid, map_append, map_append]

section

variable (h : Walk req a m c body tgt out r)

include h

lemma Walk.applied (hm : (m.map (·.id)).Nodup) (hid : ∀ fl ∈ m, fl.id < id)
    (hids : (front ++ back).map (·.id) = (body ++ (tgt ++ r)).map (·.id))
    (hnodup : (new.map (·.id)).Nodup) (hnew : ∀ fl ∈ new, fl.id = id ∨ fl.id = id + 1)
    (hown : ∀ fl ∈ front ++ (new ++ back), Own req.owner fl)
    (hranges : (front ++ (new ++ back)).map toRange =
      (set ⟨req.start, req.end_, req.type⟩ (m.map toRange)).filter
        fun x => decide (x.tag ≠ .unlck)) (hwoken : c.woken ⊆ woken) :
    Applied req m id woken (front ++ (new ++ back)) := by
  have hperm : ((front ++ (new ++ back)).map (·.id)).Perm
      (new.map (·.id) ++ (front ++ back).map (·.id)) := by
    simp only [map_append]
    exact perm_append_comm_assoc _ _ _
  have hold : ∀ n ∈ (front ++ back).map (·.id), n ∈ m.map (·.id) := by
    rw [hids]
    exact fun n hn => h.ids.subset hn
  have hlt : ∀ n ∈ m.map (·.id), n < id := by
    intro n hn
    obtain ⟨fl, hfl, rfl⟩ := List.mem_map.1 hn
    exact hid fl hfl
  refine ⟨hranges, hown, ?_, ?_, ?_⟩
  · rw [hperm.nodup_iff, nodup_append, hids]
    refine ⟨hnodup, h.ids.nodup hm, fun x hx y hy he => ?_⟩
    obtain ⟨fl, hfl, rfl⟩ := List.mem_map.1 hx
    have hylt := hlt y (h.ids.subset hy)
    rcases hnew fl hfl with hfl | hfl <;> omega
  · intro fl hfl
    rcases List.mem_append.1 (hperm.mem_iff.1 (mem_map_of_mem hfl)) with hn | hn
    · obtain ⟨x, hx, hxid⟩ := List.mem_map.1 hn
      rw [← hxid]
      exact .inr (hnew x hx)
    · exact .inl (hold _ hn)
  · intro fl hfl
    refine (h.kept fl hfl).imp (fun hn => ?_) fun hn => hwoken hn
    rw [← hids] at hn
    exact hperm.mem_iff.2 (mem_append_right _ hn)

lemma Walk.newLocks (id : ℕ) (hadded : added = (c.added || decide (req.type = .unlck))) :
    NewLocks req c tgt id (newLocks req { c with added := added } id) := by
  have htarget := h.target
  generalize c.target = target, c.added = added' at htarget hadded
  unfold PosixLock.newLocks
  cases added with
  | true =>
    refine ⟨nofun, nofun, nodup_nil, ?_⟩
    cases htarget with
    | caller _ hcaller =>
      have hun : req.type = .unlck := by simpa [or_iff_right_of_imp hcaller] using hadded.symm
      simp [hun]
    | lock _ hx htype => simp [htype, hx]
  | false =>
    obtain ⟨rfl, hun⟩ := Bool.or_eq_false_iff.1 hadded.symm
    have hun := of_decide_eq_false hun
    obtain ⟨rfl, -⟩ := htarget.of_not_added
    refine ⟨?_, fun fl hfl => ?_, by simp, by simp [hun, toRange]⟩
    · intro fl hfl
      rw [List.mem_singleton.1 hfl]
      exact ⟨rfl, rfl, hun, h.start_nonneg, h.end_le⟩
    · rw [List.mem_singleton.1 hfl]

end

/-! ### Where the numbers are -/

section Numbers

variable {n : ℕ}

lemma free_of_apart (h : Apart a m) (hn : n ∈ m.map (·.id)) : Free n a := by
  obtain ⟨y, hy, rfl⟩ := List.mem_map.1 hn
  exact fun x hx hposix => h x hx hposix y hy

lemma free_of_not_mem (h : n ∉ ls.map (·.id)) : Free n ls :=
  fun _ hx _ he => h (he ▸ mem_map_of_mem hx)

lemma NewLocks.free (h : NewLocks req c tgt id new) (hn : n ≠ id) : Free n new :=
  fun x hx _ he => hn (he ▸ h.ids x hx)

lemma LeftPart.mem {start : ℤ} {left : Option ℕ} (h : LeftPart start left body out)
    (hleft : left = some n) : n ∈ body.map (·.id) := by
  cases h with
  | whole => cases hleft
  | cut =>
    cases hleft
    simp

variable (h : Walk req a m c body tgt out r) (hm : (m.map (·.id)).Nodup)

include h hm

lemma Walk.free_left (hleft : c.left = some n) :
    n ∈ m.map (·.id) ∧ Free n tgt ∧ n ∉ r.map (·.id) := by
  have hbody := h.left.mem hleft
  have hnodup := h.ids.nodup hm
  rw [map_append] at hnodup
  have hrest : n ∉ tgt.map (·.id) ++ r.map (·.id) := by
    rw [← map_append]
    exact fun hn => (List.nodup_append.1 hnodup).2.2 n hbody n hn rfl
  obtain ⟨htgt, hr⟩ := not_or.1 (fun hor => hrest (List.mem_append.2 hor))
  refine ⟨h.ids.subset ?_, free_of_not_mem htgt, hr⟩
  rw [map_append]
  exact mem_append_left _ hbody

omit h in
lemma Walk.free_right (h : Walk req a m c body tgt out (fl :: r)) :
    fl.id ∈ m.map (·.id) ∧ Free fl.id (body ++ tgt) ∧ Free fl.id r ∧ c.left ≠ some fl.id := by
  have hnodup := h.ids.nodup hm
  rw [← append_assoc, map_append, map_cons] at hnodup
  obtain ⟨-, htail, hne⟩ := List.nodup_append.1 hnodup
  have hfront : fl.id ∉ (body ++ tgt).map (·.id) := fun hn =>
    hne fl.id hn fl.id mem_cons_self rfl
  refine ⟨h.ids.subset (by simp), free_of_not_mem hfront,
    free_of_not_mem (List.nodup_cons.1 htail).1, fun hleft => hfront ?_⟩
  rw [map_append]
  exact mem_append_left _ (h.left.mem hleft)

end Numbers

/-! ### The three ends of the pass -/

lemma lt_of_mem_ids {n : ℕ} (hid : ∀ fl ∈ m, fl.id < id) (hn : n ∈ m.map (·.id)) : n < id := by
  obtain ⟨fl, hfl, rfl⟩ := List.mem_map.1 hn
  exact hid fl hfl

section Finish

variable {new1 new2 : Bool} (ha : Apart a m) (hb : Apart b m) (hm : (m.map (·.id)).Nodup)
  (hid : ∀ fl ∈ m, fl.id < id)

lemma Walk.passed_append (h : Walk req a m c body tgt out r) (ls : List (Lock Owner)) :
    c.passed ++ ls = a ++ (body ++ (tgt ++ ls)) := by
  rw [h.passed, append_assoc, append_assoc]

lemma Walk.unchanged (h : Walk req a m c body tgt out r) (hadded : c.added = false) :
    tgt = [] ∧ c.passed ++ (r ++ b) = a ++ (m ++ b) := by
  have htgt := h.target
  rw [hadded] at htgt
  obtain ⟨rfl, -⟩ := htgt.of_not_added
  refine ⟨rfl, ?_⟩
  rw [h.passed_append, ← h.same hadded]
  simp

/-- The end of a lock that is broken in two pieces stays where it was, its start is a new lock. -/
def leftPiece (c : Cursor Owner) (fl : Lock Owner) (id : ℕ) : Lock Owner :=
  { fl with id := id + 1, end_ := c.start - 1 }

def rightPiece (c : Cursor Owner) (fl : Lock Owner) : Lock Owner :=
  { fl with start := c.end_ + 1 }

lemma Walk.own_right (h : Walk req a m c body tgt out (fl :: r)) :
    ∀ x ∈ rightPiece c fl :: r, Own req.owner x := by
  have hown := h.own_head
  have hnonneg := h.start_nonneg
  have hle := h.start_le
  refine List.forall_mem_cons.2 ⟨?_, fun x hx => h.own x (by simp [hx])⟩
  exact ⟨hown.posix, hown.owner, hown.type, by dsimp only [rightPiece]; omega, hown.end_⟩

include ha hb hm hid

lemma Walk.cutEnd_eq (h : Walk req a m c body tgt out r) (hnew : NewLocks req c tgt id new)
    (hback : back.map (·.id) = r.map (·.id)) :
    ∃ body', cutEnd c c.left (a ++ (body ++ (tgt ++ (new ++ (back ++ b))))) =
      a ++ (body' ++ (tgt ++ (new ++ (back ++ b)))) ∧
      body'.map toRange = out ∧ body'.map (·.id) = body.map (·.id) ∧
      ∀ fl ∈ body', Own req.owner fl := by
  have hnodup := h.ids.nodup hm
  rw [map_append] at hnodup
  refine cutEnd_append h.left (fun fl hfl => h.own fl (mem_append_left _ hfl))
    (List.nodup_append.1 hnodup).1 h.start_nonneg (le_trans h.start_le h.end_le) ?_ ?_
  · exact fun n hn => free_of_apart ha (h.free_left hm hn).1
  · intro n hn
    obtain ⟨hmem, htgt, hr⟩ := h.free_left hm hn
    have hback' : Free n back := free_of_not_mem (hback ▸ hr)
    exact free_append.2 ⟨htgt, free_append.2 ⟨hnew.free (Nat.ne_of_lt (lt_of_mem_ids hid hmem)),
      free_append.2 ⟨hback', free_of_apart hb hmem⟩⟩⟩

lemma Walk.placed (h : Walk req a m c body tgt out r) (hnew : NewLocks req c tgt id new)
    (hset : c.setOn req r = c.range req :: l)
    (hback : back.map toRange = l) (hids : back.map (·.id) = r.map (·.id))
    (hown : ∀ fl ∈ back, Own req.owner fl) (hwoken : c.woken ⊆ woken) :
    ∃ m', cutEnd c c.left (c.passed ++ (new ++ (back ++ b))) = a ++ (m' ++ b) ∧
      Applied req m id woken m' := by
  obtain ⟨body', hcut, hout, hbody, hown'⟩ := h.cutEnd_eq ha hb hm hid hnew hids
  have htgt : ∀ fl ∈ tgt, Own req.owner fl := fun fl hfl => h.own fl (by simp [hfl])
  refine ⟨(body' ++ tgt) ++ (new ++ back), ?_, ?_⟩
  · rw [h.passed_append, hcut]
    simp
  · refine h.applied hm hid ?_ hnew.nodup (fun fl hfl => .inl (hnew.ids fl hfl)) ?_ ?_ hwoken
    · simp only [map_append, hbody, hids, append_assoc]
    · intro fl hfl
      simp only [mem_append] at hfl
      rcases hfl with (hfl | hfl) | hfl | hfl
      · exact hown' fl hfl
      · exact htgt fl hfl
      · exact hnew.own fl hfl
      · exact hown fl hfl
    · have hranges := ranges_eq (m := m)
        (by rw [hout, h.set_eq, hset]) hnew.ranges hback hown' hown
      simpa using hranges

lemma Walk.cutStart_eq {copy : List (Lock Owner)} (h : Walk req a m c body tgt out (fl :: r))
    (hlt : c.end_ < fl.end_) (hnew : NewLocks req c tgt id new) (hcopy : Free fl.id copy) :
    cutStart c fl.id (c.passed ++ (copy ++ (new ++ (fl :: r ++ b)))) =
      c.passed ++ (copy ++ (new ++ (rightPiece c fl :: r ++ b))) := by
  obtain ⟨hmem, hfront, hr, -⟩ := h.free_right hm
  have hown := h.own_head
  have hnonneg := h.start_nonneg
  have hle := h.start_le
  have hend := hown.end_
  have hfree : Free fl.id (c.passed ++ (copy ++ new)) := by
    rw [h.passed]
    exact free_append.2 ⟨free_append.2 ⟨free_of_apart ha hmem, hfront⟩,
      free_append.2 ⟨hcopy, hnew.free (Nat.ne_of_lt (lt_of_mem_ids hid hmem))⟩⟩
  have hmid := change_mid (f := fun fl => { fl with start := wrap (c.end_ + 1) }) hown.posix hfree
    (free_append.2 ⟨hr, free_of_apart hb hmem⟩)
  rw [wrap_of_mem (by omega) (by omega)] at hmid
  unfold cutStart
  rw [wrap_of_mem (by omega) (by omega)]
  simpa [rightPiece] using hmid

lemma finish_before (h : Walk req a m c body tgt out r)
    (hset : c.setOn req r = c.range req :: r.map toRange) :
    ApplyOutcome req a m b id (finish req c (r ++ b) id new1 new2) := by
  have hown : ∀ fl ∈ r, Own req.owner fl := fun fl hfl => h.own fl (by simp [hfl])
  unfold finish
  rw [if_neg fun hnot => hnot.1 h.right]
  by_cases hunlock : c.added = false ∧ req.type = .unlck
  · -- there is nothing to unlock
    obtain ⟨rfl, hlist⟩ := h.unchanged (b := b) hunlock.1
    have hleft : c.left = none := by
      by_contra hne
      exact absurd ((h.unlock hunlock.2 hne).symm.trans hunlock.1) (by decide)
    have hout := h.left.of_none hleft
    rw [if_pos hunlock, hlist]
    split_ifs
    · exact .failed _ _ (by decide)
    · have hbody : ∀ fl ∈ body, Own req.owner fl := fun fl hfl => h.own fl (by simp [hfl])
      have hranges := ranges_eq (m := m) (by rw [← hout, h.set_eq, hset])
        (show [].map toRange = _ by simp [hunlock.2]) rfl hbody hown
      have happlied := h.applied hm hid (by rfl) (by simp) (by simp)
        (by simpa using h.own) hranges (List.Subset.refl _)
      rw [nil_append, h.same hunlock.1] at happlied
      exact .done m c.woken happlied
  rw [if_neg hunlock]
  by_cases hluck : c.added = false ∧ new1 = false
  · rw [if_pos hluck, (h.unchanged hluck.1).2]
    exact .failed _ _ (by decide)
  rw [if_neg hluck]
  have hadded : c.added = (c.added || decide (req.type = .unlck)) := by
    cases hc : c.added with
    | true => rfl
    | false => simpa [hc] using hunlock
  obtain ⟨m', hm', happlied⟩ := h.placed ha hb hm hid (h.newLocks _ hadded) hset rfl rfl hown
    (subset_append_right _ _)
  have houtcome := ApplyOutcome.done (a := a) (b := b) m' _ happlied
  rw [← hm'] at houtcome
  unfold insertLocks
  rw [h.right]
  exact houtcome

lemma finish_inside (h : Walk req a m c body tgt out (fl :: r))
    (hset : c.setOn req (fl :: r) =
      c.range req :: { toRange fl with lo := c.end_ + 1 } :: r.map toRange)
    (hlt : c.end_ < fl.end_) : ApplyOutcome req a m b id (finish req { c with
      added := c.added || decide (req.type = .unlck), right := some fl.id } (fl :: r ++ b) id
        new1 new2) := by
  obtain ⟨-, -, -, hleft⟩ := h.free_right hm
  unfold finish
  rw [if_neg fun hnot => hleft hnot.2.1, if_neg (by simp)]
  by_cases hluck : (c.added || decide (req.type = .unlck)) = false ∧ new1 = false
  · rw [if_pos hluck, (h.unchanged (Bool.or_eq_false_iff.1 hluck.1).1).2]
    exact .failed _ _ (by decide)
  rw [if_neg hluck]
  have hnew := h.newLocks id rfl
  obtain ⟨m', hm', happlied⟩ := h.placed ha hb hm hid hnew hset (by rfl) (by rfl) h.own_right
    (fun x hx => mem_append_right _ (mem_cons_of_mem _ hx))
  have houtcome := ApplyOutcome.done (a := a) (b := b) m' _ happlied
  have hcut := h.cutStart_eq ha hb hm hid hlt hnew (forall_mem_nil _)
  rw [nil_append, nil_append] at hcut
  rw [← hm', ← hcut] at houtcome
  unfold insertLocks
  dsimp only
  rw [if_neg hleft]
  exact houtcome

omit ha hb in
lemma Walk.split_applied (h : Walk req a m c body [] (body.map toRange) (fl :: r))
    (hset : c.setOn req (fl :: r) =
      { toRange fl with hi := c.start - 1 } :: c.range req ::
        { toRange fl with lo := c.end_ + 1 } :: r.map toRange) (hlt : c.end_ < fl.end_)
    (hnew : NewLocks req c [] id new) (hwoken : c.woken ⊆ woken) :
    Applied req m id woken (body ++ (leftPiece c fl id :: new ++ rightPiece c fl :: r)) := by
  have hown := h.own_head
  have hle := h.start_le
  have hend := hown.end_
  have hfront : ∀ x ∈ body ++ [leftPiece c fl id], Own req.owner x := by
    refine List.forall_mem_append.2 ⟨fun x hx => h.own x (by simp [hx]), ?_⟩
    intro x hx
    rw [List.mem_singleton.1 hx]
    exact ⟨hown.posix, hown.owner, hown.type, hown.start, by dsimp only [leftPiece]; omega⟩
  have hranges := ranges_eq
    (by rw [h.set_eq, hset, map_append, append_assoc]; rfl) hnew.ranges rfl hfront h.own_right
  refine h.applied hm hid (by simp [rightPiece]) ?_ ?_ ?_ (by simpa using hranges) hwoken
  · rw [map_cons, nodup_cons]
    refine ⟨fun hmem => ?_, hnew.nodup⟩
    obtain ⟨x, hx, hxid⟩ := List.mem_map.1 hmem
    exact absurd (hxid.symm.trans (hnew.ids x hx)) (Nat.succ_ne_self id)
  · refine List.forall_mem_cons.2 ⟨.inr rfl, fun x hx => .inl (hnew.ids x hx)⟩
  · intro x hx
    simp only [mem_append, mem_cons] at hx
    rcases hx with hx | (hx | hx) | hx
    · exact hfront x (mem_append_left _ hx)
    · exact hfront x (by simp [hx])
    · exact hnew.own x hx
    · exact h.own_right x (List.mem_cons.2 hx)

section

variable (h : Walk req a m c body [] (body.map toRange) (fl :: r))

include h

lemma Walk.split_eq (hlt : c.end_ < fl.end_) (hnew : NewLocks req c [] id new)
    (hfa : Free (id + 1) a) (hfb : Free (id + 1) b) :
    cutEnd c (some (id + 1)) (cutStart c fl.id
        (c.passed ++ ([{ fl with id := id + 1 }] ++ (new ++ (fl :: r ++ b))))) =
      a ++ ((body ++ (leftPiece c fl id :: new ++ rightPiece c fl :: r)) ++ b) := by
  have hown := h.own_head
  have hin : ∀ x ∈ body ++ ([] ++ fl :: r), x.id < id := fun x hx =>
    lt_of_mem_ids hid (h.ids.subset (mem_map_of_mem hx))
  have hfree : ∀ ls : List (Lock Owner), ls ⊆ body ++ ([] ++ fl :: r) → Free (id + 1) ls := by
    intro ls hls x hx _
    have hlt := hin x (hls hx)
    omega
  have hfl : Free fl.id [{ fl with id := id + 1 }] := by
    intro x hx _
    have hlt := hin fl (by simp)
    rw [List.mem_singleton.1 hx]
    exact (Nat.ne_of_lt (Nat.lt_succ_of_lt hlt)).symm
  have hfront : Free (id + 1) c.passed := by
    rw [h.passed]
    exact free_append.2 ⟨hfa, hfree _ (by simp)⟩
  have hback : Free (id + 1) (rightPiece c fl :: r ++ b) := by
    have hhead := hin fl (by simp)
    refine free_append.2 ⟨forall_mem_cons.2 ⟨fun _ => ?_, hfree r (by simp)⟩, hfb⟩
    exact Nat.ne_of_lt (Nat.lt_succ_of_lt hhead)
  have hmid := change_mid (f := fun fl => { fl with end_ := wrap (c.start - 1) })
    (show ({ fl with id := id + 1 } : Lock Owner).posix = true from hown.posix) hfront
    (free_append.2 ⟨hnew.free (Nat.succ_ne_self id), hback⟩)
  have hnonneg := h.start_nonneg
  have hle := h.start_le
  have hend := h.end_le
  rw [h.cutStart_eq ha hb hm hid hlt hnew hfl]
  unfold cutEnd
  dsimp only
  rw [singleton_append, hmid, wrap_of_mem (by omega) (by omega), h.passed]
  simp [leftPiece]

lemma finish_middle (hset : c.setOn req (fl :: r) =
      { toRange fl with hi := c.start - 1 } :: c.range req ::
        { toRange fl with lo := c.end_ + 1 } :: r.map toRange)
    (hlt : c.end_ < fl.end_) (hadded : c.added = false) (hfa : Free (id + 1) a)
    (hfb : Free (id + 1) b) : ApplyOutcome req a m b id (finish req { c with
      added := decide (req.type = .unlck), left := some fl.id, right := some fl.id }
        (fl :: r ++ b) id new1 new2) := by
  obtain ⟨hmem, hfront, hr, -⟩ := h.free_right hm
  have hown := h.own_head
  unfold finish
  by_cases hluck2 : new2 = false
  · rw [if_pos ⟨nofun, rfl, hluck2⟩, (h.unchanged hadded).2]
    exact .failed _ _ (by decide)
  rw [if_neg fun hnot => hluck2 hnot.2.2, if_neg (by simp)]
  by_cases hluck : decide (req.type = .unlck) = false ∧ new1 = false
  · rw [if_pos hluck, (h.unchanged hadded).2]
    exact .failed _ _ (by decide)
  rw [if_neg hluck]
  have hnew := h.newLocks id
    (show decide (req.type = .unlck) = (c.added || decide (req.type = .unlck)) by simp [hadded])
  have houtcome := ApplyOutcome.done (a := a) (b := b) _ _ (h.split_applied hm hid hset hlt hnew
    (show c.woken ⊆ (id + 1) :: fl.id :: c.woken from fun x hx => by simp [hx]))
  rw [← h.split_eq ha hb hm hid hlt hnew hfa hfb] at houtcome
  unfold insertLocks
  dsimp only
  rw [if_pos rfl, cons_append, List.find?_cons_of_pos (by simp [hown.posix])]
  exact houtcome

end

end Finish

variable [DecidableEq Owner]

/-- A request changes the locks `m` of its owner, or nothing. -/
theorem applyRequest_spec (new1 new2 : Bool) (hstart : 0 ≤ req.start)
    (hle : req.start ≤ req.end_) (hend : req.end_ ≤ offsetMax)
    (hskip : ∀ fl ∈ a, fl.posix = true → fl.owner ≠ req.owner)
    (hm : ∀ fl ∈ m, Own req.owner fl) (htidy : Tidy (m.map toRange))
    (hb : ∀ fl ∈ b, fl.owner ≠ req.owner) (hmb : m = [] → b = []) (ha : Apart a m)
    (hb' : Apart b m) (hnodup : (m.map (·.id)).Nodup)
    (hid : ∀ fl ∈ a ++ (m ++ b), fl.posix = true → fl.id < id) :
    ApplyOutcome req a m b id (applyRequest req (a ++ (m ++ b)) id new1 new2) := by
  have hskip' : ∀ fl ∈ a, (!fl.posix || decide (req.owner ≠ fl.owner)) = true := by
    intro fl hfl
    cases hposix : fl.posix with
    | false => rfl
    | true => simpa using (hskip fl hfl hposix).symm
  have hhead : (m ++ b).takeWhile (fun fl => !fl.posix || decide (req.owner ≠ fl.owner)) = [] ∧
      (m ++ b).dropWhile (fun fl => !fl.posix || decide (req.owner ≠ fl.owner)) = m ++ b := by
    cases m with
    | nil => simp [hmb rfl]
    | cons fl =>
      have hfl := hm fl mem_cons_self
      simp [hfl.posix, hfl.owner]
  have hwalk : Walk req a m ⟨a, req.start, req.end_, none, false, none, none, []⟩ [] [] [] m := by
    refine ⟨by simp, rfl, by simpa using hm, htidy, hstart, hle, hend, rfl, .whole [],
      .caller false nofun, ?_, fun _ => absurd rfl, fun _ => rfl, List.Sublist.refl _, ?_⟩
    · rintro (hne | htrue)
      · exact absurd rfl hne
      · cases htrue
    · exact fun fl hfl => .inl (mem_map_of_mem hfl)
  have hfree : ∀ fl ∈ a ++ (m ++ b), fl.posix = true → fl.id ≠ id + 1 := fun fl hfl hposix =>
    Nat.ne_of_lt (Nat.lt_succ_of_lt (hid fl hfl hposix))
  have hid' : ∀ fl ∈ m, fl.id < id := fun fl hfl => hid fl (by simp [hfl]) (hm fl hfl).posix
  obtain ⟨c, r, hprocess, hended⟩ := process_spec hwalk ha hnodup hb
  unfold applyRequest
  dsimp only
  rw [takeWhile_append_of_pos hskip', dropWhile_append_of_pos hskip', hhead.1, hhead.2,
    append_nil, hprocess]
  cases hended with
  | before _ _ _ _ _ h hset => exact finish_before ha hb' hnodup hid' h hset
  | inside _ _ _ _ _ _ h hset hlt => exact finish_inside ha hb' hnodup hid' h hset hlt
  | middle _ _ _ _ h hset hlt hadded =>
    exact finish_middle ha hb' hnodup hid' h hset hlt hadded
      (fun x hx => hfree x (by simp [hx])) fun x hx => hfree x (by simp [hx])

end LklPort.PosixLock
