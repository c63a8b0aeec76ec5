import LklPort.PosixLock.Basic
import LklPort.RangeMap.Basic

/-!
# The pass over the locks of an owner

The locks of an owner are a tidy list of ranges. The pass of `__posix_lock_file` sets the range of
the request in it. A request to unlock is a range without a lock.
-/

namespace LklPort.PosixLock

open RangeMap List

variable {Owner : Type}

/-- The range of a lock. -/
def toRange (fl : Lock Owner) : Range LockType := ⟨fl.start, fl.end_, fl.type⟩

lemma wrap_of_mem {x : ℤ} (h : -1 ≤ x) (h' : x ≤ offsetMax) : wrap x = x := by
  unfold offsetMax at h'
  exact Int.bmod_eq_of_le (by omega) (by omega)

@[simp] lemma withRange_id (fl : Lock Owner) (start end_ : ℤ) :
    (fl.withRange start end_).id = fl.id := rfl

/-! ### Changing one lock -/

section Change

variable {id : ℕ} {f : Lock Owner → Lock Owner} {fl : Lock Owner} {ls ls' : List (Lock Owner)}

lemma change_append : change id f (ls ++ ls') = change id f ls ++ change id f ls' :=
  map_append

lemma change_of_ne (h : ∀ fl ∈ ls, fl.posix = true → fl.id ≠ id) : change id f ls = ls := by
  refine (map_congr_left fun fl hfl => ?_).trans (map_id ls)
  exact if_neg fun hat => h fl hfl hat.1 hat.2

lemma change_cons_self (hposix : fl.posix = true) : change fl.id f (fl :: ls) =
    f fl :: change fl.id f ls := by
  unfold change
  rw [map_cons, if_pos ⟨hposix, rfl⟩]

end Change

/-- The range of the request where the pass is. -/
abbrev Cursor.range (c : Cursor Owner) (req : Request Owner) : Range LockType :=
  ⟨c.start, c.end_, req.type⟩

/-- The locks `r` with this range set. -/
abbrev Cursor.setOn (c : Cursor Owner) (req : Request Owner) (r : List (Lock Owner)) :
    List (Range LockType) := set (c.range req) (r.map toRange)

lemma setOn_cons (c : Cursor Owner) (req : Request Owner) (fl : Lock Owner)
    (r : List (Lock Owner)) : c.setOn req (fl :: r) =
      if req.type = fl.type then
        if fl.end_ + 1 < c.start then toRange fl :: c.setOn req r
        else if c.end_ + 1 < fl.start then c.range req :: (fl :: r).map toRange
        else set ⟨min c.start fl.start, max c.end_ fl.end_, req.type⟩ (r.map toRange)
      else if fl.end_ < c.start then toRange fl :: c.setOn req r
      else if c.end_ < fl.start then c.range req :: (fl :: r).map toRange
      else if fl.start < c.start then
        if c.end_ < fl.end_ then { toRange fl with hi := c.start - 1 } :: c.range req ::
          { toRange fl with lo := c.end_ + 1 } :: r.map toRange
        else { toRange fl with hi := c.start - 1 } :: c.setOn req r
      else if c.end_ < fl.end_ then
        c.range req :: { toRange fl with lo := c.end_ + 1 } :: r.map toRange
      else c.setOn req r := rfl

lemma setOn_join {c : Cursor Owner} {req : Request Owner} {fl : Lock Owner}
    {r : List (Lock Owner)} (htype : req.type = fl.type) (hgap : ¬ fl.end_ < c.start - 1)
    (hgap' : ¬ fl.start - 1 > c.end_) : c.setOn req (fl :: r) =
      set ⟨min c.start fl.start, max c.end_ fl.end_, req.type⟩ (r.map toRange) := by
  rw [setOn_cons, if_pos htype, if_neg (by omega), if_neg (by omega)]

/-- A lock in the list of an owner. -/
structure Own (o : Owner) (fl : Lock Owner) : Prop where
  posix : fl.posix = true
  owner : fl.owner = o
  type : fl.type ≠ .unlck
  start : 0 ≤ fl.start
  end_ : fl.end_ ≤ offsetMax

/-- The ranges of the locks before the request. The last one may still have to be cut. -/
inductive LeftPart (start : ℤ) : Option ℕ → List (Lock Owner) → List (Range LockType) → Prop where
  | whole (body : List (Lock Owner)) : LeftPart start none body (body.map toRange)
  | cut (body : List (Lock Owner)) (fl : Lock Owner) :
      LeftPart start (some fl.id) (body ++ [fl])
        (body.map toRange ++ [{ toRange fl with hi := start - 1 }])

/-- The lock that `request` points to, if any. It has the range of the request. -/
inductive TargetPart (type : LockType) (start end_ : ℤ) : Option ℕ → Bool → List (Lock Owner) →
    Prop where
  | caller (added : Bool) (h : added = true → type = .unlck) :
      TargetPart type start end_ none added []
  | lock (fl : Lock Owner) (h : toRange fl = ⟨start, end_, type⟩) (htype : type ≠ .unlck) :
      TargetPart type start end_ (some fl.id) true [fl]

variable {start end_ : ℤ}

lemma TargetPart.of_not_added {type : LockType} {target : Option ℕ} {tgt : List (Lock Owner)}
    (h : TargetPart type start end_ target false tgt) : tgt = [] ∧ target = none := by
  cases h
  exact ⟨rfl, rfl⟩

lemma LeftPart.of_none {left : Option ℕ} {body : List (Lock Owner)} {out : List (Range LockType)}
    (h : LeftPart start left body out) (hleft : left = none) : out = body.map toRange := by
  cases h with
  | whole => rfl
  | cut => cases hleft

/-- What holds in the loop. The locks `m` of the owner have become `body ++ tgt ++ r`, of which `r`
is still to come, and `out` are the ranges of `body` when it is cut. -/
structure Walk (req : Request Owner) (a m : List (Lock Owner)) (c : Cursor Owner)
    (body tgt : List (Lock Owner)) (out : List (Range LockType)) (r : List (Lock Owner)) :
    Prop where
  passed : c.passed = a ++ (body ++ tgt)
  set_eq : set ⟨req.start, req.end_, req.type⟩ (m.map toRange) = out ++ c.setOn req r
  own : ∀ fl ∈ body ++ (tgt ++ r), Own req.owner fl
  tidy : Tidy (r.map toRange)
  start_nonneg : 0 ≤ c.start
  start_le : c.start ≤ c.end_
  end_le : c.end_ ≤ offsetMax
  right : c.right = none
  left : LeftPart c.start c.left body out
  target : TargetPart req.type c.start c.end_ c.target c.added tgt
  ahead : c.left ≠ none ∨ c.added = true → ∀ fl ∈ r, c.start < fl.start
  unlock : req.type = .unlck → c.left ≠ none → c.added = true
  same : c.added = false → body ++ r = m
  ids : ((body ++ (tgt ++ r)).map (·.id)).Sublist (m.map (·.id))
  kept : ∀ fl ∈ m, fl.id ∈ (body ++ (tgt ++ r)).map (·.id) ∨ fl.id ∈ c.woken

variable {req : Request Owner} {a m b body tgt r : List (Lock Owner)} {c : Cursor Owner}
  {out : List (Range LockType)} {fl : Lock Owner}

namespace Walk

variable (h : Walk req a m c body tgt out (fl :: r))

include h

lemma own_head : Own req.owner fl := h.own fl (by simp)

lemma head_le : fl.start ≤ fl.end_ := h.tidy.le _ mem_cons_self

/-- The bounds of the request and of the lock. -/
lemma bounds : 0 ≤ c.start ∧ c.start ≤ c.end_ ∧ c.end_ ≤ offsetMax ∧
    0 ≤ fl.start ∧ fl.start ≤ fl.end_ ∧ fl.end_ ≤ offsetMax :=
  ⟨h.start_nonneg, h.start_le, h.end_le, h.own_head.start, h.head_le, h.own_head.end_⟩

lemma head_lt {x : Lock Owner} (hx : x ∈ r) : fl.end_ < x.start :=
  ((tidy_cons.1 h.tidy).2.1 _ (mem_map_of_mem hx)).1

lemma tail_tidy : Tidy (r.map toRange) := (tidy_cons.1 h.tidy).2.2

lemma untouched (hle : fl.start ≤ c.start) : c.left = none ∧ c.added = false := by
  by_contra hnot
  have htouched : c.left ≠ none ∨ c.added = true := by
    by_cases hleft : c.left = none
    · exact .inr (by simpa [hleft] using hnot)
    · exact .inl hleft
  have hlt := h.ahead htouched fl mem_cons_self
  omega

lemma target_none (hadded : c.added = false) : tgt = [] ∧ c.target = none := by
  have htarget := h.target
  rw [hadded] at htarget
  exact htarget.of_not_added

/-- The pass goes on behind the lock, of which the part before the request is kept. -/
lemma behind {added : Bool} {left : Option ℕ} {q : Range LockType} (hadded : c.added = false)
    (hset : c.setOn req (fl :: r) = q :: c.setOn req r)
    (hleft : LeftPart c.start left (body ++ [fl]) (out ++ [q]))
    (htype : added = true → req.type = .unlck)
    (hahead : left ≠ none ∨ added = true → c.start ≤ fl.end_)
    (hunlock : req.type = .unlck → left ≠ none → added = true) :
    Walk req a m (Cursor.advance { c with added := added, left := left } fl) (body ++ [fl]) []
      (out ++ [q]) r := by
  obtain ⟨rfl, htarget⟩ := h.target_none hadded
  refine ⟨?_, ?_, ?_, h.tail_tidy, h.start_nonneg, h.start_le, h.end_le, h.right, hleft, ?_,
    fun hne x hx => lt_of_le_of_lt (hahead hne) (h.head_lt hx), hunlock, ?_, ?_, ?_⟩
  · simp [Cursor.advance, h.passed]
  · rw [h.set_eq, hset, append_assoc]
    rfl
  · simpa using h.own
  · have hcaller : TargetPart req.type c.start c.end_ none added ([] : List (Lock Owner)) :=
      .caller added htype
    rwa [← htarget] at hcaller
  · intro _
    simpa using h.same hadded
  · simpa using h.ids
  · simpa [Cursor.advance] using h.kept

lemma advance (hleft : c.left = none) (hadded : c.added = false)
    (hset : c.setOn req (fl :: r) = toRange fl :: c.setOn req r) :
    Walk req a m (c.advance fl) (body ++ [fl]) [] (out ++ [toRange fl]) r := by
  have hnot : ¬ c.added = true := by simp [hadded]
  refine h.behind hadded hset ?_ (fun hadd => absurd hadd hnot) ?_ h.unlock
  · rw [hleft, h.left.of_none hleft, ← map_singleton, ← map_append]
    exact .whole _
  · exact fun hor => absurd hleft (hor.resolve_right hnot)

lemma cut {added : Bool} (hlt : fl.start < c.start) (hge : c.start ≤ fl.end_)
    (hunlock : added = true ↔ req.type = .unlck) (hset : c.setOn req (fl :: r) =
      { toRange fl with hi := c.start - 1 } :: c.setOn req r) :
    Walk req a m (Cursor.advance { c with added := added, left := some fl.id } fl) (body ++ [fl]) []
      (out ++ [{ toRange fl with hi := c.start - 1 }]) r := by
  obtain ⟨hleft, hadded⟩ := h.untouched (by omega)
  refine h.behind hadded hset ?_ hunlock.1 (fun _ => hge) fun htype _ => hunlock.2 htype
  rw [h.left.of_none hleft]
  exact .cut body fl

lemma retarget {c' : Cursor Owner} {fl' : Lock Owner} (hadded : c.added = false)
    (htype : req.type ≠ .unlck) (hfl' : fl' = { fl.withRange start end_ with type := req.type })
    (hc' : c' = { c with start := start, end_ := end_, woken := c'.woken })
    (hwoken : c.woken ⊆ c'.woken) (hstart : 0 ≤ start) (hle : start ≤ end_)
    (hend : end_ ≤ offsetMax) (hsame : c.left ≠ none → start = c.start) (hfl : start ≤ fl.end_)
    (hset : c.setOn req (fl :: r) = set ⟨start, end_, req.type⟩ (r.map toRange)) :
    Walk req a m (c'.retarget fl') body [fl'] out r := by
  obtain ⟨rfl, htarget⟩ := h.target_none hadded
  have hown := h.own_head
  subst hfl'
  rw [hc']
  refine ⟨?_, ?_, ?_, h.tail_tidy, hstart, hle, hend, h.right, ?_, ?_, ?_, ?_, nofun, ?_, ?_⟩
  · simp [Cursor.retarget, Cursor.advance, h.passed]
  · rw [h.set_eq, hset]
    rfl
  · intro x hx
    rcases List.mem_append.1 hx with hx | hx
    · exact h.own x (mem_append_left _ hx)
    rcases List.mem_cons.1 hx with rfl | hx
    · exact ⟨hown.posix, hown.owner, htype, hstart, hend⟩
    · exact h.own x (mem_append_right _ (mem_cons_of_mem fl hx))
  · have hparts := h.left
    cases hleft : c.left with
    | none =>
      rw [hleft] at hparts
      rw [hparts.of_none rfl]
      exact LeftPart.whole body
    | some => rwa [← hsame (by rw [hleft]; nofun), hleft] at hparts
  · exact TargetPart.lock _ rfl htype
  · intro _ x hx
    exact lt_of_le_of_lt hfl (h.head_lt hx)
  · exact fun hunlck => absurd hunlck htype
  · simpa using h.ids
  · intro x hx
    refine (h.kept x hx).imp (fun hid => by simpa using hid) fun hid => hwoken hid

end Walk

/-- The numbers of the locks in a list are different from those in another list. -/
def Apart (ls ls' : List (Lock Owner)) : Prop :=
  ∀ x ∈ ls, x.posix = true → ∀ y ∈ ls', x.id ≠ y.id

section Write

variable (h : Walk req a m c body tgt out r) (ha : Apart a m) (hm : (m.map (·.id)).Nodup)

include h ha hm

lemma Walk.write_passed (start end_ : ℤ) : (c.write start end_).passed =
    a ++ (body ++ tgt.map (·.withRange start end_)) := by
  have hpassed := h.passed
  have hids := h.ids
  have hown := h.own
  have htarget := h.target
  unfold Cursor.write
  generalize c.target = target, c.added = added at htarget
  cases htarget with
  | caller => simpa using hpassed
  | lock fl =>
    have hnodup := hids.nodup hm
    simp only [map_append, map_cons, map_nil] at hnodup
    have hmem : fl.id ∈ m.map (·.id) := hids.subset (by simp)
    obtain ⟨y, hy, hyid⟩ := List.mem_map.1 hmem
    have ha' : ∀ x ∈ a, x.posix = true → x.id ≠ fl.id := by
      intro x hx hposix
      rw [← hyid]
      exact ha x hx hposix y hy
    have hbody : ∀ x ∈ body, x.posix = true → x.id ≠ fl.id := by
      intro x hx _ he
      refine (List.nodup_append.1 hnodup).2.2 x.id (mem_map_of_mem hx) fl.id ?_ he
      exact mem_append_left _ (mem_singleton_self _)
    have hposix : fl.posix = true := (hown fl (by simp)).posix
    dsimp only
    rw [hpassed, change_append, change_append, change_of_ne ha', change_of_ne hbody,
      change_cons_self hposix]
    rfl

lemma Walk.write_self : c.write c.start c.end_ = c := by
  have hpassed := h.write_passed ha hm c.start c.end_
  have htgt : tgt.map (·.withRange c.start c.end_) = tgt := by
    have htarget := h.target
    generalize c.target = target, c.added = added at htarget
    cases htarget with
    | caller => rfl
    | lock fl hfl =>
      obtain ⟨id, posix, owner, type, start, end_⟩ := fl
      cases hfl
      rfl
  rw [htgt, ← h.passed] at hpassed
  obtain ⟨passed, start, end_, target, added, left, right, woken⟩ := c
  unfold Cursor.write at hpassed ⊢
  simp only at hpassed ⊢
  rw [hpassed]

end Write

lemma Walk.drop (h : Walk req a m c body tgt out (fl :: r)) (ha : Apart a m)
    (hm : (m.map (·.id)).Nodup) (hadded : c.added = true ∨ req.type = .unlck)
    (hge : c.start ≤ fl.start) (hle : c.end_ ≤ end_) (hend : end_ ≤ offsetMax)
    (hset : c.setOn req (fl :: r) = set ⟨c.start, end_, req.type⟩ (r.map toRange)) :
    Walk req a m ((Cursor.write { c with added := true } c.start end_).wake fl.id) body
      (tgt.map (·.withRange c.start end_)) out r := by
  have hids : (tgt.map (·.withRange c.start end_)).map (·.id) = tgt.map (·.id) := by
    rw [map_map]
    rfl
  have hsub : ((body ++ (tgt.map (·.withRange c.start end_) ++ r)).map
      (·.id)).Sublist ((body ++ (tgt ++ fl :: r)).map (·.id)) := by
    rw [map_append, map_append, hids, map_append, map_append, map_cons]
    exact ((sublist_cons_self _ _).append_left _).append_left _
  refine ⟨h.write_passed ha hm c.start end_, ?_, ?_, h.tail_tidy, h.start_nonneg,
    le_trans h.start_le hle, hend, h.right, h.left, ?_, ?_, fun _ _ => rfl, nofun,
    hsub.trans h.ids, ?_⟩
  · rw [h.set_eq, hset]
    rfl
  · intro x hx
    rcases List.mem_append.1 hx with hx | hx
    · exact h.own x (mem_append_left _ hx)
    rcases List.mem_append.1 hx with hx | hx
    · obtain ⟨y, hy, rfl⟩ := List.mem_map.1 hx
      have hown := h.own y (mem_append_right _ (mem_append_left _ hy))
      exact ⟨hown.posix, hown.owner, hown.type, h.start_nonneg, hend⟩
    · exact h.own x (by simp [hx])
  · have hpart := h.target
    generalize c.target = target, c.added = added at hpart hadded
    cases hpart with
    | caller _ hcaller => exact .caller true fun _ => hadded.elim hcaller fun hunlck => hunlck
    | lock x hx htype =>
      have htag : x.type = req.type := congrArg Range.tag hx
      exact .lock (x.withRange c.start end_) (by rw [← htag]; rfl) htype
  · intro _ x hx
    have hlt := h.head_lt hx
    have hfl := h.head_le
    change c.start < x.start
    omega
  · intro x hx
    have hkept := h.kept x hx
    rw [map_append, map_append, hids]
    simp only [map_append, map_cons, mem_append, mem_cons] at hkept
    change _ ∨ x.id ∈ fl.id :: c.woken
    simp only [mem_append, mem_cons]
    tauto

/-! ### The loop -/

/-- How the loop ends, with the locks `r` of the owner behind the place of the request. -/
inductive Ended (req : Request Owner) (a m : List (Lock Owner)) :
    Cursor Owner → List (Lock Owner) → Prop where
  /-- The request ends before the next lock. -/
  | before (c : Cursor Owner) (body tgt : List (Lock Owner)) (out : List (Range LockType))
      (r : List (Lock Owner)) (h : Walk req a m c body tgt out r)
      (hset : c.setOn req r = c.range req :: r.map toRange) : Ended req a m c r
  /-- The request ends in the next lock. -/
  | inside (c : Cursor Owner) (body tgt : List (Lock Owner)) (out : List (Range LockType))
      (fl : Lock Owner) (r : List (Lock Owner)) (h : Walk req a m c body tgt out (fl :: r))
      (hset : c.setOn req (fl :: r) =
        c.range req :: { toRange fl with lo := c.end_ + 1 } :: r.map toRange)
      (hlt : c.end_ < fl.end_) (hge : c.start ≤ fl.start) :
      Ended req a m { c with
        added := c.added || decide (req.type = .unlck), right := some fl.id } (fl :: r)
  /-- The request is in the middle of the next lock. -/
  | middle (c : Cursor Owner) (body : List (Lock Owner)) (fl : Lock Owner)
      (r : List (Lock Owner)) (h : Walk req a m c body [] (body.map toRange) (fl :: r))
      (hset : c.setOn req (fl :: r) =
        { toRange fl with hi := c.start - 1 } :: c.range req ::
          { toRange fl with lo := c.end_ + 1 } :: r.map toRange)
      (hlt : c.end_ < fl.end_) (hadded : c.added = false) :
      Ended req a m { c with
        added := decide (req.type = .unlck), left := some fl.id, right := some fl.id } (fl :: r)

variable [DecidableEq Owner]

/-- A round of the loop goes on behind the next lock, or ends at it. -/
inductive Round (req : Request Owner) (a m : List (Lock Owner)) (c : Cursor Owner) (fl : Lock Owner)
    (r b : List (Lock Owner)) : Prop where
  | goes {c' : Cursor Owner} {body tgt : List (Lock Owner)} {out : List (Range LockType)}
      (hrun : process req (fl :: (r ++ b)) c = process req (r ++ b) c')
      (h : Walk req a m c' body tgt out r) : Round req a m c fl r b
  | ends {c' : Cursor Owner} (hrun : process req (fl :: (r ++ b)) c = (c', fl :: (r ++ b)))
      (h : Ended req a m c' (fl :: r)) : Round req a m c fl r b

namespace Walk

section

variable (h : Walk req a m c body tgt out (fl :: r)) (ha : Apart a m) (hm : (m.map (·.id)).Nodup)

section

include h

lemma process_same (htype : req.type = fl.type) (ls : List (Lock Owner)) :
    process req (fl :: ls) c =
      if fl.end_ < c.start - 1 then process req ls (c.advance fl)
      else if fl.start - 1 > c.end_ then (c, fl :: ls)
      else if c.added then
        process req ls ((c.write (min c.start fl.start) (max c.end_ fl.end_)).wake fl.id)
      else process req ls ((c.write (min c.start fl.start) (max c.end_ fl.end_)).retarget
        (fl.withRange (min c.start fl.start) (max c.end_ fl.end_))) := by
  obtain ⟨hnonneg, hle, hend, hstart, hfl, hend'⟩ := h.bounds
  have hpred : wrap (c.start - 1) = c.start - 1 := wrap_of_mem (by omega) (by omega)
  have hpred' : wrap (fl.start - 1) = fl.start - 1 := wrap_of_mem (by omega) (by omega)
  have hmin : (if fl.start > c.start then c.start else fl.start) = min c.start fl.start := by
    split_ifs <;> omega
  have hmax : (if fl.end_ < c.end_ then c.end_ else fl.end_) = max c.end_ fl.end_ := by
    split_ifs <;> omega
  rw [process, if_neg (not_not.2 h.own_head.owner.symm), if_pos htype, hpred, hpred', hmin, hmax]
  rfl

lemma process_other (htype : ¬ req.type = fl.type) (ls : List (Lock Owner)) :
    process req (fl :: ls) c =
      if fl.end_ < c.start then process req ls (c.advance fl)
      else if fl.start > c.end_ then (c, fl :: ls)
      else
        let c := { c with added := c.added || decide (req.type = LockType.unlck) }
        if fl.start < c.start then
          if fl.end_ > c.end_ then ({ c with left := some fl.id, right := some fl.id }, fl :: ls)
          else process req ls (Cursor.advance { c with left := some fl.id } fl)
        else if fl.end_ > c.end_ then ({ c with right := some fl.id }, fl :: ls)
        else if c.added then process req ls (c.wake fl.id)
        else process req ls ((c.wake fl.id).retarget
          { fl.withRange c.start c.end_ with type := req.type }) := by
  have hunlck : (if req.type = .unlck then { c with added := true } else c) =
      { c with added := c.added || decide (req.type = .unlck) } := by
    split_ifs with hun <;> simp [hun]
  rw [process, if_neg (not_not.2 h.own_head.owner.symm), if_neg htype, hunlck]
  by_cases hlt : fl.start < c.start
  · simp only [if_pos hlt, if_neg (show ¬ fl.start ≥ c.start by omega)]
  · simp only [if_neg hlt, if_pos (show fl.start ≥ c.start by omega)]

end

/-! ### A lock of the same type -/

section

variable (htype : req.type = fl.type) (hgap : ¬ fl.end_ < c.start - 1)
  (hgap' : ¬ fl.start - 1 > c.end_)

include h htype hgap hgap'

include ha hm in
/-- The lock is joined with an earlier one, and deleted. -/
lemma round_absorb (hadded : c.added = true) : Round req a m c fl r b := by
  obtain ⟨hnonneg, hle, hend, hstart, hfl, hend'⟩ := h.bounds
  have hjoin := setOn_join (r := r) htype hgap hgap'
  have hlt := h.ahead (.inr hadded) fl mem_cons_self
  have hmin : min c.start fl.start = c.start := by omega
  have hc : c = { c with added := true } := by rw [← hadded]
  rw [hmin] at hjoin
  have hdrop := h.drop ha hm (.inl hadded) (by omega) (le_max_left _ _) (by omega) hjoin
  rw [← hc] at hdrop
  refine .goes ?_ hdrop
  rw [h.process_same htype, if_neg hgap, if_neg hgap', if_pos hadded, hmin]

/-- The lock takes the range of the request. -/
lemma round_extend (hadded : c.added = false) : Round req a m c fl r b := by
  obtain ⟨hnonneg, hle, hend, hstart, hfl, hend'⟩ := h.bounds
  have hrun := h.process_same htype (r ++ b)
  rw [if_neg hgap, if_neg hgap', hadded, if_neg (by decide)] at hrun
  refine .goes hrun (h.retarget hadded (htype ▸ h.own_head.type) ?_ ?_ (List.Subset.refl _)
    ?_ ?_ ?_ ?_ ?_ (setOn_join htype hgap hgap'))
  · rw [htype]
    rfl
  · unfold Cursor.write
    rw [(h.target_none hadded).2]
  · omega
  · omega
  · omega
  · intro hleft
    have hlt := h.ahead (.inl hleft) fl mem_cons_self
    omega
  · omega

end

include h ha hm

lemma round_same (htype : req.type = fl.type) : Round req a m c fl r b := by
  obtain ⟨hnonneg, hle, hend, hstart, hfl, hend'⟩ := h.bounds
  by_cases h1 : fl.end_ < c.start - 1
  · obtain ⟨hleft, hadded⟩ := h.untouched (by omega)
    refine .goes ?_ (h.advance hleft hadded ?_)
    · rw [h.process_same htype, if_pos h1]
    · rw [setOn_cons, if_pos htype, if_pos (by omega)]
  by_cases h2 : fl.start - 1 > c.end_
  · refine .ends ?_ (.before c body tgt out (fl :: r) h ?_)
    · rw [h.process_same htype, if_neg h1, if_pos h2]
    · rw [setOn_cons, if_pos htype, if_neg (by omega), if_pos (by omega)]
  cases hadded : c.added with
  | true => exact h.round_absorb ha hm htype h1 h2 hadded
  | false => exact h.round_extend htype h1 h2 hadded

/-! ### A lock of another type -/

/-- The lock is covered by the request: it is deleted, or the request takes its place. -/
lemma round_cover (htype : ¬ req.type = fl.type) (hge : ¬ fl.start < c.start)
    (hle : ¬ fl.end_ > c.end_) : Round req a m c fl r b := by
  obtain ⟨hnonneg, hle', hend, hstart, hfl, hend'⟩ := h.bounds
  have hset := setOn_cons c req fl r
  rw [if_neg htype, if_neg (by omega), if_neg (by omega), if_neg hge, if_neg (by omega)] at hset
  have hrun := h.process_other htype (r ++ b)
  rw [if_neg (by omega), if_neg (by omega)] at hrun
  dsimp only at hrun
  rw [if_neg hge, if_neg hle] at hrun
  by_cases hadded : c.added = true ∨ req.type = .unlck
  · have hor : (c.added || decide (req.type = .unlck)) = true := by simpa using hadded
    have hself := congrArg (fun c => { c with added := true }) (h.write_self ha hm)
    have hdrop := h.drop ha hm hadded (by omega) (le_refl _) hend hset
    rw [show Cursor.write { c with added := true } c.start c.end_ =
      { c with added := true } from hself] at hdrop
    rw [if_pos hor, hor] at hrun
    exact .goes hrun hdrop
  · obtain ⟨hadd, hun⟩ := not_or.1 hadded
    have hadd : c.added = false := Bool.eq_false_iff.2 hadd
    have hor : (c.added || decide (req.type = .unlck)) = false := by simp [hadd, hun]
    rw [hor, if_neg (by decide)] at hrun
    refine .goes hrun (h.retarget hadd hun rfl ?_ (subset_cons_self _ _) hnonneg hle' hend
      (fun _ => rfl) (by omega) hset)
    rw [← hadd]
    rfl

omit ha hm in
/-- The lock starts before the request and reaches into it. -/
lemma round_left (htype : ¬ req.type = fl.type) (hlt : fl.start < c.start)
    (hge : ¬ fl.end_ < c.start) : Round req a m c fl r b := by
  obtain ⟨hnonneg, hle, hend, hstart, hfl, hend'⟩ := h.bounds
  obtain ⟨hleft, hadded⟩ := h.untouched (by omega)
  obtain ⟨rfl, -⟩ := h.target_none hadded
  have hset := setOn_cons c req fl r
  have hrun := h.process_other htype (r ++ b)
  rw [if_neg htype, if_neg hge, if_neg (by omega), if_pos hlt] at hset
  rw [if_neg hge, if_neg (by omega), hadded, Bool.false_or] at hrun
  dsimp only at hrun
  rw [if_pos hlt] at hrun
  by_cases hgt : fl.end_ > c.end_
  · rw [if_pos hgt] at hset hrun
    obtain rfl := h.left.of_none hleft
    exact .ends hrun (.middle c body fl r h hset hgt hadded)
  · rw [if_neg hgt] at hset hrun
    exact .goes hrun (h.cut hlt (by omega) (by simp) hset)

lemma round_other (htype : ¬ req.type = fl.type) : Round req a m c fl r b := by
  have hset := setOn_cons c req fl r
  have hrun := h.process_other htype (r ++ b)
  rw [if_neg htype] at hset
  by_cases h1 : fl.end_ < c.start
  · have hfl := h.head_le
    obtain ⟨hleft, hadded⟩ := h.untouched (by omega)
    rw [if_pos h1] at hset hrun
    exact .goes hrun (h.advance hleft hadded hset)
  by_cases hlt : fl.start < c.start
  · exact h.round_left htype hlt h1
  rw [if_neg h1] at hset hrun
  by_cases h2 : fl.start > c.end_
  · rw [if_pos h2] at hset hrun
    exact .ends hrun (.before c body tgt out (fl :: r) h hset)
  rw [if_neg h2, if_neg hlt] at hset
  rw [if_neg h2, if_neg hlt] at hrun
  by_cases hgt : fl.end_ > c.end_
  · rw [if_pos hgt] at hset hrun
    exact .ends hrun (.inside c body tgt out fl r h hset hgt (by omega))
  · exact h.round_cover ha hm htype hlt hgt

end

end Walk

lemma process_spec (h : Walk req a m c body tgt out r) (ha : Apart a m)
    (hm : (m.map (·.id)).Nodup) (hb : ∀ fl ∈ b, fl.owner ≠ req.owner) :
    ∃ c' r', process req (r ++ b) c = (c', r' ++ b) ∧ Ended req a m c' r' := by
  induction r generalizing c body tgt out with
  | nil =>
    refine ⟨c, [], ?_, .before c body tgt out [] h rfl⟩
    cases b with
    | nil => rfl
    | cons fl => rw [nil_append, process, if_pos (hb fl mem_cons_self).symm]
  | cons fl r ih =>
    have hround : Round req a m c fl r b := by
      by_cases htype : req.type = fl.type
      · exact h.round_same ha hm htype
      · exact h.round_other ha hm htype
    cases hround with
    | goes hrun hwalk =>
      rw [cons_append, hrun]
      exact ih hwalk
    | ends hrun hended => exact ⟨_, fl :: r, hrun, hended⟩

end LklPort.PosixLock
