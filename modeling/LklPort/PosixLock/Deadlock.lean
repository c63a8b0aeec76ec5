import Mathlib.Data.List.Nodup
import Mathlib.Logic.Relation
import LklPort.PosixLock.Law

/-!
# Deadlock detection

An owner waits for another one if a request of it is blocked by a lock of the other. Before a
request is put to sleep, `posix_locks_deadlock` follows the owners that wait for each other. It
gives up after eleven of them, and a longer cycle is not found.
-/

namespace LklPort.PosixLock

open Machine Relation List Function

/-! ### One more edge -/

section Graph

variable {α : Type} {r r' : α → α → Prop} {a b x y : α}

/-- A walk that may use one more edge uses it not at all, or leads to its start and from its
end. -/
lemma transGen_or_of_edge (hr : ∀ x y, r' x y → r x y ∨ x = a ∧ y = b) (h : TransGen r' x y) :
    TransGen r x y ∨ ReflTransGen r x a ∧ ReflTransGen r b y := by
  induction h with
  | single hxy =>
    rcases hr _ _ hxy with hold | ⟨rfl, rfl⟩
    · exact .inl (.single hold)
    · exact .inr ⟨.refl, .refl⟩
  | tail _ hyz ih =>
    rcases hr _ _ hyz with hold | ⟨rfl, rfl⟩
    · exact ih.imp (fun hxy => hxy.tail hold) fun hxy => ⟨hxy.1, hxy.2.tail hold⟩
    · exact .inr ⟨ih.elim TransGen.to_reflTransGen And.left, .refl⟩

lemma acyclic_of_edge (hacyclic : ∀ x, ¬ TransGen r x x)
    (hr : ∀ x y, r' x y → r x y ∨ x = a ∧ y = b) (hab : ¬ ReflTransGen r b a) (x : α) :
    ¬ TransGen r' x x := by
  intro h
  rcases transGen_or_of_edge hr h with hold | ⟨hxa, hbx⟩
  · exact hacyclic x hold
  · exact hab (hbx.trans hxa)

end Graph

variable {Owner : Type} [DecidableEq Owner] {s : State Owner} {o o' : Owner} {fl : Lock Owner}
  {n inode : ℕ}

/-- A request of `o` is blocked by a lock of `o'`. -/
def WaitsFor (s : State Owner) (o o' : Owner) : Prop :=
  ∃ w ∈ s.blocked, w.owner = o ∧ ∃ fl, s.lockOf w = some fl ∧ fl.owner = o'

/-- The owner at the end of a chain of owners that wait for each other. -/
def follow (s : State Owner) : ℕ → Owner → Option Owner
  | 0, o => some o
  | n + 1, o => (whatOwnerIsWaitingFor s o).bind fun fl => follow s n fl.owner

lemma waitsFor_of_what (h : whatOwnerIsWaitingFor s o = some fl) : WaitsFor s o fl.owner := by
  obtain ⟨w, hw, hfl⟩ := Option.bind_eq_some_iff.1 h
  have howner := List.find?_some hw
  exact ⟨w, mem_of_find?_eq_some hw, of_decide_eq_true howner, fl, hfl, rfl⟩

lemma transGen_of_follow (h : follow s (n + 1) o = some o') : TransGen (WaitsFor s) o o' := by
  induction n generalizing o with
  | zero =>
    obtain ⟨fl, hfl, ho'⟩ := Option.bind_eq_some_iff.1 h
    cases ho'
    exact .single (waitsFor_of_what hfl)
  | succ _ ih =>
    obtain ⟨fl, hfl, hrest⟩ := Option.bind_eq_some_iff.1 h
    exact .head (waitsFor_of_what hfl) (ih hrest)

/-! ### What the check finds -/

lemma follow_of_deadlockLoop (h : deadlockLoop s o' n o = true) :
    ∃ k < n, follow s (k + 1) o = some o' := by
  induction n generalizing o with
  | zero =>
    rw [deadlockLoop.eq_def] at h
    cases hwhat : whatOwnerIsWaitingFor s o <;> simp [hwhat] at h
  | succ n ih =>
    rw [deadlockLoop.eq_def] at h
    cases hwhat : whatOwnerIsWaitingFor s o with
    | none => simp [hwhat] at h
    | some =>
      simp only [hwhat] at h
      split_ifs at h with ho
      · exact ⟨0, Nat.succ_pos n, by simp [follow, hwhat, ho]⟩
      · obtain ⟨k, hk, hfollow⟩ := ih h
        exact ⟨k + 1, Nat.succ_lt_succ hk, by rw [follow, hwhat]; exact hfollow⟩

lemma deadlockLoop_of_follow {k : ℕ} (h : follow s (k + 1) o = some o') (hk : k < n) :
    deadlockLoop s o' n o = true := by
  induction n generalizing o k with
  | zero => exact absurd hk (Nat.not_lt_zero k)
  | succ _ ih =>
    obtain ⟨fl, hfl, hrest⟩ := Option.bind_eq_some_iff.1 h
    rw [deadlockLoop.eq_def]
    simp only [hfl]
    split_ifs with ho
    · rfl
    · cases k with
      | zero => exact absurd (Option.some.inj hrest).symm ho
      | succ => exact ih hrest (Nat.lt_of_succ_lt_succ hk)

/-! ### Runs -/

/-- Who asks to sleep does not wait yet. -/
def OneWait (s : State Owner) : Action Owner → Prop
  | .request _ req _ _ => req.flSleep = true → ∀ w ∈ s.blocked, w.owner ≠ req.owner
  | _ => True

instance (s : State Owner) (action : Action Owner) : Decidable (OneWait s action) := by
  induction action using Action.casesOn <;> dsimp only [OneWait] <;> infer_instance

/-- A cycle that a request would close has at most eleven owners that wait already. -/
def ShortCycle (s : State Owner) : Action Owner → Prop
  | .request inode req _ _ => ∀ fl, firstConflict req (s.files inode) = some fl →
      req.flSleep = true → ∀ k, follow s k fl.owner = some req.owner → k ≤ maxDeadlkIterations + 1
  | _ => True

/-- The invariant of the blocked requests. -/
structure Waiting (s : State Owner) : Prop where
  sound : ∀ inode, Sound (s.files inode) s.fresh
  once : (s.blocked.map (·.owner)).Nodup
  lock : ∀ w ∈ s.blocked, ∃ fl, s.lockOf w = some fl

omit [DecidableEq Owner] in
lemma Sound.find {ls : List (Lock Owner)} (h : Sound ls n) (hfl : fl ∈ ls)
    (hposix : fl.posix = true) :
    ls.find? (fun x => x.posix && decide (x.id = fl.id)) = some fl := by
  obtain ⟨-, hnodup, -⟩ := h
  have hsome : (ls.find? fun x => x.posix && decide (x.id = fl.id)).isSome := by
    rw [List.find?_isSome]
    exact ⟨fl, hfl, by simp [hposix]⟩
  obtain ⟨x, hx⟩ := Option.isSome_iff_exists.1 hsome
  have hxid := List.find?_some hx
  simp only [Bool.and_eq_true, decide_eq_true_eq] at hxid
  have hinj := inj_on_of_nodup_map hnodup
  rw [hx, hinj (List.mem_filter.2 ⟨mem_of_find?_eq_some hx, hxid.1⟩)
    (List.mem_filter.2 ⟨hfl, hposix⟩) hxid.2]

lemma Waiting.what_of_waitsFor (h : Waiting s) (hw : WaitsFor s o o') :
    ∃ fl, whatOwnerIsWaitingFor s o = some fl ∧ fl.owner = o' := by
  obtain ⟨w, hw, rfl, fl, hfl, rfl⟩ := hw
  have hsome : (s.blocked.find? fun w' => decide (w'.owner = w.owner)).isSome := by
    rw [List.find?_isSome]
    exact ⟨w, hw, by simp⟩
  obtain ⟨w', hw'⟩ := Option.isSome_iff_exists.1 hsome
  have howner := List.find?_some hw'
  rw [decide_eq_true_eq] at howner
  have hsame : w' = w :=
    inj_on_of_nodup_map h.once (mem_of_find?_eq_some hw') hw howner
  subst hsame
  exact ⟨fl, by rw [whatOwnerIsWaitingFor, hw', Option.bind_some, hfl], rfl⟩

lemma Waiting.follow_of_reflTransGen (h : Waiting s) (hwalk : ReflTransGen (WaitsFor s) o o') :
    ∃ k, follow s k o = some o' := by
  induction hwalk using ReflTransGen.head_induction_on with
  | refl => exact ⟨0, rfl⟩
  | head hedge _ ih =>
    obtain ⟨fl, hfl, rfl⟩ := h.what_of_waitsFor hedge
    obtain ⟨k, hk⟩ := ih
    exact ⟨k + 1, by rw [follow, hfl]; exact hk⟩

variable {req : Request Owner} {s' : State Owner}

lemma firstConflict_mem {ls : List (Lock Owner)} (h : firstConflict req ls = some fl) :
    fl ∈ ls ∧ fl.posix = true ∧ req.owner ≠ fl.owner := by
  unfold firstConflict at h
  split_ifs at h
  have hprop := List.find?_some h
  simp only [Bool.and_eq_true, posixLocksConflict_iff] at hprop
  exact ⟨mem_of_find?_eq_some h, hprop.1, hprop.2.2.1⟩

omit [DecidableEq Owner] in
lemma waitsFor_insertBlock (h : Sound (s.files inode) n) (hfl : fl ∈ s.files inode)
    (hposix : fl.posix = true) {x y : Owner} :
    WaitsFor (locksInsertBlock s inode fl o) x y ↔ WaitsFor s x y ∨ x = o ∧ y = fl.owner := by
  have hfind : (locksInsertBlock s inode fl o).lockOf ⟨o, inode, fl.id⟩ = some fl :=
    h.find hfl hposix
  constructor
  · rintro ⟨w, hw, hx, fl', hfl', hy⟩
    rcases List.mem_cons.1 hw with rfl | hw
    · rw [hfind] at hfl'
      cases hfl'
      exact .inr ⟨hx.symm, hy.symm⟩
    · exact .inl ⟨w, hw, hx, fl', hfl', hy⟩
  · rintro (⟨w, hw, hx, hy⟩ | ⟨rfl, rfl⟩)
    · exact ⟨w, mem_cons_of_mem _ hw, hx, hy⟩
    · exact ⟨_, mem_cons_self, rfl, fl, hfind, rfl⟩

omit [DecidableEq Owner] in
lemma Waiting.insertBlock (h : Waiting s) (hfl : fl ∈ s.files inode) (hposix : fl.posix = true)
    (hnot : ∀ w ∈ s.blocked, w.owner ≠ o) : Waiting (locksInsertBlock s inode fl o) := by
  refine ⟨h.sound, ?_, ?_⟩
  · refine List.nodup_cons.2 ⟨fun hmem => ?_, h.once⟩
    obtain ⟨w, hw, howner⟩ := List.mem_map.1 hmem
    exact hnot w hw howner
  · exact List.forall_mem_cons.2 ⟨⟨fl, (h.sound inode).find hfl hposix⟩, h.lock⟩

/-- Some requests are no longer blocked, and the others wait for locks of the same owners. -/
structure Released (s s' : State Owner) : Prop where
  blocked : s'.blocked.Sublist s.blocked
  lock : ∀ w ∈ s'.blocked, ∀ fl, s.lockOf w = some fl →
    ∃ fl', s'.lockOf w = some fl' ∧ fl'.owner = fl.owner

omit [DecidableEq Owner] in
lemma Released.waiting (hr : Released s s') (h : Waiting s)
    (hsound : ∀ inode, Sound (s'.files inode) s'.fresh) :
    Waiting s' ∧ ∀ x y, WaitsFor s' x y → WaitsFor s x y := by
  refine ⟨⟨hsound, (hr.blocked.map _).nodup h.once, fun w hw => ?_⟩, ?_⟩
  · obtain ⟨fl, hfl⟩ := h.lock w (hr.blocked.subset hw)
    obtain ⟨fl', hfl', -⟩ := hr.lock w hw fl hfl
    exact ⟨fl', hfl'⟩
  · rintro x y ⟨w, hw, hx, fl', hfl', rfl⟩
    obtain ⟨fl, hfl⟩ := h.lock w (hr.blocked.subset hw)
    obtain ⟨fl1, hfl1, howner⟩ := hr.lock w hw fl hfl
    rw [hfl'] at hfl1
    cases hfl1
    exact ⟨w, hr.blocked.subset hw, hx, fl, hfl, howner.symm⟩

lemma Waiting.released (new₁ new₂ : Bool) (h : Waiting s) (hreq : ValidRange req) :
    Released s (s.applied inode (applyRequest req (s.files inode) s.fresh new₁ new₂)) := by
  have hchanged := applyRequest_changed (h.sound inode) hreq new₁ new₂
  refine ⟨filter_sublist, fun w hw fl hfl => ?_⟩
  obtain ⟨-, hnot⟩ := List.mem_filter.1 hw
  unfold State.lockOf at hfl ⊢
  dsimp only [State.applied]
  by_cases hi : w.inode = inode
  · subst hi
    have hprop := List.find?_some hfl
    simp only [Bool.and_eq_true, decide_eq_true_eq] at hprop
    rcases hchanged.kept fl (mem_of_find?_eq_some hfl) hprop.1 with hwoken | hkept
    · rw [hprop.2] at hwoken
      simp [hwoken] at hnot
    · obtain ⟨fl', hfl', hposix, hid, howner⟩ := hkept
      have hfind := hchanged.sound.find hfl' hposix
      rw [hid, hprop.2] at hfind
      rw [update_self]
      exact ⟨fl', hfind, howner⟩
  · rw [update_of_ne hi]
    exact ⟨fl, hfl, rfl⟩

lemma applyRequest_ne_edeadlk {req : Request Owner} {ls : List (Lock Owner)} {new₁ new₂ : Bool} :
    (applyRequest req ls n new₁ new₂).1 ≠ .edeadlk := by
  unfold applyRequest finish
  dsimp only
  split_ifs <;> nofun

/-- No owner waits for itself, through whatever other owners. -/
def Acyclic (s : State Owner) : Prop := ∀ o, ¬ TransGen (WaitsFor s) o o

omit [DecidableEq Owner] in
lemma Acyclic.mono (h : Acyclic s) (hsub : ∀ x y, WaitsFor s' x y → WaitsFor s x y) : Acyclic s' :=
  fun o hcycle => h o (TransGen.mono hsub o o hcycle)

lemma not_reflTransGen (h : Waiting s) (hconflict : firstConflict req (s.files inode) = some fl)
    (hsleep : req.flSleep = true) {alloc₁ alloc₂ : Bool}
    (hshort : ShortCycle s (.request inode req alloc₁ alloc₂))
    (hdead : ¬ posixLocksDeadlock s req.owner fl = true) :
    ¬ ReflTransGen (WaitsFor s) fl.owner req.owner := by
  intro hwalk
  obtain ⟨k, hk⟩ := h.follow_of_reflTransGen hwalk
  have hle := hshort fl hconflict hsleep k hk
  cases k with
  | zero => exact (firstConflict_mem hconflict).2.2 (Option.some.inj hk).symm
  | succ => exact hdead (deadlockLoop_of_follow hk hle)

lemma step_acyclic {action : Action Owner} (h : Waiting s) (hacyclic : Acyclic s)
    (hvalid : Valid action) (hone : OneWait s action) (hshort : ShortCycle s action)
    (hsound : ∀ inode, Sound (((machine Owner).next s action).files inode)
      ((machine Owner).next s action).fresh) :
    Waiting ((machine Owner).next s action) ∧ Acyclic ((machine Owner).next s action) := by
  have hreleased : ∀ s', Released s s' → (∀ inode, Sound (s'.files inode) s'.fresh) →
      Waiting s' ∧ Acyclic s' := by
    intro s' hr hs'
    obtain ⟨hwaiting, hsub⟩ := hr.waiting h hs'
    exact ⟨hwaiting, hacyclic.mono hsub⟩
  cases action with
  | cancel =>
    exact hreleased _ ⟨filter_sublist, fun w _ fl hfl => ⟨fl, hfl, rfl⟩⟩ hsound
  | others i ls =>
    refine hreleased _ ⟨List.Sublist.refl _, fun w _ fl hfl => ⟨fl, ?_, rfl⟩⟩ hsound
    by_cases hi : w.inode = i
    · subst hi
      have hnone : ls.find? (fun fl => fl.posix && decide (fl.id = w.lock)) = none := by
        rw [List.find?_eq_none]
        intro x hx
        simp [hvalid x hx]
      have hfiles : ((machine Owner).next s (.others w.inode ls)).files w.inode =
          ls ++ (s.files w.inode).filter (·.posix) := update_self ..
      unfold State.lockOf at hfl ⊢
      rw [hfiles, List.find?_append, hnone, Option.none_or, List.find?_filter, ← hfl]
      congr 1
      funext x
      cases x.posix <;> simp
    · have hfiles : ((machine Owner).next s (.others i ls)).files w.inode = s.files w.inode :=
        update_of_ne hi ..
      unfold State.lockOf at hfl ⊢
      rw [hfiles, hfl]
  | request i req alloc₁ alloc₂ =>
    have hspec := posixLockFile_spec s i req alloc₁ alloc₂
    change ∀ inode, Sound ((posixLockFile s i req alloc₁ alloc₂).2.files inode)
      (posixLockFile s i req alloc₁ alloc₂).2.fresh at hsound
    change Waiting (posixLockFile s i req alloc₁ alloc₂).2 ∧
      Acyclic (posixLockFile s i req alloc₁ alloc₂).2
    generalize posixLockFile s i req alloc₁ alloc₂ = p at hspec hsound
    cases hspec with
    | eagain | edeadlk | access => exact ⟨h, hacyclic⟩
    | deferred fl hconflict hsleep hdead =>
      obtain ⟨hfl, hposix, -⟩ := firstConflict_mem hconflict
      refine ⟨h.insertBlock hfl hposix (hone hsleep), acyclic_of_edge hacyclic
        (fun x y => (waitsFor_insertBlock (h.sound i) hfl hposix).1) ?_⟩
      exact not_reflTransGen h hconflict hsleep hshort hdead
    | applied => exact hreleased _ (h.released _ _ hvalid) hsound

/-- If no cycle is closed through more than eleven owners that wait already, then there is never a
cycle, and `-EDEADLK` is returned only for a request that would close one. -/
theorem posix_deadlock_law
    (h : (((machine Owner).restrict OneWait).restrict ShortCycle).Reachable s) :
    Acyclic s ∧ ∀ inode (req : Request Owner) alloc₁ alloc₂,
      (posixLockFile s inode req alloc₁ alloc₂).1 = .edeadlk →
        ∃ fl, firstConflict req (s.files inode) = some fl ∧
          TransGen (WaitsFor (locksInsertBlock s inode fl req.owner)) req.owner req.owner := by
  have hinv : Waiting s ∧ Acyclic s := by
    have hreach := h
    induction h with
    | init =>
      refine ⟨⟨reachable_sound .init, nodup_nil, nofun⟩, fun o hcycle => ?_⟩
      obtain ⟨x, ⟨w, hw, -⟩, -⟩ := TransGen.head'_iff.1 hcycle
      cases hw
    | step hs _ hguard ih =>
      obtain ⟨hwaiting, hacyclic⟩ := ih hs
      exact step_acyclic hwaiting hacyclic hguard.1.1 hguard.1.2 hguard.2
        (reachable_sound hreach.of_restrict.of_restrict)
  refine ⟨hinv.2, fun inode req alloc₁ alloc₂ hret => ?_⟩
  have hspec := posixLockFile_spec s inode req alloc₁ alloc₂
  generalize posixLockFile s inode req alloc₁ alloc₂ = p at hspec hret
  cases hspec with
  | eagain | deferred | access => cases hret
  | edeadlk fl hconflict hdead =>
    refine ⟨fl, hconflict, ?_⟩
    obtain ⟨k, -, hfollow⟩ := follow_of_deadlockLoop hdead
    obtain ⟨hfl, hposix, -⟩ := firstConflict_mem hconflict
    have hedge := fun x y => waitsFor_insertBlock (o := req.owner) (x := x) (y := y)
      (hinv.1.sound inode) hfl hposix
    refine .head ((hedge _ _).2 (.inr ⟨rfl, rfl⟩)) ?_
    exact TransGen.mono (fun x y hxy => (hedge x y).2 (.inl hxy)) _ _ (transGen_of_follow hfollow)
  | applied => exact absurd hret applyRequest_ne_edeadlk

/-- Two owners hold a lock each, and the first one waits for the second. -/
def twoOwners : List (Action ℕ) :=
  [.request 0 ⟨0, .wrlck, 0, 0, false, false, false⟩ true true,
    .request 0 ⟨1, .wrlck, 1, 1, false, false, false⟩ true true,
    .request 0 ⟨0, .wrlck, 1, 1, false, true, false⟩ true true]

/-- The second owner is told that it would close a cycle. -/
theorem posix_deadlock_law_two : let s := (machine ℕ).runFrom (machine ℕ).init twoOwners
    Acyclic s ∧ ∃ fl, firstConflict ⟨1, .wrlck, 0, 0, false, true, false⟩ (s.files 0) = some fl ∧
      TransGen (WaitsFor (locksInsertBlock s 0 fl 1)) 1 1 := by
  intro s
  have hreach : (((machine ℕ).restrict OneWait).restrict ShortCycle).Reachable s := by
    refine reachable_of_admits twoOwners ⟨⟨by decide +kernel, ?_⟩, ⟨by decide +kernel, ?_⟩,
      ⟨by decide +kernel, ?_⟩, trivial⟩
    · exact fun _ _ hsleep => absurd hsleep (by decide)
    · exact fun _ _ hsleep => absurd hsleep (by decide)
    · intro fl hfl _ k hk
      have howner : fl.owner = 1 := by
        have hmap := congrArg (Option.map Lock.owner) hfl
        exact Option.some.inj (hmap.symm.trans (by decide +kernel))
      rw [howner] at hk
      cases k with
      | zero => exact absurd (Option.some.inj hk) (by decide)
      | succ => cases hk
  obtain ⟨hacyclic, hlaw⟩ := posix_deadlock_law hreach
  exact ⟨hacyclic, hlaw 0 ⟨1, .wrlck, 0, 0, false, true, false⟩ true true (by decide +kernel)⟩

/-- Thirteen owners hold one lock each. -/
def holding : List (Action ℕ) :=
  (List.range 13).map fun k => .request 0 ⟨k, .wrlck, k, k, false, false, false⟩ true true

/-- Each of them waits for the lock of the next one, and the last one for the first. -/
def waitingInCircle : List (Action ℕ) :=
  (List.range 13).map fun k =>
    .request 0 ⟨k, .wrlck, (k + 1) % 13, (k + 1) % 13, false, true, false⟩ true true

/-- Thirteen owners wait for each other, and all of their requests have been put to sleep. -/
theorem thirteen_owners_deadlock :
    ∃ s : State ℕ, ((machine ℕ).restrict OneWait).Reachable s ∧ TransGen (WaitsFor s) 0 0 := by
  refine ⟨_, reachable_of_admits (holding ++ waitingInCircle) ?_, transGen_of_follow (n := 12) ?_⟩
  · decide +kernel
  · decide +kernel

end LklPort.PosixLock
