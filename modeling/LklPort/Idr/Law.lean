import LklPort.Idr.Tree

/-!
# What `idr_get_new_above` guarantees

The smallest identifier from the given one on is handed out, as long as there is one below `2 ^ 30`.
The tree never has more than five layers. For a larger identifier `sub_alloc` takes the slot of
its last thirty bits: the pointer is then found under another identifier, and not under the one
that was returned.
-/

namespace LklPort.Idr

open Machine Function

open LklPort.RadixTree (slots_eq_none_of_ne)

variable {α : Type} {i j rounds start : ℕ} {id : Id} {p : Layer (Ptr α)} {s s' : Handle α}
  {a : α}

/-- The map from identifiers to pointers. -/
def Handle.content (s : Handle α) (j : ℕ) : Option α :=
  match s.top with
  | none => none
  | some p => treeGet s.layers p j

/-- The invariant of an `idr`. -/
def Sound (s : Handle α) : Prop :=
  match s.top with
  | none => s.layers = 0
  | some p => Tree s.layers p

lemma Sound.layers_le (h : Sound s) : s.layers ≤ 5 := by
  unfold Sound at h
  split at h
  · omega
  · exact h.le

lemma Sound.tree_of_content (h : Sound s) (hj : (s.content j).isSome) :
    ∃ p, s.top = some p ∧ Tree s.layers p ∧ j < 64 ^ s.layers ∧
      (get (s.layers - 1) p j).isSome := by
  unfold Sound at h
  unfold Handle.content at hj
  cases htop : s.top with
  | none =>
    simp [htop] at hj
  | some p =>
    rw [htop] at h hj
    dsimp only at hj
    by_cases hlt : j < 64 ^ s.layers
    · exact ⟨p, rfl, h, hlt, by rwa [← treeGet_of_lt hlt]⟩
    · simp [treeGet_of_ge (not_lt.1 hlt)] at hj

lemma find_eq (h : Sound s) (hid : id.toNat < 2 ^ 31) : find s id = some (s.content id.toNat) := by
  unfold Sound at h
  unfold find Handle.content
  cases htop : s.top with
  | none => rfl
  | some p =>
    rw [htop] at h
    have hlayers : p.layer + 1 = s.layers := by
      rw [h.wf.layer_eq, Nat.sub_add_cancel h.pos]
    have hbeyond := beyond_iff hid h.le
    dsimp only
    rw [masked_eq hid, hlayers, h.wf.layer_eq]
    by_cases hlt : id.toNat < 64 ^ s.layers
    · rw [if_neg (fun hb => not_le.2 hlt (hbeyond.1 hb)), treeGet_of_lt hlt]
      exact findDown_eq h.wf hid
    · rw [if_pos (hbeyond.2 (not_lt.1 hlt)), treeGet_of_ge (not_lt.1 hlt)]

lemma Sound.isSome_of_find (h : Sound s)
    (hid : id.toNat < 2 ^ 31 ∧ ∃ a, find s id = some (some a)) : (s.content id.toNat).isSome := by
  obtain ⟨hid, a, ha⟩ := hid
  rw [find_eq h hid] at ha
  exact Option.isSome_of_eq_some (Option.some.inj ha)

/-! ### Allocation -/

/-- What is known when `idr_get_new_above` returns. -/
inductive NewOutcome (s : Handle α) (a : α) (start : ℕ) : Ret × Handle α → Prop where
  | ok (id : Id) (s' : Handle α) (hle : start ≤ id.toNat) (hlt : id.toNat < 2 ^ 30)
      (hfree : s.content id.toNat = none)
      (htaken : ∀ j, start ≤ j → j < id.toNat → (s.content j).isSome) (hs' : Sound s')
      (hget : ∀ j, s'.content j = if j = id.toNat then some a else s.content j) :
      NewOutcome s a start (.ok id, s')
  | eagain (s' : Handle α) (hs' : Sound s') (hget : ∀ j, s'.content j = s.content j) :
      NewOutcome s a start (.eagain, s')

lemma NewOutcome.of_grow {s1 : Handle α} {next : ℕ} {r : Ret × Handle α}
    (h : NewOutcome s1 a next r) (hget : ∀ j, s1.content j = s.content j) (hle : start ≤ next)
    (htaken : ∀ j, start ≤ j → j < next → (s.content j).isSome) : NewOutcome s a start r := by
  cases h with
  | ok id s' hle' hlt _ htaken' hs' hget' =>
    refine .ok id s' (hle.trans hle') hlt (by rwa [← hget]) (fun j hj hji => ?_) hs' fun j => ?_
    · rcases lt_or_ge j next with hnext | hnext
      · exact htaken j hj hnext
      · rw [← hget]
        exact htaken' j hnext hji
    · rw [hget', hget]
  | eagain s' hs' hget' => exact .eagain s' hs' fun j => (hget' j).trans (hget j)

lemma startLayer_spec (h : Sound s) : startLayer s = none ∨ ∃ layers p free,
    startLayer s = some (layers, p, free) ∧ Tree layers p ∧ s.layers ≤ layers ∧
      ∀ j, treeGet layers p j = s.content j := by
  unfold Sound at h
  unfold startLayer Handle.content
  cases htop : s.top with
  | some p =>
    rw [htop] at h
    exact .inr ⟨s.layers, p, s.free, rfl, h, le_refl _, fun j => rfl⟩
  | none =>
    rw [htop] at h
    cases hfree : s.free with
    | zero => exact .inl rfl
    | succ free =>
      refine .inr ⟨1, emptyLayer 0, free, rfl, ⟨wf_emptyLayer, le_refl 1, by decide⟩, ?_,
        fun j => treeGet_emptyLayer⟩
      omega

lemma getNewAboveLoop_spec (h : Sound s) (hle : id.toNat ≤ i) (hi : i < 2 ^ 30)
    (hfree : s.content i = none)
    (hr : 5 < rounds ∨ 64 ^ s.layers ≤ id.toNat ∧ 5 < s.layers + rounds) (a : α) :
    ∃ r, getNewAboveLoop a rounds s id = some r ∧ NewOutcome s a id.toNat r := by
  induction rounds generalizing s id with
  | zero =>
    have hlayers := h.layers_le
    omega
  | succ rounds ih =>
    rw [getNewAboveLoop]
    rcases startLayer_spec h with hstart | ⟨layers, p, free, hstart, htree, hlayers, hget⟩
    · rw [hstart]
      exact ⟨_, rfl, .eagain s h fun j => rfl⟩
    rw [hstart]
    dsimp only
    obtain ⟨g, hg, hgrown⟩ := growLoop_spec htree (hle.trans_lt hi)
      (Nat.lt_add_left layers (show 5 < maxLevel by decide))
    rw [hg]
    cases hgrown with
    | noMemory => exact ⟨_, rfl, .eagain _ h fun j => rfl⟩
    | done layers' p' _ _ htree' hlt hget' =>
      have hsame : ∀ j, treeGet layers' p' j = s.content j := fun j => (hget' j).trans (hget j)
      obtain ⟨f, hf, hfound⟩ := subAlloc_spec htree'.wf htree'.pos htree'.le hlt
      dsimp only
      rw [hf]
      cases hfound with
      | noMemory _ _ hwf hget =>
        refine ⟨_, rfl, .eagain _ ⟨hwf, htree'.pos, htree'.le⟩ fun j => ?_⟩
        rw [← hsame]
        exact if_congr Iff.rfl (hget j) rfl
      | slot id' _ _ _ hsearch hclear =>
        obtain ⟨hnone, hnew, hcontent⟩ := install_spec hsearch hclear a
        refine ⟨_, rfl, .ok id' _ hsearch.le hsearch.lt_pow ?_ (fun j hj hlt' => ?_) hnew
          fun j => ?_⟩
        · rwa [← hsame, treeGet_of_lt hsearch.lt]
        · rw [← hsame, treeGet_of_lt (hlt'.trans hsearch.lt)]
          exact hsearch.taken j hj hlt'
        · rw [← hsame]
          exact hcontent j
      | grow id' top free hid hwf hget htaken =>
        have htop : ∀ j, treeGet layers' top j = s.content j := by
          intro j
          rw [← hsame]
          exact if_congr Iff.rfl (hget j) rfl
        have hall : ∀ j, id.toNat ≤ j → j < id'.toNat → (s.content j).isSome := by
          intro j hj hlt'
          rw [← hsame, treeGet_of_lt (hid ▸ hlt')]
          exact htaken j hj hlt'
        have hle' : id'.toNat ≤ i := by
          by_contra hnot
          have hsome := hall i hle (not_le.1 hnot)
          simp [hfree] at hsome
        have hpos := htree'.pos
        have hrounds : 5 < layers' + rounds := by
          rcases hr with hr | ⟨hge, hr⟩
          · omega
          · have hlt' := (Nat.pow_lt_pow_iff_right (show 1 < 64 by decide)).1 (hge.trans_lt hlt)
            omega
        obtain ⟨r, hr', hout⟩ := ih (s := ⟨some top, layers', free⟩)
          (show Tree layers' top from ⟨hwf, hpos, htree'.le⟩) hle' ((htop i).trans hfree)
          (.inr ⟨hid.ge, hrounds⟩)
        exact ⟨r, hr', hout.of_grow htop (hid ▸ hlt.le) hall⟩

/-! ### The other calls -/

lemma Tree.content_change {get' : ℕ → Option α} {x : Option α} (htop : s.top = some p)
    (h : Tree s.layers p) (hi : i < 64 ^ s.layers) (hself : get' i = x)
    (hother : ∀ j, ¬ Same (s.layers - 1) i j → get' j = get (s.layers - 1) p j) (j : ℕ) :
    (if j < 64 ^ s.layers then get' j else none) = if j = i then x else s.content j := by
  rw [Handle.content, htop]
  have hsub := Nat.sub_add_cancel h.pos
  by_cases hji : j = i
  · rw [if_pos hji, hji, if_pos hi, hself]
  · rw [if_neg hji]
    refine if_ctx_congr Iff.rfl (fun hj => hother j fun hsame => hji ?_) fun _ => rfl
    exact hsame.eq (hsub.symm ▸ hi) (hsub.symm ▸ hj)

section

variable (h : Sound s) (hid : id.toNat < 2 ^ 31) (hsome : (s.content id.toNat).isSome)

include h hid hsome

lemma replace_spec (a : α) : ∃ s', replace s a id = some (true, s') ∧ Sound s' ∧
      ∀ j, s'.content j = if j = id.toNat then some a else s.content j := by
  obtain ⟨p, htop, htree, hlt, hget⟩ := h.tree_of_content hsome
  obtain ⟨p', hp', hwf, -, hself, hother⟩ := replaceDown_spec htree.wf hid hget a
  have hlayers : p.layer + 1 = s.layers := by
    rw [htree.wf.layer_eq, Nat.sub_add_cancel htree.pos]
  have hbeyond : ¬ beyond id s.layers = true := by
    rw [beyond_iff hid htree.le]
    omega
  refine ⟨{ s with top := some p' }, ?_, ⟨hwf, htree.pos, htree.le⟩, fun j => ?_⟩
  · unfold replace
    rw [htop]
    dsimp only
    rw [masked_eq hid, hlayers, if_neg hbeyond, htree.wf.layer_eq, hp']
  · exact htree.content_change htop hlt hself hother j

lemma subRemove_spec : ∃ s', subRemove s id = some s' ∧ Sound s' ∧
      ∀ j, s'.content j = if j = id.toNat then none else s.content j := by
  obtain ⟨p, htop, htree, hlt, hget⟩ := h.tree_of_content hsome
  obtain ⟨r, hr, hout⟩ := removeDown_spec htree.wf hid hget
  have hcontent := htree.content_change htop hlt hout.get_self hout.get_of_not
  unfold subRemove
  rw [htop]
  dsimp only
  rw [hr]
  cases r with
  | warning p' => exact absurd rfl (hout.ne_warning p')
  | freed =>
    refine ⟨_, rfl, rfl, fun j => ?_⟩
    rw [← hcontent]
    exact (ite_self none).symm
  | kept p' =>
    exact ⟨_, rfl, ⟨(hout.wf p' rfl).1, htree.pos, htree.le⟩, hcontent⟩

end

lemma shrink_spec (h : Sound s) : ∃ s', shrink s = some s' ∧ Sound s' ∧
    ∀ j, s'.content j = s.content j := by
  unfold shrink
  cases htop : s.top with
  | none => exact ⟨s, rfl, h, fun j => rfl⟩
  | some p =>
    have htree : Tree s.layers p := by rwa [Sound, htop] at h
    dsimp only
    by_cases hone : p.count = 1 ∧ 1 < s.layers
    · rw [if_pos hone]
      obtain ⟨l, hl⟩ : ∃ l, s.layers = l + 2 := ⟨s.layers - 2, by omega⟩
      have hwf : WF (l + 1) p := by
        have hwf := htree.wf
        rwa [hl] at hwf
      rcases hwf.ary_node 0 with ⟨hnone, -⟩ | ⟨c, hc, hcwf, -⟩
      · rw [hnone]
        exact ⟨s, rfl, h, fun j => rfl⟩
      · have hle := htree.le
        rw [hc]
        refine ⟨⟨some c, l + 1, s.free⟩, ?_, ⟨hcwf, Nat.le_add_left 1 l, ?_⟩, fun j => ?_⟩
        · rw [hl]
          rfl
        · rw [hl] at hle
          exact Nat.le_of_succ_le hle
        · rw [Handle.content, Handle.content, htop, hl]
          refine (treeGet_leftmost hc (fun o ho => ?_) j).symm
          exact slots_eq_none_of_ne (hwf.count_eq.symm.trans hone.1) (by rw [hc]; rfl) ho
    · rw [if_neg hone]
      exact ⟨s, rfl, h, fun j => rfl⟩

lemma remove_spec (h : Sound s) (hid : id.toNat < 2 ^ 31)
    (hsome : (s.content id.toNat).isSome) : ∃ s', remove s id = some s' ∧ Sound s' ∧
      ∀ j, s'.content j = if j = id.toNat then none else s.content j := by
  obtain ⟨s1, hs1, hsound, hget⟩ := subRemove_spec h hid hsome
  obtain ⟨s2, hs2, hsound', hget'⟩ := shrink_spec hsound
  refine ⟨{ s2 with free := min s2.free (idrFreeMax - 1) }, ?_, hsound', fun j => ?_⟩
  · rw [remove, masked_eq hid, hs1]
    dsimp only
    rw [hs2]
  · exact (hget' j).trans (hget j)

/-! ### The law -/

/-- The pointers of the allocated identifiers, by what the calls of a run have returned. -/
def note (s : Handle α) (action : Action α) (allocated : ℕ → Option α) : ℕ → Option α :=
  match action with
  | .preGet _ => allocated
  | .getNewAbove a startingId =>
    match getNewAbove s a startingId with
    | some (.ok id, _) => update allocated id.toNat (some a)
    | _ => allocated
  | .replace a id => update allocated id.toNat (some a)
  | .remove id => update allocated id.toNat none

/-- There is an unallocated identifier that a tree of five layers has a slot for. -/
def Room (s : Handle α) : Action α → Prop
  | .getNewAbove _ startingId =>
    ∃ i, startingId.toNat ≤ i ∧ i < 2 ^ 30 ∧ find s (BitVec.ofNat 32 i) = some none
  | _ => True

/-- The result of a call of `idr_get_new_above`, and what `idr_find` returns afterwards. -/
def Allocates (allocated : ℕ → Option α) (a : α) (startingId : Id) (s' : Handle α) : Ret → Prop
  | .ok id =>
    startingId.toNat ≤ id.toNat ∧ id.toNat < 2 ^ 31 ∧ allocated id.toNat = none ∧
      (∀ j, startingId.toNat ≤ j → j < id.toNat → (allocated j).isSome) ∧
      find s' id = some (some a) ∧
      ∀ other : Id, other.toNat < 2 ^ 31 → other ≠ id → find s' other = some (allocated other.toNat)
  | .eagain => ∀ other : Id, other.toNat < 2 ^ 31 → find s' other = some (allocated other.toNat)
  | .enospc => ∀ j, startingId.toNat ≤ j → j < 2 ^ 31 → (allocated j).isSome

variable {allocated : ℕ → Option α} {startingId : Id}

lemma getNewAbove_spec (h : Sound s) (hroom : Room s (.getNewAbove a startingId)) :
    ∃ r, getNewAbove s a startingId = some r ∧ NewOutcome s a startingId.toNat r := by
  obtain ⟨i, hle, hi, hfree⟩ := hroom
  have htoNat : (BitVec.ofNat 32 i).toNat = i := by
    exact Nat.mod_eq_of_lt (by omega)
  rw [find_eq h (by omega), htoNat] at hfree
  exact getNewAboveLoop_spec h hle hi (Option.some.inj hfree) (.inl (by decide)) a

lemma content_eq_update {j' : ℕ} {x : Option α} (hsame : ∀ j, s.content j = allocated j)
    (hget : ∀ j, s'.content j = if j = j' then x else s.content j) (j : ℕ) :
    s'.content j = update allocated j' x j := by
  rw [hget, update_apply, hsame]

lemma step_sound {action : Action α} (h : Sound s) (hsame : ∀ j, s.content j = allocated j)
    (hallowed : Allowed s action) (hroom : Room s action) : Sound ((machine α).next s action) ∧
      ∀ j, ((machine α).next s action).content j = note s action allocated j := by
  cases action with
  | preGet => exact ⟨h, hsame⟩
  | getNewAbove a startingId =>
    obtain ⟨r, hr, hout⟩ := getNewAbove_spec h hroom
    have hnext : (machine α).next s (.getNewAbove a startingId) = r.2 := by
      simp [machine, step, hr]
    rw [hnext]
    unfold note
    dsimp only
    rw [hr]
    cases hout with
    | ok _ _ _ _ _ _ hs' hget => exact ⟨hs', content_eq_update hsame hget⟩
    | eagain _ hs' hget => exact ⟨hs', fun j => (hget j).trans (hsame j)⟩
  | replace a id =>
    obtain ⟨s', hs', hsound, hget⟩ :=
      replace_spec h hallowed.1 (h.isSome_of_find hallowed) a
    have hnext : (machine α).next s (.replace a id) = s' := by simp [machine, step, hs']
    rw [hnext]
    exact ⟨hsound, content_eq_update hsame hget⟩
  | remove id =>
    obtain ⟨s', hs', hsound, hget⟩ := remove_spec h hallowed.1 (h.isSome_of_find hallowed)
    have hnext : (machine α).next s (.remove id) = s' := by simp [machine, step, hs']
    rw [hnext]
    exact ⟨hsound, content_eq_update hsame hget⟩

/-- The runs in which every call that allocates has room, with the allocated identifiers. -/
def recorded (α : Type) : Machine (Handle α × (ℕ → Option α)) (Action α) :=
  ((machine α).restrict Room).record (fun _ => none) note

lemma recorded_sound (h : (recorded α).Reachable (s, allocated)) :
    Sound s ∧ ∀ j, s.content j = allocated j := by
  have hinv : ∀ r, (recorded α).Reachable r → Sound r.1 ∧ ∀ j, r.1.content j = r.2 j := by
    intro r hr
    induction hr with
    | init => exact ⟨show Sound (init α) from rfl, fun j => rfl⟩
    | step _ _ hguard ih => exact step_sound ih.1 ih.2 hguard.1 hguard.2
  exact hinv _ h

/-- In every run in which each call finds an unallocated identifier from `starting_id` on that is
below `2 ^ 30`, identifiers are handed out and found as documented. -/
theorem idr_allocation_law (h : (recorded α).Reachable (s, allocated)) :
    (∀ id : Id, id.toNat < 2 ^ 31 → find s id = some (allocated id.toNat)) ∧
      ∀ (a : α) (startingId : Id), startingId.toNat < 2 ^ 31 → Room s (.getNewAbove a startingId) →
        ∃ r s', getNewAbove s a startingId = some (r, s') ∧
          Allocates allocated a startingId s' r := by
  obtain ⟨hsound, hsame⟩ := recorded_sound h
  refine ⟨fun id hid => ?_, fun a startingId _ hroom => ?_⟩
  · rw [find_eq hsound hid, hsame]
  · obtain ⟨⟨r, s'⟩, hr, hout⟩ := getNewAbove_spec hsound hroom
    refine ⟨r, s', hr, ?_⟩
    cases hout with
    | ok id _ hle _ hfree htaken hs' hget =>
      have hlt : id.toNat < 2 ^ 31 := by omega
      refine ⟨hle, hlt, ?_, fun j hj hji => ?_, ?_, fun other hother hne => ?_⟩
      · rw [← hsame, hfree]
      · rw [← hsame]
        exact htaken j hj hji
      · rw [find_eq hs' hlt, hget, if_pos rfl]
      · have hne' : other.toNat ≠ id.toNat := fun he => hne (BitVec.eq_of_toNat_eq he)
        rw [find_eq hs' hother, hget, if_neg hne', hsame]
    | eagain _ hs' hget =>
      intro other hother
      rw [find_eq hs' hother, hget, hsame]

/-- The second call from 5 on, after one that has returned 5. -/
theorem idr_allocation_law_second :
    let r := (recorded Unit).runFrom (recorded Unit).init [.preGet 12, .getNewAbove () 5#32]
    ∃ ret s', getNewAbove r.1 () 5#32 = some (ret, s') ∧ Allocates r.2 () 5#32 s' ret := by
  intro r
  have hfirst : Room (preGet (init Unit) 12) (.getNewAbove () 5#32) :=
    ⟨5, by decide, by decide, by decide +kernel⟩
  have hreach : (recorded Unit).Reachable r := by
    refine reachable_of_admits _ ⟨⟨trivial, trivial⟩, ⟨?_, hfirst⟩, trivial⟩
    exact show (5#32).toNat < 2 ^ 31 by decide
  refine (idr_allocation_law hreach).2 () 5#32 (by decide) ⟨6, by decide, by decide, ?_⟩
  decide +kernel

/-- From `2 ^ 30` on `2 ^ 30` is returned, but the pointer is found under 0. -/
theorem getNewAbove_loses_large_id : ∃ s s' : Handle Unit, (machine Unit).Reachable s ∧
      (machine Unit).guard s (.getNewAbove () 0x40000000#32) ∧
      getNewAbove s () 0x40000000#32 = some (.ok 0x40000000#32, s') ∧
      find s' 0x40000000#32 = some none ∧ find s 0#32 = some none ∧
      find s' 0#32 = some (some ()) := by
  have hcall : (getNewAbove (preGet (init Unit) 12) () 0x40000000#32).map
      (fun r => (r.1, find r.2 0x40000000#32, find r.2 0#32)) =
      some (.ok 0x40000000#32, some none, some (some ())) := by decide +kernel
  obtain ⟨⟨r, s'⟩, hr, hres⟩ := Option.map_eq_some_iff.1 hcall
  simp only [Prod.mk.injEq] at hres
  obtain ⟨rfl, hlost, hother⟩ := hres
  have hreach : (machine Unit).Reachable (preGet (init Unit) 12) :=
    reachable_of_admits [Action.preGet 12] ⟨trivial, trivial⟩
  refine ⟨_, s', hreach, ?_, hr, hlost, rfl, hother⟩
  exact show (0x40000000#32).toNat < 2 ^ 31 by decide

end LklPort.Idr
