import LklPort.Idr.Search

/-!
# The tree of an `idr`

The map from identifiers to pointers that an `idr` stands for, and what the functions do to it:
growing and shrinking leave it alone, a pointer is installed, replaced or taken out for one
identifier. `idr_find` reads it.
-/

namespace LklPort.Idr

open LklPort.RadixTree (slots_eq_none_of_ne)

variable {α : Type} {i j l layers start rounds free built : ℕ} {id : Id} {p p' : Layer (Ptr α)}
  {pa : List (Frame α)} {M : ℕ → Option α}

/-- A well-formed tree with some layers. Five layers are all that it ever grows to. -/
structure Tree (layers : ℕ) (p : Layer (Ptr α)) : Prop where
  wf : WF (layers - 1) p
  pos : 1 ≤ layers
  le : layers ≤ 5

/-- The pointer for an identifier. A tree has no slots for identifiers beyond its layers. -/
def treeGet (layers : ℕ) (p : Layer (Ptr α)) (j : ℕ) : Option α :=
  if j < 64 ^ layers then get (layers - 1) p j else none

lemma treeGet_of_lt (h : j < 64 ^ layers) : treeGet layers p j = get (layers - 1) p j := if_pos h

lemma treeGet_of_ge (h : 64 ^ layers ≤ j) : treeGet layers p j = none := if_neg (not_lt.2 h)

lemma digit_top (h : j < 64 ^ (l + 1)) : digit j l = 0 ↔ j < 64 ^ l := by
  have hlead := lead_eq j l
  rw [lead_eq_zero h, zero_mul, zero_add] at hlead
  rw [Fin.ext_iff, ← hlead]
  exact ⟨lt_of_lead_eq_zero, lead_eq_zero⟩

/-! ### Growing -/

lemma treeGet_emptyLayer : treeGet layers (emptyLayer l : Layer (Ptr α)) j = none := by
  unfold treeGet
  rw [get_emptyLayer, ite_self]

lemma Tree.above (h : Tree layers p) (hlt : layers < 5) :
    Tree (layers + 1) (layerAbove p layers) := by
  refine ⟨?_, Nat.le_add_left 1 layers, hlt⟩
  obtain ⟨l, rfl⟩ : ∃ l, layers = l + 1 := ⟨layers - 1, (Nat.sub_add_cancel h.pos).symm⟩
  exact (wf_emptyLayer.put_add rfl (.node p) p.full).wf wf_emptyLayer ⟨_, rfl, h.wf, rfl⟩

lemma treeGet_leftmost {c : Layer (Ptr α)} (hc : p.ary 0 = some (.node c))
    (hrest : ∀ o, o ≠ 0 → p.ary o = none) (j : ℕ) : treeGet (l + 2) p j = treeGet (l + 1) c j := by
  have hle : 64 ^ (l + 1) ≤ 64 ^ (l + 2) := Nat.pow_le_pow_right (by decide) (Nat.le_succ _)
  by_cases hj : j < 64 ^ (l + 2)
  · have htop := digit_top hj
    rw [treeGet_of_lt hj, Nat.add_succ_sub_one, get]
    by_cases hj' : j < 64 ^ (l + 1)
    · rw [treeGet_of_lt hj', htop.2 hj', hc, Nat.add_sub_cancel]
    · rw [treeGet_of_ge (not_lt.1 hj'), hrest _ (mt htop.1 hj')]
  · rw [treeGet_of_ge (not_lt.1 hj), treeGet_of_ge (by omega)]

lemma treeGet_above (h : Tree layers p) (j : ℕ) :
    treeGet (layers + 1) (layerAbove p layers) j = treeGet layers p j := by
  obtain ⟨l, rfl⟩ : ∃ l, layers = l + 1 := ⟨layers - 1, (Nat.sub_add_cancel h.pos).symm⟩
  exact treeGet_leftmost (by simp [layerAbove]) (fun o ho => by simp [layerAbove, ho]) j

lemma Tree.moved (h : Tree layers p) (hcount : p.count = 0) :
    { p with layer := p.layer + 1 } = emptyLayer layers ∧ ∀ j, treeGet layers p j = none := by
  rw [h.wf.of_count_eq_zero hcount]
  refine ⟨?_, fun j => treeGet_emptyLayer⟩
  unfold emptyLayer
  rw [Nat.sub_add_cancel h.pos]

/-- What is known when the loop that adds layers ends. -/
inductive GrowOutcome (layers : ℕ) (p : Layer (Ptr α)) (id : Id) : Grown α → Prop where
  | done (layers' : ℕ) (p' : Layer (Ptr α)) (free : ℕ) (hle : layers ≤ layers')
      (htree : Tree layers' p') (hlt : id.toNat < 64 ^ layers')
      (hget : ∀ j, treeGet layers' p' j = treeGet layers p j) :
      GrowOutcome layers p id (.done layers' p' free)
  | noMemory (free : ℕ) : GrowOutcome layers p id (.noMemory free)

lemma GrowOutcome.of_succ {r : Grown α} (h : GrowOutcome (layers + 1) p' id r)
    (hget : ∀ j, treeGet (layers + 1) p' j = treeGet layers p j) : GrowOutcome layers p id r := by
  cases h with
  | done layers' p' free hle htree hlt hget' =>
    exact .done layers' p' free (Nat.le_of_succ_le hle) htree hlt fun j => (hget' j).trans (hget j)
  | noMemory free => exact .noMemory free

lemma growLoop_spec (h : Tree layers p) (hid : id.toNat < 2 ^ 30) (hr : 5 < layers + rounds) :
    ∃ r, growLoop id rounds layers p free built = some r ∧ GrowOutcome layers p id r := by
  induction rounds generalizing layers p free built with
  | zero =>
    have hle := h.le
    omega
  | succ _ ih =>
    have hbeyond := beyond_iff (show id.toNat < 2 ^ 31 by omega) h.le
    rw [growLoop.eq_def]
    dsimp only
    by_cases hgrow : layers < maxLevel - 1 ∧ beyond id layers = true
    · have hlt : layers < 5 := hgrow.1
      rw [if_pos hgrow]
      by_cases hcount : p.count = 0
      · obtain ⟨hp, hget⟩ := h.moved hcount
        have htree : Tree (layers + 1) (emptyLayer layers : Layer (Ptr α)) :=
          ⟨wf_emptyLayer, Nat.le_add_left 1 layers, hlt⟩
        rw [if_pos hcount, hp]
        obtain ⟨r, hr', hout⟩ := ih htree (by omega)
        exact ⟨r, hr', hout.of_succ fun j => treeGet_emptyLayer.trans (hget j).symm⟩
      · rw [if_neg hcount]
        cases free with
        | zero => exact ⟨_, rfl, .noMemory built⟩
        | succ =>
          obtain ⟨r, hr', hout⟩ := ih (h.above hlt) (by omega)
          exact ⟨r, hr', hout.of_succ (treeGet_above h)⟩
    · rw [if_neg hgrow]
      refine ⟨_, rfl, .done _ _ _ (le_refl _) h ?_ fun j => rfl⟩
      by_contra hge
      have hge' : layers = 5 := by
        refine le_antisymm h.le (not_lt.1 fun hlt => hgrow ⟨hlt, ?_⟩)
        exact hbeyond.2 (not_lt.1 hge)
      rw [hge'] at hge
      exact hge hid

/-! ### Installing a pointer -/

lemma get_setBit (o : Slot) (b : Bool) : get l (p.setBit o b) j = get l p j := by
  cases l <;> rfl

/-- The bits of the layers above are set as far as the layers have become full. `q` is what was
below the frames before. -/
lemma markFull_spec {q : Layer (Ptr α)} (hid : id.toNat < 2 ^ 31)
    (hq : WF (l + pa.length) (plug q pa)) (hspace : pa ≠ [] → q.full = false)
    (halong : Along id.toNat l pa) (hp : WF l (p.setBit (digit id.toNat l) true)) :
    WF (l + pa.length) (markFull id l p pa) ∧
      ∀ j, get (l + pa.length) (markFull id l p pa) j = get (l + pa.length) (plug p pa) j := by
  induction pa generalizing l p q with
  | nil =>
    rw [markFull, slot_eq hid]
    exact ⟨hp, fun j => get_setBit _ _⟩
  | cons f pa ih =>
    have hlen := add_length_cons l f pa
    have hfill := wf_fill_of_plug hq
    have hclear : (f.fill q).bitmap f.slot = false := by
      rw [(hfill.child fill_ary).2]
      exact hspace (List.cons_ne_nil f pa)
    have hset : ∀ j, get (l + 1 + pa.length) (plug (p.setBit (digit id.toNat l) true) (f :: pa)) j =
        get (l + 1 + pa.length) (plug p (f :: pa)) j := by
      intro j
      rw [← hlen]
      exact get_plug_congr (fun j => get_setBit _ _) j
    rw [markFull, slot_eq hid]
    by_cases hfull : (p.setBit (digit id.toNat l) true).full = true
    · have hput := fill_put hfill (p.setBit (digit id.toNat l) true) true
      have hnew := hput.wf hfill ⟨_, rfl, hp, hfull.symm⟩
      rw [halong.1] at hnew
      rw [hlen] at hq
      obtain ⟨hwf, hget⟩ := ih (p := f.fill (p.setBit (digit id.toNat l) true)) hq
        (fun _ => full_eq_false hclear) halong.2 (by rwa [Frame.fill, halong.1])
      rw [if_pos hfull, hlen]
      exact ⟨hwf, fun j => (hget j).trans (hset j)⟩
    · rw [if_neg hfull]
      refine ⟨wf_plug hq hp ?_, fun j => ?_⟩
      · rw [Bool.eq_false_iff.2 hfull, hspace (List.cons_ne_nil f pa)]
      · rw [hlen]
        exact hset j

lemma get_plug_of_ne {leaf leaf' : Layer (Ptr α)} {x : Option (Ptr α)} (halong : Along i 0 pa)
    (hi : i < 64 ^ (0 + 1 + pa.length)) (hj : j < 64 ^ (0 + 1 + pa.length)) (hne : j ≠ i)
    (hary : leaf'.ary = Function.update leaf.ary (digit i 0) x) :
    get (0 + pa.length) (plug leaf' pa) j = get (0 + pa.length) (plug leaf pa) j := by
  by_cases hj' : Along j 0 pa
  · have hlead := halong.lead_eq hj' hi hj
    have hdigit : digit j 0 ≠ digit i 0 := by
      intro he
      apply hne
      rw [← lead_zero i, ← lead_zero j, lead_eq i 0, lead_eq j 0, hlead, he]
    rw [get_plug hj', get_plug hj', get, get, hary, Function.update_of_ne hdigit]
  · exact get_plug_of_not hj'

lemma install_spec {leaf : Layer (Ptr α)} (h : Searching layers start M id 0 leaf pa)
    (hclear : leaf.bitmap (digit id.toNat 0) = false) (a : α) :
    M id.toNat = none ∧ Tree layers (install a id leaf pa) ∧
      ∀ j, treeGet layers (install a id leaf pa) j =
        if j = id.toNat then some a else if j < 64 ^ layers then M j else none := by
  have hid : id.toNat < 2 ^ 31 := by
    have hlt := h.lt_pow
    omega
  have hlayers := h.layers_eq
  have hleaf := wf_of_plug h.wf
  have hempty : leaf.ary (digit id.toNat 0) = none := by
    rcases hleaf.ary_leaf (digit id.toNat 0) with ⟨hnone, -⟩ | ⟨b, -, hbit⟩
    · exact hnone
    · simp [hclear] at hbit
  have hput := hleaf.put_add hempty (.item a) true
  obtain ⟨hwf, hget⟩ := markFull_spec (p := { leaf.setAry (digit id.toNat 0) (some (.item a)) with
    count := leaf.count + 1 }) hid h.wf h.space h.along (hput.wf hleaf ⟨rfl, rfl⟩)
  have hinstall : install a id leaf pa = markFull id 0
      { leaf.setAry (digit id.toNat 0) (some (.item a)) with count := leaf.count + 1 } pa := by
    rw [install, slot_eq hid]
  rw [hinstall]
  have hlen : layers - 1 = 0 + pa.length := by omega
  have hlen' : layers = 0 + 1 + pa.length := by omega
  refine ⟨?_, ⟨?_, by omega, h.layers_le⟩, fun j => ?_⟩
  · rw [← h.get_eq, get_plug h.along]
    exact hleaf.get_leaf_eq_none hclear
  · rw [hlen]
    exact hwf
  · by_cases hj : j < 64 ^ layers
    · rw [treeGet_of_lt hj, hlen, if_pos hj]
      apply (hget j).trans
      by_cases hne : j = id.toNat
      · subst hne
        rw [if_pos rfl, get_plug h.along]
        exact hput.get_item rfl
      · rw [if_neg hne, ← h.get_eq]
        exact get_plug_of_ne h.along (hlen' ▸ h.lt) (hlen' ▸ hj) hne rfl
    · have hne : j ≠ id.toNat := fun he => hj (he ▸ h.lt)
      rw [treeGet_of_ge (not_lt.1 hj), if_neg hne, if_neg hj]

/-! ### Reading and replacing -/

lemma findDown_eq (h : WF l p) (hid : id.toNat < 2 ^ 31) :
    findDown id l p = some (get l p id.toNat) := by
  induction l generalizing p with
  | zero =>
    rw [findDown.eq_def]
    dsimp only
    rw [if_neg (not_not.2 h.layer_eq), slot_eq hid]
    rcases h.ary_leaf (digit id.toNat 0) with ⟨hslot, -⟩ | ⟨b, hslot, -⟩
    · simp [get, hslot]
    · simp [get, hslot]
  | succ l ih =>
    rw [findDown.eq_def]
    dsimp only
    rw [if_neg (not_not.2 h.layer_eq), slot_eq hid]
    rcases h.ary_node (digit id.toNat (l + 1)) with ⟨hslot, -⟩ | ⟨c, hslot, hc, -⟩
    · simp [get, hslot]
    · simp [get, hslot, ih hc]

/-- Identifiers that agree in the digits of a layer and of all layers below it. -/
def Same (l i j : ℕ) : Prop := ∀ m ≤ l, digit j m = digit i m

lemma same_succ : Same (l + 1) i j ↔ digit j (l + 1) = digit i (l + 1) ∧ Same l i j := by
  constructor
  · exact fun h => ⟨h (l + 1) (le_refl _), fun m hm => h m (by omega)⟩
  · rintro ⟨htop, hrest⟩ m hm
    rcases lt_or_ge l m with hlt | hge
    · obtain rfl : m = l + 1 := by omega
      exact htop
    · exact hrest m hge

lemma same_zero : Same 0 i j ↔ digit j 0 = digit i 0 := by
  constructor
  · exact fun h => h 0 (le_refl 0)
  · intro h m hm
    rwa [Nat.le_zero.1 hm]

lemma Same.eq (h : Same l i j) (hi : i < 64 ^ (l + 1)) (hj : j < 64 ^ (l + 1)) : j = i := by
  have hlead : ∀ m ≤ l + 1, lead j (l + 1 - m) = lead i (l + 1 - m) := by
    intro m
    induction m with
    | zero => exact fun _ => by rw [Nat.sub_zero, lead_eq_zero hi, lead_eq_zero hj]
    | succ m ih =>
      intro hm
      have hsucc : l + 1 - (m + 1) + 1 = l + 1 - m := by omega
      rw [lead_eq i, lead_eq j, hsucc, ih (by omega), h _ (by omega)]
  simpa using hlead (l + 1) (le_refl _)

/-- Another layer in the slot of an identifier, with the same pointers for all others. -/
lemma Put.get_of_not_same {c c' : Layer (Ptr α)} {bit : Bool}
    (hput : Put p (digit i (l + 1)) (some (.node c')) bit p')
    (hslot : p.ary (digit i (l + 1)) = some (.node c))
    (hother : ∀ j, ¬ Same l i j → get l c' j = get l c j) (hj : ¬ Same (l + 1) i j) :
    get (l + 1) p' j = get (l + 1) p j := by
  by_cases hdigit : digit j (l + 1) = digit i (l + 1)
  · rw [hput.get_node hdigit, hother j fun hs => hj (same_succ.2 ⟨hdigit, hs⟩), get, hdigit, hslot]
  · exact hput.get_of_ne hdigit

lemma replaceDown_spec (h : WF l p) (hid : id.toNat < 2 ^ 31) (hsome : (get l p id.toNat).isSome)
    (a : α) : ∃ p', replaceDown id a l p = some (true, p') ∧ WF l p' ∧ p'.full = p.full ∧
      (get l p' id.toNat = some a) ∧ ∀ j, ¬ Same l id.toNat j → get l p' j = get l p j := by
  induction l generalizing p with
  | zero =>
    rcases h.ary_leaf (digit id.toNat 0) with ⟨hslot, -⟩ | ⟨b, hslot, hbit⟩
    · simp [get, hslot] at hsome
    · have hput := h.put_replace hslot (.item a) true
      rw [setBit_self _ hbit] at hput
      refine ⟨_, ?_, hput.wf h ⟨rfl, rfl⟩, rfl, hput.get_item rfl, fun j hj => ?_⟩
      · rw [replaceDown, slot_eq hid, if_pos hbit]
      · exact hput.get_of_ne fun he => hj (same_zero.2 he)
  | succ l ih =>
    rcases h.ary_node (digit id.toNat (l + 1)) with ⟨hslot, -⟩ | ⟨c, hslot, hc, hbit⟩
    · simp [get, hslot] at hsome
    · rw [get, hslot] at hsome
      obtain ⟨c', hc', hwf, hfull, hget, hother⟩ := ih hc hsome
      have hput := h.put_replace hslot (.node c') c.full
      rw [setBit_self _ hbit] at hput
      refine ⟨_, ?_, hput.wf h ⟨_, rfl, hwf, hfull.symm⟩, rfl, (hput.get_node rfl).trans hget,
        fun j => hput.get_of_not_same hslot hother⟩
      rw [replaceDown, slot_eq hid, hslot]
      dsimp only
      rw [hc']

/-! ### Removing -/

/-- What is left of a layer for an identifier. -/
def Removed.get (l : ℕ) : Removed α → ℕ → Option α
  | .freed, _ => none
  | .kept p, j | .warning p, j => Idr.get l p j

/-- An identifier has been removed from the layer `p`. -/
structure RemoveOutcome (l : ℕ) (p : Layer (Ptr α)) (i : ℕ) (r : Removed α) : Prop where
  wf : ∀ p', r = .kept p' → WF l p' ∧ p'.full = false
  ne_warning : ∀ p', r ≠ .warning p'
  get_self : r.get l i = none
  get_of_not : ∀ j, ¬ Same l i j → r.get l j = Idr.get l p j

lemma dropSlot_spec {o : Slot} {x : Ptr α} (h : WF l p) (ho : p.ary o = some x) :
    (∀ p', dropSlot (p.setBit o false) o = .kept p' → WF l p' ∧ p'.full = false) ∧
      (∀ p', dropSlot (p.setBit o false) o ≠ .warning p') ∧
      (∀ j, digit j l = o → (dropSlot (p.setBit o false) o).get l j = none) ∧
      ∀ j, digit j l ≠ o → (dropSlot (p.setBit o false) o).get l j = Idr.get l p j := by
  have hput := h.put_remove ho
  have hwf := hput.wf h (show SlotWF (below l) false none from rfl)
  have hdrop : dropSlot (p.setBit o false) o =
      if p.count - 1 = 0 then .freed
      else .kept { (p.setBit o false).setAry o none with count := p.count - 1 } := rfl
  rw [hdrop]
  by_cases hcount : p.count - 1 = 0
  · rw [if_pos hcount]
    have hempty := hwf.of_count_eq_zero hcount
    refine ⟨nofun, nofun, fun j _ => rfl, fun j hj => ?_⟩
    rw [← hput.get_of_ne hj, hempty, get_emptyLayer]
    rfl
  · rw [if_neg hcount]
    refine ⟨fun p' hp' => ?_, nofun, fun j => hput.get_none,
      fun j => hput.get_of_ne⟩
    cases hp'
    exact ⟨hwf, full_eq_false (Function.update_self ..)⟩

lemma removeDown_spec (h : WF l p) (hid : id.toNat < 2 ^ 31) (hsome : (get l p id.toNat).isSome) :
    ∃ r, removeDown id l p = some r ∧ RemoveOutcome l p id.toNat r := by
  induction l generalizing p with
  | zero =>
    rcases h.ary_leaf (digit id.toNat 0) with ⟨hslot, -⟩ | ⟨b, hslot, hbit⟩
    · simp [get, hslot] at hsome
    · obtain ⟨hwf, hne, hself, hother⟩ := dropSlot_spec h hslot
      refine ⟨_, ?_, hwf, hne, hself _ rfl, fun j hj => hother j fun he => hj (same_zero.2 he)⟩
      rw [removeDown, slot_eq hid, if_pos hbit]
  | succ l ih =>
    rcases h.ary_node (digit id.toNat (l + 1)) with ⟨hslot, -⟩ | ⟨c, hslot, hc, hbit⟩
    · simp [get, hslot] at hsome
    · rw [get, hslot] at hsome
      obtain ⟨r, hr, hout⟩ := ih hc hsome
      have hnode : (p.setBit (digit id.toNat (l + 1)) false).ary (digit id.toNat (l + 1)) =
          some (.node c) := hslot
      rw [removeDown, slot_eq hid, hnode]
      dsimp only
      rw [hr]
      cases r with
      | warning c' => exact absurd rfl (hout.ne_warning c')
      | freed =>
        obtain ⟨hwf, hne, hself, hother⟩ := dropSlot_spec h hslot
        refine ⟨_, rfl, hwf, hne, hself _ rfl, fun j hj => ?_⟩
        by_cases hdigit : digit j (l + 1) = digit id.toNat (l + 1)
        · have hnone := hout.get_of_not j fun hs => hj (same_succ.2 ⟨hdigit, hs⟩)
          rw [hself j hdigit, get, hdigit, hslot]
          exact hnone
        · exact hother j hdigit
      | kept c' =>
        obtain ⟨hwf, hfull⟩ := hout.wf c' rfl
        have hput := h.put_replace hslot (.node c') false
        refine ⟨_, rfl, fun p' hp' => ?_, by simp, (hput.get_node rfl).trans hout.get_self,
          fun j => hput.get_of_not_same hslot hout.get_of_not⟩
        cases hp'
        exact ⟨hput.wf h ⟨_, rfl, hwf, hfull.symm⟩, full_eq_false (Function.update_self ..)⟩

end LklPort.Idr
