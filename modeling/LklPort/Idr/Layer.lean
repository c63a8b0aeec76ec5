import Mathlib.Data.Nat.Bitwise
import LklPort.Idr.Basic
import LklPort.RadixTree.Node

/-!
# The layers of an `idr`

The groups of bits of an identifier are the digits of a number to the base 64. `WF` is the
invariant of a layer with what is below it, and `get` is what it holds for an identifier. The
search keeps the layers above the present one as frames, and `plug` puts them together.
-/

namespace LklPort.Idr

open List Function BitVec

open LklPort.RadixTree (used mem_used card_used_add card_used_replace card_used_remove
  slots_eq_none slots_eq_none_of_ne)

/-! ### Digits -/

/-- The number without its last `l` digits. -/
def lead (i l : ℕ) : ℕ := i / 64 ^ l

/-- The digit that belongs to a layer at distance `l` from the leaves. -/
def digit (i l : ℕ) : Slot := ⟨lead i l % 64, Nat.mod_lt _ (by decide)⟩

variable {i j l k : ℕ}

@[simp] lemma lead_zero (i : ℕ) : lead i 0 = i := by simp [lead]

lemma lead_succ (i l : ℕ) : lead i (l + 1) = lead i l / 64 := by
  rw [lead, lead, Nat.div_div_eq_div_mul, pow_succ]

lemma lead_eq (i l : ℕ) : lead i l = lead i (l + 1) * 64 + digit i l := by
  rw [lead_succ]
  exact (Nat.div_add_mod' _ _).symm

lemma lead_eq_zero (h : i < 64 ^ l) : lead i l = 0 := Nat.div_eq_of_lt h

lemma lt_of_lead_eq_zero (h : lead i l = 0) : i < 64 ^ l :=
  Nat.lt_of_div_eq_zero (Nat.pow_pos (by decide)) h

lemma lead_le (h : i ≤ j) (l : ℕ) : lead i l ≤ lead j l := Nat.div_le_div_right h

lemma lead_lt {n : ℕ} (h : j < n * 64 ^ l) : lead j l < n :=
  Nat.div_lt_of_lt_mul (by rwa [mul_comm])

lemma lead_eq_of_lt_bump (hij : i ≤ j) (hj : j < (lead i l + 1) * 64 ^ l) : lead j l = lead i l :=
  le_antisymm (Nat.lt_succ_iff.1 (lead_lt hj)) (lead_le hij l)

/-! ### Identifiers as numbers -/

variable {id : Id}

lemma idrBits_mul (l : ℕ) : 2 ^ (idrBits * l) = 64 ^ l := by
  rw [pow_mul]
  rfl

lemma toNat_sshiftRight (h : id.toNat < 2 ^ 31) (l : ℕ) :
    (id.sshiftRight (idrBits * l)).toNat = lead id.toNat l := by
  have hmsb : id.msb = false := by
    rw [msb_eq_decide]
    simpa using h
  rw [sshiftRight_eq_of_msb_false hmsb, toNat_ushiftRight,
    Nat.shiftRight_eq_div_pow, idrBits_mul, lead]

lemma slot_eq (h : id.toNat < 2 ^ 31) (l : ℕ) : slot id l = digit id.toNat l := by
  unfold slot digit
  simp only [toNat_sshiftRight h]

lemma pow_le (hl : l ≤ 5) : 64 ^ l ≤ 2 ^ 30 := by
  calc 64 ^ l ≤ 64 ^ 5 := Nat.pow_le_pow_right (by decide) hl
    _ = 2 ^ 30 := by decide

lemma toNat_one_shiftLeft (hl : l ≤ 5) : (1#32 <<< (idrBits * l)).toNat = 64 ^ l := by
  have hle := pow_le hl
  rw [toNat_shiftLeft, Nat.shiftLeft_eq, idrBits_mul]
  exact (Nat.mod_eq_of_lt (by simp; omega)).trans (by simp)

lemma or_two_pow_sub_one (i k : ℕ) : i ||| (2 ^ k - 1) = 2 ^ k * (i / 2 ^ k) + (2 ^ k - 1) := by
  have hpos := Nat.two_pow_pos k
  apply Nat.eq_of_testBit_eq
  intro j
  rw [Nat.testBit_or, Nat.testBit_two_pow_mul_add _ (by omega), Nat.testBit_two_pow_sub_one]
  by_cases hj : j < k
  · simp [hj]
  · simp only [hj, decide_false, Bool.or_false, if_false, Nat.testBit_div_two_pow]
    congr 1
    omega

lemma toNat_bump (h : id.toNat < 2 ^ 30) (hl : l ≤ 5) :
    (bump id l).toNat = (lead id.toNat l + 1) * 64 ^ l := by
  have hpos : 0 < 64 ^ l := Nat.pow_pos (by decide)
  have hone : (1 : BitVec 32) ≤ 1#32 <<< (idrBits * l) := by
    rw [le_def, toNat_one_shiftLeft hl]
    exact hpos
  have hmask : (1#32 <<< (idrBits * l) - 1).toNat = 2 ^ (idrBits * l) - 1 := by
    rw [toNat_sub_of_le hone, toNat_one_shiftLeft hl, idrBits_mul]
    rfl
  have hdvd : 2 ^ 30 = 64 ^ (5 - l) * 64 ^ l := by
    rw [← Nat.pow_add, Nat.sub_add_cancel hl]
    decide
  have hlead : lead id.toNat l < 64 ^ (5 - l) := lead_lt (by rwa [← hdvd])
  have hle : (lead id.toNat l + 1) * 64 ^ l ≤ 2 ^ 30 := by
    rw [hdvd]
    exact Nat.mul_le_mul_right _ hlead
  have hsum : 2 ^ (idrBits * l) * (id.toNat / 2 ^ (idrBits * l)) + (2 ^ (idrBits * l) - 1) + 1 =
      (lead id.toNat l + 1) * 64 ^ l := by
    rw [idrBits_mul, lead, add_assoc, Nat.sub_add_cancel hpos]
    ring
  rw [bump, toNat_add, toNat_or, hmask, or_two_pow_sub_one]
  have hone' : BitVec.toNat (1 : BitVec 32) = 1 := rfl
  rw [hone', hsum]
  exact Nat.mod_eq_of_lt (by omega)

lemma xor_mod_xor (a : ℕ) {m : ℕ} (hm : m < 64) : a ^^^ a % 64 ^^^ m = a / 64 * 64 + m := by
  apply Nat.eq_of_testBit_eq
  intro k
  have h64 : 64 = 2 ^ 6 := rfl
  rw [h64, mul_comm, Nat.testBit_two_pow_mul_add _ hm, Nat.testBit_xor, Nat.testBit_xor,
    Nat.testBit_mod_two_pow]
  by_cases hk : k < 6
  · simp [hk]
  · have hmk : m.testBit k = false := by
      refine Nat.testBit_lt_two_pow (lt_of_lt_of_le hm ?_)
      exact Nat.pow_le_pow_right (show 0 < 2 by decide) (not_lt.1 hk)
    simp only [hk, hmk, decide_false, Bool.false_and, Bool.xor_false, if_false,
      Nat.testBit_div_two_pow]
    congr 1
    omega

/-- The identifier for the slot `m` that the search goes on with. -/
def nextAt (i l : ℕ) (m : Slot) : ℕ :=
  if m = digit i l then i else (lead i (l + 1) * 64 + m) * 64 ^ l

lemma nextAt_lt {m : Slot} (h : i < 64 ^ (l + 1 + k)) : nextAt i l m < 64 ^ (l + 1 + k) := by
  unfold nextAt
  split_ifs
  · exact h
  · have hlead : lead i (l + 1) < 64 ^ k := lead_lt (by rwa [← Nat.pow_add, add_comm k])
    calc (lead i (l + 1) * 64 + m) * 64 ^ l < (64 ^ k * 64) * 64 ^ l :=
          Nat.mul_lt_mul_of_pos_right (by omega) (Nat.pow_pos (by decide))
      _ = 64 ^ (l + 1 + k) := by ring

lemma toNat_withSlot {m : Slot} (h : id.toNat < 2 ^ 30) (hl : l ≤ 4) :
    (withSlot id l m).toNat = nextAt id.toNat l m := by
  have hlt : id.toNat < 2 ^ 31 := by omega
  unfold withSlot nextAt
  rw [slot_eq hlt]
  by_cases hm : m = digit id.toNat l
  · rw [if_neg (not_not.2 hm), if_pos hm]
  · rw [if_pos hm, if_neg hm]
    have hnext := nextAt_lt (m := m) (by rw [show l + 1 + (4 - l) = 5 by omega]; exact h)
    rw [nextAt, if_neg hm, show l + 1 + (4 - l) = 5 by omega] at hnext
    have hmlt := m.isLt
    have hm' : (m : ℕ) % 2 ^ 32 = m := Nat.mod_eq_of_lt (by omega)
    have hd' : (digit id.toNat l : ℕ) % 2 ^ 32 = lead id.toNat l % 64 :=
      Nat.mod_eq_of_lt (by omega)
    rw [toNat_shiftLeft, toNat_xor, toNat_xor, toNat_sshiftRight hlt,
      toNat_ofNat, toNat_ofNat, hm', hd', xor_mod_xor _ hmlt, ← lead_succ,
      Nat.shiftLeft_eq, idrBits_mul]
    exact Nat.mod_eq_of_lt (by omega)

lemma beyond_iff {layers : ℕ} (h : id.toNat < 2 ^ 31) (hl : layers ≤ 5) :
    beyond id layers = true ↔ 64 ^ layers ≤ id.toNat := by
  have hle := pow_le hl
  have hone := toNat_one_shiftLeft hl
  rw [mul_comm] at hone
  have hlimit : (1#32 <<< (layers * idrBits)).toInt = (64 ^ layers : ℕ) := by
    rw [toInt_eq_toNat_of_lt (by omega), hone]
  have hid : id.toInt = id.toNat := toInt_eq_toNat_of_lt (by omega)
  rw [beyond, sle_eq_decide, decide_eq_true_eq, hlimit, hid]
  exact Int.ofNat_le

lemma masked_eq (h : id.toNat < 2 ^ 31) : masked id = id := by
  apply eq_of_toNat_eq
  have hand := Nat.and_two_pow_sub_one_of_lt_two_pow h
  exact hand

/-! ### The invariant of a layer -/

variable {α : Type}

/-- What is in a slot of a layer agrees with its bit. `below` says this of a layer in the slot. -/
def SlotWF (below : Option (Layer (Ptr α) → Prop)) (bit : Bool) : Option (Ptr α) → Prop
  | none => bit = false
  | some (.item _) => below = none ∧ bit = true
  | some (.node c) => ∃ P, below = some P ∧ P c ∧ bit = c.full

/-- The layer `p` with what is below it, at distance `l` from the leaves. -/
def WF : ℕ → Layer (Ptr α) → Prop
  | 0, p => p.layer = 0 ∧ p.count = (used p.ary).card ∧ ∀ o, SlotWF none (p.bitmap o) (p.ary o)
  | l + 1, p =>
    p.layer = l + 1 ∧ p.count = (used p.ary).card ∧ ∀ o, SlotWF (some (WF l)) (p.bitmap o) (p.ary o)

/-- The layers that may be in the slots of a layer at distance `l` from the leaves. -/
def below (l : ℕ) : Option (Layer (Ptr α) → Prop) :=
  match l with
  | 0 => none
  | l + 1 => some (WF l)

/-- The pointer for an identifier. -/
def get : ℕ → Layer (Ptr α) → ℕ → Option α
  | 0, p, i =>
    match p.ary (digit i 0) with
    | some (.item a) => some a
    | _ => none
  | l + 1, p, i =>
    match p.ary (digit i (l + 1)) with
    | some (.node c) => get l c i
    | _ => none

variable {p p' c : Layer (Ptr α)} {o : Slot} {a : α}

lemma wf_iff : WF l p ↔
    p.layer = l ∧ p.count = (used p.ary).card ∧ ∀ o, SlotWF (below l) (p.bitmap o) (p.ary o) := by
  cases l <;> rfl

lemma WF.layer_eq (h : WF l p) : p.layer = l := (wf_iff.1 h).1

lemma WF.count_eq (h : WF l p) : p.count = (used p.ary).card := (wf_iff.1 h).2.1

lemma WF.slot (h : WF l p) (o : Slot) : SlotWF (below l) (p.bitmap o) (p.ary o) :=
  (wf_iff.1 h).2.2 o

lemma WF.bit_none (h : WF l p) (ho : p.ary o = none) : p.bitmap o = false := by
  have hslot := h.slot o
  rwa [ho] at hslot

lemma WF.ary_leaf (h : WF 0 p) (o : Slot) :
    (p.ary o = none ∧ p.bitmap o = false) ∨ ∃ a, p.ary o = some (.item a) ∧ p.bitmap o = true := by
  have hslot := h.slot o
  match ho : p.ary o with
  | none => exact .inl ⟨rfl, h.bit_none ho⟩
  | some (.item a) =>
    rw [ho] at hslot
    exact .inr ⟨a, rfl, hslot.2⟩
  | some (.node c) =>
    rw [ho] at hslot
    obtain ⟨P, hP, -⟩ := hslot
    cases hP

lemma WF.ary_node (h : WF (l + 1) p) (o : Slot) : (p.ary o = none ∧ p.bitmap o = false) ∨
    ∃ c, p.ary o = some (.node c) ∧ WF l c ∧ p.bitmap o = c.full := by
  have hslot := h.slot o
  match ho : p.ary o with
  | none => exact .inl ⟨rfl, h.bit_none ho⟩
  | some (.item a) =>
    rw [ho] at hslot
    cases hslot.1
  | some (.node c) =>
    rw [ho] at hslot
    obtain ⟨P, hP, hc, hbit⟩ := hslot
    cases hP
    exact .inr ⟨c, rfl, hc, hbit⟩

lemma WF.child (h : WF (l + 1) p) (ho : p.ary o = some (.node c)) :
    WF l c ∧ p.bitmap o = c.full := by
  rcases h.ary_node o with ⟨hnone, -⟩ | ⟨c', hc', hwf⟩
  · simp [ho] at hnone
  · rw [ho] at hc'
    cases hc'
    exact hwf

lemma full_iff : p.full = true ↔ ∀ o, p.bitmap o = true := by simp [Layer.full]

lemma full_eq_false (h : p.bitmap o = false) : p.full = false := by
  rw [Bool.eq_false_iff, ne_eq, full_iff]
  intro hall
  simp [hall o] at h

lemma WF.get_isSome (h : WF l p) (hbit : p.bitmap (digit i l) = true) : (get l p i).isSome := by
  induction l generalizing p with
  | zero =>
    rcases h.ary_leaf (digit i 0) with ⟨-, hb⟩ | ⟨a, ha, -⟩
    · simp [hb] at hbit
    · simp [get, ha]
  | succ l ih =>
    rcases h.ary_node (digit i (l + 1)) with ⟨-, hb⟩ | ⟨c, hc, hwf, hb⟩
    · simp [hb] at hbit
    · rw [hb] at hbit
      simpa [get, hc] using ih hwf (full_iff.1 hbit _)

lemma WF.get_leaf_eq_none (h : WF 0 p) (hbit : p.bitmap (digit i 0) = false) :
    get 0 p i = none := by
  rcases h.ary_leaf (digit i 0) with ⟨ha, -⟩ | ⟨a, -, hb⟩
  · simp [get, ha]
  · simp [hbit] at hb

lemma wf_emptyLayer : WF l (emptyLayer l : Layer (Ptr α)) := by
  refine wf_iff.2 ⟨rfl, ?_, fun o => rfl⟩
  simp [emptyLayer, used]

lemma get_emptyLayer : get l (emptyLayer k : Layer (Ptr α)) i = none := by
  cases l <;> rfl

lemma WF.of_count_eq_zero (h : WF l p) (hcount : p.count = 0) : p = emptyLayer l := by
  have hary : ∀ o, p.ary o = none := slots_eq_none (h.count_eq.symm.trans hcount)
  obtain ⟨bitmap, ary, count, layer⟩ := p
  have hbits : bitmap = fun _ => false := funext fun o => h.bit_none (hary o)
  have hslots : ary = fun _ => none := funext hary
  have hlayer : layer = l := h.layer_eq
  have hcount : count = 0 := hcount
  rw [hbits, hslots, hlayer, hcount]
  rfl

/-! ### Changing one slot -/

/-- `p'` is the layer `p` with another contents of one slot. -/
structure Put (p : Layer (Ptr α)) (o : Slot) (s : Option (Ptr α)) (bit : Bool)
    (p' : Layer (Ptr α)) : Prop where
  layer : p'.layer = p.layer
  count : p'.count = (used p'.ary).card
  ary : p'.ary = update p.ary o s
  bitmap : p'.bitmap = update p.bitmap o bit

variable {s : Option (Ptr α)} {bit : Bool}

lemma Put.wf (hput : Put p o s bit p') (h : WF l p) (hs : SlotWF (below l) bit s) : WF l p' := by
  refine wf_iff.2 ⟨hput.layer.trans h.layer_eq, hput.count, fun o' => ?_⟩
  rw [hput.ary, hput.bitmap]
  by_cases ho : o' = o
  · subst ho
    rwa [update_self, update_self]
  · rw [update_of_ne ho, update_of_ne ho]
    exact h.slot o'

lemma Put.get_of_ne (hput : Put p o s bit p') (hi : digit i l ≠ o) : get l p' i = get l p i := by
  cases l <;> simp [get, hput.ary, update_of_ne hi]

lemma Put.get_node (hput : Put p o (some (.node c)) bit p') (hi : digit i (l + 1) = o) :
    get (l + 1) p' i = get l c i := by
  simp [get, hput.ary, hi]

lemma Put.get_item (hput : Put p o (some (.item a)) bit p') (hi : digit i 0 = o) :
    get 0 p' i = some a := by
  simp [get, hput.ary, hi]

lemma Put.get_none (hput : Put p o none bit p') (hi : digit i l = o) : get l p' i = none := by
  cases l <;> simp [get, hput.ary, hi]

lemma WF.put_replace {x : Ptr α} (h : WF l p) (ho : p.ary o = some x) (x' : Ptr α) (bit : Bool) :
    Put p o (some x') bit ((p.setBit o bit).setAry o (some x')) where
  layer := rfl
  count := by
    have hcard := card_used_replace ho x'
    exact h.count_eq.trans hcard.symm
  ary := rfl
  bitmap := rfl

lemma WF.put_add (h : WF l p) (ho : p.ary o = none) (x : Ptr α) (bit : Bool) :
    Put p o (some x) bit { (p.setBit o bit).setAry o (some x) with count := p.count + 1 } where
  layer := rfl
  count := by
    have hcard := card_used_add ho x
    rw [← h.count_eq] at hcard
    exact hcard.symm
  ary := rfl
  bitmap := rfl

lemma WF.put_remove {x : Ptr α} (h : WF l p) (ho : p.ary o = some x) :
    Put p o none false { (p.setBit o false).setAry o none with count := p.count - 1 } where
  layer := rfl
  count := by
    have hcard := card_used_remove ho
    rw [← h.count_eq] at hcard
    exact hcard.symm
  ary := rfl
  bitmap := rfl

/-! ### Frames -/

/-- The frames are the layers on the way to an identifier. -/
def Along (i : ℕ) : ℕ → List (Frame α) → Prop
  | _, [] => True
  | l, f :: pa => f.slot = digit i (l + 1) ∧ Along i (l + 1) pa

variable {f : Frame α} {pa : List (Frame α)}

lemma add_length_cons (l : ℕ) (f : Frame α) (pa : List (Frame α)) :
    l + (f :: pa).length = l + 1 + pa.length := by
  rw [length_cons]
  omega

lemma Along.congr (h : Along i l pa) (hij : lead j (l + 1) = lead i (l + 1)) : Along j l pa := by
  induction pa generalizing l with
  | nil => trivial
  | cons _ _ ih =>
    have hdigit : digit j (l + 1) = digit i (l + 1) := by
      unfold digit
      simp only [hij]
    refine ⟨h.1.trans hdigit.symm, ih h.2 ?_⟩
    rw [lead_succ j (l + 1), lead_succ i (l + 1), hij]

lemma Along.lead_eq (hi : Along i l pa) (hj : Along j l pa) (hlt : i < 64 ^ (l + 1 + pa.length))
    (hlt' : j < 64 ^ (l + 1 + pa.length)) : lead j (l + 1) = lead i (l + 1) := by
  induction pa generalizing l with
  | nil => rw [lead_eq_zero (l := l + 1) hlt, lead_eq_zero (l := l + 1) hlt']
  | cons _ _ ih =>
    rw [add_length_cons] at hlt hlt'
    have hrest := ih hi.2 hj.2 hlt hlt'
    rw [Idr.lead_eq i (l + 1), Idr.lead_eq j (l + 1), hrest, ← hi.1, ← hj.1]

lemma fill_ary : (f.fill p).ary f.slot = some (.node p) := update_self ..

lemma wf_of_plug (h : WF (l + pa.length) (plug p pa)) : WF l p := by
  induction pa generalizing l p with
  | nil => exact h
  | cons _ _ ih =>
    rw [add_length_cons] at h
    exact ((ih h).child fill_ary).1

lemma wf_fill_of_plug (h : WF (l + (f :: pa).length) (plug p (f :: pa))) :
    WF (l + 1) (f.fill p) := by
  rw [add_length_cons] at h
  exact wf_of_plug h

lemma fill_put (h : WF (l + 1) (f.fill p)) (p' : Layer (Ptr α)) (bit : Bool) :
    Put (f.fill p) f.slot (some (.node p')) bit ((f.node.setBit f.slot bit).setAry f.slot
      (some (.node p'))) := by
  have hput := h.put_replace fill_ary (.node p') bit
  refine ⟨rfl, ?_, ?_, rfl⟩
  · have hcount := hput.count
    simpa [Layer.setAry, Layer.setBit, Frame.fill] using hcount
  · simp [Layer.setAry, Frame.fill, Layer.setBit]

lemma setBit_self (b : Bool) (h : p.bitmap o = b) : p.setBit o b = p := by
  unfold Layer.setBit
  rw [← h, update_eq_self]

lemma wf_plug (h : WF (l + pa.length) (plug p pa)) (hp' : WF l p') (hfull : p'.full = p.full) :
    WF (l + pa.length) (plug p' pa) := by
  induction pa generalizing l p p' with
  | nil => exact hp'
  | cons f _ ih =>
    have hfill := wf_fill_of_plug h
    have hbit : f.node.bitmap f.slot = p'.full := (hfill.child fill_ary).2.trans hfull.symm
    have hput := fill_put hfill p' p'.full
    rw [setBit_self _ hbit] at hput
    have hwf := hput.wf hfill ⟨_, rfl, hp', rfl⟩
    rw [add_length_cons] at h ⊢
    exact ih h hwf rfl

lemma get_plug (h : Along i l pa) : get (l + pa.length) (plug p pa) i = get l p i := by
  induction pa generalizing l p with
  | nil => rfl
  | cons _ _ ih =>
    rw [add_length_cons, plug, ih h.2, get, ← h.1, fill_ary]

lemma get_plug_of_not (h : ¬ Along i l pa) :
    get (l + pa.length) (plug p pa) i = get (l + pa.length) (plug p' pa) i := by
  induction pa generalizing l p p' with
  | nil => exact absurd trivial h
  | cons f pa ih =>
    rw [add_length_cons, plug, plug]
    by_cases hrest : Along i (l + 1) pa
    · have hne : digit i (l + 1) ≠ f.slot := fun he => h ⟨he.symm, hrest⟩
      rw [get_plug hrest, get_plug hrest, get, get]
      simp only [Frame.fill, Layer.setAry, update_of_ne hne]
    · exact ih hrest

lemma get_plug_congr (h : ∀ j, get l p' j = get l p j) (i : ℕ) :
    get (l + pa.length) (plug p' pa) i = get (l + pa.length) (plug p pa) i := by
  by_cases hi : Along i l pa
  · rw [get_plug hi, get_plug hi, h]
  · exact get_plug_of_not hi

end LklPort.Idr
