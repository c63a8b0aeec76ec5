import LklPort.Checksum.Partial

/-!
# Checksums of TCP and UDP

`csum_tcpudp_magic` of `asm/checksum.h` adds a pseudo header to the sum of a segment by a second
call of `csum_partial`. A segment is at most 65535 bytes long, so the `int` never overflows, and a
segment that has been filled in is found to be right.
-/

namespace LklPort.Checksum

open OnesComplement List BitVec

variable (order : ByteOrder)

/-- The bytes in which a `u16` is stored. -/
def bytes16 : ByteOrder → BitVec 16 → List (BitVec 8)
  | .little, x => [x.setWidth 8, (x >>> 8).setWidth 8]
  | .big, x => [(x >>> 8).setWidth 8, x.setWidth 8]

/-- A `u16` is stored at the offset `off`. -/
def store16 (buff : List (BitVec 8)) (off : ℕ) (x : BitVec 16) : List (BitVec 8) :=
  buff.take off ++ bytes16 order x ++ buff.drop (off + 2)

def htons : ByteOrder → BitVec 16 → BitVec 16
  | .little, x => x.setWidth 8 ++ (x >>> 8).setWidth 8
  | .big, x => x

def pseudoHeader (saddr daddr : BitVec 32) (len proto : BitVec 16) : List (BitVec 16) :=
  [(saddr >>> 16).setWidth 16, (saddr &&& 0xffff#32).setWidth 16,
    (daddr >>> 16).setWidth 16, (daddr &&& 0xffff#32).setWidth 16,
    htons order (proto &&& 0xff#16), htons order len]

def csumTcpudpNofold (saddr daddr : BitVec 32) (len proto : BitVec 16) (sum : BitVec 32) :
    BitVec 32 :=
  csumPartial order ((pseudoHeader order saddr daddr len proto).flatMap (bytes16 order)) sum

def csumTcpudpMagic (saddr daddr : BitVec 32) (len proto : BitVec 16) (sum : BitVec 32) :
    BitVec 16 :=
  csumFold (csumTcpudpNofold order saddr daddr len proto sum)

/-! ### Words in memory -/

lemma bytes16_length (x : BitVec 16) : (bytes16 order x).length = 2 := by cases order <;> rfl

lemma append_setWidth (x : BitVec 16) : (x >>> 8).setWidth 8 ++ x.setWidth 8 = x := by
  ext i hi
  simp only [BitVec.getElem_append, BitVec.getElem_setWidth, BitVec.getLsbD_ushiftRight]
  split_ifs with h
  · exact getLsbD_eq_getElem hi
  · rw [Nat.add_sub_cancel' (by omega)]
    exact getLsbD_eq_getElem hi

lemma words_bytes16 (x : BitVec 16) : words order (bytes16 order x) = [x.toNat] := by
  cases order <;> simp [bytes16, words, word, append_setWidth]

lemma words_flatMap_bytes16 (l : List (BitVec 16)) :
    words order (l.flatMap (bytes16 order)) = l.map BitVec.toNat := by
  induction l with
  | nil => rfl
  | cons x l ih =>
    rw [flatMap_cons, words_append order ⟨1, bytes16_length order x⟩, words_bytes16, ih]
    rfl

variable {buff : List (BitVec 8)} {off : ℕ}

lemma words_store16 (hoff : 2 ∣ off) (hlen : off + 1 < buff.length) (x : BitVec 16) :
    (words order (store16 order buff off x)).sum =
      (words order (buff.take off)).sum + (words order (buff.drop (off + 2))).sum + x.toNat := by
  have htake : 2 ∣ (buff.take off).length := by rwa [length_take_of_le (by omega)]
  have hfront : 2 ∣ (buff.take off ++ bytes16 order x).length := by
    rw [length_append, bytes16_length]
    omega
  rw [store16, words_append order hfront, words_append order htake, words_bytes16]
  simp only [sum_append, sum_singleton]
  omega

lemma store16_length (hlen : off + 1 < buff.length) (x : BitVec 16) :
    (store16 order buff off x).length = buff.length := by
  simp only [store16, length_append, length_drop, bytes16_length,
    length_take_of_le (show off ≤ buff.length by omega)]
  omega

lemma store16_store16 (hlen : off + 1 < buff.length) (x y : BitVec 16) :
    store16 order (store16 order buff off x) off y = store16 order buff off y := by
  have htake : (buff.take off).length = off := length_take_of_le (by omega)
  have hfront : (buff.take off ++ bytes16 order x).length = off + 2 := by
    rw [length_append, htake, bytes16_length]
  rw [store16, store16, drop_left' hfront, append_assoc (buff.take off), take_left' htake]
  rfl

/-! ### Filling in and verifying -/

/-- The `int` of `csum_partial` is the exact sum at all times. -/
def NeverOverflows (buff : List (BitVec 8)) (seed : BitVec 32) : Prop :=
  ∀ n, (csumLoop order (buff.take n) seed).toInt = total order (buff.take n) seed

variable {seed : BitVec 32} {seg : List (BitVec 8)}

lemma total_lt (buff : List (BitVec 8)) (hlen : buff.length ≤ 65535)
    (hseed : seed.toNat = 0 ∨ seed.toNat < 2 ^ 16 ∧ buff.length ≤ 12) :
    total order buff seed < 2 ^ 31 := by
  have hwords := words_sum_le order buff
  unfold total
  omega

lemma neverOverflows (hlen : buff.length ≤ 65535)
    (hseed : seed.toNat = 0 ∨ seed.toNat < 2 ^ 16 ∧ buff.length ≤ 12) :
    NeverOverflows order buff seed := by
  intro n
  have hle : (buff.take n).length ≤ buff.length := length_take_le' n buff
  have htotal := total_lt order (buff.take n) (by omega) (hseed.imp id fun h => ⟨h.1, by omega⟩)
  have hloop := csumLoop_toNat order (buff.take n) seed
  rw [Nat.mod_eq_of_lt (by omega)] at hloop
  rw [toInt_eq_toNat_of_lt (by omega), hloop]

/-- The checksum of a segment with its pseudo header. -/
def segmentCsum (saddr daddr : BitVec 32) (proto : BitVec 16) (seg : List (BitVec 8)) : BitVec 16 :=
  csumTcpudpMagic order saddr daddr (BitVec.ofNat 16 seg.length) proto (csumPartial order seg 0)

/-- The check field at `off` is zeroed and then set. -/
def fillCheck (saddr daddr : BitVec 32) (proto : BitVec 16) (seg : List (BitVec 8)) (off : ℕ) :
    List (BitVec 8) :=
  store16 order (store16 order seg off 0) off
    (segmentCsum order saddr daddr proto (store16 order seg off 0))

/-- No call of `csum_partial` for the checksum of the segment overflows. -/
def SegmentExact (saddr daddr : BitVec 32) (proto : BitVec 16) (seg : List (BitVec 8)) : Prop :=
  NeverOverflows order seg 0 ∧
    NeverOverflows order
      ((pseudoHeader order saddr daddr (BitVec.ofNat 16 seg.length) proto).flatMap (bytes16 order))
      (csumPartial order seg 0)

lemma csumPartial_zero (hlen : buff.length ≤ 65535) :
    (csumPartial order buff 0).toNat = norm 16 (words order buff).sum := by
  rw [csumPartial_eq_norm (total_lt order buff hlen (.inl rfl)), total]
  simp

lemma pseudo_length (saddr daddr : BitVec 32) (len proto : BitVec 16) :
    ((pseudoHeader order saddr daddr len proto).flatMap (bytes16 order)).length = 12 := by
  cases order <;> rfl

lemma segmentExact (saddr daddr : BitVec 32) (proto : BitVec 16) (hlen : seg.length ≤ 65535) :
    SegmentExact order saddr daddr proto seg := by
  refine ⟨neverOverflows order hlen (.inl rfl), neverOverflows order ?_ (.inr ⟨?_, ?_⟩)⟩
  · rw [pseudo_length]
    decide
  · exact csumPartial_lt order seg 0
  · exact (pseudo_length ..).le

lemma segmentCsum_toNat (saddr daddr : BitVec 32) (proto : BitVec 16) (hlen : seg.length ≤ 65535) :
    (segmentCsum order saddr daddr proto seg).toNat = 2 ^ 16 - 1 - norm 16
      (norm 16 (words order seg).sum +
        ((pseudoHeader order saddr daddr (BitVec.ofNat 16 seg.length) proto).map
          BitVec.toNat).sum) := by
  have hpseudo := pseudo_length order saddr daddr (BitVec.ofNat 16 seg.length) proto
  have htotal := total_lt order _ (hpseudo.trans_le (by decide))
    (.inr ⟨csumPartial_lt order seg 0, hpseudo.le⟩)
  have hsum := csumPartial_eq_norm htotal
  rw [total, csumPartial_zero order hlen, words_flatMap_bytes16] at hsum
  rw [segmentCsum, csumTcpudpMagic, csumTcpudpNofold, csumFold_of_lt (csumPartial_lt ..),
    toNat_not, toNat_setWidth, Nat.mod_eq_of_lt (csumPartial_lt ..), hsum]

lemma folded_with_check (a p c : ℕ) (hc : c = 2 ^ 16 - 1 - norm 16 (norm 16 a + p)) :
    norm 16 (norm 16 (a + c) + p) = 2 ^ 16 - 1 := by
  have hlt := norm_lt (w := 16) (by decide) (norm 16 a + p)
  have hpos : 0 < norm 16 (a + c) + p := by
    refine pos_of_ne_zero fun hzero => ?_
    have hall := ((Represents.norm 16 (a + c)).add (.refl 16 p)).2 hzero
    obtain ⟨rfl, rfl, rfl⟩ : a = 0 ∧ c = 0 ∧ p = 0 := by omega
    exact absurd hc (by decide)
  have hmod : norm 16 (a + c) + p ≡ 0 [MOD 2 ^ 16 - 1] := by
    have hsum := norm_modEq 16 (norm 16 a + p)
    have ha := norm_modEq 16 a
    have hac := norm_modEq 16 (a + c)
    simp only [Nat.ModEq] at hsum ha hac ⊢
    omega
  exact norm_eq_ones (by decide) hpos hmod

/-- A segment that has been filled in is verified, and no sum overflows on the way. -/
theorem segmentCsum_fillCheck (saddr daddr : BitVec 32) (proto : BitVec 16)
    (seg : List (BitVec 8)) (off : ℕ) (hlen : seg.length ≤ 65535) (hoff : 2 ∣ off)
    (hfit : off + 1 < seg.length) :
    segmentCsum order saddr daddr proto (fillCheck order saddr daddr proto seg off) = 0 ∧
      SegmentExact order saddr daddr proto (store16 order seg off 0) ∧
      SegmentExact order saddr daddr proto (fillCheck order saddr daddr proto seg off) := by
  have hzlen := store16_length order hfit 0
  have hflen : (fillCheck order saddr daddr proto seg off).length = seg.length := by
    rw [fillCheck, store16_length order (by omega), hzlen]
  refine ⟨?_, segmentExact order _ _ _ (by omega), segmentExact order _ _ _ (by omega)⟩
  have hzero := words_store16 order hoff hfit 0
  have hcheck := segmentCsum_toNat order saddr daddr proto (hzlen.trans_le hlen)
  have hverify := segmentCsum_toNat order saddr daddr proto (hflen.trans_le hlen)
  rw [hzero, hzlen, show (0 : BitVec 16).toNat = 0 from rfl, add_zero] at hcheck
  rw [hflen, fillCheck, store16_store16 order hfit, words_store16 order hoff hfit] at hverify
  apply eq_of_toNat_eq
  rw [fillCheck, store16_store16 order hfit, hverify, folded_with_check _ _ _ hcheck]
  rfl

theorem segmentCsum_fillCheck_odd : segmentCsum .little 0x0a000001 0x0a000002 17
      (fillCheck .little 0x0a000001 0x0a000002 17 [0x12, 0x34, 0xff, 0xff, 0x56] 2) = 0 :=
  (segmentCsum_fillCheck .little 0x0a000001 0x0a000002 17 [0x12, 0x34, 0xff, 0xff, 0x56] 2
    (by decide) (by decide) (by decide)).1

/-!
## Updating a checksum

`csum_replace4` of `net/checksum.h` passes the complement of the old checksum to `csum_partial`. The
checksum is extended to 32 bits before it is complemented, so the upper half of the seed is all
ones, and the `int` of `csum_partial` loses a carry for it. The new checksum is off by one, for
every header and every field.
-/

/-- The bytes in which a `u32` is stored. -/
def bytes32 : ByteOrder → BitVec 32 → List (BitVec 8)
  | .little, x => bytes16 .little (x.setWidth 16) ++ bytes16 .little ((x >>> 16).setWidth 16)
  | .big, x => bytes16 .big ((x >>> 16).setWidth 16) ++ bytes16 .big (x.setWidth 16)

/-- `csum_replace4`, with `old` for `from` and `new` for `to`. -/
def csumReplace4 (sum : BitVec 16) (old new : BitVec 32) : BitVec 16 :=
  csumFold (csumPartial order (bytes32 order (~~~ old) ++ bytes32 order new)
    (~~~ (sum.setWidth 32)))

def csumReplace2 (sum : BitVec 16) (old new : BitVec 16) : BitVec 16 :=
  csumReplace4 order sum (old.setWidth 32) (new.setWidth 32)

/-! ### Headers -/

/-- The sum of the words of a header other than the check field. -/
def othersSum (ws : List (BitVec 16)) (check : ℕ) : ℕ :=
  ((ws.eraseIdx check).map BitVec.toNat).sum

/-- The checksum of a header, computed anew. -/
def recomputed (ws : List (BitVec 16)) (check : ℕ) : BitVec 16 :=
  csumFold (BitVec.ofNat 32 (norm 16 (othersSum ws check)))

/-- A header with a number of 16-bit words, and its checksum in one of them. -/
structure Header where
  words : List (BitVec 16)
  check : ℕ
  check_lt : check < words.length
  filled : words.get ⟨check, check_lt⟩ = recomputed words check

/-- The checksum of a header. -/
def Header.sum (h : Header) : BitVec 16 := h.words.get ⟨h.check, h.check_lt⟩

/-- The 32-bit field in the words `i` and `i + 1`. -/
def field32 : ByteOrder → List (BitVec 16) → ℕ → BitVec 32
  | .little, ws, i => ws.getD (i + 1) 0 ++ ws.getD i 0
  | .big, ws, i => ws.getD i 0 ++ ws.getD (i + 1) 0

/-- The header with another value in that field. -/
def setField32 : ByteOrder → List (BitVec 16) → ℕ → BitVec 32 → List (BitVec 16)
  | .little, ws, i, x => (ws.set i (x.setWidth 16)).set (i + 1) ((x >>> 16).setWidth 16)
  | .big, ws, i, x => (ws.set i ((x >>> 16).setWidth 16)).set (i + 1) (x.setWidth 16)

/-- `csum_replace4` gives what the checksum of the changed header is. -/
def Replace4Law (h : Header) (i : ℕ) (new : BitVec 32) : Prop :=
  (csumReplace4 order h.sum (field32 order h.words i) new).toNat ≡
    (recomputed (setField32 order h.words i new) h.check).toNat [MOD 0xffff]

/-- The same for a 16-bit field and `csum_replace2`. -/
def Replace2Law (h : Header) (i : ℕ) (new : BitVec 16) : Prop :=
  (csumReplace2 order h.sum (h.words.getD i 0) new).toNat ≡
    (recomputed (h.words.set i new) h.check).toNat [MOD 0xffff]

/-! ### Halves of a field -/

/-- The sum of the two halves. -/
def halves (x : BitVec 32) : ℕ := x.toNat % 2 ^ 16 + x.toNat / 2 ^ 16

lemma halves_eq (x : BitVec 32) :
    halves x = (x.setWidth 16).toNat + ((x >>> 16).setWidth 16).toNat := by
  rw [halves, toNat_setWidth, toNat_setWidth, toNat_ushiftRight, Nat.shiftRight_eq_div_pow]
  omega

lemma words_bytes32 (x : BitVec 32) (l : List (BitVec 8)) :
    (Checksum.words order (bytes32 order x ++ l)).sum =
      halves x + (Checksum.words order l).sum := by
  have htwo : ∀ y z : BitVec 16,
      (Checksum.words order (bytes16 order y ++ bytes16 order z ++ l)).sum =
      y.toNat + z.toNat + (Checksum.words order l).sum := by
    intro y z
    rw [List.append_assoc, words_append order ⟨1, bytes16_length order y⟩,
      words_append order ⟨1, bytes16_length order z⟩, words_bytes16, words_bytes16,
      sum_append, sum_append, sum_singleton, sum_singleton, add_assoc]
  rw [halves_eq]
  cases order with
  | little => exact htwo _ _
  | big => exact (htwo _ _).trans (by rw [add_comm (BitVec.toNat _) (BitVec.toNat _)])

lemma halves_not (x : BitVec 32) : halves (~~~ x) + halves x = 2 * 0xffff := by
  rw [halves, halves, toNat_not]
  omega

lemma csumReplace4_modEq (sum : BitVec 16) (old new : BitVec 32) :
    (csumReplace4 order sum old new).toNat + halves new ≡ sum.toNat + halves old + 1
      [MOD 0xffff] := by
  obtain ⟨buff, hbuff⟩ : ∃ b, b = bytes32 order (~~~ old) ++ bytes32 order new := ⟨_, rfl⟩
  obtain ⟨seed, hseed⟩ : ∃ x, x = ~~~ (sum.setWidth 32) := ⟨_, rfl⟩
  have hnot := halves_not old
  have hnew : halves new ≤ 2 * 0xffff := by
    have := halves_not new
    omega
  have hwords : (Checksum.words order buff).sum = halves (~~~ old) + halves new := by
    have hlast := words_bytes32 order new []
    rw [append_nil] at hlast
    rw [hbuff, words_bytes32, hlast]
    rfl
  have hseedNat : seed.toNat = 2 ^ 32 - 1 - sum.toNat := by
    rw [hseed, toNat_not, toNat_setWidth, Nat.mod_eq_of_lt (by omega)]
  have hlost : lostCarries order buff seed = 1 := by
    rw [lostCarries, total, hwords, hseedNat]
    omega
  have hpartial := csumPartial_add_lostCarries order buff seed
  have hlt := csumPartial_lt order buff seed
  have hcheck : (csumReplace4 order sum old new).toNat =
      2 ^ 16 - 1 - (csumPartial order buff seed).toNat := by
    rw [csumReplace4, ← hbuff, ← hseed, csumFold_of_lt hlt, toNat_not, toNat_setWidth,
      Nat.mod_eq_of_lt hlt]
  rw [hlost, total, hwords, hseedNat] at hpartial
  simp only [Nat.ModEq] at hpartial ⊢
  omega

variable {ws : List (BitVec 16)} {i check : ℕ}

/-! ### Changes of a header -/

lemma sum_set (hi : i < ws.length) (x : BitVec 16) :
    ((ws.set i x).map BitVec.toNat).sum + (ws.getD i 0).toNat =
      (ws.map BitVec.toNat).sum + x.toNat := by
  induction ws generalizing i with
  | nil => exact absurd hi (Nat.not_lt_zero i)
  | cons _ _ ih =>
    cases i with
    | zero =>
      simp only [set_cons_zero, map_cons, sum_cons, getD_cons_zero]
      omega
    | succ =>
      have hrest := ih (Nat.lt_of_succ_lt_succ hi)
      simp only [set_cons_succ, map_cons, sum_cons, getD_cons_succ]
      omega

lemma othersSum_succ (w : BitVec 16) (ws : List (BitVec 16)) (check : ℕ) :
    othersSum (w :: ws) (check + 1) = w.toNat + othersSum ws check := by
  simp [othersSum]

lemma othersSum_set (ws : List (BitVec 16)) (hi : i < ws.length) (hne : i ≠ check) (x : BitVec 16) :
    othersSum (ws.set i x) check + (ws.getD i 0).toNat = othersSum ws check + x.toNat := by
  induction ws generalizing i check with
  | nil => exact absurd hi (Nat.not_lt_zero i)
  | cons _ _ ih =>
    match i, check with
    | 0, 0 => exact absurd rfl hne
    | 0, check + 1 =>
      rw [set_cons_zero, othersSum_succ, othersSum_succ, getD_cons_zero]
      omega
    | i + 1, 0 =>
      exact sum_set (Nat.lt_of_succ_lt_succ hi) x
    | i + 1, check + 1 =>
      have hrest := ih (Nat.lt_of_succ_lt_succ hi) (fun h => hne (congrArg Nat.succ h))
      rw [set_cons_succ, othersSum_succ, othersSum_succ, getD_cons_succ]
      omega

lemma recomputed_modEq (ws : List (BitVec 16)) (check : ℕ) :
    (recomputed ws check).toNat + othersSum ws check ≡ 0 [MOD 0xffff] := by
  have hlt := norm_lt (w := 16) (by decide) (othersSum ws check)
  have hnorm := norm_modEq 16 (othersSum ws check)
  have hfold : (BitVec.ofNat 32 (norm 16 (othersSum ws check))).toNat =
      norm 16 (othersSum ws check) := by
    rw [toNat_ofNat, Nat.mod_eq_of_lt (by omega)]
  rw [recomputed, csumFold_of_lt (by omega), toNat_not, toNat_setWidth, hfold, Nat.mod_eq_of_lt hlt]
  simp only [Nat.ModEq] at hnorm ⊢
  omega

lemma halves_append (x y : BitVec 16) : halves (x ++ y) = x.toNat + y.toNat := by
  have hy := y.isLt
  have happend : (x ++ y).toNat = 2 ^ 16 * x.toNat + y.toNat := by
    rw [toNat_append, ← Nat.shiftLeft_add_eq_or_of_lt hy, Nat.shiftLeft_eq, mul_comm]
  rw [halves, happend]
  omega

lemma halves_setWidth (x : BitVec 16) : halves (x.setWidth 32) = x.toNat := by
  rw [halves, toNat_setWidth]
  omega

lemma othersSum_setField32 (hi : i + 1 < ws.length) (hne : i ≠ check) (hne' : i + 1 ≠ check)
    (x : BitVec 32) : othersSum (setField32 order ws i x) check + halves (field32 order ws i) =
      othersSum ws check + halves x := by
  have htwo : ∀ y z : BitVec 16, othersSum ((ws.set i y).set (i + 1) z) check +
      ((ws.getD i 0).toNat + (ws.getD (i + 1) 0).toNat) =
        othersSum ws check + (y.toNat + z.toNat) := by
    intro y z
    have hfirst := othersSum_set ws (by omega) hne y
    have hsecond := othersSum_set (ws.set i y) (by rwa [length_set]) hne' z
    have hother : (ws.set i y).getD (i + 1) 0 = ws.getD (i + 1) 0 := by
      simp [List.getElem?_set_ne (ne_of_lt (Nat.lt_succ_self i))]
    rw [hother] at hsecond
    omega
  have hx := halves_eq x
  cases order with
  | little =>
    have h := htwo (x.setWidth 16) ((x >>> 16).setWidth 16)
    rw [setField32, field32, halves_append]
    omega
  | big =>
    have h := htwo ((x >>> 16).setWidth 16) (x.setWidth 16)
    rw [setField32, field32, halves_append]
    omega

/-- Neither function gives the checksum of the changed header, whatever the field is. -/
theorem replace_never_right (h : Header) (i : ℕ) :
    (∀ new, 2 ∣ i → i + 1 < h.words.length → i ≠ h.check → i + 1 ≠ h.check →
      ¬ Replace4Law order h i new) ∧
    (∀ new, i < h.words.length → i ≠ h.check → ¬ Replace2Law order h i new) := by
  have hold : h.sum.toNat + othersSum h.words h.check ≡ 0 [MOD 0xffff] := by
    rw [Header.sum, h.filled]
    exact recomputed_modEq h.words h.check
  refine ⟨fun new _ hi hne hne' hlaw => ?_, fun new hi hne hlaw => ?_⟩
  · have hset := othersSum_setField32 order hi hne hne' new
    have hnew := recomputed_modEq (setField32 order h.words i new) h.check
    have hoff := csumReplace4_modEq order h.sum (field32 order h.words i) new
    simp only [Replace4Law, Nat.ModEq] at hlaw hold hnew hoff
    omega
  · have hset := othersSum_set h.words hi hne new
    have hnew := recomputed_modEq (h.words.set i new) h.check
    have hoff := csumReplace4_modEq order h.sum ((h.words.getD i 0).setWidth 32) (new.setWidth 32)
    rw [halves_setWidth, halves_setWidth] at hoff
    simp only [Replace2Law, csumReplace2, Nat.ModEq] at hlaw hold hnew hoff
    omega

/-- A field of two words, and the checksum after it. -/
def sampleHeader : Header where
  words := [0x1234, 0, 0xedcb]
  check := 2
  check_lt := by decide
  filled := by decide

theorem replace_never_right_sampleHeader : ¬ Replace4Law .little sampleHeader 0 0x1235 :=
  (replace_never_right .little sampleHeader 0).1 0x1235 (by decide) (by decide) (by decide)
    (by decide)

/-- The field is replaced by its own value, and the checksum `0xedcb` becomes `0xedcc`. -/
theorem replace_same_value_wrong : csumReplace4 .little sampleHeader.sum 0x1234 0x1234 = 0xedcc ∧
      ¬ Replace4Law .little sampleHeader 0 0x1234 ∧
      ¬ Replace2Law .little sampleHeader 0 0x1234 := by
  refine ⟨by decide, ?_, ?_⟩
  · unfold Replace4Law
    decide
  · unfold Replace2Law
    decide

end LklPort.Checksum
