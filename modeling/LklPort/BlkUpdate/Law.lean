import LklPort.BlkUpdate.Basic

/-!
# What is left of a request

The vectors before `bi_idx` do not count any more. Of what is left of a request, some bytes are
taken from the front: whole bios are ended, and of the first one that is not done the whole vectors
go and the next one is cut. Taking bytes away twice is taking away all of them at once.
-/

namespace LklPort.BlkUpdate

open List

/-- The number of bytes in some vectors. -/
def bytes (vecs : List Vec) : ℕ := (vecs.map Vec.len).sum

/-- The vectors without their first `n` bytes. -/
def dropBytes : ℕ → List Vec → List Vec
  | _, [] => []
  | n, v :: vecs => if v.len ≤ n then dropBytes (n - v.len) vecs else v.skip n :: vecs

/-- What is left of a bio. -/
structure View where
  ptr : ℕ
  left : List Vec
  size : ℕ
  sector : BitVec 64
  uptodate : Bool
deriving DecidableEq

def Bio.view (b : Bio) : View := ⟨b.ptr, b.vecs.drop b.idx, b.size, b.sector, b.uptodate⟩

/-- The vectors that are left are not empty, and make up the size of the bio. -/
structure View.Ok (v : View) : Prop where
  pos : ∀ x ∈ v.left, 0 < x.len
  size : v.size = bytes v.left
  size_pos : 0 < v.size

/-- The first `n` bytes of a bio are done. -/
def View.advance (error : ℤ) (n : ℕ) (v : View) : View :=
  if n = 0 then v
  else { v with
    left := dropBytes n v.left
    size := v.size - n
    sector := v.sector + BitVec.ofNat 64 (n >>> 9)
    uptodate := if error ≠ 0 then false else v.uptodate }

/-- The first `n` bytes of a chain are done: what is left of it, and the bios that are ended. -/
def advance (error : ℤ) : ℕ → List View → List View × List (ℕ × ℤ)
  | _, [] => ([], [])
  | n, v :: vs =>
    if v.size ≤ n then
      ((advance error (n - v.size) vs).1,
        (v.ptr, endError error v.uptodate) :: (advance error (n - v.size) vs).2)
    else (v.advance error n :: vs, [])

/-- The number of bytes of a chain. -/
def chainBytes (vs : List View) : ℕ := (vs.map View.size).sum

/-! ### Vectors -/

@[simp] lemma bytes_nil : bytes [] = 0 := rfl

@[simp] lemma bytes_cons (v : Vec) (vecs : List Vec) : bytes (v :: vecs) = v.len + bytes vecs := by
  simp [bytes]

lemma Vec.skip_skip (v : Vec) (n m : ℕ) : (v.skip n).skip m = v.skip (n + m) := by
  simp only [Vec.skip, Vec.mk.injEq, true_and]
  refine ⟨?_, by omega⟩
  rw [BitVec.add_assoc, ← BitVec.ofNat_add]

lemma dropBytes_add (n m : ℕ) (vecs : List Vec) (h : ∀ v ∈ vecs, 0 < v.len) :
    dropBytes (n + m) vecs = dropBytes m (dropBytes n vecs) := by
  induction vecs generalizing n with
  | nil => rfl
  | cons v vecs ih =>
    obtain ⟨hv, hrest⟩ := forall_mem_cons.mp h
    by_cases hn : v.len ≤ n
    · rw [dropBytes, if_pos (by omega), dropBytes, if_pos hn, ← ih _ hrest]
      congr 1
      omega
    · have hlen : (v.skip n).len = v.len - n := rfl
      rw [dropBytes.eq_2 n, if_neg hn, dropBytes, dropBytes, hlen]
      by_cases hm : v.len ≤ n + m
      · rw [if_pos hm, if_pos (by omega)]
        congr 1
        omega
      · rw [if_neg hm, if_neg (by omega), v.skip_skip]

lemma bytes_dropBytes (n : ℕ) (vecs : List Vec) : bytes (dropBytes n vecs) = bytes vecs - n := by
  induction vecs generalizing n with
  | nil => simp [dropBytes]
  | cons v vecs ih =>
    rw [dropBytes]
    split_ifs with hn
    · rw [ih, bytes_cons]
      omega
    · rw [bytes_cons, bytes_cons]
      change v.len - n + bytes vecs = _
      omega

lemma pos_dropBytes {n : ℕ} {vecs : List Vec} (h : ∀ v ∈ vecs, 0 < v.len) :
    ∀ v ∈ dropBytes n vecs, 0 < v.len := by
  induction vecs generalizing n with
  | nil => exact h
  | cons v vecs ih =>
    obtain ⟨hv, hrest⟩ := forall_mem_cons.mp h
    rw [dropBytes]
    split_ifs with hn
    · exact ih hrest
    · exact forall_mem_cons.mpr ⟨Nat.sub_pos_of_lt (Nat.lt_of_not_le hn), hrest⟩

/-! ### Bios -/

variable {error : ℤ} {n m : ℕ} {v : View} {vs : List View}

lemma View.advance_zero (error : ℤ) (v : View) : v.advance error 0 = v := if_pos rfl

lemma View.Ok.advance (h : v.Ok) (hn : n < v.size) : (v.advance error n).Ok := by
  by_cases h0 : n = 0
  · rwa [h0, View.advance_zero]
  · rw [View.advance, if_neg h0]
    refine ⟨pos_dropBytes h.pos, ?_, Nat.sub_pos_of_lt hn⟩
    rw [bytes_dropBytes, ← h.size]

@[simp] lemma advance_ptr (error : ℤ) (n : ℕ) (v : View) : (v.advance error n).ptr = v.ptr := by
  rw [View.advance]
  split_ifs <;> rfl

@[simp] lemma advance_size (error : ℤ) (n : ℕ) (v : View) :
    (v.advance error n).size = v.size - n := by
  by_cases h0 : n = 0
  · rw [h0, View.advance_zero, Nat.sub_zero]
  · rw [View.advance, if_neg h0]

lemma endError_advance (error : ℤ) (n : ℕ) (v : View) :
    endError error (v.advance error n).uptodate = endError error v.uptodate := by
  by_cases h0 : n = 0
  · rw [h0, View.advance_zero]
  · rw [View.advance, if_neg h0]
    by_cases herr : error = 0
    · simp [herr]
    · simp [endError, herr]

lemma View.advance_add (h : v.Ok) (hm : 512 ∣ m) :
    v.advance error (n + m) = (v.advance error n).advance error m := by
  by_cases hn0 : n = 0
  · rw [hn0, View.advance_zero, zero_add]
  · by_cases hm0 : m = 0
    · rw [hm0, View.advance_zero, add_zero]
    · rw [View.advance, if_neg (by omega), View.advance, if_neg hm0, View.advance, if_neg hn0]
      have hshift : (n + m) >>> 9 = n >>> 9 + m >>> 9 := by
        omega
      simp only [View.mk.injEq, true_and]
      refine ⟨dropBytes_add n m _ h.pos, by omega, ?_, ?_⟩
      · rw [hshift, BitVec.ofNat_add, BitVec.add_assoc]
      · split_ifs <;> rfl

/-! ### Chains -/

lemma chainBytes_cons (v : View) (vs : List View) :
    chainBytes (v :: vs) = v.size + chainBytes vs := by simp [chainBytes]

lemma advance_add (error : ℤ) (n : ℕ) (hok : ∀ v ∈ vs, v.Ok) (hm : 512 ∣ m) :
    advance error (n + m) vs = ((advance error m (advance error n vs).1).1,
      (advance error n vs).2 ++ (advance error m (advance error n vs).1).2) := by
  induction vs generalizing n with
  | nil => rfl
  | cons v vs ih =>
    obtain ⟨hv, hrest⟩ := forall_mem_cons.mp hok
    by_cases hn : v.size ≤ n
    · have hsub : n + m - v.size = n - v.size + m := by omega
      rw [advance.eq_2 error (n + m), if_pos (by omega), advance.eq_2 error n, if_pos hn, hsub,
        ih _ hrest]
      rfl
    · rw [advance.eq_2 error n, if_neg hn, advance, advance, advance_size, advance_ptr,
        endError_advance]
      by_cases hnm : v.size ≤ n + m
      · have hsub : n + m - v.size = m - (v.size - n) := by omega
        rw [if_pos hnm, if_pos (by omega), hsub]
        rfl
      · rw [if_neg hnm, if_neg (by omega), View.advance_add hv hm]
        rfl

lemma advance_ok (error : ℤ) (n : ℕ) (hok : ∀ v ∈ vs, v.Ok) :
    ∀ v ∈ (advance error n vs).1, v.Ok := by
  induction vs generalizing n with
  | nil => exact hok
  | cons v vs ih =>
    obtain ⟨hv, hrest⟩ := forall_mem_cons.mp hok
    rw [advance]
    split_ifs with hn
    · exact ih _ hrest
    · exact forall_mem_cons.mpr ⟨hv.advance (Nat.lt_of_not_le hn), hrest⟩

lemma chainBytes_advance (error : ℤ) (h : n ≤ chainBytes vs) :
    chainBytes (advance error n vs).1 = chainBytes vs - n := by
  induction vs generalizing n with
  | nil => simp [advance, chainBytes]
  | cons _ _ ih =>
    rw [chainBytes_cons] at h
    rw [advance]
    split_ifs with hn
    · rw [ih (by omega), chainBytes_cons]
      omega
    · rw [chainBytes_cons, chainBytes_cons, advance_size]
      omega

/-!
## Partial completion is additive

`blk_update_request` takes the bytes from the front of a request that it has been told about. In two
calls it leaves the same bios as in one. The position of the request is the same only if it is not
finished, as `blk_update_request` does not update the position of a request that is, and only if
`total_bytes` does not overflow.
-/

open BitVec

/-! ### One bio -/

/-- The vector in which the byte `n` is, and its position in there. -/
def locate : ℕ → List Vec → ℕ × ℕ
  | n, [] => (0, n)
  | n, v :: vecs => if v.len ≤ n then ((locate (n - v.len) vecs).1 + 1, (locate (n - v.len) vecs).2)
    else (0, n)

variable {vecs : List Vec} {bios : List Bio} {rq₁ rq₂ : Rq}

lemma locate_zero (h : ∀ v ∈ vecs, 0 < v.len) : locate 0 vecs = (0, 0) := by
  match vecs with
  | [] => rfl
  | v :: vecs => exact if_neg (Nat.not_le_of_lt (h v mem_cons_self))

lemma modifyHead_locate (n : ℕ) (vecs : List Vec) :
    (vecs.drop (locate n vecs).1).modifyHead (·.skip (locate n vecs).2) = dropBytes n vecs := by
  induction vecs generalizing n with
  | nil => rfl
  | cons v _ ih =>
    rw [locate, dropBytes]
    split_ifs with hn
    · exact ih (n - v.len)
    · rfl

/-- The variables of the loop at the vector of the next byte. -/
def Progress.reach (p : Progress) (vecs : List Vec) : Progress :=
  { p with
    nr := (locate p.nr vecs).2
    total := p.total + BitVec.ofNat 32 p.nr
    bioNbytes := p.bioNbytes + p.nr
    nextIdx := p.nextIdx + (locate p.nr vecs).1 }

variable {bio : Bio} {rest : List Bio} {endBio : Progress → Option (Progress × List Bio)}

lemma scan_of_lt (vecs : List Vec) (p : Progress) (hsize : p.nr < bio.size)
    (hpos : ∀ v ∈ vecs, 0 < v.len) (hbytes : p.nr < bytes vecs) (hfit : bytes vecs ≤ bio.size) :
    scan bio rest endBio vecs p = some (p.reach vecs, bio :: rest) := by
  induction vecs generalizing p with
  | nil => exact absurd hbytes (Nat.not_lt_zero _)
  | cons v vecs ih =>
    obtain ⟨-, hrest⟩ := forall_mem_cons.mp hpos
    rw [bytes_cons] at hbytes hfit
    rw [scan, if_neg (by omega)]
    simp only [if_neg (show ¬ v.len > bio.size by omega)]
    by_cases hlen : v.len ≤ p.nr
    · have hnot : ¬ v.len > p.nr := by omega
      simp only [Progress.reach, locate, if_pos hlen, if_neg hnot]
      by_cases hzero : p.nr - v.len = 0
      · have hnr : v.len = p.nr := by omega
        rw [if_pos hzero, hzero, locate_zero hrest, hnr]
      · have htotal : p.total + BitVec.ofNat 32 v.len + BitVec.ofNat 32 (p.nr - v.len) =
            p.total + BitVec.ofNat 32 p.nr := by
          rw [BitVec.add_assoc, ← BitVec.ofNat_add, Nat.add_sub_cancel' hlen]
        have hbio : p.bioNbytes + v.len + (p.nr - v.len) = p.bioNbytes + p.nr := by omega
        rw [if_neg hzero, ih _ (by dsimp only; omega) hrest (by dsimp only; omega) (by omega)]
        simp only [Progress.reach, htotal, hbio, add_assoc, add_comm 1]
    · simp only [Progress.reach, locate, if_neg hlen, if_pos (Nat.lt_of_not_le hlen), add_zero]

lemma drop_modify (vecs : List Vec) (i : ℕ) (f : Vec → Vec) :
    (vecs.modify i f).drop i = (vecs.drop i).modifyHead f := by
  induction vecs generalizing i with
  | nil => simp
  | cons _ _ ih =>
    cases i with
    | zero => rfl
    | succ i => exact ih i

variable {p : Progress} {a b : ℕ} {rq rq' : Rq}

lemma scan_of_le (h : bio.size ≤ p.nr) : scan bio rest endBio vecs p = endBio p := by
  rw [scan.eq_def]
  exact if_pos h

lemma finishBio_of_lt (hn : n < bio.size) (hnr : p.nr = (locate n (bio.vecs.drop bio.idx)).2)
    (hbytes : p.bioNbytes = n) (hidx : p.nextIdx = (locate n (bio.vecs.drop bio.idx)).1) :
    (finishBio false error bio p).1.view = bio.view.advance error n ∧
      (finishBio false error bio p).2 = [] := by
  by_cases h0 : n = 0
  · have hfin : finishBio false error bio p = (bio, []) := if_neg (not_not.mpr (hbytes.trans h0))
    rw [hfin, h0, View.advance_zero]
    exact ⟨rfl, rfl⟩
  · have hsize : ¬ n > bio.size := by omega
    have hleft : ¬ bio.size - n = 0 := by omega
    simp only [finishBio, reqBioEndio, Bool.false_eq_true, if_false, hbytes, if_neg hsize,
      if_neg hleft, ne_eq, h0, not_false_eq_true, if_true, Option.toList_none, map_nil, and_true]
    rw [View.advance, if_neg h0, Bio.view, drop_modify, ← drop_drop, hidx, hnr, modifyHead_locate]
    rfl

/-! ### The loop -/

lemma finishBio_zero (h : p.bioNbytes = 0) : finishBio false error bio p = (bio, []) :=
  if_neg (not_not.mpr h)

/-- The variables of the loop after a bio that is done. -/
def Progress.next (error : ℤ) (bio : Bio) (p : Progress) : Progress :=
  ⟨p.nr - bio.size, p.total + BitVec.ofNat 32 bio.size, 0, 0,
    p.ended ++ [(bio.ptr, endError error bio.uptodate)]⟩

lemma updateLoop_of_le (hle : bio.size ≤ p.nr) : updateLoop false error (bio :: rest) p =
      if rest ≠ [] ∧ p.nr - bio.size = 0 then some (p.next error bio, rest)
      else updateLoop false error rest (p.next error bio) := by
  have hend : (reqBioEndio false bio bio.size error).2 = some (endError error bio.uptodate) := by
    simp [reqBioEndio]
  rw [updateLoop, scan_of_le hle]
  simp only [hend, Option.toList_some, map_cons, map_nil]
  rfl

lemma advance_zero (h : ∀ v ∈ vs, v.Ok) : advance error 0 vs = (vs, []) := by
  match vs with
  | [] => rfl
  | v :: vs =>
    have hv := (h v mem_cons_self).size_pos
    rw [advance, if_neg (by omega), View.advance_zero]

lemma updateLoop_of_lt (error : ℤ) (hok : ∀ b ∈ bios, b.view.Ok) (hidx : p.nextIdx = 0)
    (hbio : p.bioNbytes = 0) (hlt : p.nr < chainBytes (bios.map Bio.view)) :
    ∃ p' bio left, updateLoop false error bios p = some (p', bio :: left) ∧
      p'.total = p.total + BitVec.ofNat 32 p.nr ∧
      p'.ended = p.ended ++ (advance error p.nr (bios.map Bio.view)).2 ∧
      (finishBio false error bio p').1.view :: left.map Bio.view =
        (advance error p.nr (bios.map Bio.view)).1 ∧
      (finishBio false error bio p').2 = [] := by
  induction bios generalizing p with
  | nil => exact absurd hlt (Nat.not_lt_zero _)
  | cons bio rest ih =>
    obtain ⟨hbok, hrest⟩ := forall_mem_cons.mp hok
    rw [map_cons, chainBytes_cons] at hlt
    change p.nr < bio.size + _ at hlt
    rw [map_cons, advance]
    by_cases hle : bio.size ≤ p.nr
    · rw [if_pos (show bio.view.size ≤ p.nr from hle), updateLoop_of_le hle]
      have htotal : p.total + BitVec.ofNat 32 bio.size + BitVec.ofNat 32 (p.nr - bio.size) =
          p.total + BitVec.ofNat 32 p.nr := by
        rw [BitVec.add_assoc, ← BitVec.ofNat_add, Nat.add_sub_cancel' hle]
      by_cases hstop : rest ≠ [] ∧ p.nr - bio.size = 0
      · -- the bytes end with the bio
        rw [if_pos hstop]
        obtain ⟨next, left, rfl⟩ := exists_cons_of_ne_nil hstop.1
        have hviews : ∀ v ∈ (next :: left).map Bio.view, v.Ok := by simpa using hrest
        have hzero : p.nr - bio.view.size = 0 := hstop.2
        rw [hstop.2] at htotal
        have hfin : finishBio false error next (p.next error bio) = (next, []) := finishBio_zero rfl
        rw [hzero, advance_zero hviews]
        refine ⟨p.next error bio, next, left, rfl, ?_, rfl, ?_, ?_⟩
        · rw [← htotal]
          simp [Progress.next]
        · rfl
        · rw [hfin]
      · rw [if_neg hstop]
        obtain ⟨p', b, left, hrun, htot, hended, hviews, hnone⟩ :=
          ih (p := p.next error bio) hrest rfl rfl (show p.nr - bio.size < _ by omega)
        refine ⟨p', b, left, hrun, htot.trans htotal, ?_, hviews, hnone⟩
        rw [hended]
        exact List.append_assoc ..
    · rw [if_neg (show ¬ bio.view.size ≤ p.nr from hle)]
      have hlt' : p.nr < bio.size := Nat.lt_of_not_le hle
      have hfin : (finishBio false error bio (p.reach (bio.vecs.drop bio.idx))).1.view =
          bio.view.advance error p.nr ∧
            (finishBio false error bio (p.reach (bio.vecs.drop bio.idx))).2 = [] :=
        finishBio_of_lt hlt' rfl (by simp [Progress.reach, hbio]) (by simp [Progress.reach, hidx])
      rw [updateLoop, hidx, add_zero, scan_of_lt (bio.vecs.drop bio.idx) p hlt' hbok.pos
        (hbok.size ▸ hlt') (le_of_eq hbok.size.symm)]
      exact ⟨_, bio, rest, rfl, rfl, (append_nil _).symm,
        congrArg (· :: rest.map Bio.view) hfin.1, hfin.2⟩

lemma updateLoop_of_eq (error : ℤ) (hok : ∀ b ∈ bios, b.view.Ok)
    (heq : p.nr = chainBytes (bios.map Bio.view)) :
    ∃ p', updateLoop false error bios p = some (p', []) ∧
      p'.ended = p.ended ++ (advance error p.nr (bios.map Bio.view)).2 := by
  induction bios generalizing p with
  | nil => exact ⟨p, rfl, (append_nil _).symm⟩
  | cons bio rest ih =>
    obtain ⟨-, hrest⟩ := forall_mem_cons.mp hok
    rw [map_cons, chainBytes_cons] at heq
    change p.nr = bio.size + _ at heq
    have hle : bio.size ≤ p.nr := by omega
    have hgo : ¬ (rest ≠ [] ∧ p.nr - bio.size = 0) := by
      rintro ⟨hne, hzero⟩
      obtain ⟨next, left, rfl⟩ := exists_cons_of_ne_nil hne
      have hpos := (hrest next mem_cons_self).size_pos
      rw [map_cons, chainBytes_cons] at heq
      omega
    rw [map_cons, advance, if_pos (show bio.view.size ≤ p.nr from hle), updateLoop_of_le hle,
      if_neg hgo]
    obtain ⟨p', hrun, hended⟩ := ih (p := p.next error bio) hrest
      (show p.nr - bio.size = _ by omega)
    refine ⟨p', hrun, ?_⟩
    rw [hended]
    exact List.append_assoc ..

/-! ### A call -/

/-- A request of the file systems, whose bios are as they should be and make up its length. -/
structure Rq.Ok (rq : Rq) : Prop where
  fs : rq.fs = true
  bar : rq.bar = false
  bios : ∀ b ∈ rq.bios, b.view.Ok
  dataLen : rq.dataLen.toNat = chainBytes (rq.bios.map Bio.view)

lemma left_view (h : bio.idx < bio.vecs.length) :
    bio.view.left = bio.iovec :: bio.vecs.drop (bio.idx + 1) := by
  rw [Bio.view, drop_eq_getElem_cons h, Bio.iovec, getD_eq_getElem?_getD,
    List.getElem?_eq_getElem h, Option.getD_some]

lemma bioCurBytes_le (h : bio.view.Ok) : bioCurBytes bio ≤ bio.size := by
  have hsize : bio.size = bytes bio.view.left := h.size
  have hidx : bio.idx < bio.vecs.length := by
    by_contra hge
    have hnil : bio.view.left = [] := drop_eq_nil_of_le (not_lt.1 hge)
    exact absurd h.size_pos (by simp [h.size, hnil])
  rw [bioCurBytes, if_pos (by omega), hsize, left_view hidx, bytes_cons]
  exact Nat.le_add_right _ _

/-- By how much the position of a request moves. -/
def moved (n : ℕ) : BitVec 64 := ((BitVec.ofNat 32 n).sshiftRight 9).signExtend 64

lemma blkUpdateRequest_of_updateLoop {x : Progress × List Bio} (h : rq.bios ≠ [])
    (hx : updateLoop rq.bar error rq.bios ⟨n, 0, 0, 0, rq.ended⟩ = some x) :
    blkUpdateRequest rq error n = some (finish rq error x.1 x.2) := by
  obtain ⟨bio, rest, hbios⟩ := exists_cons_of_ne_nil h
  rw [hbios] at hx
  simp only [blkUpdateRequest, hbios, hx, Option.map_some]

lemma advance_chainBytes (h : ∀ v ∈ vs, v.Ok) : (advance error (chainBytes vs) vs).1 = [] := by
  have hbytes := chainBytes_advance error (le_refl (chainBytes vs))
  have hok := advance_ok error (chainBytes vs) h
  match hleft : (advance error (chainBytes vs) vs).1 with
  | [] => rfl
  | v :: left =>
    have hpos := (hok v (hleft ▸ mem_cons_self)).size_pos
    rw [hleft, chainBytes_cons] at hbytes
    omega

/-- What a call that does `n` bytes of a request makes of it. -/
structure Done (error : ℤ) (n : ℕ) (rq rq' : Rq) : Prop where
  fs : rq'.fs = rq.fs
  bar : rq'.bar = rq.bar
  views : rq'.bios.map Bio.view = (advance error n (rq.bios.map Bio.view)).1
  ended : rq'.ended = rq.ended ++ (advance error n (rq.bios.map Bio.view)).2
  dataLen : rq'.dataLen.toNat = rq.dataLen.toNat - n
  sector : rq'.sector = if n < rq.dataLen.toNat then rq.sector + moved n else rq.sector

lemma finish_of_lt (h : rq.Ok) (hn : n < rq.dataLen.toNat) (error : ℤ) :
    ∃ rq', blkUpdateRequest rq error n = some (true, rq') ∧ Done error n rq rq' := by
  have hlen := h.dataLen
  have hne : rq.bios ≠ [] := by
    rintro hnil
    rw [hnil] at hlen
    change _ = 0 at hlen
    omega
  obtain ⟨p, bio, left, hrun, htotal, hended, hviews, hnone⟩ :=
    updateLoop_of_lt error (p := ⟨n, 0, 0, 0, rq.ended⟩) h.bios rfl rfl (hlen ▸ hn)
  have hok : ∀ v ∈ (finishBio false error bio p).1.view :: left.map Bio.view, v.Ok := by
    rw [hviews]
    exact advance_ok error n (List.forall_mem_map.mpr h.bios)
  have htotal : p.total = BitVec.ofNat 32 n := htotal.trans (BitVec.zero_add _)
  have hsub : (rq.dataLen - p.total).toNat = rq.dataLen.toNat - n := by
    rw [htotal, toNat_sub, toNat_ofNat]
    omega
  have hcur : bioCurBytes (finishBio false error bio p).1 ≤ rq.dataLen.toNat - n := by
    have hbytes := chainBytes_advance error (hlen ▸ le_of_lt hn)
    rw [← hviews, chainBytes_cons, ← hlen] at hbytes
    have hle := bioCurBytes_le (hok _ mem_cons_self)
    change (finishBio false error bio p).1.size + _ = _ at hbytes
    omega
  have hnot : ¬ rq.dataLen - p.total <
      BitVec.ofNat 32 (bioCurBytes (finishBio false error bio p).1) := by
    rw [lt_def, hsub, toNat_ofNat]
    omega
  rw [← h.bar] at hrun hnone hnot hviews
  refine ⟨{ rq with
    bios := (finishBio rq.bar error bio p).1 :: left
    dataLen := rq.dataLen - p.total
    buffer := bioData (finishBio rq.bar error bio p).1
    sector := rq.sector + moved n
    ended := p.ended }, ?_, rfl, rfl, hviews, hended, hsub, (if_pos hn).symm⟩
  rw [blkUpdateRequest_of_updateLoop hne hrun]
  simp only [finish, blkRqBytes, blkRqCurBytes, hnone, append_nil, if_neg hnot, h.fs, Bool.true_or,
    if_true]
  rw [htotal]
  rfl

lemma blkUpdateRequest_spec (h : rq.Ok) (hn : n ≤ rq.dataLen.toNat) (error : ℤ) :
    ∃ rq', blkUpdateRequest rq error n = some (decide (n < rq.dataLen.toNat), rq') ∧
      Done error n rq rq' := by
  by_cases hlt : n < rq.dataLen.toNat
  · obtain ⟨rq', hrun, hdone⟩ := finish_of_lt h hlt error
    exact ⟨rq', by rw [hrun, decide_eq_true hlt], hdone⟩
  · have hlen := h.dataLen
    have heq : n = chainBytes (rq.bios.map Bio.view) := by omega
    rw [decide_eq_false hlt]
    by_cases hnil : rq.bios = []
    · refine ⟨rq, by simp only [blkUpdateRequest, hnil], rfl, rfl, ?_, ?_, ?_, (if_neg hlt).symm⟩
      · rw [hnil]
        rfl
      · rw [hnil]
        exact (append_nil _).symm
      · rw [hnil] at heq
        change n = 0 at heq
        omega
    · obtain ⟨p, hrun, hended⟩ :=
        updateLoop_of_eq error (p := ⟨n, 0, 0, 0, rq.ended⟩) h.bios heq
      rw [← h.bar] at hrun
      refine ⟨{ rq with bios := [], dataLen := 0, ended := p.ended },
        blkUpdateRequest_of_updateLoop hnil hrun, rfl, rfl, ?_, hended, ?_, (if_neg hlt).symm⟩
      · rw [heq, advance_chainBytes (List.forall_mem_map.mpr h.bios)]
        rfl
      · change 0 = _
        omega

lemma Done.ok (h : Done error n rq rq') (hok : rq.Ok) (hn : n ≤ rq.dataLen.toNat) : rq'.Ok := by
  have hviews : ∀ v ∈ rq'.bios.map Bio.view, v.Ok := by
    rw [h.views]
    exact advance_ok error n (List.forall_mem_map.mpr hok.bios)
  refine ⟨h.fs.trans hok.fs, h.bar.trans hok.bar, fun b hb => hviews _ (mem_map_of_mem hb), ?_⟩
  rw [h.dataLen, h.views, chainBytes_advance error (hok.dataLen ▸ hn), hok.dataLen]

/-! ### Two calls -/

/-- The segments that are left of a request. -/
def Rq.segments (rq : Rq) : List Vec := rq.bios.flatMap fun b => b.vecs.drop b.idx

lemma Rq.segments_eq (rq : Rq) : rq.segments = (rq.bios.map Bio.view).flatMap View.left := by
  rw [flatMap_map]
  rfl

lemma Done.add (hok : rq.Ok) (hb : 512 ∣ b) (h₁ : Done error a rq rq₁) (h₂ : Done error b rq₁ rq₂)
    (h : Done error (a + b) rq rq') :
    rq'.segments = rq₂.segments ∧ rq'.dataLen = rq₂.dataLen ∧ rq'.ended = rq₂.ended := by
  have hadd := advance_add error a (List.forall_mem_map.mpr hok.bios) hb
  refine ⟨?_, ?_, ?_⟩
  · rw [Rq.segments_eq, Rq.segments_eq, h.views, h₂.views, h₁.views, hadd]
  · apply eq_of_toNat_eq
    rw [h.dataLen, h₂.dataLen, h₁.dataLen]
    omega
  · rw [h.ended, h₂.ended, h₁.ended, h₁.views, hadd, List.append_assoc]

lemma moved_toInt (hn : n < 2 ^ 32) :
    (moved n).toInt = (if n < 2 ^ 31 then (n : ℤ) else n - 2 ^ 32) / 512 := by
  rw [moved, toInt_signExtend_of_le (by decide), toInt_sshiftRight,
    Int.shiftRight_eq_div_pow, toInt_eq_toNat_cond, toNat_ofNat, Nat.mod_eq_of_lt hn]
  by_cases h : n < 2 ^ 31
  · rw [if_pos (by omega), if_pos h]
    rfl
  · rw [if_neg (by omega), if_neg h]
    rfl

/-- The `int` overflows in one call and not in two. -/
def Overflows (a b : ℕ) : Prop := a < 2 ^ 31 ∧ b < 2 ^ 31 ∧ 2 ^ 31 ≤ a + b

lemma moved_add_iff (ha : 512 ∣ a) (hb : 512 ∣ b) (hab : a + b < 2 ^ 32) :
    moved (a + b) = moved a + moved b ↔ ¬ Overflows a b := by
  have hsum := moved_toInt hab
  have ha' := moved_toInt (n := a) (by omega)
  have hb' := moved_toInt (n := b) (by omega)
  have hadd : (moved a + moved b).toInt = (moved a).toInt + (moved b).toInt := by
    rw [toInt_add]
    exact Int.bmod_eq_of_le (by split_ifs at ha' hb' <;> omega) (by split_ifs at ha' hb' <;> omega)
  rw [← toInt_inj, hadd, hsum, ha', hb', Overflows]
  split_ifs <;> omega

lemma moved_ne_zero (ha : 512 ∣ a) (hpos : 0 < a) (hlt : a < 2 ^ 32) : moved a ≠ 0 := by
  have ha' := moved_toInt hlt
  intro hzero
  rw [hzero] at ha'
  change 0 = _ at ha'
  split_ifs at ha' <;> omega

lemma sector_iff (ha : 512 ∣ a) (hb : 512 ∣ b) (hab : a + b ≤ rq.dataLen.toNat)
    (h₁ : Done error a rq rq₁) (h₂ : Done error b rq₁ rq₂) (h : Done error (a + b) rq rq') :
    rq'.sector = rq₂.sector ↔ a = 0 ∨ b = 0 ∨ (a + b < rq.dataLen.toNat ∧ ¬ Overflows a b) := by
  have hdata := h₁.dataLen
  rw [h.sector, h₂.sector, h₁.sector]
  by_cases hpart : a + b < rq.dataLen.toNat
  · rw [if_pos hpart, if_pos (by omega), if_pos (by omega), BitVec.add_assoc,
      BitVec.add_right_inj, moved_add_iff ha hb (by omega)]
    refine ⟨fun hno => .inr (.inr ⟨hpart, hno⟩), ?_⟩
    rintro (rfl | rfl | hno)
    · exact fun hover => by unfold Overflows at hover; omega
    · exact fun hover => by unfold Overflows at hover; omega
    · exact hno.2
  · rw [if_neg hpart, if_neg (by omega)]
    by_cases hall : a < rq.dataLen.toNat
    · rw [if_pos hall]
      constructor
      · intro hsame
        by_contra hno
        have hpos : 0 < a := Nat.pos_of_ne_zero fun h0 => hno (.inl h0)
        exact moved_ne_zero ha hpos (by omega) (BitVec.self_eq_add_right.mp hsame)
      · rintro (rfl | rfl | hno)
        · simp [moved]
        · omega
        · exact absurd hno.1 hpart
    · rw [if_neg hall]
      exact iff_of_true rfl (.inr (.inl (by omega)))

/-! ### The law -/

/-- Two calls one after another. -/
def blkUpdateTwice (rq : Rq) (error : ℤ) (a b : ℕ) : Option (Bool × Rq) :=
  (blkUpdateRequest rq error a).bind fun x => blkUpdateRequest x.2 error b

/-- Two calls leave the same behind as a single one. -/
structure SameLeft (rq₁ rq₂ : Rq) : Prop where
  segments : rq₁.segments = rq₂.segments
  sector : rq₁.sector = rq₂.sector
  dataLen : rq₁.dataLen = rq₂.dataLen
  ended : rq₁.ended = rq₂.ended

def Additive (rq : Rq) (error : ℤ) (a b : ℕ) : Prop :=
  ∃ x y, blkUpdateRequest rq error (a + b) = some x ∧ blkUpdateTwice rq error a b = some y ∧
    SameLeft x.2 y.2

/-- The calls return, and their value is `false` if all bytes are done. -/
def ReturnsRight (rq : Rq) (error : ℤ) (a b : ℕ) : Prop :=
  ∃ x y, blkUpdateRequest rq error (a + b) = some x ∧ blkUpdateTwice rq error a b = some y ∧
    (x.1 = false ↔ a + b = rq.dataLen.toNat) ∧ (y.1 = false ↔ a + b = rq.dataLen.toNat)

/-- A request of two bios with two sectors each. -/
def sampleRq : Rq where
  fs := true
  discard := false
  bar := false
  bios := [⟨1, [⟨10, 0, 512⟩, ⟨11, 0, 512⟩], 0, 1024, 100, true⟩,
    ⟨2, [⟨12, 0, 1024⟩], 0, 1024, 102, true⟩]
  sector := 100
  dataLen := 2048
  buffer := 10
  ended := []

lemma sampleRq_ok : sampleRq.Ok where
  fs := rfl
  bar := rfl
  bios := by
    intro b hb
    rcases List.mem_cons.mp hb with rfl | hb
    · exact ⟨by decide, by decide, by decide⟩
    · cases List.mem_singleton.mp hb
      exact ⟨by decide, by decide, by decide⟩
  dataLen := by decide

end LklPort.BlkUpdate
