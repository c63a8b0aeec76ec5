import LklPort.BlkUpdate.Law
import LklPort.Disk.Basic
import Mathlib.Algebra.BigOperators.Group.List.Basic

/-!
# Every request is transferred exactly

A request of the file systems is a list of pieces of memory, grouped by bios. The plan of a
transfer is one call for each piece, at consecutive sectors. The driver's loop follows the plan,
whatever the calls report, and each bio is ended after its last piece.
-/

namespace LklPort.Disk

open List BitVec BlkUpdate

/-! ### The pieces of a request -/

/-- A piece of memory. -/
structure Chunk where
  addr : ℕ
  len : ℕ

/-- The pieces of a bio that are still to be transferred. A bio without a vector counts as one
empty piece at `NULL`. -/
def chunks (b : Bio) : List Chunk :=
  if b.vecs = [] then [⟨0, 0⟩] else b.view.left.map fun v => ⟨v.addr, v.len⟩

/-- A bio as the block layer builds it. A `bio_vec` is a piece of one page, so its length is far
below the bound of an `int`. -/
structure BioOk (b : Bio) : Prop where
  idx : b.vecs ≠ [] → b.idx < b.vecs.length
  size : b.size = bytes b.view.left
  vec : ∀ v ∈ b.view.left, 0 < v.len ∧ 512 ∣ v.len ∧ v.len < 2 ^ 31

/-- The length of some bios. -/
def bioBytes (bios : List Bio) : ℕ := (bios.map (·.size)).sum

/-- A request of the file systems, as the driver fetches it: its position, length and buffer
are those of its bios, none of which has been ended, and it ends within the sectors that a
`sector_t` counts. -/
structure FsRequest extends Rq where
  fs_eq : fs = true
  bar_eq : bar = false
  chain : bios ≠ []
  ok : ∀ b ∈ bios, BioOk b
  uptodate : ∀ b ∈ bios, b.uptodate = true
  dataLen_eq : dataLen.toNat = bioBytes bios
  buffer_eq : buffer = bioData (bios.head chain)
  inRange : sector.toNat + dataLen.toNat / 512 < 2 ^ 64
  ended_eq : ended = []

/-- The calls that transfer the pieces `cs` from the sector `s` on. -/
def plan : ℕ → List Chunk → List Call
  | _, [] => []
  | s, c :: cs => ⟨s, c.len / 512, c.addr⟩ :: plan (s + c.len / 512) cs

/-- How the bios end, where the calls for their pieces are numbered from `i` on: each one once,
in order, and with an error just if a call for one of its pieces failed. -/
def endings (fails : ℕ → Bool) : ℕ → List Bio → List (ℕ × ℤ)
  | _, [] => []
  | i, b :: bs => (b.ptr, errorOf ((List.range' i (chunks b).length).any fails)) ::
    endings fails (i + (chunks b).length) bs

variable {s n : ℕ} {cs : List Chunk} {b : Bio}

lemma plan_sectors (hcs : ∀ c ∈ cs, 512 ∣ c.len) :
    (plan s cs).flatMap (fun c => List.range' c.sector c.nsect) =
      List.range' s ((cs.map (·.len)).sum / 512) := by
  induction cs generalizing s with
  | nil => rfl
  | cons c cs ih =>
    have hc : 512 ∣ c.len := hcs c (by simp)
    rw [plan, flatMap_cons, ih fun d hd => hcs d (by simp [hd])]
    have hdiv : (c.len + (cs.map (·.len)).sum) / 512 =
        c.len / 512 + (cs.map (·.len)).sum / 512 := by omega
    rw [map_cons, sum_cons, hdiv, List.range'_append_1]

lemma plan_pieces (hcs : ∀ c ∈ cs, 512 ∣ c.len) :
    (plan s cs).map (fun c => Chunk.mk c.buffer (c.nsect * 512)) = cs := by
  induction cs generalizing s with
  | nil => rfl
  | cons c _ ih =>
    have hc : 512 ∣ c.len := hcs c (by simp)
    rw [plan, map_cons, ih fun d hd => hcs d (by simp [hd])]
    simp only [Nat.div_mul_cancel hc]

/-! ### A bio and its first piece -/

/-- The bio after its first piece, when there are others. -/
def next (b : Bio) (error : Bool) : Bio :=
  { b with
    idx := b.idx + 1
    size := b.size - b.iovec.len
    sector := b.sector + BitVec.ofNat 64 (b.iovec.len >>> 9)
    uptodate := b.uptodate && !error }

/-- The first piece of a bio is what the driver transfers next: either it is all that is left,
or the bio goes on after it. -/
inductive First (b : Bio) : Prop where
  | last (hchunks : chunks b = [⟨bioData b, bioCurBytes b⟩]) (hsize : b.size = bioCurBytes b)
  | more (left : List Vec)
      (hchunks : ∀ e, chunks b = ⟨bioData b, bioCurBytes b⟩ :: chunks (next b e))
      (hok : ∀ e, BioOk (next b e)) (hleft : b.view.left = b.iovec :: left)
      (hlen : b.iovec.len = bioCurBytes b) (hpos : 0 < bioCurBytes b)
      (hlt : bioCurBytes b < b.size)

lemma BioOk.size_of_nil (hb : BioOk b) (hvec : b.vecs = []) : b.size = 0 := by
  have hleft : b.view.left = [] := by
    rw [show b.view.left = b.vecs.drop b.idx from rfl, hvec, drop_nil]
  rw [hb.size, hleft, bytes_nil]

lemma BioOk.first (hb : BioOk b) : First b := by
  by_cases hvec : b.vecs = []
  · have hsize := hb.size_of_nil hvec
    apply First.last
    · simp [chunks, bioData, bioCurBytes, hvec, hsize]
    · simp [bioCurBytes, hvec]
  have hidx := hb.idx hvec
  have hcur : b.vecs.length ≠ 0 := by omega
  have hleft := left_view hidx
  have hlen : bioCurBytes b = b.iovec.len := if_pos hcur
  have hdata : bioData b = b.iovec.addr := if_pos hcur
  have hsize : b.size = b.iovec.len + bytes (b.vecs.drop (b.idx + 1)) := by
    rw [hb.size, hleft, bytes_cons]
  have hchunks : chunks b = ⟨bioData b, bioCurBytes b⟩ ::
      (b.vecs.drop (b.idx + 1)).map fun v => ⟨v.addr, v.len⟩ := by
    rw [chunks, if_neg hvec, hleft, map_cons, hlen, hdata]
  have hpos : 0 < b.iovec.len := (hb.vec b.iovec (by simp [hleft])).1
  cases hrest : b.vecs.drop (b.idx + 1) with
  | nil =>
    apply First.last
    · simpa [hrest] using hchunks
    · simpa [hrest, hlen] using hsize
  | cons w =>
    have hidx' : b.idx + 1 < b.vecs.length := by
      by_contra hge
      simp [drop_eq_nil_of_le (Nat.le_of_not_lt hge)] at hrest
    have hwpos : 0 < w.len := (hb.vec w (by simp [hleft, hrest])).1
    refine First.more _ (fun e => ?_) (fun e => ⟨fun _ => hidx', ?_, ?_⟩) hleft hlen.symm
      (hlen ▸ hpos) ?_
    · rw [hchunks]
      simp [chunks, next, Bio.view, hvec]
    · show b.size - b.iovec.len = bytes (b.vecs.drop (b.idx + 1))
      omega
    · intro v hv
      exact hb.vec v (by rw [hleft]; exact mem_cons_of_mem _ hv)
    · rw [hlen, hsize, hrest, bytes_cons]
      omega

lemma BioOk.chunks_dvd (hb : BioOk b) : ∀ c ∈ chunks b, 512 ∣ c.len ∧ c.len < 2 ^ 31 := by
  intro c hc
  by_cases hvec : b.vecs = []
  · simp only [chunks, hvec, if_true, mem_singleton] at hc
    simp [hc]
  · simp only [chunks, hvec, if_false, mem_map] at hc
    obtain ⟨v, hv, rfl⟩ := hc
    exact (hb.vec v hv).2

lemma First.mem (hb : First b) : ⟨bioData b, bioCurBytes b⟩ ∈ chunks b := by
  cases hb with
  | last hchunks => simp [hchunks]
  | more _ hchunks => simp [hchunks false]

lemma BioOk.chunks_sum (hb : BioOk b) : ((chunks b).map (·.len)).sum = b.size := by
  by_cases hvec : b.vecs = []
  · simp [chunks, hb.size_of_nil hvec, hvec]
  · rw [chunks, if_neg hvec, hb.size, map_map]
    rfl

lemma BioOk.cur_le (hb : BioOk b) : bioCurBytes b ≤ b.size := by
  cases hb.first with
  | last => omega
  | more => omega

/-! ### Shifts of an `int` -/

lemma toNat_sshiftRight (hn : n < 2 ^ 31) :
    ((BitVec.ofNat 32 n).sshiftRight 9).toNat = n / 512 := by
  have hmsb : (BitVec.ofNat 32 n).msb = false := by
    rw [msb_eq_decide]
    simp
    omega
  rw [sshiftRight_eq_of_msb_false hmsb]
  simp [Nat.shiftRight_eq_div_pow]
  omega

lemma toNat_moved (hn : n < 2 ^ 31) : (moved n).toNat = n / 512 := by
  have hmsb : ((BitVec.ofNat 32 n).sshiftRight 9).msb = false := by
    rw [msb_eq_decide, toNat_sshiftRight hn]
    simp
    omega
  rw [moved, signExtend_eq_setWidth_of_msb_false hmsb, toNat_setWidth, toNat_sshiftRight hn]
  omega

/-! ### Completing one piece -/

/-- A request whose next piece is the first one of `b`, before `bs`. -/
structure Ready (rq : Rq) (b : Bio) (bs : List Bio) : Prop where
  bios : rq.bios = b :: bs
  fs : rq.fs = true
  bar : rq.bar = false
  ok : ∀ c ∈ b :: bs, BioOk c
  uptodate : ∀ c ∈ bs, c.uptodate = true
  dataLen : rq.dataLen.toNat = b.size + bioBytes bs
  buffer : rq.buffer = bioData b
  inRange : rq.sector.toNat + rq.dataLen.toNat / 512 < 2 ^ 64

/-- The request after `n` bytes, with `b` and `bs` left. -/
def movedBy (rq : Rq) (n : ℕ) (b : Bio) (bs : List Bio) (ended : List (ℕ × ℤ)) : Rq :=
  { rq with
    bios := b :: bs
    dataLen := rq.dataLen - BitVec.ofNat 32 n
    buffer := bioData b
    sector := rq.sector + moved n
    ended := rq.ended ++ ended }

section Piece

variable {rq : Rq} {b : Bio} {bs : List Bio} {e : Bool} {ended : List (ℕ × ℤ)}

lemma bios_movedBy : (movedBy rq n b bs ended).bios = b :: bs := rfl

lemma ended_movedBy : (movedBy rq n b bs ended).ended = rq.ended ++ ended := rfl

section

variable (h : Ready rq b bs)

include h

lemma Ready.cur : bioCurBytes b < 2 ^ 31 ∧ 512 ∣ bioCurBytes b :=
  have hb := h.ok b (by simp)
  (hb.chunks_dvd _ hb.first.mem).symm

lemma Ready.curBytes : (blkRqCurBytes rq).toNat = bioCurBytes b := by
  have := h.cur.1
  simp only [blkRqCurBytes, h.bios, toNat_ofNat]
  omega

lemma Ready.curSectors : (blkRqCurSectors rq).toNat = bioCurBytes b / 512 := by
  simp only [blkRqCurSectors, blkRqCurBytes, h.bios]
  exact toNat_sshiftRight h.cur.1

lemma Ready.toNat_sector {b' : Bio} {bs' : List Bio} :
    (movedBy rq (bioCurBytes b) b' bs' ended).sector.toNat =
      rq.sector.toNat + bioCurBytes b / 512 := by
  have hrange := h.inRange
  have hlen := h.dataLen
  have hcur := (h.ok b (by simp)).cur_le
  rw [movedBy, toNat_add, toNat_moved h.cur.1]
  exact Nat.mod_eq_of_lt (by omega)

lemma Ready.move {b' : Bio} {bs' : List Bio} (hok : ∀ c ∈ b' :: bs', BioOk c)
    (hup : ∀ c ∈ bs', c.uptodate = true)
    (hlen : rq.dataLen.toNat = bioCurBytes b + (b'.size + bioBytes bs')) :
    Ready (movedBy rq (bioCurBytes b) b' bs' ended) b' bs' := by
  have hsub : (movedBy rq (bioCurBytes b) b' bs' ended).dataLen.toNat =
      rq.dataLen.toNat - bioCurBytes b := by
    rw [movedBy, toNat_sub, toNat_ofNat]
    omega
  have hrange := h.inRange
  refine ⟨rfl, h.fs, h.bar, hok, hup, by omega, rfl, ?_⟩
  rw [h.toNat_sector, hsub]
  omega

lemma Ready.move_next (hok : BioOk (next b e)) (hlen : b.iovec.len = bioCurBytes b)
    (hlt : bioCurBytes b < b.size) (ended : List (ℕ × ℤ)) :
    Ready (movedBy rq (bioCurBytes b) (next b e) bs ended) (next b e) bs := by
  apply h.move (forall_mem_cons.2 ⟨hok, (forall_mem_cons.1 h.ok).2⟩) h.uptodate
  simp only [h.dataLen, next, hlen]
  omega

end

lemma Ready.move_bio {b' : Bio} (h : Ready rq b (b' :: bs)) (hsize : b.size = bioCurBytes b)
    (ended : List (ℕ × ℤ)) : Ready (movedBy rq (bioCurBytes b) b' bs ended) b' bs := by
  apply h.move (forall_mem_cons.1 h.ok).2 (forall_mem_cons.1 h.uptodate).2
  rw [h.dataLen, hsize, bioBytes, map_cons, sum_cons, bioBytes]

/-- A request that is not done is moved on, if its length is enough for the bios that are left. -/
lemma Ready.finish_eq {p : Progress} {b' c : Bio} (hn : p.total = BitVec.ofNat 32 n)
    (hfs : rq.fs = true) (hfinish : finishBio rq.bar (errorOf e) c p = (b', []))
    (hended : p.ended = rq.ended ++ ended) (h : Ready (movedBy rq n b' bs ended) b' bs) :
    finish rq (errorOf e) p (c :: bs) = (true, movedBy rq n b' bs ended) := by
  have hbotched : ¬ rq.dataLen - BitVec.ofNat 32 n < BitVec.ofNat 32 (bioCurBytes b') := by
    have hlen : (rq.dataLen - BitVec.ofNat 32 n).toNat = b'.size + bioBytes bs := h.dataLen
    have hcur := (h.ok b' (by simp)).cur_le
    rw [lt_def, hlen, toNat_ofNat]
    omega
  simp only [finish, hfinish, hn, hended, append_nil, blkRqBytes, blkRqCurBytes, if_neg hbotched]
  rw [if_pos (by rw [hfs]; rfl)]
  rfl

lemma Ready.blkEndRequestCur_eq {x : Progress × List Bio} (h : Ready rq b bs)
    (hx : updateLoop false (errorOf e) (b :: bs) ⟨bioCurBytes b, 0, 0, 0, rq.ended⟩ = some x) :
    blkEndRequestCur rq (errorOf e) = some (finish rq (errorOf e) x.1 x.2) := by
  rw [blkEndRequestCur, h.curBytes]
  exact blkUpdateRequest_of_updateLoop (by simp [h.bios]) (by rw [h.bar, h.bios, hx])

lemma endError_errorOf (e uptodate : Bool) :
    endError (errorOf e) uptodate = errorOf (e || !uptodate) := by
  cases e <;> cases uptodate <;> rfl

lemma Ready.blkEndRequestCur_done (h : Ready rq b []) (hsize : b.size = bioCurBytes b) :
    ∃ rq', blkEndRequestCur rq (errorOf e) = some (false, rq') ∧
      rq'.ended = rq.ended ++ [(b.ptr, errorOf (e || !b.uptodate))] := by
  have hrun := h.blkEndRequestCur_eq (e := e) (updateLoop_of_le (le_of_eq hsize))
  rw [← endError_errorOf]
  exact ⟨_, hrun, rfl⟩

lemma Ready.blkEndRequestCur_bio {b' : Bio} (h : Ready rq b (b' :: bs))
    (hsize : b.size = bioCurBytes b) : blkEndRequestCur rq (errorOf e) =
      some (true, movedBy rq (bioCurBytes b) b' bs [(b.ptr, errorOf (e || !b.uptodate))]) := by
  have hrun : updateLoop false (errorOf e) (b :: b' :: bs) ⟨bioCurBytes b, 0, 0, 0, rq.ended⟩ = _ :=
    updateLoop_of_le (le_of_eq hsize)
  rw [if_pos ⟨cons_ne_nil _ _, by rw [hsize, Nat.sub_self]⟩] at hrun
  rw [h.blkEndRequestCur_eq hrun, ← endError_errorOf]
  exact congrArg some ((h.move_bio hsize _).finish_eq (by simp [Progress.next, hsize]) h.fs
    (by rw [h.bar]; exact finishBio_zero rfl) rfl)

lemma Ready.blkEndRequestCur_next {left : List Vec} (h : Ready rq b bs) (hok : BioOk (next b e))
    (hleft : b.view.left = b.iovec :: left) (hlen : b.iovec.len = bioCurBytes b)
    (hpos : 0 < bioCurBytes b) (hlt : bioCurBytes b < b.size) :
    blkEndRequestCur rq (errorOf e) =
      some (true, movedBy rq (bioCurBytes b) (next b e) bs []) := by
  have hdrop : b.vecs.drop b.idx = b.iovec :: left := hleft
  have hrun : updateLoop false (errorOf e) (b :: bs) ⟨bioCurBytes b, 0, 0, 0, rq.ended⟩ =
      some (⟨0, BitVec.ofNat 32 (bioCurBytes b), bioCurBytes b, 1, rq.ended⟩, b :: bs) := by
    rw [updateLoop, add_zero, hdrop, scan, if_neg (not_le.2 hlt)]
    simp [hlen, not_lt.2 (le_of_lt hlt)]
  rw [h.blkEndRequestCur_eq hrun]
  refine congrArg some ((h.move_next hok hlen hlt _).finish_eq rfl h.fs ?_ (append_nil _).symm)
  -- all of `nr_bytes` is used up, so the vector stays as it is
  have hskip : (fun v : Vec => v.skip 0) = id := funext fun v => by simp [Vec.skip]
  have hcut : ¬ bioCurBytes b > b.size := by omega
  have hrest : ¬ b.size - bioCurBytes b = 0 := by omega
  rw [h.bar, finishBio, if_pos (ne_of_gt hpos)]
  simp only [reqBioEndio, Bool.false_eq_true, if_false, if_neg hcut, if_neg hrest, hskip, modify_id,
    next, hlen]
  cases e <;> simp [errorOf]

end Piece

/-! ### The whole transfer -/

/-- How the bios end from the call number `i` on, in the middle of a transfer: an error of an
earlier piece of `b` is in its flag. -/
def endingsFrom (fails : ℕ → Bool) (i : ℕ) (b : Bio) (bs : List Bio) : List (ℕ × ℤ) :=
  (b.ptr, errorOf (!b.uptodate || (List.range' i (chunks b).length).any fails)) ::
    endings fails (i + (chunks b).length) bs

section Transfer

variable {fails : ℕ → Bool} {host : ℕ → Cs} {rq : Rq} {b : Bio} {bs : List Bio}
  {c : Chunk} {i : ℕ}

lemma endingsFrom_of_uptodate (hb : b.uptodate = true) :
    endingsFrom fails i b bs = endings fails i (b :: bs) := by
  simp [endingsFrom, endings, hb]

lemma endingsFrom_last (hb : chunks b = [c]) : endingsFrom fails i b bs =
      (b.ptr, errorOf (fails i || !b.uptodate)) :: endings fails (i + 1) bs := by
  simp [endingsFrom, hb, Bool.or_comm]

lemma endingsFrom_more (hb : chunks b = c :: chunks (next b (fails i))) :
    endingsFrom fails i b bs = endingsFrom fails (i + 1) (next b (fails i)) bs := by
  rw [endingsFrom, endingsFrom, hb, length_cons, List.range'_succ, any_cons]
  simp only [next, Bool.not_and, Bool.not_not, Bool.or_assoc, List.cons.injEq, true_and]
  congr 1
  omega

/-- The do-while loop follows the plan, by induction on the number of pieces left. -/
theorem Ready.transferLoop_eq (hsync : ∀ j, host j = ⟨fails j, true⟩) (h : Ready rq b bs)
    (i k : ℕ) : transferLoop host ((rq.bios.flatMap chunks).length + k) i rq =
      some ⟨plan rq.sector.toNat (rq.bios.flatMap chunks),
        rq.ended ++ endingsFrom fails i b bs⟩ := by
  obtain ⟨n, hn⟩ : ∃ n, (rq.bios.flatMap chunks).length = n := ⟨_, rfl⟩
  have hchunks : rq.bios.flatMap chunks = chunks b ++ bs.flatMap chunks := by
    rw [h.bios, flatMap_cons]
  induction n generalizing rq b bs i with
  | zero =>
    have hmem := (h.ok b (by simp)).first.mem
    rw [List.length_eq_zero_iff.mp hn] at hchunks
    simp [(append_eq_nil_iff.1 hchunks.symm).1] at hmem
  | succ n ih =>
    rw [hn, Nat.add_right_comm, transferLoop]
    simp only [hsync, h.curSectors, blkRqPos, h.buffer, Bool.true_eq_false, if_false]
    cases (h.ok b (by simp)).first with
    | last hb hsize =>
      cases bs with
      | nil =>
        obtain ⟨rq', hrun, hended⟩ := h.blkEndRequestCur_done hsize
        rw [hrun, endingsFrom_last hb]
        simp [hchunks, hb, plan, endings, hended]
      | cons b' bs =>
        have hn' : ((b' :: bs).flatMap chunks).length = n := by
          simpa [hchunks, hb] using hn
        have ih := ih (h.move_bio hsize [(b.ptr, errorOf (fails i || !b.uptodate))]) (i + 1) hn' rfl
        rw [bios_movedBy, hn', h.toNat_sector,
          endingsFrom_of_uptodate (h.uptodate b' (by simp))] at ih
        rw [h.blkEndRequestCur_bio hsize, endingsFrom_last hb, hchunks, hb]
        simp [ih, plan, ended_movedBy]
    | more left hb hok hleft hlen hpos hlt =>
      have hn' : ((next b (fails i) :: bs).flatMap chunks).length = n := by
        simpa [hchunks, hb (fails i)] using hn
      have ih := ih (h.move_next (hok (fails i)) hlen hlt []) (i + 1) hn' rfl
      rw [bios_movedBy, hn', h.toNat_sector] at ih
      rw [h.blkEndRequestCur_next (hok _) hleft hlen hpos hlt, endingsFrom_more (hb _), hchunks,
        hb (fails i)]
      simp [ih, plan, ended_movedBy]

end Transfer

namespace FsRequest

variable (r : FsRequest) {host : ℕ → Cs} {fails : ℕ → Bool}

/-- The pieces of a request. -/
def pieces : List Chunk := r.bios.flatMap chunks

lemma ready : ∃ b bs, r.bios = b :: bs ∧ Ready r.toRq b bs := by
  cases hbios : r.bios with
  | nil => exact absurd hbios r.chain
  | cons b bs =>
    refine ⟨b, bs, rfl, hbios, r.fs_eq, r.bar_eq, hbios ▸ r.ok, ?_, ?_, ?_, r.inRange⟩
    · exact fun c hc => r.uptodate c (by simp [hbios, hc])
    · simp [r.dataLen_eq, hbios, bioBytes]
    · simp [r.buffer_eq, hbios]

lemma pieces_dvd : ∀ c ∈ r.pieces, 512 ∣ c.len := by
  intro c hc
  obtain ⟨b, hb, hcb⟩ := List.mem_flatMap.mp hc
  exact ((r.ok b hb).chunks_dvd c hcb).1

lemma pieces_sum : (r.pieces.map (·.len)).sum = r.dataLen.toNat := by
  have hok := r.ok
  rw [r.dataLen_eq, pieces]
  generalize r.bios = bios at hok
  induction bios with
  | nil => rfl
  | cons b _ ih =>
    simp only [flatMap_cons, map_append, sum_append, bioBytes, map_cons, sum_cons]
    rw [(hok b (by simp)).chunks_sum, ih fun c hc => hok c (by simp [hc]), bioBytes]

/-- The transfer of a request, whatever its calls report. -/
theorem transferLoop_eq (hsync : ∀ j, host j = ⟨fails j, true⟩) (i k : ℕ) :
    transferLoop host (r.pieces.length + k) i r.toRq =
      some ⟨plan r.sector.toNat r.pieces, endings fails i r.bios⟩ := by
  obtain ⟨b, bs, hbios, hready⟩ := r.ready
  rw [pieces, hready.transferLoop_eq hsync, r.ended_eq, nil_append,
    endingsFrom_of_uptodate (r.uptodate b (by simp [hbios])), hbios]

end FsRequest

lemma endings_append {fails : ℕ → Bool} {i : ℕ} {bs cs : List Bio} : endings fails i (bs ++ cs) =
      endings fails i bs ++ endings fails (i + (bs.flatMap chunks).length) cs := by
  induction bs generalizing i with
  | nil => rfl
  | cons _ _ ih =>
    rw [List.cons_append, endings, endings, ih]
    simp [add_assoc]

@[simp] lemma length_plan : (plan s cs).length = cs.length := by
  induction cs generalizing s with
  | nil => rfl
  | cons _ _ ih => simp [plan, ih]

/-- `lkl_disk_request` transfers the requests of its queue one after the other. -/
theorem lklDiskRequest_eq {host : ℕ → Cs} {fails : ℕ → Bool} {fuel : ℕ} {rs : List FsRequest}
    (hsync : ∀ j, host j = ⟨fails j, true⟩) (hfuel : ∀ r ∈ rs, r.pieces.length ≤ fuel) (i : ℕ) :
    lklDiskRequest host fuel i (rs.map (·.toRq)) =
      some ⟨rs.flatMap fun r => plan r.sector.toNat r.pieces,
        endings fails i (rs.flatMap fun r => r.bios)⟩ := by
  induction rs generalizing i with
  | nil => rfl
  | cons r _ ih =>
    obtain ⟨k, rfl⟩ := Nat.exists_eq_add_of_le (hfuel r (by simp))
    rw [map_cons, lklDiskRequest, r.transferLoop_eq hsync]
    simp only [r.fs_eq, Bool.true_eq_false, if_false, length_plan]
    rw [ih fun q hq => hfuel q (by simp [hq]), flatMap_cons, flatMap_cons, endings_append]
    rfl

/-- Two bios, the first one with two pieces. -/
def twoBios : FsRequest where
  fs := true
  discard := false
  bar := false
  sector := 100
  dataLen := 2048
  buffer := 4096
  bios := [⟨1, [⟨4096, 0, 512⟩, ⟨8192, 512, 1024⟩], 0, 1536, 100, true⟩,
    ⟨2, [⟨12288, 0, 512⟩], 0, 512, 103, true⟩]
  ended := []
  fs_eq := rfl
  bar_eq := rfl
  chain := by decide
  ok := by
    simp only [List.mem_cons, List.not_mem_nil, or_false, forall_eq_or_imp, forall_eq]
    exact ⟨⟨by decide, by decide, by decide⟩, ⟨by decide, by decide, by decide⟩⟩
  uptodate := by decide
  dataLen_eq := rfl
  buffer_eq := rfl
  inRange := by decide
  ended_eq := rfl

example : transferLoop (fun j => ⟨j == 0, true⟩) 3 0 twoBios.toRq =
    some ⟨[⟨100, 1, 4096⟩, ⟨101, 2, 8704⟩, ⟨103, 1, 12288⟩], [(1, -5), (2, 0)]⟩ :=
  twoBios.transferLoop_eq (fun _ => rfl) 0 0

theorem lklDiskRequest_eq_twoBios :
    lklDiskRequest (fun j => ⟨j == 0, true⟩) 3 0 ([twoBios, twoBios].map (·.toRq)) =
      some ⟨[⟨100, 1, 4096⟩, ⟨101, 2, 8704⟩, ⟨103, 1, 12288⟩, ⟨100, 1, 4096⟩, ⟨101, 2, 8704⟩,
        ⟨103, 1, 12288⟩], [(1, -5), (2, 0), (1, 0), (2, 0)]⟩ :=
  lklDiskRequest_eq (fun _ => rfl) (by decide) 0

/-- Every request of the file systems is transferred exactly. The loop takes as many rounds as
the request has pieces, its calls cover the sectors of the request in order and each moves one
piece, and each bio is ended once, with an error just if one of its pieces failed. -/
theorem disk_transfer_exact (r : FsRequest) (fails : ℕ → Bool) : ∃ t : Trace,
      (∀ k, transferLoop (fun j => ⟨fails j, true⟩) (r.pieces.length + k) 0 r.toRq = some t) ∧
      t.calls.flatMap (fun c => List.range' c.sector c.nsect) =
        List.range' (blkRqPos r.toRq).toNat (blkRqSectors r.toRq).toNat ∧
      t.calls.map (fun c => Chunk.mk c.buffer (c.nsect * 512)) = r.bios.flatMap chunks ∧
      t.ended = endings fails 0 r.bios := by
  refine ⟨_, fun k => r.transferLoop_eq (fun _ => rfl) 0 k, ?_, plan_pieces r.pieces_dvd, rfl⟩
  rw [plan_sectors r.pieces_dvd, r.pieces_sum, blkRqSectors, toNat_ushiftRight,
    Nat.shiftRight_eq_div_pow]
  rfl

end LklPort.Disk
