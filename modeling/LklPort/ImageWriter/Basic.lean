import Mathlib.Order.Lattice
import LklPort.CTypes.Basic

/-!
# The image writer

`main` of `lkl-image-writer` copies a host file into a file system image that LKL has mounted. What
the functions it calls return is an input here, so that a statement about `main` is one about every
outcome of them: an error, a short count, memory that is not there.

`main` looks at none of the results of `live_lib_read`, `lkl_sys_write` and `lkl_sys_close`, and
opens the file without truncating it. When it returns 0, the file in the image holds the bytes of
the host file if all of them were read, all of them were written, and no longer file was there
before. For no other outcome is this true whatever the files hold.
-/

namespace LklPort.ImageWriter

open CTypes List

abbrev Byte := UInt8

/-- The results of the functions that `main` calls. -/
structure Outcomes where
  argc : ℕ
  lklEnvInit : ℤ
  /-- `live_lib_open` of the image. -/
  imageOpen : ℤ
  /-- `lkl_disk_add_disk`, a device number. -/
  lklDiskAddDisk : ℕ
  lklMountDev : ℤ
  lklSysChdir : Val .long
  lklSysChroot : Val .long
  /-- `live_lib_open` of the host file. -/
  fileOpen : ℤ
  /-- What is on the stack in the place of `st_size`, if `fstat` fails. -/
  fstatError : Option ℕ
  /-- `malloc` has returned a block. -/
  malloc : Bool
  /-- The number of bytes that `read` has copied, or `none` for an error. -/
  read : Option ℕ
  lklSysOpen : Val .long
  /-- The number of bytes that `lkl_sys_write` has written, or `none` for an error. -/
  lklSysWrite : Option ℕ
  lklSysClose : Val .long
  lklSysUmount : Val .long

/-- The contents of the files, and of the memory that `malloc` returns. -/
structure Files where
  /-- The host file `argv[2]`, which `live_lib_open` creates if it is not there. -/
  file : List Byte
  /-- The file `argv[2]` of the image, if it is there. -/
  image : Option (List Byte)
  fresh : ℕ → Byte

/-- How `main` ends, with the file `argv[2]` of the image. -/
inductive Exit where
  | ret (code : ℤ) (image : Option (List Byte))
  /-- The process was killed by a signal. -/
  | killed

/-! ### The program -/

def lklAddDisk (o : Outcomes) : ℤ :=
  if o.imageOpen < 0 then -1
  else if o.lklDiskAddDisk = 0 then -1
  else 0

/-- `live_lib_get_size`, for a file of length `len`. It does not check the result of `fstat`. -/
def liveLibGetSize (o : Outcomes) (len : ℕ) : ℕ := o.fstatError.getD len

/-- The buffer of `main`, where `none` is `NULL`. -/
def malloc (o : Outcomes) (f : Files) : Option (ℕ → Byte) :=
  if o.malloc then some f.fresh else none

/-- The buffer after `live_lib_read`. A read into `NULL` fails with `EFAULT`. -/
def liveLibRead (o : Outcomes) (file : List Byte) (buf : Option (ℕ → Byte)) (size : ℕ) :
    Option (ℕ → Byte) :=
  buf.map fun mem i => if i < min (o.read.getD 0) size then file.getD i 0 else mem i

/-- The file after `n` bytes of the buffer were written to its start. -/
def overwrite (old : List Byte) (mem : ℕ → Byte) (n : ℕ) : List Byte :=
  (List.range n).map mem ++ old.drop n

/-- The file after `lkl_sys_write`. The kernel shares the address space of the program and copies
from the buffer without a check, so that `NULL` kills the process. -/
def lklSysWrite (o : Outcomes) (old : List Byte) (buf : Option (ℕ → Byte)) (count : ℕ) :
    Option (List Byte) :=
  match min (o.lklSysWrite.getD 0) count, buf with
  | 0, _ => some old
  | _ + 1, none => none
  | n + 1, some mem => some (overwrite old mem (n + 1))

def main (o : Outcomes) (f : Files) : Exit :=
  if o.argc < 3 then .ret (-1) f.image
  else if o.lklEnvInit ≠ 0 then .ret (-1) f.image
  else if lklAddDisk o < 0 then .ret (-1) f.image
  else if o.lklMountDev < 0 ∨ o.lklSysChdir.num < 0 ∨ o.lklSysChroot.num < 0 then
    .ret (-1) f.image
  else if o.fileOpen < 0 then .ret (-1) f.image
  else
    let size := liveLibGetSize o f.file.length
    let buf := liveLibRead o f.file (malloc o f) size
    -- `lkl_fd` is an `int`
    if (o.lklSysOpen.cast .int).num < 0 then .ret (-1) f.image
    else
      -- `O_CREAT` without `O_TRUNC`
      match lklSysWrite o (f.image.getD []) buf size with
      | none => .killed
      | some image => .ret 0 (some image)

/-! ### When it succeeds -/

/-- The outcomes that can occur, for a host file of length `len`. -/
structure Outcomes.Valid (o : Outcomes) (len : ℕ) : Prop where
  read_le_size : o.read.getD 0 ≤ liveLibGetSize o len
  read_le : o.read.getD 0 ≤ len
  write_le_size : o.lklSysWrite.getD 0 ≤ liveLibGetSize o len

/-- Some call fails whose result `main` checks, or `main` is killed. -/
def Outcomes.Stops (o : Outcomes) : Prop :=
  o.argc < 3 ∨ o.lklEnvInit ≠ 0 ∨ o.imageOpen < 0 ∨ o.lklDiskAddDisk = 0 ∨
    (o.lklMountDev < 0 ∨ o.lklSysChdir.num < 0 ∨ o.lklSysChroot.num < 0) ∨ o.fileOpen < 0 ∨
    (o.lklSysOpen.cast .int).num < 0 ∨ (o.malloc = false ∧ 0 < o.lklSysWrite.getD 0)

/-- A byte of the buffer after `live_lib_read`. -/
def Files.buffer (f : Files) (o : Outcomes) (i : ℕ) : Byte :=
  if i < o.read.getD 0 then f.file.getD i 0 else f.fresh i

@[simp] lemma overwrite_zero (old : List Byte) (mem : ℕ → Byte) : overwrite old mem 0 = old := by
  simp [overwrite]

@[simp] lemma length_overwrite (old : List Byte) (mem : ℕ → Byte) (n : ℕ) :
    (overwrite old mem n).length = max n old.length := by
  simp [overwrite]
  omega

variable {o : Outcomes} {f : Files}

lemma lklAddDisk_neg_iff : lklAddDisk o < 0 ↔ o.imageOpen < 0 ∨ o.lklDiskAddDisk = 0 := by
  unfold lklAddDisk
  split_ifs with hopen hdev
  · simp [hopen]
  · simp [hdev]
  · simp [hopen, hdev]

lemma liveLibRead_eq (hvalid : o.Valid f.file.length) (hmalloc : o.malloc = true) :
    liveLibRead o f.file (malloc o f) (liveLibGetSize o f.file.length) = some (f.buffer o) := by
  rw [liveLibRead, malloc, if_pos hmalloc, min_eq_left hvalid.read_le_size]
  rfl

lemma lklSysWrite_eq (old : List Byte) (hvalid : o.Valid f.file.length)
    (h : ¬ (o.malloc = false ∧ 0 < o.lklSysWrite.getD 0)) :
    lklSysWrite o old (liveLibRead o f.file (malloc o f) (liveLibGetSize o f.file.length))
      (liveLibGetSize o f.file.length) =
      some (overwrite old (f.buffer o) (o.lklSysWrite.getD 0)) := by
  unfold lklSysWrite
  rw [min_eq_left hvalid.write_le_size]
  cases hn : o.lklSysWrite.getD 0 with
  | zero => simp
  | succ =>
    have hmalloc : o.malloc = true := by
      by_contra hnull
      exact h ⟨by simpa using hnull, by omega⟩
    rw [liveLibRead_eq hvalid hmalloc]

lemma lklSysWrite_null (old : List Byte) (hvalid : o.Valid f.file.length) (hnull : o.malloc = false)
    (hpos : 0 < o.lklSysWrite.getD 0) :
    lklSysWrite o old (liveLibRead o f.file (malloc o f) (liveLibGetSize o f.file.length))
      (liveLibGetSize o f.file.length) = none := by
  unfold lklSysWrite
  rw [min_eq_left hvalid.write_le_size]
  cases hn : o.lklSysWrite.getD 0 with
  | zero => omega
  | succ => simp [liveLibRead, malloc, hnull]

lemma main_of_not_stops (hvalid : o.Valid f.file.length) (h : ¬ o.Stops) : main o f =
      .ret 0 (some (overwrite (f.image.getD []) (f.buffer o) (o.lklSysWrite.getD 0))) := by
  simp only [Outcomes.Stops, not_or] at h
  obtain ⟨hargc, henv, himage, hdev, hmount, hfile, hfd, hnull⟩ := h
  have hadd : ¬ lklAddDisk o < 0 := by
    rw [lklAddDisk_neg_iff]
    exact not_or.2 ⟨himage, hdev⟩
  rw [← not_or, ← not_or] at hmount
  simp only [main, if_neg hargc, if_neg henv, if_neg hadd, if_neg hmount, if_neg hfile, if_neg hfd,
    lklSysWrite_eq _ hvalid hnull]

lemma main_of_stops (hvalid : o.Valid f.file.length) (h : o.Stops) (image : Option (List Byte)) :
    main o f ≠ .ret 0 image := by
  intro hmain
  unfold main at hmain
  split_ifs at hmain with hargc henv hadd hmount hfile hfd
  all_goals try cases hmain
  rw [lklAddDisk_neg_iff, not_or] at hadd
  obtain h | h | h | h | h | h | h | ⟨hnull, hpos⟩ := h
  · exact hargc h
  · exact henv h
  · exact hadd.1 h
  · exact hadd.2 h
  · exact hmount h
  · exact hfile h
  · exact hfd h
  · simp [lklSysWrite_null _ hvalid hnull hpos] at hmain

/-! ### When the file was written -/

/-- Files on which every missing byte shows. -/
def contrast (len imageLen : ℕ) : Files where
  file := List.replicate len 0
  image := some (List.replicate imageLen 1)
  fresh _ := 1

lemma overwrite_buffer_eq {old : List Byte} (hread : o.read.getD 0 = f.file.length)
    (hold : old.length ≤ f.file.length) : overwrite old (f.buffer o) f.file.length = f.file := by
  unfold overwrite
  rw [drop_eq_nil_of_le hold, append_nil]
  refine ext_getElem (by simp) fun i hi hi' => ?_
  simp [Files.buffer, hread, hi']

lemma contrast_law {len imageLen n : ℕ} (hread : o.read.getD 0 ≤ len)
    (h : overwrite (List.replicate imageLen 1) ((contrast len imageLen).buffer o) n =
      List.replicate len 0) : o.read.getD 0 = len ∧ n = len ∧ imageLen ≤ len := by
  have hlen := congrArg List.length h
  rw [length_overwrite, length_replicate, length_replicate] at hlen
  -- every byte is 0, so none of them comes from the old file or from the fresh memory
  have hzero : ∀ b ∈ overwrite (List.replicate imageLen 1) ((contrast len imageLen).buffer o) n,
      b = 0 := by
    rw [h]
    exact fun b => eq_of_mem_replicate
  have hn : imageLen ≤ n := by
    by_contra hlt
    have hone : (1 : Byte) ∈ (List.replicate imageLen (1 : Byte)).drop n := by
      rw [drop_replicate]
      exact List.mem_replicate.2 ⟨by omega, rfl⟩
    have := hzero 1 (mem_append_right _ hone)
    simp at this
  have hr : n ≤ o.read.getD 0 := by
    by_contra hlt
    have hone : (contrast len imageLen).buffer o (o.read.getD 0) ∈
        (List.range n).map ((contrast len imageLen).buffer o) :=
      mem_map_of_mem (List.mem_range.2 (by omega))
    have := hzero _ (mem_append_left _ hone)
    simp [Files.buffer, contrast] at this
  omega

/-- `main` reports success only for a file that was written: it returns 0 only if the file in the
image holds the bytes of the host file, whatever the files and the fresh memory hold. -/
def SuccessLaw (o : Outcomes) (len imageLen : ℕ) : Prop :=
  ∀ f : Files, f.file.length = len → (f.image.getD []).length = imageLen →
    ∀ image, main o f = .ret 0 image → image = some f.file

theorem successLaw_iff (o : Outcomes) (len imageLen : ℕ) (hvalid : o.Valid len) :
    SuccessLaw o len imageLen ↔
      o.Stops ∨ (o.read.getD 0 = len ∧ o.lklSysWrite.getD 0 = len ∧ imageLen ≤ len) := by
  constructor
  · intro hlaw
    by_cases hstops : o.Stops
    · exact .inl hstops
    · refine .inr (contrast_law hvalid.read_le ?_)
      have hlen : (contrast len imageLen).file.length = len := by simp [contrast]
      have hmain := main_of_not_stops (hlen.symm ▸ hvalid) hstops
      exact Option.some.inj (hlaw (contrast len imageLen) hlen (by simp [contrast]) _ hmain)
  · rintro h f rfl rfl image hmain
    by_cases hstops : o.Stops
    · exact absurd hmain (main_of_stops hvalid hstops image)
    · obtain ⟨hread, hwrite, himage⟩ := h.resolve_left hstops
      rw [main_of_not_stops hvalid hstops, hwrite, overwrite_buffer_eq hread himage] at hmain
      cases hmain
      rfl

/-- Every call succeeds, for a host file of two bytes. -/
def goodRun : Outcomes where
  argc := 3
  lklEnvInit := 0
  imageOpen := 3
  lklDiskAddDisk := 1
  lklMountDev := 0
  lklSysChdir := 0
  lklSysChroot := 0
  fileOpen := 4
  fstatError := none
  malloc := true
  read := some 2
  lklSysOpen := 0
  lklSysWrite := some 2
  lklSysClose := 0
  lklSysUmount := 0

theorem successLaw_goodRun : SuccessLaw goodRun 2 0 :=
  (successLaw_iff goodRun 2 0 ⟨by decide, by decide, by decide⟩).2 (.inr (by decide))

/-- The file system has no room for the second byte. -/
def shortRun : Outcomes := { goodRun with lklSysWrite := some 1 }

/-- The file of the image holds one byte of the two, and `main` returns 0. -/
theorem not_successLaw_shortRun :
    main shortRun ⟨[7, 8], none, fun _ => 0⟩ = .ret 0 (some [7]) ∧ ¬ SuccessLaw shortRun 2 0 := by
  have hmain : main shortRun ⟨[7, 8], none, fun _ => 0⟩ = .ret 0 (some [7]) := by rfl
  refine ⟨hmain, fun hlaw => ?_⟩
  have himage := hlaw ⟨[7, 8], none, fun _ => 0⟩ rfl rfl _ hmain
  simp at himage

end LklPort.ImageWriter
