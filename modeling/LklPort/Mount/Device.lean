import LklPort.Mount.FsNames
import Mathlib.Data.List.Nodup
import Mathlib.Data.List.TakeWhile
import Mathlib.Data.Nat.Digits.Defs

/-!
# Mounting a device

`lkl_mount_dev` makes a device node, a mount point below `/mnt` and mounts the one on the other.
Each of its system calls can fail, and what was made before is to be undone. The outcome of
every call is a parameter of the model: an error, or nothing, in which case the call does what
the namespace allows.

The law is that 0 is returned only for a mounted device and that an error leaves nothing behind
but `/mnt`. It holds except at three places, and exactly at these it fails.
-/

namespace LklPort.Mount

open List Function

abbrev Path := CString

/-! ### The namespace -/

inductive Node where
  | dir
  | block (devt : BitVec 32)
  | file
  deriving DecidableEq

/-- What is mounted on a directory: a file system of some type, on a device if it needs one. -/
structure Mounted where
  fsType : CString
  dev : Option (BitVec 32)

/-- The part of the namespace that matters here. File systems are mounted on directories. -/
@[ext] structure Namespace where
  nodes : Path → Option Node
  mounts : Path → Option Mounted
  mounted_dir : ∀ p, mounts p ≠ none → nodes p = some .dir

namespace Namespace

variable (ns : Namespace) (p : Path)

def create (n : Node) (hp : ns.nodes p = none) : Namespace where
  nodes := update ns.nodes p (some n)
  mounts := ns.mounts
  mounted_dir := by
    intro q hq
    have hdir := ns.mounted_dir q hq
    have hqp : q ≠ p := by rintro rfl; simp [hp] at hdir
    simpa [hqp] using hdir

def remove (hp : ns.mounts p = none) : Namespace where
  nodes := update ns.nodes p none
  mounts := ns.mounts
  mounted_dir := by
    intro q hq
    have hqp : q ≠ p := by rintro rfl; exact hq hp
    simpa [hqp] using ns.mounted_dir q hq

def mountOn (m : Mounted) (hp : ns.nodes p = some .dir) : Namespace where
  nodes := ns.nodes
  mounts := update ns.mounts p (some m)
  mounted_dir := by
    intro q hq
    by_cases hqp : q = p
    · exact hqp ▸ hp
    · exact ns.mounted_dir q (by simpa [hqp] using hq)

def unmount : Namespace where
  nodes := ns.nodes
  mounts := update ns.mounts p none
  mounted_dir := by
    intro q hq
    by_cases hqp : q = p
    · simp [hqp] at hq
    · exact ns.mounted_dir q (by simpa [hqp] using hq)

variable {ns p}

@[simp] lemma create_nodes {n : Node} (hp : ns.nodes p = none) :
    (ns.create p n hp).nodes = update ns.nodes p (some n) := rfl

@[simp] lemma create_mounts {n : Node} (hp : ns.nodes p = none) :
    (ns.create p n hp).mounts = ns.mounts := rfl

@[simp] lemma remove_nodes (hp : ns.mounts p = none) :
    (ns.remove p hp).nodes = update ns.nodes p none := rfl

@[simp] lemma remove_mounts (hp : ns.mounts p = none) : (ns.remove p hp).mounts = ns.mounts := rfl

@[simp] lemma mountOn_mounts {m : Mounted} (hp : ns.nodes p = some .dir) :
    (ns.mountOn p m hp).mounts = update ns.mounts p (some m) := rfl

lemma mounts_eq_none (hp : ns.nodes p ≠ some .dir) : ns.mounts p = none := by
  by_contra hmounted
  exact hp (ns.mounted_dir p hmounted)

end Namespace

/-! ### System calls -/

/-- An error code, as system calls return it. -/
abbrev Errno := { e : ℤ // e < 0 }

def eNOENT : Errno := ⟨-2, by decide⟩
def eNOMEM : Errno := ⟨-12, by decide⟩
def eNOTBLK : Errno := ⟨-15, by decide⟩
def eBUSY : Errno := ⟨-16, by decide⟩
def eEXIST : Errno := ⟨-17, by decide⟩
def eNODEV : Errno := ⟨-19, by decide⟩
def eNOTDIR : Errno := ⟨-20, by decide⟩
def eISDIR : Errno := ⟨-21, by decide⟩

/-- The kernel that serves the calls: its file systems, which `register_filesystem` keeps apart
by name and whose names it wants without a dot, and whose list fits a page, the outcomes of its
calls, and the content of fresh memory. -/
structure Kernel where
  registered : List FsType
  nodup : (registered.map (·.name)).Nodup
  noDot : ∀ t ∈ registered, '.' ∉ t.name
  fits : (getFilesystemList registered 0).length < pageSize
  mknod : Option Errno
  access : Option Errno
  mkdirMnt : Option Errno
  mkdir : Option Errno
  /-- The outcomes of the successive calls of `mount`. -/
  mount : ℕ → Option Errno
  umount : Option Errno
  page : CString
  page_length : page.length = pageSize

/-- `get_fs_type`. What follows the first dot of the name is a subtype, which not every type can
have. -/
def Kernel.fsType (k : Kernel) (f : CString) : Option FsType :=
  (k.registered.find? fun t => t.name = f.takeWhile (· ≠ '.')).filter fun t =>
    '.' ∉ f ∨ t.hasSubtype

/-- A call that makes a node. -/
def sysCreate (outcome : Option Errno) (ns : Namespace) (p : Path) (n : Node) : ℤ × Namespace :=
  match outcome with
  | some e => (e, ns)
  | none => if hp : ns.nodes p = none then (0, ns.create p n hp) else (eEXIST, ns)

def sysMknod (k : Kernel) (ns : Namespace) (p : Path) (devt : BitVec 32) : ℤ × Namespace :=
  sysCreate k.mknod ns p (.block devt)

def sysAccess (k : Kernel) (ns : Namespace) (p : Path) : ℤ :=
  match k.access with
  | some e => e
  | none => if ns.nodes p = none then eNOENT else 0

def sysUnlink (ns : Namespace) (p : Path) : ℤ × Namespace :=
  match hp : ns.nodes p with
  | none => (eNOENT, ns)
  | some .dir => (eISDIR, ns)
  | some (.block _) | some .file => (0, ns.remove p (Namespace.mounts_eq_none (by simp [hp])))

/-- `rmdir`, of a directory without entries. -/
def sysRmdir (ns : Namespace) (p : Path) : ℤ × Namespace :=
  match ns.nodes p with
  | none => (eNOENT, ns)
  | some .dir => if hp : ns.mounts p = none then (0, ns.remove p hp) else (eBUSY, ns)
  | some _ => (eNOTDIR, ns)

/-- `mount` for the `i`-th time: a type that needs a device is mounted with the device of the
node `dev`, and the others are mounted whatever `dev` is. -/
def sysMount (k : Kernel) (i : ℕ) (ns : Namespace) (dev mnt : Path) (f : CString) : ℤ × Namespace :=
  match k.mount i with
  | some e => (e, ns)
  | none =>
    match k.fsType f with
    | none => (eNODEV, ns)
    | some t =>
      if hmnt : ns.nodes mnt = some .dir then
        if t.requiresDev then
          match ns.nodes dev with
          | some (.block d) => (0, ns.mountOn mnt ⟨f, some d⟩ hmnt)
          | none => (eNOENT, ns)
          | some _ => (eNOTBLK, ns)
        else (0, ns.mountOn mnt ⟨f, none⟩ hmnt)
      else if ns.nodes mnt = none then (eNOENT, ns)
      else (eNOTDIR, ns)

def sysUmount (k : Kernel) (ns : Namespace) (p : Path) : ℤ × Namespace :=
  match k.umount with
  | some e => (e, ns)
  | none => (0, ns.unmount p)

/-! ### `lkl_mount_dev` -/

/-- The loop of `lkl_mount` over the names. -/
def mountLoop (k : Kernel) (dev mnt : Path) : ℕ → Namespace → ℤ → List CString → ℤ × Namespace
  | _, ns, err, [] => (err, ns)
  | i, ns, _, f :: fs =>
    let r := sysMount k i ns dev mnt f
    if r.1 = 0 then r else mountLoop k dev mnt (i + 1) r.2 r.1 fs

def lklMount (k : Kernel) (ns : Namespace) (dev mnt : Path) : ℤ × Namespace :=
  mountLoop k dev mnt 0 ns 1 (visited (getFsNames k.registered k.page))

/-- `%016x`. -/
def hex16 (n : BitVec 32) : CString := List.leftpad 16 '0' (Nat.toDigits 16 n.toNat)

/-- `snprintf` of `s` to a buffer that holds `buf`. A size that is negative as an `int` is
refused, and the buffer stays as it is. -/
def snprintf (buf : CString) (size : ℤ) (s : CString) : CString :=
  if size < 0 then buf else s.take (size - 1).toNat

/-- The arguments of `lkl_mount_dev`, with the content of the buffer `mnt_str` before. -/
structure Args where
  devt : BitVec 32
  fsType : Option CString
  mntStr : CString
  mntStrLen : ℤ

def mntDir : Path := "/mnt".toList

def Args.devStr (a : Args) : Path :=
  snprintf "/dev/xxxxxxxxxxxxxxxx".toList 22 ("/dev/".toList ++ hex16 a.devt)

/-- `mnt_str` after it is printed. -/
def Args.mntPath (a : Args) : Path :=
  snprintf a.mntStr a.mntStrLen ("/mnt/".toList ++ hex16 a.devt)

/-- `mnt_str_len` as it is compared with a `sizeof`. -/
def Args.size (a : Args) : ℤ := a.mntStrLen % 2 ^ 64

/-- What `lkl_mount_dev` leaves: its value, the string in `mnt_str` and the namespace. -/
structure Result where
  ret : ℤ
  path : Path
  ns : Namespace

/-- The part of `lkl_mount_dev` that sees to `/mnt`. -/
def ensureMnt (k : Kernel) (ns : Namespace) : ℤ × Namespace :=
  let err := sysAccess k ns mntDir
  if err < 0 then
    if err = eNOENT then sysCreate k.mkdirMnt ns mntDir .dir else (err, ns)
  else (err, ns)

/-- The mount of `lkl_mount_dev`. -/
def mountAny (k : Kernel) (a : Args) (ns : Namespace) : ℤ × Namespace :=
  match a.fsType with
  | some f => sysMount k 0 ns a.devStr a.mntPath f
  | none => lklMount k ns a.devStr a.mntPath

def lklMountDev (k : Kernel) (a : Args) (ns : Namespace) : Result :=
  if a.size < 22 then ⟨eNOMEM, a.mntStr, ns⟩
  else
    let mknod := sysMknod k ns a.devStr a.devt
    if mknod.1 < 0 then ⟨mknod.1, a.mntPath, mknod.2⟩
    else
      let mnt := ensureMnt k mknod.2
      if mnt.1 < 0 then ⟨mnt.1, a.mntPath, mnt.2⟩
      else
        let mkdir := sysCreate k.mkdir mnt.2 a.mntPath .dir
        if mkdir.1 < 0 then ⟨mkdir.1, a.mntPath, (sysUnlink mkdir.2 a.devStr).2⟩
        else
          let mount := mountAny k a mkdir.2
          if mount.1 < 0 then
            ⟨mount.1, a.mntPath, (sysRmdir (sysUnlink mount.2 a.devStr).2 a.mntPath).2⟩
          else ⟨0, a.mntPath, mount.2⟩

/-! ### The law and its exceptions -/

/-- The namespace is as it was, but for `/mnt` perhaps. -/
def Restored (ns ns' : Namespace) : Prop :=
  ns' = ns ∨ ∃ hmnt, ns' = ns.create mntDir .dir hmnt

/-- A mount that returns 0 has mounted the device on the path it returns, and one that fails
leaves the namespace as it was. -/
structure MountLaw (k : Kernel) (a : Args) (ns : Namespace) : Prop where
  honest : (lklMountDev k a ns).ret = 0 →
    ∃ f, (lklMountDev k a ns).ns.mounts (lklMountDev k a ns).path = some ⟨f, some a.devt⟩
  restored : (lklMountDev k a ns).ret ≠ 0 → Restored ns (lklMountDev k a ns).ns

/-- The run of `lkl_mount_dev` up to the mount, with the namespaces after its calls. -/
structure Prepared (k : Kernel) (a : Args) (ns ns₁ ns₂ ns₃ : Namespace) : Prop where
  size : ¬ a.size < 22
  mknod : sysMknod k ns a.devStr a.devt = (0, ns₁)
  mnt : ensureMnt k ns₁ = (0, ns₂)
  mkdir : sysCreate k.mkdir ns₂ a.mntPath .dir = (0, ns₃)

/-- The ways in which `lkl_mount_dev` breaks its law. -/
inductive Escape (k : Kernel) (a : Args) (ns : Namespace) : Prop where
  /-- `/mnt` cannot be had: the error is returned and the device node stays. -/
  | stranded {ns₁ ns₂ : Namespace} {err : ℤ} (hsize : ¬ a.size < 22)
      (hmknod : sysMknod k ns a.devStr a.devt = (0, ns₁)) (hmnt : ensureMnt k ns₁ = (err, ns₂))
      (herr : err < 0)
  /-- There is no file system to try: `lkl_mount` returns 1, which is not an error. -/
  | untried {ns₁ ns₂ ns₃ : Namespace} (hprep : Prepared k a ns ns₁ ns₂ ns₃)
      (hfs : a.fsType = none) (hnames : fsNames k.registered = [])
  /-- The given type needs no device, and its mount ignores the device. -/
  | nodev {ns₁ ns₂ ns₃ : Namespace} {f : CString} {t : FsType}
      (hprep : Prepared k a ns ns₁ ns₂ ns₃) (hfs : a.fsType = some f)
      (ht : k.fsType f = some t) (hnodev : t.requiresDev = false) (hmount : k.mount 0 = none)

variable {dev : Path} {d : BitVec 32}

/-! ### What the calls can do -/

section Calls

variable {k : Kernel} {ns : Namespace}

lemma sysCreate_cases (outcome : Option Errno) (ns : Namespace) (p : Path) (n : Node) :
    (∃ e < 0, sysCreate outcome ns p n = (e, ns)) ∨
      ∃ hp, sysCreate outcome ns p n = (0, ns.create p n hp) := by
  unfold sysCreate
  split
  · next e => exact .inl ⟨e, e.2, rfl⟩
  · split_ifs with hp
    · exact .inr ⟨hp, rfl⟩
    · exact .inl ⟨eEXIST, eEXIST.2, rfl⟩

lemma sysCreate_eq {outcome : Option Errno} {ns' : Namespace} {p : Path} {n : Node}
    (h : sysCreate outcome ns p n = (0, ns')) : ∃ hp, ns' = ns.create p n hp := by
  rcases sysCreate_cases outcome ns p n with ⟨e, he, heq⟩ | ⟨hp, heq⟩
  · cases heq.symm.trans h
    exact absurd he (lt_irrefl 0)
  · cases heq.symm.trans h
    exact ⟨hp, rfl⟩

lemma sysAccess_le (k : Kernel) (ns : Namespace) (p : Path) : sysAccess k ns p ≤ 0 := by
  unfold sysAccess
  split
  · next e _ => exact le_of_lt e.2
  · split_ifs
    · exact le_of_lt eNOENT.2
    · exact le_refl 0

lemma ensureMnt_cases (k : Kernel) (ns : Namespace) :
    (∃ e < 0, ensureMnt k ns = (e, ns)) ∨ ∃ ns', ensureMnt k ns = (0, ns') ∧ Restored ns ns' := by
  have hle := sysAccess_le k ns mntDir
  simp only [ensureMnt]
  split_ifs with hneg henoent
  · rcases sysCreate_cases k.mkdirMnt ns mntDir .dir with hfail | ⟨hmnt, hmade⟩
    · exact .inl hfail
    · exact .inr ⟨_, hmade, .inr ⟨hmnt, rfl⟩⟩
  · exact .inl ⟨_, hneg, rfl⟩
  · have hzero : sysAccess k ns mntDir = 0 := by omega
    exact .inr ⟨ns, by rw [hzero], .inl rfl⟩

lemma sysMount_cases (hdev : ns.nodes dev = some (.block d)) (k : Kernel) (i : ℕ) (mnt : Path)
    (f : CString) : (∃ e < 0, sysMount k i ns dev mnt f = (e, ns)) ∨
      ∃ t hmnt, k.mount i = none ∧ k.fsType f = some t ∧ sysMount k i ns dev mnt f =
        (0, ns.mountOn mnt ⟨f, if t.requiresDev then some d else none⟩ hmnt) := by
  unfold sysMount
  split
  · next e _ => exact .inl ⟨e, e.2, rfl⟩
  · next hmount =>
    split
    · exact .inl ⟨eNODEV, eNODEV.2, rfl⟩
    · next t ht =>
      by_cases hmnt : ns.nodes mnt = some .dir
      · refine .inr ⟨t, hmnt, hmount, ht, ?_⟩
        by_cases hreq : t.requiresDev = true
        · simp [hmnt, hdev, hreq]
        · simp [hmnt, hreq]
      · left
        by_cases hnone : ns.nodes mnt = none
        · exact ⟨eNOENT, eNOENT.2, by simp [hnone]⟩
        · exact ⟨eNOTDIR, eNOTDIR.2, by simp [hmnt, hnone]⟩

lemma requiresDev_of_mem {f : CString} {t : FsType} (hf : f ∈ fsNames k.registered)
    (ht : k.fsType f = some t) : t.requiresDev = true := by
  obtain ⟨u, hu, rfl⟩ := List.mem_map.mp hf
  obtain ⟨humem, hureq⟩ := List.mem_filter.mp hu
  have hu := (listed_isPrefix _ _).subset humem
  have hdot : u.name.takeWhile (· ≠ '.') = u.name := by
    rw [takeWhile_eq_self_iff]
    exact fun c hc => decide_eq_true (ne_of_mem_of_not_mem hc (k.noDot u hu))
  obtain ⟨hfind, -⟩ := Option.filter_eq_some_iff.mp ht
  rw [hdot] at hfind
  have htname : t.name = u.name := by simpa using List.find?_some hfind
  have htu : t = u := inj_on_of_nodup_map k.nodup (mem_of_find?_eq_some hfind) hu htname
  exact htu ▸ hureq

lemma mountLoop_cases {mnt : Path} (hdev : ns.nodes dev = some (.block d)) {fs : List CString}
    (hfs : ∀ f ∈ fs, f ∈ fsNames k.registered) (i : ℕ) {err : ℤ} (herr : fs = [] → err < 0) :
    (∃ e < 0, mountLoop k dev mnt i ns err fs = (e, ns)) ∨
      ∃ f hmnt, mountLoop k dev mnt i ns err fs = (0, ns.mountOn mnt ⟨f, some d⟩ hmnt) := by
  induction fs generalizing i err with
  | nil => exact .inl ⟨err, herr rfl, rfl⟩
  | cons f _ ih =>
    rw [mountLoop]
    rcases sysMount_cases hdev k i mnt f with ⟨e, he, heq⟩ | ⟨t, hmnt, _, ht, heq⟩
    · simp only [heq, ne_of_lt he, if_false]
      exact ih (fun g hg => hfs g (by simp [hg])) (i + 1) fun _ => he
    · have hreq := requiresDev_of_mem (hfs f (by simp)) ht
      simp only [heq, if_true, hreq]
      exact .inr ⟨f, hmnt, rfl⟩

lemma lklMount_cases (hdev : ns.nodes dev = some (.block d)) (mnt : Path) :
    (fsNames k.registered = [] ∧ lklMount k ns dev mnt = (1, ns)) ∨
      (∃ e < 0, lklMount k ns dev mnt = (e, ns)) ∨
      ∃ f hmnt, lklMount k ns dev mnt = (0, ns.mountOn mnt ⟨f, some d⟩ hmnt) := by
  rw [lklMount, visited_getFsNames (by rw [k.page_length]; exact k.fits)]
  by_cases hnames : fsNames k.registered = []
  · exact .inl ⟨hnames, by rw [hnames, mountLoop]⟩
  · exact .inr (mountLoop_cases hdev (fun _ hf => hf) 0 fun hnil => absurd hnil hnames)

end Calls

/-! ### Undoing -/

section Undo

variable {ns : Namespace} {p q : Path} {d : BitVec 32} {n : Node}

lemma sysUnlink_block (hp : ns.nodes p = some (.block d)) :
    (sysUnlink ns p).2.nodes = update ns.nodes p none ∧ (sysUnlink ns p).2.mounts = ns.mounts := by
  unfold sysUnlink
  split <;> simp_all

lemma sysUnlink_create (hp : ns.nodes p = none) :
    (sysUnlink (ns.create p (.block d) hp) p).2 = ns := by
  have hblock : (ns.create p (.block d) hp).nodes p = some (.block d) := by simp
  obtain ⟨hnodes, hmounts⟩ := sysUnlink_block hblock
  ext1
  · rw [hnodes, Namespace.create_nodes, update_idem, ← hp, update_eq_self]
  · rw [hmounts, Namespace.create_mounts]

lemma sysUnlink_create_of_block (hp : ns.nodes p = some (.block d)) (hq : ns.nodes q = none) :
    ∃ hq', (sysUnlink (ns.create q n hq) p).2 = (sysUnlink ns p).2.create q n hq' := by
  have hpq : p ≠ q := by rintro rfl; simp [hp] at hq
  have hblock : (ns.create q n hq).nodes p = some (.block d) := by simp [hpq, hp]
  obtain ⟨hnodes, hmounts⟩ := sysUnlink_block hblock
  obtain ⟨hnodes', hmounts'⟩ := sysUnlink_block hp
  have hq' : (sysUnlink ns p).2.nodes q = none := by simp [hnodes', hpq.symm, hq]
  refine ⟨hq', ?_⟩
  ext1
  · rw [hnodes, Namespace.create_nodes, Namespace.create_nodes, hnodes', update_comm hpq]
  · rw [hmounts, Namespace.create_mounts, Namespace.create_mounts, hmounts']

lemma sysRmdir_create (hp : ns.nodes p = none) : (sysRmdir (ns.create p .dir hp) p).2 = ns := by
  have hmounts : ns.mounts p = none := Namespace.mounts_eq_none (by simp [hp])
  ext1 <;> simp [sysRmdir, hmounts, ← hp]

end Undo

/-! ### The law holds exactly without an escape -/

section Law

variable {k : Kernel} {a : Args} {ns ns₁ ns₂ ns₃ : Namespace}

lemma Args.devStr_ne_mntDir (a : Args) : a.devStr ≠ mntDir := by
  simp [Args.devStr, snprintf, mntDir]

lemma ensureMnt_undo (hmknod : sysMknod k ns a.devStr a.devt = (0, ns₁))
    (hmnt : ensureMnt k ns₁ = (0, ns₂)) :
    ns₂.nodes a.devStr = some (.block a.devt) ∧ Restored ns (sysUnlink ns₂ a.devStr).2 := by
  obtain ⟨hdev, rfl⟩ := sysCreate_eq hmknod
  have hblock : (ns.create a.devStr (.block a.devt) hdev).nodes a.devStr =
      some (.block a.devt) := by simp
  rcases ensureMnt_cases k (ns.create a.devStr (.block a.devt) hdev) with
    ⟨e, he, heq⟩ | ⟨_, heq, hrestored⟩
  · cases heq.symm.trans hmnt
    exact absurd he (lt_irrefl 0)
  · cases heq.symm.trans hmnt
    rcases hrestored with rfl | ⟨hnone, rfl⟩
    · exact ⟨hblock, .inl (sysUnlink_create hdev)⟩
    · obtain ⟨hmade, heq⟩ := sysUnlink_create_of_block (n := .dir) hblock hnone
      refine ⟨by simp [a.devStr_ne_mntDir], .inr ⟨by rwa [sysUnlink_create] at hmade, ?_⟩⟩
      simp only [heq, sysUnlink_create]

section

variable (h : Prepared k a ns ns₁ ns₂ ns₃)

include h

/-- A prepared mount has the device node in place, and unlinking it and removing the mount point
restores the namespace. -/
lemma Prepared.undo : ns₃.nodes a.devStr = some (.block a.devt) ∧ ns₃.nodes a.mntPath = some .dir ∧
      ns₃.mounts a.mntPath = none ∧
      Restored ns (sysRmdir (sysUnlink ns₃ a.devStr).2 a.mntPath).2 := by
  obtain ⟨hblock, hrestored⟩ := ensureMnt_undo h.mknod h.mnt
  obtain ⟨hpath, rfl⟩ := sysCreate_eq h.mkdir
  have hne : a.devStr ≠ a.mntPath := by
    intro heq
    simp [heq, hpath] at hblock
  obtain ⟨hpath', heq⟩ := sysUnlink_create_of_block hblock hpath
  have hmounts : ns₂.mounts a.mntPath = none := Namespace.mounts_eq_none (by simp [hpath])
  refine ⟨by simp [hne, hblock], by simp, hmounts, ?_⟩
  rw [heq, sysRmdir_create]
  exact hrestored

lemma Prepared.lklMountDev_eq : lklMountDev k a ns =
      if (mountAny k a ns₃).1 < 0 then
        ⟨(mountAny k a ns₃).1, a.mntPath,
          (sysRmdir (sysUnlink (mountAny k a ns₃).2 a.devStr).2 a.mntPath).2⟩
      else ⟨0, a.mntPath, (mountAny k a ns₃).2⟩ := by
  simp only [lklMountDev, h.size, h.mknod, h.mnt, h.mkdir, if_false, lt_irrefl]

lemma Prepared.mountAny_cases (hescape : ¬ Escape k a ns) : (∃ e < 0, mountAny k a ns₃ = (e, ns₃)) ∨
      ∃ f hmnt, mountAny k a ns₃ = (0, ns₃.mountOn a.mntPath ⟨f, some a.devt⟩ hmnt) := by
  obtain ⟨hblock, -⟩ := h.undo
  cases hfs : a.fsType with
  | none =>
    simp only [mountAny, hfs]
    rcases lklMount_cases hblock a.mntPath with ⟨hnames, -⟩ | hcases
    · exact absurd (.untried h hfs hnames) hescape
    · exact hcases
  | some f =>
    simp only [mountAny, hfs]
    rcases sysMount_cases hblock k 0 a.mntPath f with hfail | ⟨t, hmnt, hmount, ht, heq⟩
    · exact .inl hfail
    · cases hreq : t.requiresDev with
      | false => exact absurd (.nodev h hfs ht hreq hmount) hescape
      | true =>
        rw [hreq] at heq
        exact .inr ⟨f, hmnt, heq⟩

end

lemma lklMountDev_cases (hescape : ¬ Escape k a ns) :
    (∃ e < 0, ∃ p ns', lklMountDev k a ns = ⟨e, p, ns'⟩ ∧ Restored ns ns') ∨
      ∃ ns₁ ns₂ ns₃ f hdir, Prepared k a ns ns₁ ns₂ ns₃ ∧ lklMountDev k a ns =
        ⟨0, a.mntPath, ns₃.mountOn a.mntPath ⟨f, some a.devt⟩ hdir⟩ := by
  by_cases hsize : a.size < 22
  · exact .inl ⟨eNOMEM, eNOMEM.2, a.mntStr, ns, by rw [lklMountDev, if_pos hsize], .inl rfl⟩
  rcases sysCreate_cases k.mknod ns a.devStr (.block a.devt) with ⟨e, he, hmknod⟩ | ⟨hdev, hmknod⟩
  · exact .inl ⟨e, he, a.mntPath, ns, by simp [lklMountDev, hsize, sysMknod, hmknod, he], .inl rfl⟩
  obtain ⟨ns₁, hmknod⟩ : ∃ ns₁, sysMknod k ns a.devStr a.devt = (0, ns₁) := ⟨_, hmknod⟩
  obtain ⟨e, ns₂, hmnt⟩ : ∃ e ns₂, ensureMnt k ns₁ = (e, ns₂) := ⟨_, _, rfl⟩
  by_cases he : e < 0
  · exact absurd (.stranded hsize hmknod hmnt he) hescape
  have hzero : e = 0 := by
    rcases ensureMnt_cases k ns₁ with ⟨e', he', heq⟩ | ⟨_, heq, -⟩ <;>
      rw [hmnt, Prod.mk.injEq] at heq <;> omega
  subst hzero
  obtain ⟨-, hrestored⟩ := ensureMnt_undo hmknod hmnt
  rcases sysCreate_cases k.mkdir ns₂ a.mntPath .dir with ⟨e, he, hmkdir⟩ | ⟨hpath, hmkdir⟩
  · refine .inl ⟨e, he, a.mntPath, (sysUnlink ns₂ a.devStr).2, ?_, hrestored⟩
    simp [lklMountDev, hsize, hmknod, hmnt, hmkdir, he]
  have hprep : Prepared k a ns ns₁ ns₂ _ := ⟨hsize, hmknod, hmnt, hmkdir⟩
  have heq := hprep.lklMountDev_eq
  rcases hprep.mountAny_cases hescape with ⟨e, he, hmount⟩ | ⟨f, hdir, hmount⟩
  · simp only [hmount, he, if_true] at heq
    exact .inl ⟨e, he, _, _, heq, hprep.undo.2.2.2⟩
  · simp only [hmount, lt_irrefl, if_false] at heq
    exact .inr ⟨_, _, _, f, hdir, hprep, heq⟩

theorem mountLaw_of_not_escape (hescape : ¬ Escape k a ns) : MountLaw k a ns := by
  rcases lklMountDev_cases hescape with ⟨e, he, p, ns', heq, hrestored⟩ | ⟨_, _, _, f, hdir, _, heq⟩
  · constructor
    · intro hzero
      rw [heq] at hzero
      exact absurd hzero (ne_of_lt he)
    · exact fun _ => heq ▸ hrestored
  · constructor
    · exact fun _ => ⟨f, by simp [heq]⟩
    · exact absurd (by rw [heq])

theorem not_mountLaw_of_escape (hescape : Escape k a ns) : ¬ MountLaw k a ns := by
  intro hlaw
  cases hescape with
  | @stranded _ ns₂ e hsize hmknod hmnt he =>
    have heq : lklMountDev k a ns = ⟨e, a.mntPath, ns₂⟩ := by
      simp [lklMountDev, hsize, hmknod, hmnt, he]
    obtain ⟨hdev, rfl⟩ := sysCreate_eq hmknod
    have hns2 : ns₂ = ns.create a.devStr (.block a.devt) hdev := by
      rcases ensureMnt_cases k (ns.create a.devStr (.block a.devt) hdev) with
        ⟨e', he', heq⟩ | ⟨_, heq, -⟩ <;> rw [hmnt, Prod.mk.injEq] at heq
      · exact heq.2
      · omega
    have hrestored := hlaw.restored (by rw [heq]; exact ne_of_lt he)
    -- the node is there now and was not there before
    have hnode : (lklMountDev k a ns).ns.nodes a.devStr = some (.block a.devt) := by
      simp [heq, hns2]
    rcases hrestored with hsame | ⟨hmnt, hsame⟩
    · simp [hsame, hdev] at hnode
    · simp [hsame, hdev, a.devStr_ne_mntDir] at hnode
  | @untried _ _ ns₃ hprep hfs hnames =>
    obtain ⟨-, -, hunmounted, -⟩ := hprep.undo
    have hmount : mountAny k a ns₃ = (1, ns₃) := by
      simp only [mountAny, hfs, lklMount]
      rw [visited_getFsNames (by rw [k.page_length]; exact k.fits), hnames, mountLoop]
    have heq : lklMountDev k a ns = ⟨0, a.mntPath, ns₃⟩ := by
      rw [hprep.lklMountDev_eq, hmount]
      rfl
    obtain ⟨f, hf⟩ := hlaw.honest (by rw [heq])
    simp [heq, hunmounted] at hf
  | @nodev _ _ ns₃ f _ hprep hfs ht hnodev hzero =>
    obtain ⟨-, hdir, -, -⟩ := hprep.undo
    have hmount : mountAny k a ns₃ = (0, ns₃.mountOn a.mntPath ⟨f, none⟩ hdir) := by
      simp [mountAny, hfs, sysMount, hzero, ht, hdir, hnodev]
    have heq : lklMountDev k a ns = ⟨0, a.mntPath, ns₃.mountOn a.mntPath ⟨f, none⟩ hdir⟩ := by
      rw [hprep.lklMountDev_eq, hmount]
      rfl
    obtain ⟨g, hg⟩ := hlaw.honest (by rw [heq])
    simp [heq] at hg

/-- `lkl_mount_dev` keeps its law exactly when none of the three escapes is taken. -/
theorem mountLaw_iff_not_escape (k : Kernel) (a : Args) (ns : Namespace) :
    MountLaw k a ns ↔ ¬ Escape k a ns :=
  ⟨fun hlaw hescape => not_mountLaw_of_escape hescape hlaw, mountLaw_of_not_escape⟩

end Law

/-! ### Runs that break the law -/

/-- A type that needs no device. -/
def proc : FsType := ⟨"proc".toList, false, false, by decide, by simp⟩

/-- A kernel with `proc` only, in which access to `/mnt` has the given outcome and no other call
fails. -/
def procKernel (access : Option Errno) : Kernel where
  registered := [proc]
  nodup := by decide
  noDot := by decide
  fits := by decide
  mknod := none
  access := access
  mkdirMnt := none
  mkdir := none
  mount := fun _ => none
  umount := none
  page := List.replicate pageSize 'x'
  page_length := List.length_replicate

/-- A namespace with nothing but `/dev`. -/
def devOnly : Namespace where
  nodes := fun p => if p = "/dev".toList then some .dir else none
  mounts := fun _ => none
  mounted_dir := by simp

/-- One run for each escape: no type to try, an access to `/mnt` that fails with `-EACCES`, and
a type that needs no device. -/
theorem not_mountLaw_procKernel : ¬ MountLaw (procKernel none) ⟨0x800, none, [], 22⟩ devOnly ∧
      ¬ MountLaw (procKernel (some ⟨-13, by decide⟩)) ⟨0x800, none, [], 22⟩ devOnly ∧
      ¬ MountLaw (procKernel none) ⟨0x800, some "proc".toList, [], 22⟩ devOnly := by
  refine ⟨?_, ?_, ?_⟩
  · exact not_mountLaw_of_escape (.untried ⟨by decide, rfl, rfl, rfl⟩ rfl (by decide))
  · exact not_mountLaw_of_escape (.stranded (by decide) rfl rfl (by decide))
  · exact not_mountLaw_of_escape (.nodev ⟨by decide, rfl, rfl, rfl⟩ rfl rfl rfl rfl)

/-! ### Unmounting -/

def lklUmountDev (k : Kernel) (devt : BitVec 32) (ns : Namespace) : ℤ × Namespace :=
  let dev := snprintf "/dev/xxxxxxxxxxxxxxxx".toList 22 ("/dev/".toList ++ hex16 devt)
  let mnt := snprintf "/mnt/xxxxxxxxxxxxxxxx".toList 22 ("/mnt/".toList ++ hex16 devt)
  let umount := sysUmount k ns mnt
  if umount.1 < 0 then umount else (0, (sysRmdir (sysUnlink umount.2 dev).2 mnt).2)

@[simp] lemma length_hex16 (n : BitVec 32) : (hex16 n).length = 16 := by
  have hdigits := Nat.toDigits_length 16 n.toNat 16 (by decide) (lt_of_lt_of_le n.isLt (by decide))
  rw [hex16, length_leftpad]
  exact Nat.max_eq_left hdigits

lemma mntPath_eq {a : Args} (hlen : 22 ≤ a.mntStrLen) :
    a.mntPath = "/mnt/".toList ++ hex16 a.devt := by
  rw [Args.mntPath, snprintf, if_neg (by omega), take_of_length_le]
  simp
  omega

/-- Unmounting undoes a mount. -/
theorem lklUmountDev_lklMountDev {k k' : Kernel} {a : Args} {ns : Namespace}
    (hlen : 22 ≤ a.mntStrLen) (hescape : ¬ Escape k a ns) (hret : (lklMountDev k a ns).ret = 0)
    (humount : k'.umount = none) : (lklUmountDev k' a.devt (lklMountDev k a ns).ns).1 = 0 ∧
      Restored ns (lklUmountDev k' a.devt (lklMountDev k a ns).ns).2 := by
  rcases lklMountDev_cases hescape with ⟨e, he, p, ns', heq, _⟩ | ⟨_, _, ns₃, f, hdir, hprep, heq⟩
  · rw [heq] at hret
    exact absurd hret (ne_of_lt he)
  obtain ⟨-, -, hunmounted, hrestored⟩ := hprep.undo
  have hmnt : snprintf "/mnt/xxxxxxxxxxxxxxxx".toList 22 ("/mnt/".toList ++ hex16 a.devt) =
      a.mntPath := by
    rw [mntPath_eq hlen]
    exact mntPath_eq (a := ⟨a.devt, none, "/mnt/xxxxxxxxxxxxxxxx".toList, 22⟩) (by simp)
  have hback : (ns₃.mountOn a.mntPath ⟨f, some a.devt⟩ hdir).unmount a.mntPath = ns₃ := by
    ext1
    · rfl
    · simp [Namespace.unmount, ← hunmounted]
  have humount' : lklUmountDev k' a.devt (lklMountDev k a ns).ns =
      (0, (sysRmdir (sysUnlink ns₃ a.devStr).2 a.mntPath).2) := by
    simp only [lklUmountDev, hmnt, heq, sysUmount, humount, hback, lt_irrefl, if_false]
    rfl
  rw [humount']
  exact ⟨rfl, hrestored⟩

/-- A kernel with a type that needs a device and has subtypes. -/
def fuseKernel : Kernel :=
  { procKernel none with
    registered := [⟨"fuseblk".toList, true, true, by decide, by simp⟩]
    nodup := by decide
    noDot := by decide
    fits := by decide }

theorem lklUmountDev_lklMountDev_fuseKernel : Restored devOnly (lklUmountDev fuseKernel 0x800
    (lklMountDev fuseKernel ⟨0x800, some "fuseblk.x".toList, [], 22⟩ devOnly).ns).2 := by
  refine (lklUmountDev_lklMountDev le_rfl ?_ rfl rfl).2
  rintro (⟨_, hmknod, hmnt, herr⟩ | ⟨_, hfs, _⟩ | ⟨_, hfs, ht, hnodev, _⟩)
  · cases hmknod
    cases hmnt
    cases herr
  · cases hfs
  · cases hfs
    cases ht
    cases hnodev

end LklPort.Mount
