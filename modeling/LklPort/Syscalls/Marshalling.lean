import LklPort.CTypes.Basic

/-!
# Marshalling of system calls

A wrapper `lkl_sys_*` of `arch/lkl/kernel/syscalls.c` stores the number of a system call and its
arguments, converted to `long`, in a `struct syscall`. `run_syscall` looks the number up in
`syscall_table` and calls the handler with the six stored values, from which the handler takes its
parameters. The result passes through a variable of type `int` in `run_syscall` and through
another one in the macro `SYSCALL`.
-/

namespace LklPort.Syscalls

open CTypes BitVec

/-! ### Numbers and handlers -/

/-- The names that `INIT_STE` and `SYSCALL` put after `__NR_` and `sys_`. -/
inductive Name where
  | niSyscall | sync | reboot | write | close | unlink | open_ | poll | read | lseek | rename
  | flock | newfstat | fstat64 | chmod | newlstat | lstat64 | mkdir | rmdir | getdents | newstat
  | stat64 | utimes | utime | nanosleep | mknod | safeMount | umount | chdir | statfs | chroot
  | getcwd | chown | umask | getuid | getgid | socketcall | ioctl | call | access | truncate
  | lklPwrite64 | lklPread64 | getpid
  deriving DecidableEq

/-- `__NR_*` of `asm/unistd.h`. -/
def Name.nr : Name → ℕ
  | .niSyscall => 0
  | .sync => 1
  | .reboot => 2
  | .write => 3
  | .close => 4
  | .unlink => 5
  | .open_ => 6
  | .poll => 7
  | .read => 8
  | .lseek => 9
  | .rename => 10
  | .flock => 11
  | .newfstat => 12
  | .chmod => 13
  | .newlstat => 14
  | .mkdir => 15
  | .rmdir => 16
  | .getdents => 17
  | .newstat => 18
  | .utimes => 19
  | .utime => 20
  | .nanosleep => 21
  | .mknod => 22
  | .safeMount => 23
  | .umount => 24
  | .chdir => 25
  | .statfs => 26
  | .chroot => 27
  | .getcwd => 28
  | .chown => 29
  | .umask => 30
  | .getuid => 31
  | .getgid => 32
  | .socketcall => 33
  | .ioctl => 34
  | .call => 35
  | .access => 36
  | .truncate => 37
  | .lklPread64 => 38
  | .lklPwrite64 => 39
  | .getpid => 40
  -- from the list that is marked `TODO`
  | .stat64 | .lstat64 | .fstat64 => 0

def nrSyscalls : ℕ := 41

/-- The uses of `INIT_STE` in `init_syscall_table`, where `net` stands for `CONFIG_NET`. -/
def initSyscallTable (net : Bool) : List Name :=
  [.niSyscall, .sync, .reboot, .write, .close, .unlink, .open_, .poll, .read, .lseek, .rename,
    .flock, .newfstat, .chmod, .newlstat, .mkdir, .rmdir, .getdents, .newstat, .utimes, .utime,
    .nanosleep, .mknod, .safeMount, .umount, .chdir, .statfs, .chroot, .getcwd, .chown, .umask,
    .getuid, .getgid] ++
  (if net then [.socketcall] else []) ++
  [.ioctl, .call, .access, .truncate, .lklPwrite64, .lklPread64, .getpid]

/-- `syscall_table` after `init_syscall_table`. -/
def syscallTable (net : Bool) : ℕ → Option Name :=
  (initSyscallTable net).foldl (fun table x => Function.update table x.nr (some x)) fun _ => none

/-- The types of the parameters of `sys_*`. -/
def Name.proto : Name → List CType
  | .niSyscall | .sync | .getuid | .getgid | .getpid => []
  | .reboot => [.int, .int, .uint, .ptr]
  | .write | .read => [.uint, .ptr, .ulong]
  | .close => [.uint]
  | .unlink | .rmdir | .chdir | .chroot => [.ptr]
  | .open_ => [.ptr, .int, .int]
  | .poll => [.ptr, .uint, .long]
  | .lseek => [.uint, .long, .uint]
  | .rename | .newlstat | .lstat64 | .newstat | .stat64 | .utimes | .utime | .nanosleep | .statfs =>
    [.ptr, .ptr]
  | .flock => [.uint, .uint]
  | .newfstat | .fstat64 => [.uint, .ptr]
  | .chmod => [.ptr, .uint]
  | .mkdir | .umount | .access => [.ptr, .int]
  | .getdents => [.uint, .ptr, .uint]
  | .mknod => [.ptr, .int, .uint]
  | .safeMount => [.ptr, .ptr, .ptr, .ulong, .ptr]
  | .getcwd => [.ptr, .ulong]
  | .chown => [.ptr, .uint, .uint]
  | .umask => [.int]
  | .socketcall => [.int, .ptr]
  | .ioctl => [.uint, .uint, .ulong]
  | .call => [.long, .long, .long, .long, .long, .long]
  | .truncate => [.ptr, .long]
  | .lklPwrite64 | .lklPread64 => [.uint, .ptr, .ulong, .long, .long]

/-! ### The way of a call -/

/-- An argument with its type. -/
abbrev Arg := (t : CType) × Val t

def arg {t : CType} (x : Val t) : Arg := ⟨t, x⟩

def Arg.num (a : Arg) : ℤ := a.2.num

def Arg.toLong (a : Arg) : Val .long := a.2.cast .long

/-- An array of six `long` with the given first elements. -/
def longs (args : List Arg) : List (Val .long) :=
  args.map Arg.toLong ++ List.replicate (6 - args.length) 0

/-- `struct syscall`, with the memory of the caller that the parameters point to. -/
structure Request where
  no : ℤ
  params : List (Val .long)
  user : Val .ptr → Option (List (Val .long))

/-- The `struct syscall` of `SYSCALL(x, args)`. -/
def syscall (x : Name) (args : List Arg) : Request where
  no := x.nr
  params := longs args
  user := fun _ => none

/-- `long args[6]={args}; SYSCALL(socketcall, op, (long)args)`, with the array at `frame`. -/
def syscallSocket (frame : Val .ptr) (op : Val .int) (args : List Arg) : Request :=
  { syscall .socketcall [arg op, arg frame] with
    user := fun p => if p = frame then some (longs args) else none }

/-- The functions of the kernel that a wrapper is for. -/
inductive KernelFn where
  | sys (x : Name)
  | pread64
  | pwrite64
  | socket
  | bind
  | connect
  | send
  | recv
  deriving DecidableEq

/-- A call of a function of the kernel. -/
structure Invocation where
  fn : KernelFn
  params : List ℤ
  deriving DecidableEq

/-- A call of `fn` that takes its parameters from an array. -/
def invoke {u : CType} (fn : KernelFn) (proto : List CType) (params : List (Val u)) : Invocation :=
  ⟨fn, List.zipWith (fun t x => (x.cast t).num) proto params⟩

/-- `sys_lkl_pread64` and `sys_lkl_pwrite64`. -/
def sysLklPositioned (fn : KernelFn) (params : List (Val .long)) : Invocation :=
  match params with
  | fd :: buf :: count :: posHi :: posLo :: _ =>
    invoke fn [.uint, .ptr, .ulong, .llong] [fd, buf, count, (posHi <<< 32) + posLo]
  | _ => ⟨fn, []⟩

/-- The operations of `sys_socketcall` that LKL uses, with their parameters. -/
def socketOp (op : ℤ) : Option (KernelFn × List CType) :=
  if op = 1 then some (.socket, [.int, .int, .int])
  else if op = 2 then some (.bind, [.int, .ptr, .int])
  else if op = 3 then some (.connect, [.int, .ptr, .int])
  else if op = 9 then some (.send, [.int, .ptr, .ulong, .uint])
  else if op = 10 then some (.recv, [.int, .ptr, .ulong, .uint])
  else none

/-- `-EINVAL`, `-EFAULT` and `-ENOSYS`. -/
def einval : Val .long := -22
def efault : Val .long := -14
def enosys : Val .long := -38

/-- `sys_socketcall`, which copies the array from the caller. -/
def sysSocketcall (s : Request) (params : List (Val .long)) : Except (Val .long) Invocation :=
  match params with
  | op :: args :: _ =>
    match socketOp (op.cast .int).num with
    | none => .error einval
    | some (fn, proto) =>
      match s.user (args.cast .ptr) with
      | none => .error efault
      | some a => .ok (invoke fn proto (a.map (Val.cast .ulong)))
  | _ => .error einval

/-- What the handler `sys_x` calls, or what it returns without calling anything. -/
def handle (s : Request) (x : Name) : Except (Val .long) Invocation :=
  match x with
  | .lklPread64 => .ok (sysLklPositioned .pread64 s.params)
  | .lklPwrite64 => .ok (sysLklPositioned .pwrite64 s.params)
  | .socketcall => sysSocketcall s s.params
  | x => .ok (invoke (.sys x) x.proto s.params)

/-- What a call has executed, and what it has returned. -/
structure Outcome where
  invoked : Option Invocation
  ret : Val .long
  deriving DecidableEq

/-- `int ret = v`, and `ret` where a `long` is wanted. -/
def viaInt (v : Val .long) : Val .long := (v.cast .int).cast .long

/-- `run_syscall`, where `v` is what the handler returns once it has called what it is for. -/
def runSyscall (net : Bool) (s : Request) (v : Val .long) : Outcome :=
  if s.no < 0 ∨ nrSyscalls ≤ s.no then ⟨none, viaInt enosys⟩
  else
    match syscallTable net s.no.toNat with
    | none => ⟨none, viaInt enosys⟩
    | some x =>
      match handle s x with
      | .error e => ⟨none, viaInt e⟩
      | .ok f => ⟨some f, viaInt v⟩

/-! ### The wrappers -/

/-- A call of a wrapper. The `mode_t` of `chmod` is an `unsigned int`, `size_t` is an
`unsigned long`, `off_t` a `long` and `loff_t` a `long long`. -/
inductive Wrapper where
  | sync
  | umount (path : Val .ptr) (flags : Val .int)
  | write (fd : Val .uint) (buf : Val .ptr) (count : Val .ulong)
  | close (fd : Val .uint)
  | unlink (pathname : Val .ptr)
  | open_ (filename : Val .ptr) (flags mode : Val .int)
  | poll (ufds : Val .ptr) (nfds : Val .uint) (timeout : Val .long)
  | read (fd : Val .uint) (buf : Val .ptr) (count : Val .ulong)
  | lseek (fd : Val .uint) (offset : Val .long) (origin : Val .uint)
  | rename (oldname newname : Val .ptr)
  | flock (fd cmd : Val .uint)
  | newfstat (fd : Val .uint) (statbuf : Val .ptr)
  | fstat64 (fd : Val .uint) (statbuf : Val .ptr)
  | chmod (filename : Val .ptr) (mode : Val .uint)
  | newlstat (filename statbuf : Val .ptr)
  | lstat64 (filename statbuf : Val .ptr)
  | mkdir (pathname : Val .ptr) (mode : Val .int)
  | rmdir (pathname : Val .ptr)
  | getdents (fd : Val .uint) (dirent : Val .ptr) (count : Val .uint)
  | newstat (filename statbuf : Val .ptr)
  | stat64 (filename statbuf : Val .ptr)
  | utimes (filename utimes : Val .ptr)
  | mount (dev mntPoint fs : Val .ptr) (flags : Val .ulong) (data : Val .ptr)
  | chdir (dir : Val .ptr)
  | mknod (filename : Val .ptr) (mode : Val .int) (dev : Val .uint)
  | chroot (dir : Val .ptr)
  | nanosleep (rqtp rmtp : Val .ptr)
  | getcwd (buf : Val .ptr) (size : Val .ulong)
  | utime (filename buf : Val .ptr)
  | socket (family type protocol : Val .int)
  | send (sock : Val .int) (buffer : Val .ptr) (size : Val .ulong) (flags : Val .uint)
  | recv (sock : Val .int) (buffer : Val .ptr) (size : Val .ulong) (flags : Val .uint)
  | connect (sock : Val .int) (saddr : Val .ptr) (len : Val .int)
  | ioctl (fd cmd : Val .uint) (arg : Val .ulong)
  | umask (mask : Val .int)
  | getuid
  | getgid
  | call (f arg1 arg2 arg3 arg4 arg5 : Val .long)
  | statfs (path buf : Val .ptr)
  | access (filename : Val .ptr) (mode : Val .int)
  | truncate (path : Val .ptr) (length : Val .ulong)
  | pwrite64 (fd : Val .uint) (buf : Val .ptr) (count : Val .ulong) (pos : Val .llong)
  | pread64 (fd : Val .uint) (buf : Val .ptr) (count : Val .ulong) (pos : Val .llong)
  | getpid
  | bind (sock : Val .int) (saddr : Val .ptr) (len : Val .int)

/-- The bodies of the wrappers, where an array `args` is at `frame`. -/
def lklSys (frame : Val .ptr) : Wrapper → Request
  | .sync => syscall .sync []
  | .umount path flags => syscall .umount [arg path, arg flags]
  | .write fd buf count => syscall .write [arg fd, arg buf, arg count]
  | .close fd => syscall .close [arg fd]
  | .unlink pathname => syscall .unlink [arg pathname]
  | .open_ filename flags mode => syscall .open_ [arg filename, arg flags, arg mode]
  | .poll ufds nfds timeout => syscall .poll [arg ufds, arg nfds, arg timeout]
  | .read fd buf count => syscall .read [arg fd, arg buf, arg count]
  | .lseek fd offset origin => syscall .lseek [arg fd, arg offset, arg origin]
  | .rename oldname newname => syscall .rename [arg oldname, arg newname]
  | .flock fd cmd => syscall .flock [arg fd, arg cmd]
  | .newfstat fd statbuf => syscall .newfstat [arg fd, arg statbuf]
  | .fstat64 fd statbuf => syscall .fstat64 [arg fd, arg statbuf]
  | .chmod filename mode => syscall .chmod [arg filename, arg mode]
  | .newlstat filename statbuf => syscall .newlstat [arg filename, arg statbuf]
  | .lstat64 filename statbuf => syscall .lstat64 [arg filename, arg statbuf]
  | .mkdir pathname mode => syscall .mkdir [arg pathname, arg mode]
  | .rmdir pathname => syscall .rmdir [arg pathname]
  | .getdents fd dirent count => syscall .getdents [arg fd, arg dirent, arg count]
  | .newstat filename statbuf => syscall .newstat [arg filename, arg statbuf]
  | .stat64 filename statbuf => syscall .stat64 [arg filename, arg statbuf]
  -- the name here is `utime`
  | .utimes filename utimes => syscall .utime [arg filename, arg utimes]
  | .mount dev mntPoint fs flags data =>
    syscall .safeMount [arg dev, arg mntPoint, arg fs, arg flags, arg data]
  | .chdir dir => syscall .chdir [arg dir]
  | .mknod filename mode dev => syscall .mknod [arg filename, arg mode, arg dev]
  | .chroot dir => syscall .chroot [arg dir]
  | .nanosleep rqtp rmtp => syscall .nanosleep [arg rqtp, arg rmtp]
  | .getcwd buf size => syscall .getcwd [arg buf, arg size]
  | .utime filename buf => syscall .utime [arg filename, arg buf]
  | .socket family type protocol => syscallSocket frame 1 [arg family, arg type, arg protocol]
  | .send sock buffer size flags =>
    syscallSocket frame 9 [arg sock, arg buffer, arg size, arg flags]
  | .recv sock buffer size flags =>
    syscallSocket frame 10 [arg sock, arg buffer, arg size, arg flags]
  | .connect sock saddr len => syscallSocket frame 3 [arg sock, arg saddr, arg len]
  | .ioctl fd cmd arg' => syscall .ioctl [arg fd, arg cmd, arg arg']
  | .umask mask => syscall .umask [arg mask]
  | .getuid => syscall .getuid []
  | .getgid => syscall .getgid []
  | .call f arg1 arg2 arg3 arg4 arg5 =>
    syscall .call [arg f, arg arg1, arg arg2, arg arg3, arg arg4, arg arg5]
  | .statfs path buf => syscall .statfs [arg path, arg buf]
  | .access filename mode => syscall .access [arg filename, arg mode]
  | .truncate path length => syscall .truncate [arg path, arg length]
  | .pwrite64 fd buf count pos =>
    syscall .lklPwrite64
      [arg fd, arg buf, arg count, arg (pos.sshiftRight 32), arg (pos &&& 0xffffffff)]
  | .pread64 fd buf count pos =>
    syscall .lklPread64
      [arg fd, arg buf, arg count, arg (pos.sshiftRight 32), arg (pos &&& 0xffffffff)]
  | .getpid => syscall .getpid []
  | .bind sock saddr len => syscallSocket frame 2 [arg sock, arg saddr, arg len]

/-- A call of a wrapper, up to the value of the macro `SYSCALL`. -/
def lklCall (net : Bool) (frame : Val .ptr) (w : Wrapper) (v : Val .long) : Outcome where
  invoked := (runSyscall net (lklSys frame w) v).invoked
  ret := viaInt (runSyscall net (lklSys frame w) v).ret

/-! ### What the wrappers are for -/

/-- The function of the kernel that a wrapper is for, and its arguments in the types of the
prototype. -/
def Wrapper.spec : Wrapper → KernelFn × List Arg
  | .sync => (.sys .sync, [])
  | .umount path flags => (.sys .umount, [arg path, arg flags])
  | .write fd buf count => (.sys .write, [arg fd, arg buf, arg count])
  | .close fd => (.sys .close, [arg fd])
  | .unlink pathname => (.sys .unlink, [arg pathname])
  | .open_ filename flags mode => (.sys .open_, [arg filename, arg flags, arg mode])
  | .poll ufds nfds timeout => (.sys .poll, [arg ufds, arg nfds, arg timeout])
  | .read fd buf count => (.sys .read, [arg fd, arg buf, arg count])
  | .lseek fd offset origin => (.sys .lseek, [arg fd, arg offset, arg origin])
  | .rename oldname newname => (.sys .rename, [arg oldname, arg newname])
  | .flock fd cmd => (.sys .flock, [arg fd, arg cmd])
  | .newfstat fd statbuf => (.sys .newfstat, [arg fd, arg statbuf])
  | .fstat64 fd statbuf => (.sys .fstat64, [arg fd, arg statbuf])
  | .chmod filename mode => (.sys .chmod, [arg filename, arg mode])
  | .newlstat filename statbuf => (.sys .newlstat, [arg filename, arg statbuf])
  | .lstat64 filename statbuf => (.sys .lstat64, [arg filename, arg statbuf])
  | .mkdir pathname mode => (.sys .mkdir, [arg pathname, arg mode])
  | .rmdir pathname => (.sys .rmdir, [arg pathname])
  | .getdents fd dirent count => (.sys .getdents, [arg fd, arg dirent, arg count])
  | .newstat filename statbuf => (.sys .newstat, [arg filename, arg statbuf])
  | .stat64 filename statbuf => (.sys .stat64, [arg filename, arg statbuf])
  | .utimes filename times => (.sys .utimes, [arg filename, arg times])
  | .mount dev mntPoint fs flags data =>
    (.sys .safeMount, [arg dev, arg mntPoint, arg fs, arg flags, arg data])
  | .chdir dir => (.sys .chdir, [arg dir])
  | .mknod filename mode dev => (.sys .mknod, [arg filename, arg mode, arg dev])
  | .chroot dir => (.sys .chroot, [arg dir])
  | .nanosleep rqtp rmtp => (.sys .nanosleep, [arg rqtp, arg rmtp])
  | .getcwd buf size => (.sys .getcwd, [arg buf, arg size])
  | .utime filename buf => (.sys .utime, [arg filename, arg buf])
  | .socket family type protocol => (.socket, [arg family, arg type, arg protocol])
  | .send sock buffer size flags => (.send, [arg sock, arg buffer, arg size, arg flags])
  | .recv sock buffer size flags => (.recv, [arg sock, arg buffer, arg size, arg flags])
  | .connect sock saddr len => (.connect, [arg sock, arg saddr, arg len])
  | .ioctl fd cmd arg' => (.sys .ioctl, [arg fd, arg cmd, arg arg'])
  | .umask mask => (.sys .umask, [arg mask])
  | .getuid => (.sys .getuid, [])
  | .getgid => (.sys .getgid, [])
  | .call f arg1 arg2 arg3 arg4 arg5 =>
    (.sys .call, [arg f, arg arg1, arg arg2, arg arg3, arg arg4, arg arg5])
  | .statfs path buf => (.sys .statfs, [arg path, arg buf])
  | .access filename mode => (.sys .access, [arg filename, arg mode])
  | .truncate path length => (.sys .truncate, [arg path, arg length])
  | .pwrite64 fd buf count pos => (.pwrite64, [arg fd, arg buf, arg count, arg pos])
  | .pread64 fd buf count pos => (.pread64, [arg fd, arg buf, arg count, arg pos])
  | .getpid => (.sys .getpid, [])
  | .bind sock saddr len => (.bind, [arg sock, arg saddr, arg len])

/-- The call executes the function it is for with the arguments it was given, and returns what that
returns. -/
def Transparent (net : Bool) (frame : Val .ptr) (w : Wrapper) (v : Val .long) : Prop :=
  lklCall net frame w v = ⟨some ⟨w.spec.1, w.spec.2.map Arg.num⟩, v⟩

/-- The wrapper reaches its function with its arguments. -/
def Wrapper.Supported (net : Bool) : Wrapper → Prop
  | .utimes _ _ | .stat64 _ _ | .lstat64 _ _ | .fstat64 _ _ => False
  | .socket _ _ _ | .send _ _ _ _ | .recv _ _ _ _ | .connect _ _ _ | .bind _ _ _ => net = true
  -- an `unsigned long` that becomes the `long` of `sys_truncate`
  | .truncate _ length => length.num < 2 ^ 63
  | _ => True

/-! ### Conversions -/

lemma viaInt_viaInt (v : Val .long) : viaInt (viaInt v) = viaInt v :=
  congrArg (Val.cast .long) (Val.cast_long_cast (v.cast .int))

/-- A handler that takes its parameters in the types of the arguments gets the arguments, also
from a copy of the array. -/
lemma invoke_longs {u : CType} (copy : Val .long → Val u)
    (hcopy : ∀ (t : CType) (x : Val t), (copy (x.cast .long)).cast t = x) (fn : KernelFn)
    (args : List Arg) :
    invoke fn (args.map Sigma.fst) ((longs args).map copy) = ⟨fn, args.map Arg.num⟩ := by
  simp only [invoke, longs, Invocation.mk.injEq, true_and]
  generalize List.replicate (6 - args.length) (0 : Val .long) = rest
  induction args with
  | nil => simp
  | cons _ _ ih =>
    simp only [List.map_cons, List.cons_append, List.zipWith_cons_cons, ih, Arg.toLong, hcopy]
    rfl

lemma syscallTable_nr (net : Bool) (x : Name) : syscallTable net x.nr =
      match x with
      | .stat64 | .lstat64 | .fstat64 => some .niSyscall
      | .socketcall => if net then some .socketcall else none
      | x => some x := by
  cases net <;> cases x <;> rfl

lemma nr_lt (x : Name) : x.nr < nrSyscalls := by
  cases x <;> decide

lemma runSyscall_eq (net : Bool) (x : Name) (s : Request) (hno : s.no = x.nr) (v : Val .long) :
    runSyscall net s v =
      match syscallTable net x.nr with
      | none => ⟨none, viaInt enosys⟩
      | some y =>
        match handle s y with
        | .error e => ⟨none, viaInt e⟩
        | .ok f => ⟨some f, viaInt v⟩ := by
  have hlt := nr_lt x
  rw [runSyscall, if_neg (by omega), hno, Int.toNat_natCast]

lemma getLsbD_lowHalf (pos : BitVec 64) {i : ℕ} (hi : i < 64) :
    (pos &&& 0xffffffff).getLsbD i = (pos.getLsbD i && decide (i < 32)) := by
  have hmask : ∀ i < 64, (0xffffffff : BitVec 64).getLsbD i = decide (i < 32) := by decide
  rw [getLsbD_and, hmask i hi]

lemma position_halves (pos : BitVec 64) :
    (pos.sshiftRight 32 <<< 32) + (pos &&& 0xffffffff) = pos := by
  have hhigh : ∀ i < 64, (pos.sshiftRight 32 <<< 32).getLsbD i =
      (!decide (i < 32) && pos.getLsbD i) := by
    intro i hi
    rw [getLsbD_shiftLeft, getLsbD_sshiftRight]
    by_cases h : i < 32
    · simp [h]
    · simp [h, hi, show 32 + (i - 32) = i by omega, show ¬ 64 ≤ i - 32 by omega]
  rw [add_eq_or_of_and_eq_zero]
  · apply eq_of_getLsbD_eq
    intro i hi
    rw [getLsbD_or, getLsbD_lowHalf pos hi, hhigh i hi]
    by_cases h : i < 32 <;> simp [h]
  · apply eq_of_getLsbD_eq
    intro i hi
    rw [getLsbD_and, getLsbD_lowHalf pos hi, hhigh i hi]
    by_cases h : i < 32 <;> simp [h]

variable {x : Name} {args : List Arg} {fn : KernelFn} {f : Invocation} {op : Val .int}

section

variable {net : Bool} {frame : Val .ptr} {w : Wrapper} {v : Val .long}

/-- A call that is executed is transparent if the right function gets the right arguments and the
result fits. -/
lemma transparent_iff_of_run (h : runSyscall net (lklSys frame w) v = ⟨some f, viaInt v⟩) :
    Transparent net frame w v ↔ f = ⟨w.spec.1, w.spec.2.map Arg.num⟩ ∧ viaInt v = v := by
  simp [Transparent, lklCall, h, viaInt_viaInt]

lemma not_transparent_of_run {e : Val .long}
    (h : runSyscall net (lklSys frame w) v = ⟨none, e⟩) : ¬ Transparent net frame w v := by
  simp [Transparent, lklCall, h]

lemma not_transparent_of_fn {r : Val .long} (h : runSyscall net (lklSys frame w) v = ⟨some f, r⟩)
    (hfn : f.fn ≠ w.spec.1) : ¬ Transparent net frame w v := by
  intro ht
  have hinvoked : some f = some ⟨w.spec.1, w.spec.2.map Arg.num⟩ := by
    simpa only [lklCall, h] using congrArg Outcome.invoked ht
  exact hfn (congrArg Invocation.fn (Option.some.inj hinvoked))

/-- The handler of a system call that is neither missing nor handled in a way of its own. -/
def Name.Direct : Name → Bool
  | .stat64 | .lstat64 | .fstat64 | .socketcall | .lklPread64 | .lklPwrite64 => false
  | _ => true

lemma runSyscall_direct (hx : x.Direct) (args : List Arg) : runSyscall net (syscall x args) v =
      ⟨some (invoke (.sys x) x.proto (longs args)), viaInt v⟩ := by
  rw [runSyscall_eq net x _ rfl, syscallTable_nr]
  cases x <;> first | rfl | simp [Name.Direct] at hx

lemma transparent_direct (hx : x.Direct) (hsys : lklSys frame w = syscall x args)
    (hspec : w.spec = (.sys x, args)) (hproto : args.map Sigma.fst = x.proto) :
    Transparent net frame w v ↔ viaInt v = v := by
  have hrun : runSyscall net (lklSys frame w) v = ⟨some ⟨.sys x, args.map Arg.num⟩, viaInt v⟩ := by
    have hinvoke := invoke_longs id (fun _ => Val.cast_long_cast) (.sys x) args
    rw [List.map_id] at hinvoke
    rw [hsys, runSyscall_direct hx, ← hproto, hinvoke]
  rw [transparent_iff_of_run hrun, hspec]
  simp

lemma sysSocketcall_eq (hop : socketOp op.num = some (fn, args.map Sigma.fst)) :
    sysSocketcall (syscallSocket frame op args) (longs [arg op, arg frame]) =
      .ok ⟨fn, args.map Arg.num⟩ := by
  have hop' : Val.cast .int (arg op).toLong = op := Val.cast_long_cast op
  have hframe : Val.cast .ptr (arg frame).toLong = frame := Val.cast_long_cast frame
  have hinvoke := invoke_longs (Val.cast .ulong) (fun _ => Val.cast_long_ulong_cast) fn args
  simp only [sysSocketcall, longs, List.map_cons, List.cons_append, hop', hop, hframe,
    syscallSocket, if_true]
  exact congrArg _ hinvoke

lemma transparent_socket (hsys : lklSys frame w = syscallSocket frame op args)
    (hspec : w.spec = (fn, args)) (hop : socketOp op.num = some (fn, args.map Sigma.fst)) :
    Transparent net frame w v ↔ net = true ∧ viaInt v = v := by
  have hrun := runSyscall_eq net .socketcall (syscallSocket frame op args) rfl v
  rw [syscallTable_nr, ← hsys] at hrun
  cases net with
  | false =>
    simp only [Bool.false_eq_true, false_and, iff_false]
    exact not_transparent_of_run hrun
  | true =>
    have hhandle : handle (lklSys frame w) .socketcall = .ok ⟨fn, args.map Arg.num⟩ :=
      hsys ▸ sysSocketcall_eq hop
    simp only [if_true, hhandle] at hrun
    rw [transparent_iff_of_run hrun, hspec]
    simp

lemma sysLklPositioned_eq (fn : KernelFn) (fd : Val .uint) (buf : Val .ptr) (count : Val .ulong)
    (pos : Val .llong) : sysLklPositioned fn
        (longs [arg fd, arg buf, arg count, arg (pos.sshiftRight 32), arg (pos &&& 0xffffffff)]) =
      ⟨fn, [arg fd, arg buf, arg count, arg pos].map Arg.num⟩ := by
  have hcast : ∀ x : Val .llong, (arg x).toLong = x := signExtend_eq
  have hpos : ((arg (pos.sshiftRight 32)).toLong <<< 32) + (arg (pos &&& 0xffffffff)).toLong =
      (arg pos).toLong := by
    rw [hcast, hcast, hcast]
    exact position_halves pos
  show invoke fn [.uint, .ptr, .ulong, .llong] [(arg fd).toLong, (arg buf).toLong,
    (arg count).toLong, ((arg (pos.sshiftRight 32)).toLong <<< 32) +
      (arg (pos &&& 0xffffffff)).toLong] = _
  rw [hpos]
  exact congrArg (Invocation.mk fn) (by
    simp only [List.zipWith_cons_cons, List.zipWith_nil_left, Arg.toLong, arg, Val.cast_long_cast]
    rfl)

lemma transparent_positioned {fd : Val .uint} {buf : Val .ptr} {count : Val .ulong}
    {pos : Val .llong} (htable : syscallTable net x.nr = some x) (hsys : lklSys frame w = syscall x
      [arg fd, arg buf, arg count, arg (pos.sshiftRight 32), arg (pos &&& 0xffffffff)])
    (hspec : w.spec = (fn, [arg fd, arg buf, arg count, arg pos]))
    (hhandle : ∀ s, handle s x = .ok (sysLklPositioned fn s.params)) :
    Transparent net frame w v ↔ viaInt v = v := by
  have hrun := runSyscall_eq net x (lklSys frame w) (hsys ▸ rfl) v
  have hparams : sysLklPositioned fn (lklSys frame w).params =
      ⟨fn, [arg fd, arg buf, arg count, arg pos].map Arg.num⟩ :=
    hsys ▸ sysLklPositioned_eq fn fd buf count pos
  simp only [htable, hhandle, hparams] at hrun
  rw [transparent_iff_of_run hrun, hspec]
  simp

/-- The `unsigned long` of `lkl_sys_truncate` is the `long` of `sys_truncate` if that can hold
it. -/
lemma transparent_truncate (path : Val .ptr) (length : Val .ulong) :
    Transparent net frame (.truncate path length) v ↔ length.num < 2 ^ 63 ∧ viaInt v = v := by
  have hrun : runSyscall net (lklSys frame (.truncate path length)) v = _ :=
    runSyscall_direct rfl [arg path, arg length]
  rw [transparent_iff_of_run hrun]
  refine and_congr_left fun _ => ?_
  have hpath : ((arg path).toLong.cast .ptr).num = path.num :=
    congrArg Val.num (Val.cast_long_cast path)
  have hlong : (arg length).toLong = length := setWidth_eq length
  have hlength : ((arg length).toLong.cast .long).num = BitVec.toInt length := by
    rw [hlong, Val.num_of_signed rfl]
    exact congrArg BitVec.toInt (signExtend_eq length)
  have hnum : length.num = BitVec.toNat length := rfl
  show (⟨.sys .truncate,
      [((arg path).toLong.cast .ptr).num, ((arg length).toLong.cast .long).num]⟩ : Invocation) =
    ⟨.sys .truncate, [path.num, length.num]⟩ ↔ _
  rw [hpath, hlength, hnum]
  simp only [Invocation.mk.injEq, List.cons.injEq, and_true, true_and]
  rw [show BitVec.toInt length = if 2 * BitVec.toNat length < 2 ^ 64 then (BitVec.toNat length : ℤ)
    else BitVec.toNat length - 2 ^ 64 from toInt_eq_toNat_cond length]
  split_ifs <;> omega

lemma not_transparent_of_niSyscall (htable : syscallTable net x.nr = some .niSyscall)
    (hno : (lklSys frame w).no = x.nr) (hfn : w.spec.1 ≠ .sys .niSyscall) :
    ¬ Transparent net frame w v := by
  have hrun := runSyscall_eq net x (lklSys frame w) hno v
  simp only [htable, handle] at hrun
  exact not_transparent_of_fn hrun hfn.symm

end

/-- A call is transparent exactly if its wrapper reaches its function with its arguments and the
result is in the range of `int`. -/
theorem marshalling_transparent_iff (net : Bool) (frame : Val .ptr) (w : Wrapper) (v : Val .long) :
    Transparent net frame w v ↔ w.Supported net ∧ - 2 ^ 31 ≤ v.num ∧ v.num < 2 ^ 31 := by
  rw [← Val.cast_int_cast_eq_iff]
  cases w with
  | utimes filename times =>
    have hrun : runSyscall net (lklSys frame (.utimes filename times)) v = _ :=
      runSyscall_direct rfl [arg filename, arg times]
    simpa only [Wrapper.Supported, false_and, iff_false] using
      not_transparent_of_fn hrun (by simp [invoke, Wrapper.spec])
  | stat64 filename statbuf | lstat64 filename statbuf | fstat64 filename statbuf =>
    simpa only [Wrapper.Supported, false_and, iff_false] using
      not_transparent_of_niSyscall (syscallTable_nr net .stat64) rfl (by simp [Wrapper.spec])
  | truncate path length => exact transparent_truncate path length
  | pwrite64 fd buf count pos | pread64 fd buf count pos =>
    simp only [Wrapper.Supported, true_and]
    exact transparent_positioned (syscallTable_nr net _) rfl rfl fun _ => rfl
  | socket | connect _ _ _ | bind _ _ _ | send _ _ _ _ | recv _ _ _ _ =>
    exact transparent_socket rfl rfl rfl
  | _ =>
    simp only [Wrapper.Supported, true_and]
    exact transparent_direct rfl rfl rfl rfl

/-- A position behind `2 ^ 31` does not come back from `lseek`, `utimes` sets the times as `utime`
does, and `stat64` has no handler. -/
theorem not_transparent_lseek : ¬ Transparent true 0 (.lseek 3 0x80000000 0) 0x80000000 ∧
      lklCall true 0 (.lseek 3 0x80000000 0) 0x80000000 =
        ⟨some ⟨.sys .lseek, [3, 0x80000000, 0]⟩, 0xffffffff80000000⟩ ∧
      (lklCall true 0 (.utimes 1 2) 0).invoked = some ⟨.sys .utime, [1, 2]⟩ ∧
      (lklCall true 0 (.stat64 1 2) 0).invoked = some ⟨.sys .niSyscall, []⟩ := by
  refine ⟨?_, by decide, by decide, by decide⟩
  unfold Transparent
  decide

/-!
## File positions on both data models

`lkl_sys_pread64` and `lkl_sys_pwrite64` pass a position of 64 bits as two parameters, and a
parameter is a `long`. On LP64 the halves fit. On ILP32 the lower half is a signed number of 32
bits, and its sign is extended when the halves are put together.
-/

/-- The data models of the hosts. -/
inductive DataModel where
  | ilp32
  | lp64
  deriving DecidableEq

/-- The width of `long`, `off_t`, `size_t` and of a pointer. -/
def DataModel.longWidth : DataModel → ℕ
  | .ilp32 => 32
  | .lp64 => 64

/-- A `long` of the data model. -/
abbrev DataModel.Long (m : DataModel) := BitVec m.longWidth

variable {m : DataModel}

/-- The conversion of a `loff_t` to `long`. -/
def DataModel.toLong (m : DataModel) (x : BitVec 64) : m.Long := x.signExtend m.longWidth

/-- The conversion of an `off_t` to `loff_t`. -/
def DataModel.toLoff (x : m.Long) : BitVec 64 := x.signExtend 64

/-- The `params` of `SYSCALL(x, fd, (long)buf, count, (pos >> 32), (pos & 0xffffffff))`. -/
def positionedParams (m : DataModel) (fd : BitVec 32) (buf count : m.Long) (pos : BitVec 64) :
    List m.Long :=
  [fd.setWidth m.longWidth, buf, count, m.toLong (pos.sshiftRight 32),
    m.toLong (pos &&& 0xffffffff), 0]

/-- `((loff_t)pos_hi<<32)+pos_lo` in the handler that `run_syscall` calls with the parameters. -/
def positionOf : List m.Long → Option (BitVec 64)
  | _ :: _ :: _ :: posHi :: posLo :: _ =>
    some ((DataModel.toLoff posHi <<< 32) + DataModel.toLoff posLo)
  | _ => none

/-- The parameters that `lkl_sys_pread64` stores. -/
def lklSysPread64 := positionedParams

/-- The parameters that `lkl_sys_pwrite64` stores. -/
def lklSysPwrite64 := positionedParams

/-- The position that `sys_lkl_pread64` passes to `sys_pread64`. -/
def sysLklPread64 (params : List m.Long) : Option (BitVec 64) := positionOf params

/-- The position that `sys_lkl_pwrite64` passes to `sys_pwrite64`. -/
def sysLklPwrite64 (params : List m.Long) : Option (BitVec 64) := positionOf params

/-! ### The halves -/

lemma toLoff_toLong_shiftLeft (x : BitVec 64) :
    DataModel.toLoff (m.toLong x) <<< 32 = x <<< 32 := by
  have hwidth : 32 ≤ m.longWidth := by cases m <;> decide
  apply eq_of_getLsbD_eq
  intro i hi
  rw [getLsbD_shiftLeft, getLsbD_shiftLeft]
  by_cases hlow : i < 32
  · simp [hlow]
  · rw [DataModel.toLoff, DataModel.toLong, getLsbD_signExtend,
      if_pos (show i - 32 < m.longWidth by omega), getLsbD_signExtend,
      if_pos (show i - 32 < 64 by omega), decide_eq_true (show i - 32 < 64 by omega),
      decide_eq_true (show i - 32 < m.longWidth by omega), Bool.true_and, Bool.true_and]

/-- The lower half survives the passage through 32 bits if it is not taken for a negative
number. -/
lemma signExtend_lowHalf (pos : BitVec 64) :
    ((pos &&& 0xffffffff).signExtend 32).signExtend 64 = pos &&& 0xffffffff ↔
      pos.getLsbD 31 = false := by
  have hcut : (pos &&& 0xffffffff).signExtend 32 = pos.setWidth 32 := by
    apply eq_of_getLsbD_eq
    intro i hi
    rw [getLsbD_signExtend, if_pos (by omega), getLsbD_lowHalf pos (by omega), getLsbD_setWidth]
    simp [hi]
  have hsign : (pos.setWidth 32).msb = pos.getLsbD 31 := by
    rw [msb_eq_getLsbD_last, getLsbD_setWidth]
    rfl
  rw [hcut]
  constructor
  · intro h
    -- bit 32 of the lower half is 0, and after the extension it is the sign
    have hbit := congrArg (BitVec.getLsbD · 32) h
    rw [getLsbD_lowHalf pos (by decide), getLsbD_signExtend, hsign] at hbit
    simpa using hbit
  · intro hpos
    rw [signExtend_eq_setWidth_of_msb_false (hsign.trans hpos)]
    apply eq_of_getLsbD_eq
    intro i hi
    rw [getLsbD_lowHalf pos hi, getLsbD_setWidth, getLsbD_setWidth]
    by_cases hlow : i < 32 <;> simp [hlow, hi]

lemma toLoff_toLong_lowHalf (pos : BitVec 64) :
    DataModel.toLoff (m.toLong (pos &&& 0xffffffff)) = pos &&& 0xffffffff ↔
      m = .lp64 ∨ pos.getLsbD 31 = false := by
  cases m with
  | lp64 =>
    refine iff_of_true ?_ (.inl rfl)
    exact (signExtend_eq _).trans (signExtend_eq _)
  | ilp32 => exact (signExtend_lowHalf pos).trans (or_iff_right (by decide)).symm

lemma positionOf_positionedParams (fd : BitVec 32) (buf count : m.Long) (pos : BitVec 64) :
    positionOf (positionedParams m fd buf count pos) = some pos ↔
      m = .lp64 ∨ pos.getLsbD 31 = false := by
  rw [positionedParams, positionOf, Option.some_inj, toLoff_toLong_shiftLeft,
    ← toLoff_toLong_lowHalf]
  constructor
  · intro h
    exact (BitVec.add_right_inj _).1 (h.trans (position_halves pos).symm)
  · intro h
    rw [h]
    exact position_halves pos

/-- A position arrives as it was exactly if the data model is LP64 or its bit 31 is clear. -/
theorem position_survives_iff (m : DataModel) (fd : BitVec 32) (buf count : m.Long)
    (pos : BitVec 64) : (sysLklPread64 (lklSysPread64 m fd buf count pos) = some pos ∧
      sysLklPwrite64 (lklSysPwrite64 m fd buf count pos) = some pos) ↔
      m = .lp64 ∨ pos.getLsbD 31 = false := by
  have h := positionOf_positionedParams fd buf count pos
  exact (and_congr h h).trans (and_self_iff)

/-- On ILP32 the position 2 GiB becomes a negative one. -/
theorem position_two_gib :
    sysLklPread64 (lklSysPread64 .ilp32 3 0x1000 1 0x80000000) = some (-0x80000000) := by
  decide

end LklPort.Syscalls
