import Xv6.Fs.FileIo
import Xv6.Fs.Sysfile

/-!
# Files and processes

The table of open files, what each process refers to, and the system calls that change them, made
one after another. A process is one without threads, which would share its files without counting
their references.
-/

namespace Xv6.Fs

open Function

open Mkfs (DIRSIZ T_DIR T_FILE ROOTINO)

/-- `NOFILE`; `param.h:4`. -/
abbrev NOFILE : Nat := 16

/-- `NFILE`; `param.h:5`. -/
abbrev NFILE : Nat := 100

/-- `struct file` with its count of references; `file.h:1-9`. -/
structure OpenFile extends File where
  ref : Nat

/-- Which ends of a pipe are open: `readopen` and `writeopen` of `struct pipe`; `pipe.c:18-19`. -/
structure PipeEnds where
  readopen : Bool
  writeopen : Bool

/-- The files and the directory of a process, which is there from `fork` to `exit`. -/
structure Proc where
  live : Bool
  ofile : Fin NOFILE → Option (Fin NFILE)
  cwd : Option Slot

/-- The file system, the open files, the pages that are pipes, and the processes. -/
structure System where
  fs : State
  file : Fin NFILE → OpenFile
  pipe : Nat → Option PipeEnds
  proc : Fin NPROC → Proc

/-- What keeps a call on files from returning: its panics, and what comes from below. -/
inductive CallPanic where
  | dir (e : DirPanic)
  | file (e : FilePanic)
  /-- "filedup". -/
  | filedup
  /-- "fileclose". -/
  | fileclose
  /-- "init exiting". -/
  | initExiting
  /-- A null pointer, or one to a page that has been freed, is followed. -/
  | fault

def System.setFile (σ : System) (f : Fin NFILE) (g : OpenFile) : System :=
  { σ with file := update σ.file f g }

def System.setProc (σ : System) (p : Fin NPROC) (x : Proc) : System :=
  { σ with proc := update σ.proc p x }

/-! ### `file.c` and `pipe.c` -/

/-- Allocate a file structure; `file.c:26-41`. -/
def filealloc (σ : System) : Option (System × Fin NFILE) :=
  ((List.finRange NFILE).find? fun f ↦ (σ.file f).ref = 0).map fun f ↦
    (σ.setFile f { σ.file f with ref := 1 }, f)

/-- Increment ref count for file `f`; `file.c:44-53`. -/
def filedup (σ : System) (f : Fin NFILE) : Except CallPanic System :=
  if (σ.file f).ref < 1 then
    .error .filedup
  else
    .ok (σ.setFile f { σ.file f with ref := (σ.file f).ref + 1 })

/-- The page of a pipe is freed when both ends are closed; `pipe.c:59-75`. -/
def pipeclose (σ : System) (p : Nat) (writable : Bool) : Except CallPanic System :=
  match σ.pipe p with
  | none => .error .fault
  | some e =>
    let e := if writable = true then { e with writeopen := false }
      else { e with readopen := false }
    let o := if e.readopen = false ∧ e.writeopen = false then none else some e
    .ok { σ with pipe := update σ.pipe p o }

section

variable (sb : Superblock) (dev : Devsw) (pipes : Pipes)

/-- Close file `f`; `file.c:56-80`. -/
def fileclose (σ : System) (f : Fin NFILE) : Except CallPanic System :=
  let ff := σ.file f
  if ff.ref < 1 then
    .error .fileclose
  else if ff.ref - 1 > 0 then
    .ok (σ.setFile f { ff with ref := ff.ref - 1 })
  else
    let σ := σ.setFile f { ff with ref := 0, type := .FD_NONE }
    match ff.type with
    | .FD_PIPE => pipeclose σ ff.pipe ff.writable
    | .FD_INODE => do
      let fs ← (iput sb σ.fs ff.ip).mapError fun e ↦ CallPanic.dir (.fs e)
      pure { σ with fs }
    | .FD_NONE => .ok σ

/-- A new pipe in the page that `kalloc` returns, with a file for each end; `pipe.c:22-57`. -/
def pipealloc (σ : System) (page : Option Nat) :
    Except CallPanic (System × Option (Fin NFILE × Fin NFILE)) :=
  match filealloc σ with
  | none => .ok (σ, none)
  | some (σ, f0) =>
    match filealloc σ with
    | none => do
      let σ ← fileclose sb σ f0
      pure (σ, none)
    | some (σ, f1) =>
      match page with
      | none => do
        let σ ← fileclose sb σ f0
        let σ ← fileclose sb σ f1
        pure (σ, none)
      | some p =>
        let σ := { σ with pipe := update σ.pipe p (some ⟨true, true⟩) }
        let σ := σ.setFile f0
          { σ.file f0 with type := .FD_PIPE, readable := true, writable := false, pipe := p }
        let σ := σ.setFile f1
          { σ.file f1 with type := .FD_PIPE, readable := false, writable := true, pipe := p }
        .ok (σ, some (f0, f1))

/-! ### Descriptors -/

/-- The descriptor and the file that an argument of a call stands for; `sysfile.c:21-36`. -/
def argfd (x : Proc) (fd : Int32) : Option (Fin NOFILE × Fin NFILE) :=
  if h : 0 ≤ fd.toInt ∧ fd.toInt.toNat < NOFILE then
    (x.ofile ⟨fd.toInt.toNat, h.2⟩).map fun f ↦ (⟨fd.toInt.toNat, h.2⟩, f)
  else
    none

/-- Allocate a file descriptor for the given file; `sysfile.c:40-53`. -/
def fdalloc (x : Proc) (f : Fin NFILE) : Option (Proc × Fin NOFILE) :=
  ((List.finRange NOFILE).find? fun fd ↦ x.ofile fd = none).map fun fd ↦
    ({ x with ofile := update x.ofile fd (some f) }, fd)

/-- Descriptor `fd` of process `p` stands for `o` from here on. -/
def System.setFd (σ : System) (p : Fin NPROC) (fd : Fin NOFILE) (o : Option (Fin NFILE)) :
    System :=
  σ.setProc p { σ.proc p with ofile := update (σ.proc p).ofile fd o }

/-- `myproc()->cwd`, to be followed. -/
def cwdOf (σ : System) (p : Fin NPROC) : Except CallPanic Slot :=
  match (σ.proc p).cwd with
  | none => .error .fault
  | some cwd => .ok cwd

variable (σ : System) (p : Fin NPROC)

/-- `sysfile.c:55-67`. -/
def sys_dup (fd : Int32) : Except CallPanic (System × Int) :=
  match argfd (σ.proc p) fd with
  | none => .ok (σ, -1)
  | some (_, f) =>
    match fdalloc (σ.proc p) f with
    | none => .ok (σ, -1)
    | some (x, fd) => do
      let σ ← filedup (σ.setProc p x) f
      pure (σ, (fd.val : Int))

/-- `sysfile.c:117-128`. -/
def sys_close (fd : Int32) : Except CallPanic (System × Int) :=
  match argfd (σ.proc p) fd with
  | none => .ok (σ, -1)
  | some (fd, f) => do
    let σ ← fileclose sb (σ.setFd p fd none) f
    pure (σ, 0)

/-- A call on the file of a descriptor that may change the file system and the offset; its result
is none for -1. -/
def onFile {α : Type} (fd : Int32)
    (op : State → File → Except FilePanic (State × File × Option α)) :
    Except CallPanic (System × Option α) :=
  match argfd (σ.proc p) fd with
  | none => .ok (σ, none)
  | some (_, f) => do
    let (fs, g, r) ← (op σ.fs (σ.file f).toFile).mapError CallPanic.file
    pure (System.setFile { σ with fs } f { σ.file f with toFile := g }, r)

/-- `sysfile.c:69-79`. -/
def sys_read (fd n : Int32) : Except CallPanic (System × Option (Nat × List UInt8)) :=
  onFile σ p fd fun s g ↦ fileread sb dev pipes s g n

/-- `sysfile.c:81-91`. -/
def sys_write (fd : Int32) (addr : Nat → UInt8) (n : Int32) :
    Except CallPanic (System × Option Nat) :=
  onFile σ p fd fun s g ↦ filewrite sb dev pipes s g addr n

/-- `sysfile.c:93-103`. -/
def sys_pread (fd n off : Int32) : Except CallPanic (System × Option (Nat × List UInt8)) :=
  onFile σ p fd fun s g ↦ filepread sb dev pipes s g n off

/-- `sysfile.c:105-115`. -/
def sys_pwrite (fd : Int32) (addr : Nat → UInt8) (n off : Int32) :
    Except CallPanic (System × Option Nat) :=
  onFile σ p fd fun s g ↦ filepwrite sb dev pipes s g addr n off

/-- `O_WRONLY`; `fcntl.h:2`. -/
def O_WRONLY : UInt32 := 1

/-- `O_RDWR`; `fcntl.h:3`. -/
def O_RDWR : UInt32 := 2

/-- `sysfile.c:309-357`. -/
def sys_open (path : CString) (omode : UInt32) (name : Nat → UInt8) :
    Except CallPanic (System × Int) := do
  let cwd ← cwdOf σ p
  let (fs, r) ← (openInode sb dev σ.fs cwd path omode name).mapError CallPanic.dir
  let σ := { σ with fs }
  match r with
  | none => pure (σ, -1)
  | some ip =>
    match filealloc σ with
    | none => do
      let fs ← (iput sb σ.fs ip).mapError fun e ↦ CallPanic.dir (.fs e)
      pure ({ σ with fs }, -1)
    | some (σ, f) =>
      match fdalloc (σ.proc p) f with
      | none => do
        let σ ← fileclose sb σ f
        let fs ← (iput sb σ.fs ip).mapError fun e ↦ CallPanic.dir (.fs e)
        pure ({ σ with fs }, -1)
      | some (x, fd) =>
        let g := { σ.file f with
          type := .FD_INODE
          ip
          off := 0
          readable := decide (omode &&& O_WRONLY = 0)
          writable := decide (omode &&& O_WRONLY ≠ 0 ∨ omode &&& O_RDWR ≠ 0) }
        pure ((σ.setProc p x).setFile f g, (fd.val : Int))

/-- The two descriptors of a new pipe; `sysfile.c:446-468`. -/
def sys_pipe (page : Option Nat) :
    Except CallPanic (System × Option (Fin NOFILE × Fin NOFILE)) := do
  let (σ, r) ← pipealloc sb σ page
  match r with
  | none => pure (σ, none)
  | some (rf, wf) =>
    match fdalloc (σ.proc p) rf with
    | none => do
      let σ ← fileclose sb σ rf
      let σ ← fileclose sb σ wf
      pure (σ, none)
    | some (x, fd0) =>
      match fdalloc x wf with
      | none => do
        let σ ← fileclose sb ((σ.setProc p x).setFd p fd0 none) rf
        let σ ← fileclose sb σ wf
        pure (σ, none)
      | some (x, fd1) => pure (σ.setProc p x, some (fd0, fd1))

/-- A system call of `sysfile.c` that only names paths. -/
def onPath (op : State → Slot → Except DirPanic (State × Int)) :
    Except CallPanic (System × Int) := do
  let cwd ← cwdOf σ p
  let (fs, r) ← (op σ.fs cwd).mapError CallPanic.dir
  pure ({ σ with fs }, r)

/-- `sys_chdir`, with the directory of the process. -/
def chdir (path : CString) (name : Nat → UInt8) : Except CallPanic (System × Int) := do
  let cwd ← cwdOf σ p
  let (fs, cwd, r) ← (sys_chdir sb dev σ.fs cwd path name).mapError CallPanic.dir
  pure (System.setProc { σ with fs } p { σ.proc p with cwd := some cwd }, r)

/-! ### `proc.c` -/

/-- The loop of `fork` over the descriptors; `proc.c:227-229`. -/
def forkFiles (np : Fin NPROC) : System → List (Fin NOFILE) → Except CallPanic System
  | σ, [] => .ok σ
  | σ, fd :: fds =>
    match (σ.proc p).ofile fd with
    | none => forkFiles np σ fds
    | some f => do
      let σ ← filedup σ f
      forkFiles np (σ.setFd np fd (some f)) fds

/-- The files and the directory of a new process, in the slot that `allocproc` has found, if there
is one and memory to go with it; `proc.c:201-244`. -/
def fork (child : Option (Fin NPROC)) : Except CallPanic System :=
  match child with
  | none => .ok σ
  | some np => do
    let σ ← forkFiles p np σ (List.finRange NOFILE)
    let cwd ← cwdOf σ p
    let σ := { σ with fs := idup σ.fs cwd }
    pure (σ.setProc np { σ.proc np with live := true, cwd := some cwd })

/-- The loop of `exit` over the descriptors; `proc.c:264-269`. -/
def exitFiles : System → List (Fin NOFILE) → Except CallPanic System
  | σ, [] => .ok σ
  | σ, fd :: fds =>
    match (σ.proc p).ofile fd with
    | none => exitFiles σ fds
    | some f => do
      let σ ← fileclose sb σ f
      exitFiles (σ.setFd p fd none) fds

/-- `initproc`: the process in the first slot; `proc.c:146-148`. -/
def initproc : Fin NPROC := ⟨0, by decide⟩

/-- `proc.c:249-274`. -/
def exit : Except CallPanic System :=
  if p = initproc then
    .error .initExiting
  else do
    let σ ← exitFiles sb p σ (List.finRange NOFILE)
    let cwd ← cwdOf σ p
    let fs ← (iput sb σ.fs cwd).mapError fun e ↦ CallPanic.dir (.fs e)
    pure (System.setProc { σ with fs } p { σ.proc p with live := false, cwd := none })

/-! ### One call -/

/-- The calls of a process. -/
inductive SysCall where
  | open (path : CString) (omode : UInt32)
  | close (fd : Int32)
  | dup (fd : Int32)
  | read (fd n : Int32)
  | write (fd : Int32) (addr : Nat → UInt8) (n : Int32)
  | pread (fd n off : Int32)
  | pwrite (fd : Int32) (addr : Nat → UInt8) (n off : Int32)
  | pipe (page : Option Nat)
  | link (old new : CString)
  | unlink (path : CString)
  | mkdir (path : CString)
  | mknod (path : CString) (major minor : Int16)
  | chdir (path : CString)
  | fork (child : Option (Fin NPROC))
  | exit

/-- The system after a call of process `p`, where `name` is what is in the buffer of the call. -/
def sysStep (name : Nat → UInt8) : SysCall → Except CallPanic System
  | .open path omode => Prod.fst <$> sys_open sb dev σ p path omode name
  | .close fd => Prod.fst <$> sys_close sb σ p fd
  | .dup fd => Prod.fst <$> sys_dup σ p fd
  | .read fd n => Prod.fst <$> sys_read sb dev pipes σ p fd n
  | .write fd addr n => Prod.fst <$> sys_write sb dev pipes σ p fd addr n
  | .pread fd n off => Prod.fst <$> sys_pread sb dev pipes σ p fd n off
  | .pwrite fd addr n off => Prod.fst <$> sys_pwrite sb dev pipes σ p fd addr n off
  | .pipe page => Prod.fst <$> sys_pipe sb σ p page
  | .link old new => Prod.fst <$> onPath σ p fun s cwd ↦ sys_link sb dev s cwd old new name
  | .unlink path => Prod.fst <$> onPath σ p fun s cwd ↦ sys_unlink sb dev s cwd path name
  | .mkdir path => Prod.fst <$> onPath σ p fun s cwd ↦ sys_mkdir sb dev s cwd path name
  | .mknod path major minor =>
    Prod.fst <$> onPath σ p fun s cwd ↦ sys_mknod sb dev s cwd path major minor name
  | .chdir path => Prod.fst <$> chdir sb dev σ p path name
  | .fork child => fork σ p child
  | .exit => exit sb σ p

end

end Xv6.Fs
