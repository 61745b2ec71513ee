import Xv6.Fs.Tree

/-!
# System calls on directories

The calls of `sysfile.c` that give and take names, made one after another. A call has the
directory `cwd` of its process and the bytes that its buffer for a name begins with.
-/

namespace Xv6.Fs

open Function

open Mkfs (DIRSIZ T_DIR T_FILE ROOTINO)

section

variable (sb : Superblock) (dev : Devsw)

/-- `ip->nlink++` or `ip->nlink--`, with the `iupdate` after it. -/
def setLink (s : State) (ip : Slot) (nlink : Int16) : State :=
  setFields sb s ip (s.icache ip).major (s.icache ip).minor nlink

/-- The part of `sys_link` that gives the inode its new name; false for a jump to `bad`;
`sysfile.c:168-175`. -/
def linkNew (s : State) (cwd ip : Slot) (new : CString) (name : Nat → UInt8) :
    Except DirPanic (State × Bool) := do
  let (s, r) ← nameiparent sb dev s cwd new name
  match r with
  | none => pure (s, false)
  | some (dp, name) => do
    let s ← (ilock sb s dp).mapError .fs
    let (s, ok) ← dirlink sb dev s dp name (s.icache ip).inum
    let s ← (iput sb s dp).mapError .fs
    pure (s, ok)

/-- Create the path `new` as a link to the inode of `old`; `sysfile.c:142-189`. -/
def sys_link (s : State) (cwd : Slot) (old new : CString) (name : Nat → UInt8) :
    Except DirPanic (State × Int) := do
  let (s, r) ← namei sb dev s cwd old name
  match r with
  | none => pure (s, -1)
  | some ip => do
    let s ← (ilock sb s ip).mapError .fs
    if (s.icache ip).type = T_DIR then do
      let s ← (iput sb s ip).mapError .fs
      pure (s, -1)
    else do
      let s := setLink sb s ip ((s.icache ip).nlink + 1)
      let (s, linked) ← linkNew sb dev s cwd ip new name
      if linked = true then do
        let s ← (iput sb s ip).mapError .fs
        pure (s, 0)
      else do
        let s ← (ilock sb s ip).mapError .fs
        let s := setLink sb s ip ((s.icache ip).nlink - 1)
        let s ← (iput sb s ip).mapError .fs
        pure (s, -1)

/-- `ip->type != T_DIR || isdirempty(ip)`; `sysfile.c:237`. -/
def removable (s : State) (ip : Slot) : Except DirPanic (State × Bool) :=
  if (s.icache ip).type = T_DIR then isdirempty sb dev s ip else .ok (s, true)

/-- `sysfile.c:208-263`. -/
def sys_unlink (s : State) (cwd : Slot) (path : CString) (name : Nat → UInt8) :
    Except DirPanic (State × Int) := do
  let (s, r) ← nameiparent sb dev s cwd path name
  match r with
  | none => pure (s, -1)
  | some (dp, name) => do
    let s ← (ilock sb s dp).mapError .fs
    if namecmp name (chars dot) = 0 ∨ namecmp name (chars dotdot) = 0 then do
      let s ← (iput sb s dp).mapError .fs
      pure (s, -1)
    else do
      let (s, r) ← dirlookup sb dev s dp name
      match r with
      | none => do
        let s ← (iput sb s dp).mapError .fs
        pure (s, -1)
      | some (ip, off) => do
        let s ← (ilock sb s ip).mapError .fs
        if (s.icache ip).nlink < 1 then
          .error .unlinkNlink
        else do
          let (s, ok) ← removable sb dev s ip
          if ok = false then do
            let s ← (iput sb s ip).mapError .fs
            let s ← (iput sb s dp).mapError .fs
            pure (s, -1)
          else do
            let s ← writeDirent sb dev s dp off (List.replicate 16 0) .unlinkWritei
            let s := if (s.icache ip).type = T_DIR then setLink sb s dp ((s.icache dp).nlink - 1)
              else s
            let s ← (iput sb s dp).mapError .fs
            let s := setLink sb s ip ((s.icache ip).nlink - 1)
            let s ← (iput sb s ip).mapError .fs
            pure (s, 0)

/-- The two entries of a new directory; `sysfile.c:293-299`. -/
def makeDots (s : State) (dp ip : Slot) (type : Int16) : Except DirPanic State :=
  if type = T_DIR then do
    let s := setLink sb s dp ((s.icache dp).nlink + 1)
    let (s, ok) ← dirlink sb dev s ip (chars dot) (s.icache ip).inum
    if ok = false then
      .error .createDots
    else do
      let (s, ok) ← dirlink sb dev s ip (chars dotdot) (s.icache dp).inum
      if ok = false then .error .createDots else pure s
  else
    .ok s

/-- Create a new inode at a path, or find the file that is there; the inode is locked;
`sysfile.c:265-307`. -/
def create (s : State) (cwd : Slot) (path : CString) (type major minor : Int16)
    (name : Nat → UInt8) : Except DirPanic (State × Option Slot) := do
  let (s, r) ← nameiparent sb dev s cwd path name
  match r with
  | none => pure (s, none)
  | some (dp, name) => do
    let s ← (ilock sb s dp).mapError .fs
    let (s, r) ← dirlookup sb dev s dp name
    match r with
    | some (ip, _) => do
      let s ← (iput sb s dp).mapError .fs
      let s ← (ilock sb s ip).mapError .fs
      if type = T_FILE ∧ (s.icache ip).type = T_FILE then
        pure (s, some ip)
      else do
        let s ← (iput sb s ip).mapError .fs
        pure (s, none)
    | none => do
      let (s, ip) ← (ialloc sb s type).mapError .fs
      let s ← (ilock sb s ip).mapError .fs
      let s := setFields sb s ip major minor 1
      let s ← makeDots sb dev s dp ip type
      let (s, ok) ← dirlink sb dev s dp name (s.icache ip).inum
      if ok = false then
        .error .createDirlink
      else do
        let s ← (iput sb s dp).mapError .fs
        pure (s, some ip)

/-- `sysfile.c:359-373`. -/
def sys_mkdir (s : State) (cwd : Slot) (path : CString) (name : Nat → UInt8) :
    Except DirPanic (State × Int) := do
  let (s, r) ← create sb dev s cwd path T_DIR 0 0 name
  match r with
  | none => pure (s, -1)
  | some ip => do
    let s ← (iput sb s ip).mapError .fs
    pure (s, 0)

/-- `major` and `minor` are passed on as `short`s; `sysfile.c:375-393`. -/
def sys_mknod (s : State) (cwd : Slot) (path : CString) (major minor : Int16)
    (name : Nat → UInt8) : Except DirPanic (State × Int) := do
  let (s, r) ← create sb dev s cwd path T_DEV major minor name
  match r with
  | none => pure (s, -1)
  | some ip => do
    let s ← (iput sb s ip).mapError .fs
    pure (s, 0)

/-- The directory of the process after the call, with the state; `sysfile.c:395-418`. -/
def sys_chdir (s : State) (cwd : Slot) (path : CString) (name : Nat → UInt8) :
    Except DirPanic (State × Slot × Int) := do
  let (s, r) ← namei sb dev s cwd path name
  match r with
  | none => pure (s, cwd, -1)
  | some ip => do
    let s ← (ilock sb s ip).mapError .fs
    if (s.icache ip).type ≠ T_DIR then do
      let s ← (iput sb s ip).mapError .fs
      pure (s, cwd, -1)
    else do
      let s ← (iput sb s cwd).mapError .fs
      pure (s, ip, 0)

/-- `O_CREATE`; `fcntl.h:4`. -/
def O_CREATE : UInt32 := 0x200

/-- `O_RDONLY`; `fcntl.h:1`. -/
def O_RDONLY : UInt32 := 0

/-- The inode that `sys_open` opens, locked, or none; `sysfile.c:322-339`. -/
def openInode (s : State) (cwd : Slot) (path : CString) (omode : UInt32) (name : Nat → UInt8) :
    Except DirPanic (State × Option Slot) :=
  if omode &&& O_CREATE ≠ 0 then
    create sb dev s cwd path T_FILE 0 0 name
  else do
    let (s, r) ← namei sb dev s cwd path name
    match r with
    | none => pure (s, none)
    | some ip => do
      let s ← (ilock sb s ip).mapError .fs
      if (s.icache ip).type = T_DIR ∧ omode ≠ O_RDONLY then do
        let s ← (iput sb s ip).mapError .fs
        pure (s, none)
      else
        pure (s, some ip)

end

end Xv6.Fs
