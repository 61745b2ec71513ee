import Xv6.Fs.Index

/-!
# The file system builder

`mkfs.c` adds inodes and their bytes to an image that it has filled with zero blocks. It
maps the blocks of a file with its own code, takes new blocks in increasing order and
writes the free map when it is done.
-/

namespace Xv6.Mkfs

open Fs Function

/-- What ends `mkfs` before it is done. -/
inductive Halt where
  /-- `assert(fbn < MAXFILE)` fails. -/
  | assertion
  /-- `indirect[fbn - NDIRECT]` is past the end of `indirect`. -/
  | bounds
  /-- `rsect` past the end of the image: "read", and `exit(1)`. -/
  | read
  deriving DecidableEq

/-- The image with the globals `freeinode` and `freeblock`. -/
structure Image where
  blocks : Nat → Block
  freeinode : Nat
  freeblock : Nat

/-- Write a sector; `mkfs.c:170-181`. -/
def wsect (img : Image) (sec : Nat) (buf : Block) : Image :=
  { img with blocks := update img.blocks sec buf }

/-- `if(xint(din.addrs[k]) == 0) din.addrs[k] = xint(freeblock++)`. -/
def allot (img : Image) (din : Dinode) (k : Fin (NDIRECT + 3)) : Image × Dinode :=
  if din.addrs k = 0 then
    ({ img with freeblock := img.freeblock + 1 },
      { din with addrs := update din.addrs k img.freeblock })
  else
    (img, din)

section

variable (sb : Superblock)

/-- The image before the first `ialloc`, but for the block of `sb`; `mkfs.c:108-111`. -/
def formatted : Image where
  blocks := fun _ ↦ Block.zero
  freeinode := 1
  freeblock := sb.nmeta

/-- Read a sector; the image has `sb.size` of them; `mkfs.c:210-221`. -/
def rsect (img : Image) (sec : Nat) : Except Halt Block :=
  if sec < sb.size then .ok (img.blocks sec) else .error .read

/-- Write an inode; `mkfs.c:183-195`. -/
def winode (img : Image) (inum : Nat) (din : Dinode) : Except Halt Image := do
  let buf ← rsect sb img (sb.IBLOCK inum)
  pure (wsect img (sb.IBLOCK inum) (writeDinode buf (inum % IPB) din))

/-- Read an inode; `mkfs.c:197-208`. -/
def rinode (img : Image) (inum : Nat) : Except Halt Dinode := do
  let buf ← rsect sb img (sb.IBLOCK inum)
  pure (readDinode buf (inum % IPB))

/-- Take the next inode; `mkfs.c:223-235`. -/
def ialloc (img : Image) (type : Int16) : Except Halt (Image × Nat) := do
  let inum := img.freeinode
  let img := { img with freeinode := inum + 1 }
  let img ← winode sb img inum { Dinode.fresh type with nlink := 1 }
  pure (img, inum)

theorem direct_lt {fbn : Nat} (h : fbn < NDIRECT) : fbn < NDIRECT + 3 := Nat.lt_add_right 3 h

/-- The sector `x` of the block `fbn` of a file, allocated if there is none;
`mkfs.c:270-286`. -/
def sector (img : Image) (din : Dinode) (fbn : Nat) : Except Halt (Image × Dinode × Nat) :=
  if ¬fbn < MAXFILE then
    .error .assertion
  else if h : fbn < NDIRECT then
    let k : Fin (NDIRECT + 3) := ⟨fbn, direct_lt h⟩
    let (img, din) := allot img din k
    .ok (img, din, din.addrs k)
  else do
    let k : Fin (NDIRECT + 3) := ⟨NDIRECT, single_lt⟩
    let (img, din) := allot img din k
    let indirect ← rsect sb img (din.addrs k)
    if ¬fbn - NDIRECT < NINDIRECT then
      .error .bounds
    else if indirect.word (fbn - NDIRECT) = 0 then
      let indirect := indirect.setWord (fbn - NDIRECT) img.freeblock
      let img := { img with freeblock := img.freeblock + 1 }
      let img := wsect img (din.addrs k) indirect
      pure (img, din, indirect.word (fbn - NDIRECT))
    else
      pure (img, din, indirect.word (fbn - NDIRECT))

/-- The loop of `iappend`; `p` is what is left of the bytes, `n` their number;
`mkfs.c:268-294`. -/
def appendLoop (img : Image) (din : Dinode) (off : Nat) (p : List UInt8) :
    Except Halt (Image × Dinode × Nat) :=
  if p.length > 0 then do
    let fbn := off / BSIZE
    let (img, din, x) ← sector sb img din fbn
    let n1 := min p.length ((fbn + 1) * BSIZE - off)
    let buf ← rsect sb img x
    let buf := buf.splice (off - fbn * BSIZE) n1 fun j ↦ p.getD j 0
    appendLoop (wsect img x buf) din (off + n1) (p.drop n1)
  else
    .ok (img, din, off)
termination_by p.length
decreasing_by
  have hlt : off % BSIZE < BSIZE := Nat.mod_lt _ (by decide)
  have hdiv := Nat.div_add_mod off BSIZE
  rw [List.length_drop, Nat.add_mul, Nat.mul_comm]
  omega

/-- Append the `n` bytes at `xp` to a file; `mkfs.c:255-297`. -/
def iappend (img : Image) (inum : Nat) (xp : List UInt8) : Except Halt Image := do
  let din ← rinode sb img inum
  let (img, din, off) ← appendLoop sb img din din.size xp
  winode sb img inum { din with size := off }

/-- The calls with which `main` fills the image. -/
inductive Call where
  | ialloc (type : Int16)
  | iappend (inum : Nat) (xp : List UInt8)

/-- The image after a call. -/
def mkfsStep (img : Image) : Call → Except Halt Image
  | .ialloc type => Prod.fst <$> ialloc sb img type
  | .iappend inum xp => iappend sb img inum xp

/-- `main` makes files and directories, as long as there are inodes, and appends to inodes it
has made; the length of an append is an `int`. -/
def Proper (img : Image) : Call → Prop
  | .ialloc type => type ≠ 0 ∧ type ≠ T_DEV ∧ img.freeinode < sb.ninodes
  | .iappend inum xp => 0 < inum ∧ inum < img.freeinode ∧ xp.length < 2 ^ 31

end

/-- The bytes appended to inode `i`. -/
def appended (cs : List Call) (i : Nat) : List UInt8 :=
  cs.flatMap fun c ↦ match c with
    | .ialloc _ => []
    | .iappend inum xp => if inum = i then xp else []

end Xv6.Mkfs
