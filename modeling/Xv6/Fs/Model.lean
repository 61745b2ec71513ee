import Xv6.Base.Block
import Xv6.Log.Model

/-!
# The file system layer

Blocks, inodes and file contents of `fs.c`, on one device, as functions on the contents
of the buffer cache. `log_write` records the block number in the header list as
`Xv6.Log.absorb` does; whether the log has room for it is the business of the log.
A `uint` that the code never lets wrap is a natural number; the offsets and lengths that
callers choose are `UInt32`.
-/

namespace Xv6.Fs

open Function

/-! ### Data -/

/-- The superblock fields that `fs.c` reads, with the layout `mkfs` gives them: inode blocks
before the free map, and a size that the `int` of `balloc` can count to. -/
structure Superblock where
  size : Nat
  ninodes : Nat
  inodestart : Nat
  bmapstart : Nat
  inodes_fit : inodestart + ninodes / IPB + 1 ≤ bmapstart
  size_lt : size < 2 ^ 31

/-- The superblock that `mkfs` writes; `mkfs.c:97-103`. -/
def mkfsSuperblock : Superblock where
  size := FSSIZE
  ninodes := 200
  inodestart := 2 + LOGSIZE
  bmapstart := 2 + LOGSIZE + (200 / IPB + 1)
  inodes_fit := by decide
  size_lt := by decide

/-- `IBLOCK(i, sb)`: the block containing inode `i`. -/
def Superblock.IBLOCK (sb : Superblock) (i : Nat) : Nat := i / IPB + sb.inodestart

/-- `BBLOCK(b, sb)`: the block of the free map containing the bit for block `b`. -/
def Superblock.BBLOCK (sb : Superblock) (b : Nat) : Nat := b / BPB + sb.bmapstart

/-- The number of metadata blocks, which is the first data block; `mkfs.c:94,108`. -/
def Superblock.nmeta (sb : Superblock) : Nat := sb.bmapstart + (sb.size / BPB + 1)

/-- On-disk inode structure; `fs.h:31-38`. -/
@[ext]
structure Dinode where
  type : Int16
  major : Int16
  minor : Int16
  nlink : Int16
  size : Nat
  addrs : Fin (NDIRECT + 3) → Nat

/-- In-memory copy of an inode; `file.h:13-26`. -/
structure Inode extends Dinode where
  inum : Nat
  ref : Nat
  valid : Bool

/-- `T_DEV`; `stat.h:3`. -/
def T_DEV : Int16 := 3

/-- The panics of the modelled functions. -/
inductive Panic where
  /-- "balloc: out of blocks". -/
  | outOfBlocks
  /-- `bfree`: "freeing free block". -/
  | freeingFreeBlock
  /-- "ialloc: no inodes". -/
  | iallocNoInodes
  /-- "iget: no inodes". -/
  | igetNoInodes
  /-- "ilock". -/
  | ilock
  /-- "ilock: no type". -/
  | ilockNoType
  /-- "bmap: out of range". -/
  | bmapOutOfRange
  deriving DecidableEq

/-- A pointer into `icache.inode`. -/
abbrev Slot := Fin NINODE

/-- The contents of the disk as the buffer cache shows them, the header list of the log, and
the inode cache. -/
structure State where
  blocks : Nat → Block
  lh : List Nat
  icache : Slot → Inode

/-- `devsw`: for each major number the device's `read` and `write`, if it has them. A read
returns its count with the bytes it put at `dst`; none is -1. -/
structure Devsw where
  read : Nat → Option (UInt32 → Option (Nat × List UInt8))
  write : Nat → Option ((Nat → UInt8) → UInt32 → Option Nat)

/-! ### On-disk inodes -/

/-- A `short` from the low half of a word. -/
def short (w : Nat) : Int16 := Int16.ofUInt16 (UInt16.ofNat w)

/-- Two `short`s side by side in a word. -/
def pack (lo hi : Int16) : Nat := lo.toUInt16.toNat + 65536 * hi.toUInt16.toNat

/-- `((struct dinode*)bp->data)[k]`: sixteen words from word `16 * k`. -/
def readDinode (blk : Block) (k : Nat) : Dinode where
  type := short (blk.word (16 * k))
  major := short (blk.word (16 * k) / 65536)
  minor := short (blk.word (16 * k + 1))
  nlink := short (blk.word (16 * k + 1) / 65536)
  size := blk.word (16 * k + 2)
  addrs := fun j ↦ blk.word (16 * k + 3 + j)

/-- `((struct dinode*)bp->data)[k] = d`. -/
def writeDinode (blk : Block) (k : Nat) (d : Dinode) : Block :=
  let blk := blk.setWord (16 * k) (pack d.type d.major)
  let blk := blk.setWord (16 * k + 1) (pack d.minor d.nlink)
  let blk := blk.setWord (16 * k + 2) d.size
  (List.finRange (NDIRECT + 3)).foldl
    (fun blk (j : Fin (NDIRECT + 3)) ↦ blk.setWord (16 * k + 3 + j) (d.addrs j)) blk

/-- The on-disk inode with number `inum`. -/
def dinode (sb : Superblock) (blocks : Nat → Block) (inum : Nat) : Dinode :=
  readDinode (blocks (sb.IBLOCK inum)) (inum % IPB)

/-! ### Blocks -/

/-- `log_write` of the buffer of block `b`, whose data is now `data`. -/
def logWrite (s : State) (b : Nat) (data : Block) : State :=
  { s with blocks := update s.blocks b data, lh := Log.absorb s.lh b }

/-- Zero a block; `fs.c:42-51`. -/
def bzero (s : State) (bno : Nat) : State := logWrite s bno Block.zero

section

variable (sb : Superblock)

/-- The bit of the free map for block `b`. -/
def used (blocks : Nat → Block) (b : Nat) : Bool := (blocks (sb.BBLOCK b)).bit (b % BPB)

/-- Allocate a zeroed disk block. The two loops over `b` and `bi` try `b + bi` in increasing
order; `fs.c:56-78`. -/
def balloc (s : State) : Except Panic (State × Nat) :=
  match (List.range sb.size).find? fun b ↦ !used sb s.blocks b with
  | some b =>
    let s := logWrite s (sb.BBLOCK b) ((s.blocks (sb.BBLOCK b)).setBit (b % BPB))
    .ok (bzero s b, b)
  | none => .error .outOfBlocks

/-- Free a disk block; `fs.c:81-95`. -/
def bfree (s : State) (b : Nat) : Except Panic State :=
  if used sb s.blocks b = false then
    .error .freeingFreeBlock
  else
    .ok (logWrite s (sb.BBLOCK b) ((s.blocks (sb.BBLOCK b)).clearBit (b % BPB)))

/-! ### Inodes -/

/-- `*ip = v`. -/
def setInode (s : State) (ip : Slot) (v : Inode) : State :=
  { s with icache := update s.icache ip v }

/-- Find the inode with number `inum` and return the in-memory copy; `fs.c:241-272`. -/
def iget (s : State) (inum : Nat) : Except Panic (State × Slot) :=
  match (List.finRange NINODE).find? fun ip ↦ 0 < (s.icache ip).ref ∧ (s.icache ip).inum = inum with
  | some ip => .ok (setInode s ip { s.icache ip with ref := (s.icache ip).ref + 1 }, ip)
  | none =>
    match (List.finRange NINODE).find? fun ip ↦ (s.icache ip).ref = 0 with
    | some ip => .ok (setInode s ip { s.icache ip with inum, ref := 1, valid := false }, ip)
    | none => .error .igetNoInodes

/-- A zeroed inode of the given type. -/
def Dinode.fresh (type : Int16) : Dinode := ⟨type, 0, 0, 0, 0, fun _ ↦ 0⟩

/-- Allocate an inode and mark it as allocated by giving it type `type`; `fs.c:194-214`. -/
def ialloc (s : State) (type : Int16) : Except Panic (State × Slot) :=
  match (List.range' 1 (sb.ninodes - 1)).find? fun inum ↦ (dinode sb s.blocks inum).type = 0 with
  | some inum =>
    let b := sb.IBLOCK inum
    iget (logWrite s b (writeDinode (s.blocks b) (inum % IPB) (Dinode.fresh type))) inum
  | none => .error .iallocNoInodes

/-- Copy a modified in-memory inode to disk; `fs.c:220-236`. -/
def iupdate (s : State) (ip : Slot) : State :=
  let b := sb.IBLOCK (s.icache ip).inum
  logWrite s b
    (writeDinode (s.blocks b) ((s.icache ip).inum % IPB) (s.icache ip).toDinode)

/-- Increment the reference count; `fs.c:276-283`. -/
def idup (s : State) (ip : Slot) : State :=
  setInode s ip { s.icache ip with ref := (s.icache ip).ref + 1 }

/-- Lock the given inode, reading it from disk if necessary; `fs.c:287-312`. -/
def ilock (s : State) (ip : Slot) : Except Panic State :=
  if (s.icache ip).ref < 1 then
    .error .ilock
  else if (s.icache ip).valid = false then
    let d := dinode sb s.blocks (s.icache ip).inum
    if d.type = 0 then
      .error .ilockNoType
    else
      .ok (setInode s ip { s.icache ip with toDinode := d, valid := true })
  else
    .ok s

/-- The assignments of `create`, `sys_link` and `sys_unlink` to the fields of a locked inode,
with the `iupdate` that follows them; `sysfile.c:164-165,251-252,288-291`. -/
def setFields (s : State) (ip : Slot) (major minor nlink : Int16) : State :=
  iupdate sb (setInode s ip { s.icache ip with major, minor, nlink }) ip

/-! ### Inode content -/

/-- `if((addr = ip->addrs[k]) == 0) ip->addrs[k] = addr = balloc(ip->dev)`. -/
def root (s : State) (ip : Slot) (k : Fin (NDIRECT + 3)) : Except Panic (State × Nat) :=
  let addr := (s.icache ip).addrs k
  if addr = 0 then do
    let (s, addr) ← balloc sb s
    let v := s.icache ip
    pure (setInode s ip { v with addrs := update v.addrs k addr }, addr)
  else
    .ok (s, addr)

/-- `a = bread(bno)->data; if((addr = a[i]) == 0){ a[i] = addr = balloc(ip->dev); log_write(bp); }`. -/
def entry (s : State) (bno i : Nat) : Except Panic (State × Nat) :=
  let addr := (s.blocks bno).word i
  if addr = 0 then do
    let (s, addr) ← balloc sb s
    pure (logWrite s bno ((s.blocks bno).setWord i addr), addr)
  else
    .ok (s, addr)

/-- The disk block address of the `bn`th block of an inode, allocated if there is none;
`fs.c:372-465`. -/
def bmap (s : State) (ip : Slot) (bn : Nat) : Except Panic (State × Nat) :=
  if h : bn < NDIRECT then
    root sb s ip ⟨bn, Nat.lt_add_right 3 h⟩
  else
  let bn := bn - NDIRECT
  if bn < NINDIRECT then do
    let (s, addr) ← root sb s ip ⟨NDIRECT, by decide⟩
    entry sb s addr bn
  else
  let bn := bn - NINDIRECT
  if bn < NDINDIRECT then do
    let (s, addr) ← root sb s ip ⟨NDIRECT + 1, by decide⟩
    let (s, addr) ← entry sb s addr (bn / NINDIRECT)
    entry sb s addr (bn % NINDIRECT)
  else
  let bn := bn - NDINDIRECT
  if bn < NTINDIRECT then do
    let (s, addr) ← root sb s ip ⟨NDIRECT + 2, by decide⟩
    let (s, addr) ← entry sb s addr (bn / NDINDIRECT)
    let bn := bn % NDINDIRECT
    let (s, addr) ← entry sb s addr (bn / NINDIRECT)
    entry sb s addr (bn % NINDIRECT)
  else
    .error .bmapOutOfRange

/-- `for(j = 0; j < NINDIRECT; j++) if(a[j]) f(a[j])`, where `a` is the data of block `bno`. -/
def eachEntry (s : State) (bno : Nat) (f : State → Nat → Except Panic State) :
    Except Panic State :=
  (List.range NINDIRECT).foldlM
    (fun s j ↦ let addr := (s.blocks bno).word j; if addr ≠ 0 then f s addr else .ok s) s

/-- `if(ip->addrs[k]){ f(ip->addrs[k]); ip->addrs[k] = 0; }`. -/
def truncRoot (s : State) (ip : Slot) (k : Fin (NDIRECT + 3))
    (f : State → Nat → Except Panic State) : Except Panic State :=
  let addr := (s.icache ip).addrs k
  if addr ≠ 0 then do
    let s ← f s addr
    let v := s.icache ip
    pure (setInode s ip { v with addrs := update v.addrs k 0 })
  else
    .ok s

/-- Truncate inode; `fs.c:472-552`. -/
def itrunc (s : State) (ip : Slot) : Except Panic State := do
  let s ← (List.finRange NDIRECT).foldlM
    (fun s i ↦ truncRoot s ip (i.castAdd 3) fun s addr ↦ bfree sb s addr) s
  let s ← truncRoot s ip ⟨NDIRECT, by decide⟩ fun s a ↦ do
    let s ← eachEntry s a fun s aj ↦ bfree sb s aj
    bfree sb s a
  let s ← truncRoot s ip ⟨NDIRECT + 1, by decide⟩ fun s a ↦ do
    let s ← eachEntry s a fun s ai ↦ do
      let s ← eachEntry s ai fun s daj ↦ bfree sb s daj
      bfree sb s ai
    bfree sb s a
  let s ← truncRoot s ip ⟨NDIRECT + 2, by decide⟩ fun s a ↦ do
    let s ← eachEntry s a fun s ai ↦ do
      let s ← eachEntry s ai fun s daj ↦ do
        let s ← eachEntry s daj fun s tak ↦ bfree sb s tak
        bfree sb s daj
      bfree sb s ai
    bfree sb s a
  pure (iupdate sb (setInode s ip { s.icache ip with size := 0 }) ip)

/-- Drop a reference to an in-memory inode; if it was the last one and the inode has no links,
free the inode and its content; `fs.c:331-352`. -/
def iput (s : State) (ip : Slot) : Except Panic State := do
  let s ←
    if (s.icache ip).valid = true ∧ (s.icache ip).nlink = 0 ∧ (s.icache ip).ref = 1 then do
      let s ← itrunc sb s ip
      let s := iupdate sb (setInode s ip { s.icache ip with type := 0 }) ip
      pure (setInode s ip { s.icache ip with valid := false })
    else
      .ok s
  pure (setInode s ip { s.icache ip with ref := (s.icache ip).ref - 1 })

/-- The loop of `readi`; `dst` is the list of bytes copied so far; `fs.c:586-591`. -/
def readLoop (s : State) (ip : Slot) (off tot n : Nat) (dst : List UInt8) :
    Except Panic (State × List UInt8) :=
  if tot < n then do
    let (s, addr) ← bmap sb s ip (off / BSIZE)
    let m := min (n - tot) (BSIZE - off % BSIZE)
    let bytes := (List.range m).map fun j ↦ (s.blocks addr).byte (off % BSIZE + j)
    readLoop s ip (off + m) (tot + m) n (dst ++ bytes)
  else
    .ok (s, dst)
termination_by n - tot
decreasing_by
  have hlt : off % BSIZE < BSIZE := Nat.mod_lt _ (by decide)
  omega

/-- Read data from inode: the return value with the bytes at `dst`, or none for -1;
`fs.c:569-593`. -/
def readi (dev : Devsw) (s : State) (ip : Slot) (off n : UInt32) :
    Except Panic (State × Option (Nat × List UInt8)) :=
  let v := s.icache ip
  if v.type = T_DEV then
    if v.major < 0 ∨ v.major.toInt ≥ NDEV then
      .ok (s, none)
    else
      match dev.read v.major.toInt.toNat with
      | none => .ok (s, none)
      | some f => .ok (s, f n)
  else if off.toNat > v.size ∨ off + n < off then
    .ok (s, none)
  else do
    let n := if (off + n).toNat > v.size then v.size - off.toNat else n.toNat
    let (s, dst) ← readLoop sb s ip off.toNat 0 n []
    pure (s, some (n, dst))

/-- The loop of `writei`, with the offset it ends at; `fs.c:615-621`. -/
def writeLoop (s : State) (ip : Slot) (src : Nat → UInt8) (off tot n : Nat) :
    Except Panic (State × Nat) :=
  if tot < n then do
    let (s, addr) ← bmap sb s ip (off / BSIZE)
    let m := min (n - tot) (BSIZE - off % BSIZE)
    let data := (s.blocks addr).splice (off % BSIZE) m fun j ↦ src (tot + j)
    writeLoop (logWrite s addr data) ip src (off + m) (tot + m) n
  else
    .ok (s, off)
termination_by n - tot
decreasing_by
  have hlt : off % BSIZE < BSIZE := Nat.mod_lt _ (by decide)
  omega

/-- Write data to inode: the return value, or none for -1; `fs.c:598-628`. -/
def writei (dev : Devsw) (s : State) (ip : Slot) (src : Nat → UInt8) (off n : UInt32) :
    Except Panic (State × Option Nat) :=
  let v := s.icache ip
  if v.type = T_DEV then
    if v.major < 0 ∨ v.major.toInt ≥ NDEV then
      .ok (s, none)
    else
      match dev.write v.major.toInt.toNat with
      | none => .ok (s, none)
      | some f => .ok (s, f src n)
  else if off.toNat > v.size ∨ off + n < off then
    .ok (s, none)
  else if (off + n).toNat > MAXFILE * BSIZE then
    .ok (s, none)
  else do
    let (s, off) ← writeLoop sb s ip src off.toNat 0 n.toNat
    if n.toNat > 0 ∧ off > (s.icache ip).size then
      pure (iupdate sb (setInode s ip { s.icache ip with size := off }) ip, some n.toNat)
    else
      pure (s, some n.toNat)

end

end Xv6.Fs
