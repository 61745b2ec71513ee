import Mathlib

/-!
# Kernel and file-system constants

The macros of `param.h` and `fs.h` that the modelled code reads, under the
source's own names.
-/

namespace Xv6

/-- Maximum number of processes; `param.h:1`. -/
abbrev NPROC : Nat := 64

/-- Maximum number of active i-nodes; `param.h:6`. -/
abbrev NINODE : Nat := 50

/-- Maximum major device number; `param.h:7`. -/
abbrev NDEV : Nat := 10

/-- Device number of the file system's root disk; `param.h:8`. -/
abbrev ROOTDEV : Nat := 1

/-- Maximum number of blocks any file-system operation writes; `param.h:10`. -/
abbrev MAXOPBLOCKS : Nat := 20

/-- Maximum number of data blocks in the on-disk log; `param.h:11`. -/
abbrev LOGSIZE : Nat := MAXOPBLOCKS * 3

/-- Size of the disk block cache; `param.h:12`. -/
abbrev NBUF : Nat := MAXOPBLOCKS * 3

/-- Size of the file system in blocks; `param.h:13`. -/
abbrev FSSIZE : Nat := 40000

/-- Time quantum of level 0, in ticks; `param.h:16`. -/
abbrev TQHIGH : Nat := 5

/-- Time quantum of level 1; `param.h:17`. -/
abbrev TQMIDDLE : Nat := 10

/-- Time quantum of level 2; `param.h:18`. -/
abbrev TQLOW : Nat := 20

/-- Time allotment of level 0; `param.h:19`. -/
abbrev TAHIGH : Nat := 20

/-- Time allotment of level 1; `param.h:20`. -/
abbrev TAMIDDLE : Nat := 40

/-- Ticks between two priority boosts; `param.h:21`. -/
abbrev PRIORITYBOOST : Nat := 200

/-- Ticket total shared by both schedulers; `param.h:24`. -/
abbrev TOTALTICKETS : Int := 10000

/-- Largest CPU share, in percent, that `set_cpu_share` grants in total; `param.h:25`. -/
abbrev MAXSHARE : Int := 80

/-- Time quantum of a stride group; `param.h:26`. -/
abbrev TQSTRIDE : Nat := 5

/-- Maximum number of worker threads of one process; `param.h:29`. -/
abbrev MAXTHREAD : Nat := 10

/-- Block size in bytes; `fs.h:6`. -/
abbrev BSIZE : Nat := 512

/-- Direct addresses of an inode; `fs.h:24`. -/
abbrev NDIRECT : Nat := 10

/-- Addresses in one indirect block, `BSIZE / sizeof(uint)`; `fs.h:25`. -/
abbrev NINDIRECT : Nat := BSIZE / 4

/-- Blocks reached through the doubly indirect tree; `fs.h:26`. -/
abbrev NDINDIRECT : Nat := NINDIRECT * NINDIRECT

/-- Blocks reached through the triply indirect tree; `fs.h:27`. -/
abbrev NTINDIRECT : Nat := NDINDIRECT * NINDIRECT

/-- Maximum file size in blocks; `fs.h:28`. -/
abbrev MAXFILE : Nat := NDIRECT + NINDIRECT + NDINDIRECT + NTINDIRECT

/-- On-disk inodes per block, `BSIZE / sizeof(struct dinode)`; `fs.h:41`. -/
abbrev IPB : Nat := BSIZE / 64

/-- Bitmap bits per block; `fs.h:47`. -/
abbrev BPB : Nat := BSIZE * 8

/-! None of the bounds of an index type is zero, so literals are written as indices. -/

instance neZero_nproc : NeZero NPROC := ⟨by decide⟩

instance neZero_maxthread : NeZero MAXTHREAD := ⟨by decide⟩

instance (priority := 2000) neZero_threads : NeZero (MAXTHREAD + 1) := ⟨by decide⟩

instance neZero_ninode : NeZero NINODE := ⟨by decide⟩

end Xv6
