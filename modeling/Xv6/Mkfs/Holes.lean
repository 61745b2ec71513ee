import Xv6.Mkfs.Main

/-!
# Holes in the image

The kernel expects every block of a file of a fresh image to be there: `bmap` allocates what it
does not find, on a read too. `main` rounds the size of the root directory up by a formula that
adds a block of its own when the entries fill whole blocks.
-/

namespace Xv6.Mkfs

open Fs Function

/-! ### The property -/

/-- The block at index `bn` of inode `i` as the kernel finds it, zero if there is none, within
the direct and the single indirect blocks; `fs.c:376-397`. -/
def pointer (sb : Superblock) (blocks : Nat → Block) (i bn : Nat) : Nat :=
  let din := dinode sb blocks i
  if h : bn < NDIRECT then
    din.addrs ⟨bn, direct_lt h⟩
  else
    let addr := din.addrs ⟨NDIRECT, single_lt⟩
    if addr = 0 then 0 else (blocks addr).word (bn - NDIRECT)

/-- The number of blocks that the size of an inode covers. -/
def covered (sb : Superblock) (img : Image) (i : Nat) : Nat :=
  blocksFor (dinode sb img.blocks i).size

/-- Inode `i` is one of the file system's, or one that the builder has made. -/
def Image.Inode (img : Image) (i : Nat) : Prop := 0 < i ∧ (i < NINODES ∨ i < img.freeinode)

/-- The image has no holes: every block that a size covers is there, in one place only, the free
map has just the blocks below `freeblock` in use, and `readi` never has to allocate. -/
structure NoHoles (sb : Superblock) (img : Image) : Prop where
  mapped : ∀ i, img.Inode i → ∀ bn < covered sb img i, pointer sb img.blocks i bn ≠ 0
  distinct : ∀ i j, img.Inode i → img.Inode j → ∀ bn < covered sb img i,
    ∀ bn' < covered sb img j, pointer sb img.blocks i bn = pointer sb img.blocks j bn' →
      pointer sb img.blocks i bn ≠ 0 → i = j ∧ bn = bn'
  marked : ∀ x < sb.size, used sb img.blocks x = decide (x < img.freeblock)
  reads : ∀ i, 0 < i → i < img.freeinode → ∀ dev s ip, s.blocks = img.blocks →
    (s.icache ip).inum = i → (s.icache ip).toDinode = dinode sb img.blocks i →
    ∀ off n : UInt32, ∃ r, readi sb dev s ip off n = .ok (s, r)

/-! ### The number of inodes is not read -/

/-- Superblocks that differ in the number of inodes at most. -/
structure SameLayout (sb sb' : Superblock) : Prop where
  size : sb.size = sb'.size
  inodestart : sb.inodestart = sb'.inodestart
  bmapstart : sb.bmapstart = sb'.bmapstart

namespace SameLayout

variable {sb sb' : Superblock} (h : SameLayout sb sb')

include h

theorem IBLOCK : sb.IBLOCK = sb'.IBLOCK := by
  funext i
  unfold Superblock.IBLOCK
  rw [h.inodestart]

private theorem nmeta : sb.nmeta = sb'.nmeta := by
  unfold Superblock.nmeta
  rw [h.bmapstart, h.size]

theorem used : Fs.used sb = Fs.used sb' := by
  funext blocks b
  unfold Fs.used Superblock.BBLOCK
  rw [h.bmapstart]

theorem dinode : Fs.dinode sb = Fs.dinode sb' := by
  funext blocks i
  unfold Fs.dinode
  rw [h.IBLOCK]

private theorem rsect_eq : rsect sb = rsect sb' := by
  funext img sec
  unfold rsect
  rw [h.size]

private theorem appendLoop_eq : appendLoop sb = appendLoop sb' := by
  have hsector : sector sb = sector sb' := by
    funext img din fbn
    unfold sector
    rw [h.rsect_eq]
  funext img din off p
  obtain ⟨n, hn⟩ : ∃ n, n = p.length := ⟨_, rfl⟩
  induction n using Nat.strong_induction_on generalizing img din off p with
  | h n ih =>
    unfold appendLoop
    rw [hsector, h.rsect_eq]
    split
    · next hpos =>
      dsimp only
      congr 1
      funext ⟨img₁, din₁, x⟩
      dsimp only
      congr 1
      funext buf
      refine ih _ ?_ _ _ _ _ rfl
      have hmod : off % BSIZE < BSIZE := Nat.mod_lt _ (by decide)
      have hdiv := Nat.div_add_mod' off BSIZE
      rw [hn, List.length_drop, Nat.add_mul]
      omega
    · rfl

theorem main_eq : main sb = main sb' := by
  have hw : winode sb = winode sb' := by
    funext img inum din
    unfold winode
    rw [h.rsect_eq, h.IBLOCK]
  have hr : rinode sb = rinode sb' := by
    funext img inum
    unfold rinode
    rw [h.rsect_eq, h.IBLOCK]
  have hialloc : ialloc sb = ialloc sb' := by
    funext img type
    unfold ialloc
    rw [hw]
  have hiappend : iappend sb = iappend sb' := by
    funext img inum xp
    unfold iappend
    rw [h.appendLoop_eq, hw, hr]
  have hformat : formatted sb = formatted sb' := by
    unfold formatted
    rw [h.nmeta]
  have hroot : makeRoot sb = makeRoot sb' := by
    unfold makeRoot
    rw [hialloc, hiappend, hformat]
  have hadd : addFile sb = addFile sb' := by
    funext rootino img file
    unfold addFile
    rw [hialloc, hiappend]
  have hfix : fixRoot sb = fixRoot sb' := by
    funext img rootino
    unfold fixRoot
    rw [hr, hw]
  have hballoc : balloc sb = balloc sb' := by
    funext img
    unfold balloc
    rw [h.bmapstart]
  funext files
  unfold main
  rw [hroot, hadd, hfix, hballoc]

private theorem readLoop_eq : readLoop sb = readLoop sb' := by
  have hballoc : Fs.balloc sb = Fs.balloc sb' := by
    funext s
    unfold Fs.balloc Superblock.BBLOCK
    rw [h.used, h.size, h.bmapstart]
  have hbmap : bmap sb = bmap sb' := by
    funext s ip bn
    unfold bmap root entry
    rw [hballoc]
  funext s ip off tot n dst
  obtain ⟨k, hk⟩ : ∃ k, k = n - tot := ⟨_, rfl⟩
  induction k using Nat.strong_induction_on generalizing s off tot dst with
  | h k ih =>
    unfold readLoop
    rw [hbmap]
    split
    · next hlt =>
      congr 1
      funext r
      have hmod : off % BSIZE < BSIZE := Nat.mod_lt _ (by decide)
      exact ih _ (by omega) _ _ _ _ rfl
    · rfl

theorem readi_eq : readi sb = readi sb' := by
  funext dev s ip off n
  unfold readi
  rw [h.readLoop_eq]

theorem noHoles {img : Image} (hno : NoHoles sb' img) : NoHoles sb img := by
  have hpointer : pointer sb = pointer sb' := by
    funext blocks i bn
    unfold pointer
    rw [h.dinode]
  have hcovered : covered sb = covered sb' := by
    funext img i
    unfold covered
    rw [h.dinode]
  constructor
  · rw [hpointer, hcovered]
    exact hno.mapped
  · rw [hpointer, hcovered]
    exact hno.distinct
  · rw [h.used, h.size]
    exact hno.marked
  · rw [h.readi_eq, h.dinode]
    exact hno.reads

end SameLayout

/-! ### The free map -/

theorem bit_bitmap {n : Nat} (hn : n ≤ BPB) (j : Nat) : (bitmap n).bit j = decide (j < n) := by
  induction n with
  | zero => simp [bitmap]
  | succ n ih =>
    have hsnoc : bitmap (n + 1) = (bitmap n).setBit n := by
      simp only [bitmap, List.range_succ, List.foldl_append, List.foldl_cons, List.foldl_nil]
    rw [hsnoc, Block.bit_setBit _ _ _ (by omega), ih (by omega), ← Bool.decide_or]
    apply decide_eq_decide.mpr
    omega

/-- The finished image, beside the kernel state that shows the image before the last two
steps. -/
structure Complete (sb : Superblock) (args : List Input) (f : Nat → List UInt8) (img : Image)
    (s : State) (fin : Image) : Prop where
  built : Built sb args f img s
  finished : Finished sb img fin
  inodes : args.length + 2 ≤ sb.ninodes
  all : NINODES < sb.ninodes
  few : args.length < NINODES

namespace Complete

variable {sb : Superblock} {args : List Input} {f : Nat → List UInt8} {img fin : Image} {s : State}
  (h : Complete sb args f img s fin)

include h

private theorem root_lt : ROOTINO < sb.ninodes := Nat.lt_trans (by decide) h.all

theorem marked {x : Nat} (hx : x < sb.size) : used sb fin.blocks x = decide (x < fin.freeblock) := by
  have hfew : img.freeblock < BPB := h.finished.few
  have hlt := sb.BBLOCK_lt hx
  have hroot := sb.IBLOCK_lt h.root_lt
  unfold used
  rw [h.finished.blocks, h.finished.freeblock]
  by_cases hb : sb.BBLOCK x = sb.bmapstart
  · have hx' : x < BPB := by
      have hz : x / BPB = 0 := by
        unfold Superblock.BBLOCK at hb
        omega
      exact (Nat.div_eq_zero_iff_lt (by decide)).mp hz
    rw [hb, update_self, bit_bitmap hfew.le, Nat.mod_eq_of_lt hx']
  · have hle := sb.le_BBLOCK x
    have hx' : BPB ≤ x := by
      by_contra hn
      apply hb
      unfold Superblock.BBLOCK
      rw [Nat.div_eq_of_lt (Nat.not_le.mp hn), Nat.zero_add]
    have hzero : img.blocks (sb.BBLOCK x) = Block.zero := h.built.shows.unwritten _ hle hlt
    rw [update_of_ne hb, update_of_ne (by omega), hzero, Block.bit_zero]
    symm
    apply decide_eq_false
    omega

/-! ### Inodes -/

/-- The size of the root directory before it is rounded up. -/
private theorem root_size : (dinode sb img.blocks ROOTINO).size = 16 * (args.length + 2) := by
  have hlt : ROOTINO < img.freeinode := by
    rw [h.built.inodes]
    exact Nat.succ_lt_succ (Nat.succ_pos _)
  have hmade := h.built.made ROOTINO root_pos hlt
  rw [← h.built.dinode_eq h.root_lt, h.built.size_eq ⟨h.root_lt, hmade.1⟩, h.built.entries]

/-- Only the size of the root directory has changed. -/
theorem dinode_eq {i : Nat} (hi : i < sb.ninodes) :
    dinode sb fin.blocks i =
      if i = ROOTINO then
        { dinode sb s.blocks ROOTINO with size := (16 * (args.length + 2) / BSIZE + 1) * BSIZE }
      else
        dinode sb s.blocks i := by
  have hroot := sb.IBLOCK_lt h.root_lt
  have hsmall : (16 * (args.length + 2) / BSIZE + 1) * BSIZE < 2 ^ 32 := by
    have hfew : args.length < 200 := h.few
    show (16 * (args.length + 2) / 512 + 1) * 512 < 2 ^ 32
    omega
  have hmap : dinode sb fin.blocks i = dinode sb (update img.blocks (sb.IBLOCK ROOTINO)
      (writeDinode (img.blocks (sb.IBLOCK ROOTINO)) (ROOTINO % IPB)
        { dinode sb img.blocks ROOTINO with
          size := ((dinode sb img.blocks ROOTINO).size / BSIZE + 1) * BSIZE })) i := by
    apply dinode_congr _ hi
    intro b hb
    rw [h.finished.blocks, update_of_ne (by omega)]
  rw [hmap, dinode_update, h.root_size, h.built.dinode_eq h.root_lt, h.built.dinode_eq hi]
  · rwa [h.root_size]
  · exact (readDinode_lt _ _).2

theorem addrs_eq {i : Nat} (hi : i < sb.ninodes) :
    (dinode sb fin.blocks i).type = (dinode sb s.blocks i).type ∧
      (dinode sb fin.blocks i).addrs = (dinode sb s.blocks i).addrs := by
  rw [h.dinode_eq hi]
  split
  · next he =>
    rw [he]
    exact ⟨rfl, rfl⟩
  · exact ⟨rfl, rfl⟩

theorem data_eq {b : Nat} (hb : sb.nmeta ≤ b) : fin.blocks b = s.blocks b := by
  have hroot := sb.IBLOCK_lt h.root_lt
  have hmap := sb.bmapstart_lt
  rw [h.finished.blocks, update_of_ne (by omega), update_of_ne (by omega)]
  exact (h.built.shows.blocks b (by omega)).symm

/-- The blocks stand where they stood before the last two steps. -/
theorem pointer_eq {i bn : Nat} (hl : Live sb s.blocks i) (hbn : bn < NDIRECT + NINDIRECT) :
    pointer sb fin.blocks i bn = diskAt sb s.blocks (place i bn) := by
  have hroot : ∀ k, diskAt sb s.blocks ((i, k), []) = (dinode sb s.blocks i).addrs k :=
    roots_of_live hl.1 hl.2
  unfold pointer
  dsimp only
  rw [(h.addrs_eq hl.1).2]
  split
  · next hd =>
    rw [place, leaf_direct hd, hroot]
    rfl
  · next hd =>
    have hin : bn - NDIRECT < NINDIRECT := by omega
    have hplace : place i bn = ((i, ⟨NDIRECT, single_lt⟩), [bn - NDIRECT]) := by
      rw [place, leaf_single hd hin]
    have hptr : diskAt sb s.blocks ((i, ⟨NDIRECT, single_lt⟩), [bn - NDIRECT]) =
        if (dinode sb s.blocks i).addrs ⟨NDIRECT, single_lt⟩ = 0 then 0 else
          (s.blocks ((dinode sb s.blocks i).addrs ⟨NDIRECT, single_lt⟩)).word (bn - NDIRECT) := by
      rw [← hroot]
      exact Lib.ptr_cons
    rw [hplace, hptr]
    split
    · rfl
    · next hz =>
      rw [← hroot] at hz ⊢
      have hrange := h.built.consistent.disk.owned.owns.range _ Lib.mem_positions_nil hz
      rw [h.data_eq hrange.1]

theorem live {i : Nat} (hpos : 0 < i) (hlt : i < img.freeinode) : Live sb s.blocks i :=
  ⟨Nat.lt_of_lt_of_le hlt h.built.count, (h.built.made i hpos hlt).1⟩

/-- The block is there exactly when the size before the last two steps covers it. -/
theorem pointer_ne_zero {i bn : Nat} (hpos : 0 < i) (hlt : i < img.freeinode)
    (hbn : bn < NDIRECT + NINDIRECT) :
    pointer sb fin.blocks i bn ≠ 0 ↔ bn < blocksFor (f i).length := by
  have hl := h.live hpos hlt
  have hmax : bn < MAXFILE := Nat.lt_of_lt_of_le hbn (by decide)
  rw [h.pointer_eq hl hbn, ← h.built.size_eq hl, ← needed_leaf hmax]
  exact h.built.consistent.disk.mapped i hl _ _ (isLeaf_place i hmax).1

theorem inode_cases {i : Nat} (hi : fin.Inode i) :
    i = ROOTINO ∨ i ≠ ROOTINO ∧ 0 < i ∧ i < img.freeinode ∨
      i ≠ ROOTINO ∧ img.freeinode ≤ i ∧ i < sb.ninodes := by
  have hcount := h.finished.freeinode
  have hall := h.all
  have hmade := h.built.count
  obtain ⟨hpos, hbound⟩ := hi
  by_cases he : i = ROOTINO
  · exact Or.inl he
  · omega

/-- The size of the root directory covers the blocks of its entries, and one more if these are
full. -/
private theorem covered_root : covered sb fin ROOTINO = 16 * (args.length + 2) / BSIZE + 1 := by
  rw [covered, h.dinode_eq h.root_lt, if_pos rfl]
  show ((16 * (args.length + 2) / 512 + 1) * 512 + 511) / 512 = 16 * (args.length + 2) / 512 + 1
  omega

private theorem covered_file {i : Nat} (he : i ≠ ROOTINO) (hpos : 0 < i) (hlt : i < img.freeinode) :
    covered sb fin i = blocksFor (f i).length := by
  have hl := h.live hpos hlt
  rw [covered, h.dinode_eq hl.1, if_neg he, h.built.size_eq hl]

private theorem covered_free {i : Nat} (he : i ≠ ROOTINO) (hle : img.freeinode ≤ i)
    (hi : i < sb.ninodes) : covered sb fin i = 0 := by
  rw [covered, h.dinode_eq hi, if_neg he, h.built.free i hle hi]
  rfl

theorem root_made : ROOTINO < img.freeinode := by
  rw [h.built.inodes]
  exact Nat.succ_lt_succ (Nat.succ_pos _)

/-- Of every inode, no more is covered than the single indirect blocks hold. -/
private theorem covered_lt {i bn : Nat} (hi : fin.Inode i) (hbn : bn < covered sb fin i) :
    (0 < i ∧ i < img.freeinode) ∧ bn < NDIRECT + NINDIRECT := by
  rcases h.inode_cases hi with rfl | ⟨he, hpos, hlt⟩ | ⟨he, hle, hlt⟩
  · refine ⟨⟨root_pos, h.root_made⟩, ?_⟩
    rw [h.covered_root] at hbn
    have hfew : args.length < 200 := h.few
    have hbn' : bn < 16 * (args.length + 2) / 512 + 1 := hbn
    show bn < 138
    omega
  · refine ⟨⟨hpos, hlt⟩, ?_⟩
    rw [h.covered_file he hpos hlt] at hbn
    exact Nat.lt_of_lt_of_le hbn (blocksFor_le (h.built.fits i))
  · rw [h.covered_free he hle hlt] at hbn
    exact absurd hbn (Nat.not_lt_zero bn)

theorem distinct {i j bn bn' : Nat} (hi : fin.Inode i) (hj : fin.Inode j)
    (hbn : bn < covered sb fin i) (hbn' : bn' < covered sb fin j)
    (he : pointer sb fin.blocks i bn = pointer sb fin.blocks j bn')
    (hz : pointer sb fin.blocks i bn ≠ 0) : i = j ∧ bn = bn' := by
  obtain ⟨⟨hpos, hlt⟩, hin⟩ := h.covered_lt hi hbn
  obtain ⟨⟨hpos', hlt'⟩, hin'⟩ := h.covered_lt hj hbn'
  have hmax : bn < MAXFILE := Nat.lt_of_lt_of_le hin (by decide)
  have hmax' : bn' < MAXFILE := Nat.lt_of_lt_of_le hin' (by decide)
  rw [h.pointer_eq (h.live hpos hlt) hin] at he hz
  rw [h.pointer_eq (h.live hpos' hlt') hin'] at he
  exact (place_inj hmax hmax').mp
    (h.built.consistent.disk.owned.owns.sep _ (isLeaf_place i hmax).1 _ (isLeaf_place j hmax').1
      he hz)

/-- The entries of the root directory fill whole blocks or not. -/
theorem mapped_iff : (∀ i, fin.Inode i → ∀ bn < covered sb fin i, pointer sb fin.blocks i bn ≠ 0) ↔
    16 * (args.length + 2) % BSIZE ≠ 0 := by
  have hfew : args.length < 200 := h.few
  have hfull : ∀ bn < NDIRECT + NINDIRECT, pointer sb fin.blocks ROOTINO bn ≠ 0 ↔
      bn < blocksFor (16 * (args.length + 2)) := by
    intro bn hbn
    rw [h.pointer_ne_zero root_pos h.root_made hbn, h.built.entries]
  constructor
  · intro hmapped hround
    have hlast : 16 * (args.length + 2) / 512 < 10 + 128 := by omega
    have hbn : 16 * (args.length + 2) / BSIZE < covered sb fin ROOTINO := by
      rw [h.covered_root]
      exact Nat.lt_succ_self _
    have hcov := (hfull _ hlast).mp (hmapped ROOTINO ⟨root_pos, Or.inl (by decide)⟩ _ hbn)
    have hround' : 16 * (args.length + 2) % 512 = 0 := hround
    have hcov' : 16 * (args.length + 2) / 512 < (16 * (args.length + 2) + 511) / 512 := hcov
    omega
  · intro hround i hi bn hbn
    obtain ⟨⟨hpos, hlt⟩, hin⟩ := h.covered_lt hi hbn
    by_cases he : i = ROOTINO
    · subst he
      rw [hfull bn hin]
      rw [h.covered_root] at hbn
      have hround' : 16 * (args.length + 2) % 512 ≠ 0 := hround
      have hbn' : bn < 16 * (args.length + 2) / 512 + 1 := hbn
      show bn < (16 * (args.length + 2) + 511) / 512
      omega
    · rw [h.pointer_ne_zero hpos hlt hin, ← h.covered_file he hpos hlt]
      exact hbn

/-- With every block there, a kernel with the image on its disk only reads. -/
theorem reads (hm : ∀ i, fin.Inode i → ∀ bn < covered sb fin i, pointer sb fin.blocks i bn ≠ 0)
    {i : Nat} (hpos : 0 < i) (hlt : i < img.freeinode) (dev : Devsw) {k : State} {ip : Slot}
    (hk : k.blocks = fin.blocks) (hinum : (k.icache ip).inum = i)
    (hdin : (k.icache ip).toDinode = dinode sb fin.blocks i) (off n : UInt32) :
    ∃ r, readi sb dev k ip off n = .ok (k, r) := by
  have hl := h.live hpos hlt
  have htype : (k.icache ip).type = (dinode sb s.blocks i).type := by
    rw [hdin, (h.addrs_eq hl.1).1]
  have hu : InUse sb ip k := by
    constructor
    · rw [hinum]
      exact hl.1
    · rw [htype]
      exact hl.2
  have hin : fin.Inode i := by
    refine ⟨hpos, Or.inr ?_⟩
    rw [h.finished.freeinode]
    exact hlt
  have hroots : roots sb (look sb k ip) = roots sb (dinode sb s.blocks) := by
    apply roots_congr
    intro j hj
    have hlook : look sb k ip j = dinode sb fin.blocks j := by
      unfold look
      rw [hinum, hk]
      split
      · next he => rw [hdin, he]
      · rfl
    rw [hlook]
    exact h.addrs_eq hj
  have hcov : (k.icache ip).size ≤ capacity := by
    rw [hdin]
    by_contra hgt
    have hgt' : ¬(dinode sb fin.blocks i).size ≤ 138 * 512 := hgt
    have hover : NDIRECT + NINDIRECT < covered sb fin i := by
      show 138 < ((dinode sb fin.blocks i).size + 511) / 512
      omega
    exact absurd (h.covered_lt hin hover).2 (Nat.lt_irrefl _)
  have hread := @readi_of_mapped sb ip k off n hu dev
    (by rw [htype]; exact (h.built.made i hpos hlt).2) (Nat.le_trans hcov (by decide)) (by
      intro bn hbn hneed
      have hb : bn < covered sb fin i := by
        rw [hdin] at hneed
        exact hneed
      have hP := (isLeaf_place i hbn).1
      have hp : pos sb ip k (place i bn) = diskAt sb s.blocks (place i bn) :=
        blockAt_congr h.built.consistent.disk.owned
          (fun b hb ↦ (congrFun hk b).trans (h.data_eq hb)) hroots hP
      rw [hinum, hp, ← h.pointer_eq hl (h.covered_lt hin hb).2]
      exact hm i hin bn hb)
  exact ⟨_, hread⟩

/-- The image has no holes exactly when the entries of the root directory leave room in their
last block. -/
theorem noHoles_iff : NoHoles sb fin ↔ 16 * (args.length + 2) % BSIZE ≠ 0 := by
  rw [← h.mapped_iff]
  constructor
  · exact fun hno ↦ hno.mapped
  · intro hm
    refine ⟨hm, fun i j hi hj bn hbn bn' hbn' ↦ h.distinct hi hj hbn hbn', fun x ↦ h.marked, ?_⟩
    intro i hpos hlt dev k ip hk hinum hdin off n
    rw [h.finished.freeinode] at hlt
    exact h.reads hm hpos hlt dev hk hinum hdin off n

end Complete

/-! ### The image of `mkfs` -/

/-- The layout of `mkfs`, with every inode that fits into the inode blocks. -/
private def wide : Superblock := { mkfsSuperblock with ninodes := 207, inodes_fit := by decide }

private theorem same_wide : SameLayout mkfsSuperblock wide := ⟨rfl, rfl, rfl⟩

private theorem wide_same : SameLayout wide mkfsSuperblock := ⟨rfl, rfl, rfl⟩

/-- A run of `main`, as far as the proofs need it. -/
private theorem main_wide {args : List Input} (hfew : args.length < NINODES) :
    Lib.Ensures (main mkfsSuperblock args) (fun _ ↦ ¬Bare args)
      fun fin ↦ ∃ f img s, Complete wide args f img s fin := by
  have hfew' : args.length < 200 := hfew
  have hinodes : args.length + 2 ≤ wide.ninodes := by
    show args.length + 2 ≤ 207
    omega
  rw [same_wide.main_eq]
  apply (main_spec (by decide) hinodes (by decide)).imp
  rintro fin ⟨img, f, s, hbuilt, hfin⟩
  exact ⟨f, img, s, hbuilt, hfin, hinodes, by decide, hfew⟩

private theorem noHoles_wide {args : List Input} {f : Nat → List UInt8} {img fin : Image}
    {s : State} (h : Complete wide args f img s fin) :
    NoHoles mkfsSuperblock fin ↔ (args.length + 2) % 32 ≠ 0 := by
  have hiff : 16 * (args.length + 2) % BSIZE ≠ 0 ↔ (args.length + 2) % 32 ≠ 0 := by
    show 16 * (args.length + 2) % 512 ≠ 0 ↔ _
    omega
  rw [← hiff, ← h.noHoles_iff]
  exact ⟨wide_same.noHoles, same_wide.noHoles⟩

/-- The image that `mkfs` makes of any files has no holes exactly when the entries of the root
directory, two more than there are files, do not fill its blocks. -/
theorem mkfs_no_holes_iff {args : List Input} (hfew : args.length < NINODES) {img : Image}
    (h : main mkfsSuperblock args = .ok img) :
    NoHoles mkfsSuperblock img ↔ (args.length + 2) % 32 ≠ 0 := by
  obtain ⟨f, img₀, s, hc⟩ := (main_wide hfew).of_ok h
  exact noHoles_wide hc

/-- An empty file with a name of one letter. -/
def emptyFile (i : Fin 30) : Input where
  name := [UInt8.ofNat (65 + i)]
  reads := []
  terminated := by
    revert i
    decide
  chunks := fun _ h ↦ nomatch h

private theorem bare_emptyFiles {is : List (Fin 30)} (h : is.length ≤ 30) :
    Bare (is.map emptyFile) where
  few := by rwa [List.length_map]
  short := by
    intro file hf
    obtain ⟨i, -, rfl⟩ := List.mem_map.mp hf
    exact Nat.zero_le _
  plain := by
    intro file hf
    obtain ⟨i, -, rfl⟩ := List.mem_map.mp hf
    have hplain : ∀ i, UInt8.ofNat '/'.toNat ∉ (emptyFile i).name := by decide
    exact hplain i

private theorem main_bare {args : List Input} (h : Bare args) :
    ∃ fin f img s, main mkfsSuperblock args = .ok fin ∧ Complete wide args f img s fin := by
  have hfew : args.length < 200 := Nat.lt_of_le_of_lt h.few (by decide)
  cases hrun : main mkfsSuperblock args with
  | ok fin =>
    obtain ⟨f, img, s, hc⟩ := (main_wide hfew).of_ok hrun
    exact ⟨fin, f, img, s, rfl, hc⟩
  | error e => exact absurd h ((main_wide hfew).of_error hrun)

/-- Thirty files make 32 entries, and the root directory is given a second block that is not
there. -/
theorem mkfs_hole : ∃ img, main mkfsSuperblock ((List.finRange 30).map emptyFile) = .ok img ∧
    covered mkfsSuperblock img ROOTINO = 2 ∧ pointer mkfsSuperblock img.blocks ROOTINO 1 = 0 ∧
      ¬NoHoles mkfsSuperblock img := by
  obtain ⟨fin, f, img, s, hrun, hc⟩ :=
    main_bare (@bare_emptyFiles (List.finRange 30) (by decide))
  have hlen : ((List.finRange 30).map emptyFile).length = 30 := by decide
  refine ⟨fin, hrun, ?_, ?_, ?_⟩
  · have hcov := hc.covered_root
    rw [hlen] at hcov
    exact hcov
  · have hone := @Complete.pointer_ne_zero _ _ _ _ _ _ hc _ 1 root_pos hc.root_made (by decide)
    rw [hc.built.entries, hlen] at hone
    by_contra hz
    exact absurd (hone.mp hz) (by decide)
  · rw [noHoles_wide hc, hlen]
    decide

/-- A file with one block of contents. -/
def fullFile : Input where
  name := [UInt8.ofNat 'f'.toNat]
  reads := [List.replicate BSIZE (UInt8.ofNat 'f'.toNat)]
  terminated := by decide
  chunks := by
    intro buf hbuf
    rw [List.mem_singleton.mp hbuf, List.length_replicate]
    exact ⟨by decide, Nat.le_refl _⟩

private theorem bare_fullFile : Bare [fullFile, emptyFile 0] where
  few := by decide
  short := by
    intro file hf
    obtain rfl | rfl : file = fullFile ∨ file = emptyFile 0 := by simpa using hf
    · exact Nat.le_of_eq (by simp [fullFile])
    · exact Nat.zero_le _
  plain := by
    intro file hf
    obtain rfl | rfl : file = fullFile ∨ file = emptyFile 0 := by simpa using hf
    · decide
    · decide

theorem mkfs_no_holes_iff_full : ∃ img, main mkfsSuperblock [fullFile, emptyFile 0] = .ok img ∧
    covered mkfsSuperblock img 2 = 1 ∧ pointer mkfsSuperblock img.blocks 2 0 ≠ 0 ∧
      NoHoles mkfsSuperblock img := by
  obtain ⟨fin, f, img, s, hrun, hc⟩ := main_bare bare_fullFile
  have hmade : 2 < img.freeinode := by
    rw [hc.built.inodes]
    decide
  have hlen : (f 2).length = BSIZE := by
    rw [hc.built.contents 2 (by decide)]
    simp [contents, fullFile]
  have hcov := hc.covered_file (by decide) (by decide) hmade
  have hptr := @Complete.pointer_ne_zero _ _ _ _ _ _ hc 2 0 (by decide) hmade (by decide)
  rw [hlen] at hcov hptr
  refine ⟨fin, hrun, hcov, hptr.mpr (by decide), ?_⟩
  exact (mkfs_no_holes_iff (by decide) hrun).mpr (by decide)

end Xv6.Mkfs
