import Xv6.Fs.Inodes

/-!
# The empty file system

The disk that `mkfs` writes before it adds files, the inode cache after boot, and the state
with one file open.
-/

namespace Xv6.Fs

open Function

section

variable (sb : Superblock)

/-- Set the bits of the first `n` blocks in the free map; `mkfs.c:237-251`. -/
def markUsed (n : Nat) (blocks : Nat → Block) : Nat → Block :=
  (List.range n).foldl
    (fun blocks b ↦ update blocks (sb.BBLOCK b) ((blocks (sb.BBLOCK b)).setBit (b % BPB))) blocks

/-- No inode is in use, and of the blocks only the metadata. -/
def emptyDisk : Nat → Block := markUsed sb sb.nmeta fun _ ↦ Block.zero

/-- The empty disk, with an empty log and an empty inode cache. -/
def emptyFs : State where
  blocks := emptyDisk sb
  lh := []
  icache := fun _ ↦ { Dinode.fresh 0 with inum := 0, ref := 0, valid := false }

variable {sb} {blocks : Nat → Block} {n x : Nat}

private theorem markUsed_succ : markUsed sb (n + 1) blocks =
    update (markUsed sb n blocks) (sb.BBLOCK n)
      ((markUsed sb n blocks (sb.BBLOCK n)).setBit (n % BPB)) := by
  simp only [markUsed, List.range_succ, List.foldl_append, List.foldl_cons, List.foldl_nil]

theorem used_markUsed :
    used sb (markUsed sb n blocks) x = (decide (x < n) || used sb blocks x) := by
  induction n with
  | zero => simp [markUsed]
  | succ n ih =>
    rw [markUsed_succ, used_setBit, ih, ← Bool.or_assoc, ← Bool.decide_or]
    congr 2
    exact propext (by omega)

theorem markUsed_of_lt (hx : x < sb.bmapstart) : markUsed sb n blocks x = blocks x := by
  induction n with
  | zero => rfl
  | succ n ih =>
    have hle := sb.le_BBLOCK n
    rw [markUsed_succ, update_of_ne (by omega), ih]

theorem markUsed_of_data (hn : n ≤ sb.size) (hx : sb.nmeta ≤ x) :
    markUsed sb n blocks x = blocks x := by
  induction n with
  | zero => rfl
  | succ n ih =>
    have hlt := sb.BBLOCK_lt (b := n) (by omega)
    rw [markUsed_succ, update_of_ne (by omega), ih (by omega)]

/-- A disk on which all inodes in use are empty and only metadata blocks are used is well
formed. -/
theorem diskOk_of_empty (hused : ∀ x < sb.size, used sb blocks x = decide (x < sb.nmeta))
    (hempty : ∀ i, Live sb blocks i →
      (dinode sb blocks i).size = 0 ∧ ∀ k, (dinode sb blocks i).addrs k = 0) :
    DiskOk sb blocks := by
  have hpos : ∀ P, diskAt sb blocks P = 0 := by
    intro P
    apply Lib.ptr_eq_zero_of_root
    unfold roots
    split
    · next hl => exact (hempty P.1.1 hl).2 P.1.2
    · rfl
  constructor
  · constructor
    · constructor
      · exact sb.nmeta_pos
      · intro P _ Q _ _ hz
        exact absurd (hpos P) hz
      · intro P _ hz
        exact absurd (hpos P) hz
      · intro b hlo hhi
        rw [hused b hhi]
        have hn := sb.nmeta_pos
        constructor
        · intro hb
          exact absurd (of_decide_eq_true hb) (Nat.not_lt.mpr hlo)
        · rintro ⟨P, -, hb⟩
          have h0 : b = 0 := hb.symm.trans (hpos P)
          omega
    · intro b hm hb
      rw [hused b hb]
      exact decide_eq_true hm
  · intro i hl k q _
    rw [hpos, (hempty i hl).1]
    exact iff_of_false (fun hz ↦ hz rfl) (not_needed_empty k q)
  · intro i hl
    rw [(hempty i hl).1]
    exact Nat.zero_le _

/-- All inodes of the empty disk are free. -/
theorem type_emptyDisk {i : Nat} (hi : i < sb.ninodes) : (dinode sb (emptyDisk sb) i).type = 0 := by
  have hd : dinode sb (emptyDisk sb) i = dinode sb (fun _ ↦ Block.zero) i :=
    dinode_congr (fun b hb ↦ markUsed_of_lt hb) hi
  rw [hd]
  exact type_readDinode_zero _

theorem emptyFs_consistent (sb : Superblock) : Consistent sb (emptyFs sb) where
  disk := by
    apply diskOk_of_empty
    · intro x _
      show used sb (emptyDisk sb) x = _
      have h0 : used sb (fun _ ↦ Block.zero) x = false := Block.bit_zero _
      rw [emptyDisk, used_markUsed, h0, Bool.or_false]
    · intro i hl
      exact absurd (type_emptyDisk hl.1) hl.2
  cache := by
    have hno : ∀ ip, ¬0 < ((emptyFs sb).icache ip).ref := fun _ ↦ Nat.lt_irrefl 0
    exact ⟨fun ip h ↦ absurd h.1 (hno ip), fun ip h ↦ absurd h.1 (hno ip),
      fun ip h ↦ absurd h (hno ip), fun ip _ h ↦ absurd h (hno ip)⟩

end

/-- The empty file system of `mkfs` with inode 1 allocated and locked. -/
def oneFile : State :=
  setInode (logWrite (emptyFs mkfsSuperblock) (mkfsSuperblock.IBLOCK 1)
      (writeDinode ((emptyFs mkfsSuperblock).blocks (mkfsSuperblock.IBLOCK 1)) (1 % IPB)
        (Dinode.fresh 2))) 0
    { Dinode.fresh 2 with inum := 1, ref := 1, valid := true }

theorem oneFile_slot :
    oneFile.icache 0 = { Dinode.fresh 2 with inum := 1, ref := 1, valid := true } :=
  icache_setInode_self _ _

theorem oneFile_held : Held oneFile 0 := by
  rw [Held, oneFile_slot]
  decide

theorem oneFile_consistent : Consistent mkfsSuperblock oneFile := by
  have hi : 1 < mkfsSuperblock.ninodes := by decide
  have hempty := emptyFs_consistent mkfsSuperblock
  apply (hempty.fresh hi (type_emptyDisk hi) 2).setInode
  refine fun _ ↦ ⟨hi, fun iq _ hq ↦ absurd hq (Nat.lt_irrefl 0), fun _ ↦ ⟨?_, by decide⟩⟩
  symm
  exact (dinode_update (Nat.two_pow_pos 32) fun _ ↦ Nat.two_pow_pos 32).trans (if_pos rfl)

end Xv6.Fs
