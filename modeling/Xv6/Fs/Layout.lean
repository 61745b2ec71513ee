import Xv6.Fs.Model
import Xv6.Lib.Outcome

/-!
# The disk layout

On-disk inodes and the free map read back what was written, and the small operations of
`Xv6.Fs.Model` touch the blocks they are meant to touch: inode blocks, then the free map,
then data blocks.
-/

namespace Xv6.Fs

open Function

/-! ### On-disk inodes -/

theorem pack_lt (lo hi : Int16) : pack lo hi < 2 ^ 32 := by
  have h1 := lo.toUInt16.toNat_lt
  have h2 := hi.toUInt16.toNat_lt
  unfold pack
  omega

theorem short_pack (lo hi : Int16) : short (pack lo hi) = lo := by
  have h : UInt16.ofNat (pack lo hi) = lo.toUInt16 := by
    apply UInt16.toNat_inj.mp
    have h1 := lo.toUInt16.toNat_lt
    rw [UInt16.toNat_ofNat', pack]
    omega
  rw [short, h]

theorem short_pack_div (lo hi : Int16) : short (pack lo hi / 65536) = hi := by
  have h : UInt16.ofNat (pack lo hi / 65536) = hi.toUInt16 := by
    apply UInt16.toNat_inj.mp
    have h1 := lo.toUInt16.toNat_lt
    have h2 := hi.toUInt16.toNat_lt
    rw [UInt16.toNat_ofNat', pack]
    omega
  rw [short, h]

theorem pack_short {w : Nat} (h : w < 2 ^ 32) : pack (short w) (short (w / 65536)) = w := by
  have h1 : (short w).toUInt16 = UInt16.ofNat w := rfl
  have h2 : (short (w / 65536)).toUInt16 = UInt16.ofNat (w / 65536) := rfl
  rw [pack, h1, h2, UInt16.toNat_ofNat', UInt16.toNat_ofNat']
  omega

section Fold

variable {n : Nat} {c : Nat} {f : Fin n → Nat} (l : List (Fin n)) (blk : Block)

private theorem word_foldl_ne (hc : c + n ≤ NINDIRECT) (x : Nat) (hx : ∀ j ∈ l, x ≠ c + j) :
    (l.foldl (fun blk j ↦ blk.setWord (c + j) (f j)) blk).word x = blk.word x := by
  induction l generalizing blk with
  | nil => rfl
  | cons j l ih =>
    rw [List.foldl_cons, ih _ fun i hi ↦ hx i (List.mem_cons_of_mem j hi)]
    apply Block.word_setWord_ne
    · have := j.isLt
      omega
    · exact hx j List.mem_cons_self

private theorem word_foldl_mem (hc : c + n ≤ NINDIRECT) (hf : ∀ j, f j < 2 ^ 32) (hl : l.Nodup)
    {j : Fin n} (hj : j ∈ l) :
    (l.foldl (fun blk j ↦ blk.setWord (c + j) (f j)) blk).word (c + j) = f j := by
  induction l generalizing blk with
  | nil => cases hj
  | cons i l ih =>
    obtain ⟨hi, hl⟩ := List.nodup_cons.mp hl
    rw [List.foldl_cons]
    rcases List.mem_cons.mp hj with rfl | hj
    · rw [word_foldl_ne _ _ hc]
      · apply Block.word_setWord_same
        · have := j.isLt
          omega
        · exact hf j
      · intro k hk he
        have hjk : j = k := Fin.ext (by omega)
        exact hi (hjk ▸ hk)
    · exact ih _ hl hj

end Fold

section WriteDinode

variable {blk : Block} {k j : Nat} {d : Dinode}

private theorem word_writeDinode_ne (hk : k < IPB) (x : Nat) (hx : x / 16 ≠ k) :
    (writeDinode blk k d).word x = blk.word x := by
  have hk' : k < 8 := hk
  unfold writeDinode
  rw [word_foldl_ne]
  · rw [Block.word_setWord_ne, Block.word_setWord_ne, Block.word_setWord_ne]
    · show 16 * k < 128
      omega
    · omega
    · show 16 * k + 1 < 128
      omega
    · omega
    · show 16 * k + 2 < 128
      omega
    · omega
  · show 16 * k + 3 + 13 ≤ 128
    omega
  · intro i _ he
    have hi : i.val < 13 := i.isLt
    omega

private theorem word_writeDinode_head (hk : k < IPB) (hs : d.size < 2 ^ 32) :
    (writeDinode blk k d).word (16 * k) = pack d.type d.major ∧
      (writeDinode blk k d).word (16 * k + 1) = pack d.minor d.nlink ∧
      (writeDinode blk k d).word (16 * k + 2) = d.size := by
  have hk' : k < 8 := hk
  have hn : ∀ x, x < 3 → 16 * k + x < NINDIRECT := by
    intro x hx
    show 16 * k + x < 128
    omega
  have hfold : ∀ (b : Block) (x : Nat), x < 3 →
      ((List.finRange (NDIRECT + 3)).foldl
        (fun blk (j : Fin (NDIRECT + 3)) ↦ blk.setWord (16 * k + 3 + j) (d.addrs j)) b).word
          (16 * k + x) = b.word (16 * k + x) := by
    intro b x hx
    apply word_foldl_ne
    · show 16 * k + 3 + 13 ≤ 128
      omega
    · intro j _
      omega
  unfold writeDinode
  refine ⟨?_, ?_, ?_⟩
  · have h := hfold
      (((blk.setWord (16 * k) (pack d.type d.major)).setWord (16 * k + 1)
        (pack d.minor d.nlink)).setWord (16 * k + 2) d.size) 0 (by omega)
    rw [Nat.add_zero (16 * k)] at h
    rw [h, Block.word_setWord_ne _ _ _ _ (hn 2 (by omega)) (by omega),
      Block.word_setWord_ne _ _ _ _ (hn 1 (by omega)) (by omega),
      Block.word_setWord_same _ _ _ (by show 16 * k < 128; omega) (pack_lt _ _)]
  · rw [hfold _ 1 (by omega), Block.word_setWord_ne _ _ _ _ (hn 2 (by omega)) (by omega),
      Block.word_setWord_same _ _ _ (hn 1 (by omega)) (pack_lt _ _)]
  · rw [hfold _ 2 (by omega), Block.word_setWord_same _ _ _ (hn 2 (by omega)) hs]

/-- The inode just written is read back, and its neighbours in the block are unchanged. -/
theorem readDinode_writeDinode (hk : k < IPB) (hj : j < IPB) (hs : d.size < 2 ^ 32)
    (ha : ∀ i, d.addrs i < 2 ^ 32) :
    readDinode (writeDinode blk k d) j = if j = k then d else readDinode blk j := by
  split
  · next he =>
    subst he
    obtain ⟨h0, h1, h2⟩ := @word_writeDinode_head blk j d hk hs
    have h3 : ∀ i : Fin (NDIRECT + 3), (writeDinode blk j d).word (16 * j + 3 + i) = d.addrs i := by
      intro i
      have hj' : j < 8 := hj
      unfold writeDinode
      apply word_foldl_mem
      · show 16 * j + 3 + 13 ≤ 128
        omega
      · exact ha
      · exact List.nodup_finRange _
      · exact List.mem_finRange i
    ext
    · simp only [readDinode, h0, short_pack]
    · simp only [readDinode, h0, short_pack_div]
    · simp only [readDinode, h1, short_pack]
    · simp only [readDinode, h1, short_pack_div]
    · simp only [readDinode, h2]
    · simp only [readDinode, h3]
  · next he =>
    have hw : ∀ x, x < 16 → (writeDinode blk k d).word (16 * j + x) = blk.word (16 * j + x) :=
      fun x hx ↦ word_writeDinode_ne hk _ (by omega)
    have h3 : ∀ i : Fin (NDIRECT + 3),
        (writeDinode blk k d).word (16 * j + 3 + i) = blk.word (16 * j + 3 + i) := by
      intro i
      have hi : i.val < 13 := i.isLt
      rw [Nat.add_assoc]
      exact hw (3 + i) (by omega)
    have h0 := hw 0 (by omega)
    rw [Nat.add_zero (16 * j)] at h0
    unfold readDinode
    rw [h0, hw 1 (by omega), hw 2 (by omega)]
    congr
    funext i
    exact h3 i

end WriteDinode

/-- Writing an inode back where it was read changes nothing. -/
theorem writeDinode_readDinode (blk : Block) (k : Nat) :
    writeDinode blk k (readDinode blk k) = blk := by
  have hfold : ∀ l : List (Fin (NDIRECT + 3)), l.foldl
      (fun blk' j ↦ blk'.setWord (16 * k + 3 + j) (blk.word (16 * k + 3 + j))) blk = blk := by
    intro l
    induction l with
    | nil => rfl
    | cons j l ih => rw [List.foldl_cons, Block.setWord_word, ih]
  unfold writeDinode readDinode
  simp only [pack_short (blk.word_lt _), Block.setWord_word]
  exact hfold _

theorem readDinode_lt (blk : Block) (k : Nat) :
    (readDinode blk k).size < 2 ^ 32 ∧ ∀ i, (readDinode blk k).addrs i < 2 ^ 32 :=
  ⟨blk.word_lt _, fun _ ↦ blk.word_lt _⟩

/-- A zeroed block holds free inodes. -/
theorem type_readDinode_zero (k : Nat) : (readDinode Block.zero k).type = 0 := by
  simp only [readDinode, Block.word_zero]
  rfl

/-! ### Where things are -/

section Layout

variable (sb : Superblock)

theorem Superblock.IBLOCK_lt {i : Nat} (hi : i < sb.ninodes) : sb.IBLOCK i < sb.bmapstart := by
  have h := sb.inodes_fit
  have hd : i / IPB ≤ sb.ninodes / IPB := Nat.div_le_div_right (Nat.le_of_lt hi)
  unfold Superblock.IBLOCK
  omega

theorem Superblock.le_BBLOCK (b : Nat) : sb.bmapstart ≤ sb.BBLOCK b := Nat.le_add_left _ _

theorem Superblock.BBLOCK_lt {b : Nat} (hb : b < sb.size) : sb.BBLOCK b < sb.nmeta := by
  have hd : b / BPB ≤ sb.size / BPB := Nat.div_le_div_right (Nat.le_of_lt hb)
  unfold Superblock.BBLOCK Superblock.nmeta
  omega

theorem Superblock.bmapstart_lt : sb.bmapstart < sb.nmeta :=
  Nat.lt_add_of_pos_right (Nat.succ_pos _)

theorem Superblock.nmeta_pos : 0 < sb.nmeta := Nat.zero_lt_of_lt sb.bmapstart_lt

variable {sb} {blocks blocks' : Nat → Block}

/-- The on-disk inodes depend on the blocks before the free map only. -/
theorem dinode_congr (h : ∀ b < sb.bmapstart, blocks' b = blocks b) {i : Nat}
    (hi : i < sb.ninodes) : dinode sb blocks' i = dinode sb blocks i := by
  unfold dinode
  rw [h _ (sb.IBLOCK_lt hi)]

/-- The free map depends on the blocks between the inodes and the data only. -/
theorem used_congr (h : ∀ b, sb.bmapstart ≤ b → b < sb.nmeta → blocks' b = blocks b) {b : Nat}
    (hb : b < sb.size) : used sb blocks' b = used sb blocks b := by
  unfold used
  rw [h _ (sb.le_BBLOCK b) (sb.BBLOCK_lt hb)]

/-- Writing one on-disk inode leaves the others unchanged. -/
theorem dinode_update {inum i : Nat} {d : Dinode} (hs : d.size < 2 ^ 32)
    (ha : ∀ k, d.addrs k < 2 ^ 32) :
    dinode sb (update blocks (sb.IBLOCK inum) (writeDinode (blocks (sb.IBLOCK inum)) (inum % IPB) d)) i =
      if i = inum then d else dinode sb blocks i := by
  have hmod : ∀ x, x % IPB < IPB := fun x ↦ Nat.mod_lt _ (by decide)
  unfold dinode
  by_cases hb : sb.IBLOCK i = sb.IBLOCK inum
  · rw [hb, update_self, readDinode_writeDinode (hmod _) (hmod _) hs ha]
    have he : i % IPB = inum % IPB ↔ i = inum := by
      have hd : i / IPB = inum / IPB := Nat.add_right_cancel hb
      constructor
      · intro hm
        rw [← Nat.div_add_mod i IPB, ← Nat.div_add_mod inum IPB, hd, hm]
      · rintro rfl
        rfl
    simp only [he]
  · have hne : i ≠ inum := fun he ↦ hb (by rw [he])
    rw [update_of_ne hb, if_neg hne]

private theorem bblock_mod_iff (x b : Nat) :
    x / BPB = b / BPB ∧ x % BPB = b % BPB ↔ x = b := by
  constructor
  · rintro ⟨hd, hm⟩
    rw [← Nat.div_add_mod x BPB, ← Nat.div_add_mod b BPB, hd, hm]
  · rintro rfl
    exact ⟨rfl, rfl⟩

theorem used_setBit (b x : Nat) :
    used sb (update blocks (sb.BBLOCK b) ((blocks (sb.BBLOCK b)).setBit (b % BPB))) x =
      (decide (x = b) || used sb blocks x) := by
  unfold used
  by_cases hb : sb.BBLOCK x = sb.BBLOCK b
  · have hd : x / BPB = b / BPB := Nat.add_right_cancel hb
    rw [hb, update_self, Block.bit_setBit _ _ _ (Nat.mod_lt _ (by decide))]
    have he : x % BPB = b % BPB ↔ x = b := by rw [← bblock_mod_iff x b, and_iff_right hd]
    simp only [he]
  · have hne : x ≠ b := fun he ↦ hb (by rw [he])
    rw [update_of_ne hb]
    simp [hne]

theorem used_clearBit (b x : Nat) :
    used sb (update blocks (sb.BBLOCK b) ((blocks (sb.BBLOCK b)).clearBit (b % BPB))) x =
      (!decide (x = b) && used sb blocks x) := by
  unfold used
  by_cases hb : sb.BBLOCK x = sb.BBLOCK b
  · have hd : x / BPB = b / BPB := Nat.add_right_cancel hb
    rw [hb, update_self, Block.bit_clearBit _ _ _ (Nat.mod_lt _ (by decide))]
    have he : x % BPB = b % BPB ↔ x = b := by rw [← bblock_mod_iff x b, and_iff_right hd]
    simp only [he]
  · have hne : x ≠ b := fun he ↦ hb (by rw [he])
    rw [update_of_ne hb]
    simp [hne]

end Layout

/-! ### The block operations -/

section Blocks

variable {sb : Superblock} {s s' : State}

@[simp] theorem icache_logWrite (b : Nat) (data : Block) : (logWrite s b data).icache = s.icache := rfl

theorem blocks_logWrite (b : Nat) (data : Block) :
    (logWrite s b data).blocks = update s.blocks b data := rfl

@[simp] theorem blocks_setInode (ip : Slot) (v : Inode) : (setInode s ip v).blocks = s.blocks := rfl

@[simp] theorem icache_setInode_self (ip : Slot) (v : Inode) : (setInode s ip v).icache ip = v := by
  simp [setInode]

theorem icache_setInode_ne {ip iq : Slot} (h : iq ≠ ip) (v : Inode) :
    (setInode s ip v).icache iq = s.icache iq := by
  simp [setInode, h]

@[simp] theorem setInode_setInode (ip : Slot) (v w : Inode) :
    setInode (setInode s ip v) ip w = setInode s ip w := by
  simp [setInode]

/-- `balloc` has taken the free block `b` into use and zeroed it. -/
structure Allocated (sb : Superblock) (s s' : State) (b : Nat) : Prop where
  lt : b < sb.size
  free : used sb s.blocks b = false
  taken : sb.nmeta ≤ b → ∀ x < sb.size, used sb s'.blocks x = (decide (x = b) || used sb s.blocks x)
  zero : s'.blocks b = Block.zero
  rest : ∀ x, x ≠ b → ¬(sb.bmapstart ≤ x ∧ x < sb.nmeta) → s'.blocks x = s.blocks x
  icache : s'.icache = s.icache

theorem balloc_spec (s : State) :
    Lib.Ensures (balloc sb s) (· = .outOfBlocks) fun r ↦ Allocated sb s r.1 r.2 := by
  unfold balloc
  split
  · next b hb =>
    have hlt : b < sb.size := List.mem_range.mp (List.mem_of_find?_eq_some hb)
    have hfree : used sb s.blocks b = false := by simpa using List.find?_some hb
    have hmap : ∀ x, x ≠ b → x ≠ sb.BBLOCK b →
        (bzero (logWrite s (sb.BBLOCK b) ((s.blocks (sb.BBLOCK b)).setBit (b % BPB))) b).blocks x =
          s.blocks x := by
      intro x hx hm
      simp [bzero, blocks_logWrite, hx, hm]
    constructor
    · exact hlt
    · exact hfree
    · intro hdata x hx
      rw [← used_setBit b x]
      apply used_congr _ hx
      intro y hlo hhi
      have hne : y ≠ b := by omega
      simp [bzero, blocks_logWrite, hne]
    · simp [bzero, blocks_logWrite]
    · intro x hx hm
      apply hmap x hx
      intro he
      exact hm ⟨he ▸ sb.le_BBLOCK b, he ▸ sb.BBLOCK_lt hlt⟩
    · rfl
  · rfl

/-- `bfree` has freed the block `b`. -/
structure Freed (sb : Superblock) (s s' : State) (b : Nat) : Prop where
  free : ∀ x, used sb s'.blocks x = (!decide (x = b) && used sb s.blocks x)
  rest : ∀ x, ¬(sb.bmapstart ≤ x ∧ x < sb.nmeta) → s'.blocks x = s.blocks x
  icache : s'.icache = s.icache

/-- Freeing a block in use succeeds. -/
theorem bfree_spec {b : Nat} (hb : b < sb.size) (hu : used sb s.blocks b = true) (err : Panic → Prop) :
    Lib.Ensures (bfree sb s b) err fun s' ↦ Freed sb s s' b := by
  unfold bfree
  rw [if_neg (by simp [hu])]
  constructor
  · exact used_clearBit b
  · intro x hx
    have hne : x ≠ sb.BBLOCK b := by
      rintro rfl
      exact hx ⟨sb.le_BBLOCK b, sb.BBLOCK_lt hb⟩
    simp [blocks_logWrite, hne]
  · rfl

/-- `iupdate` writes the in-memory inode and nothing else. -/
theorem dinode_iupdate {ip : Slot} (hs : (s.icache ip).size < 2 ^ 32)
    (ha : ∀ k, (s.icache ip).addrs k < 2 ^ 32) (i : Nat) :
    dinode sb (iupdate sb s ip).blocks i =
      if i = (s.icache ip).inum then (s.icache ip).toDinode else dinode sb s.blocks i :=
  dinode_update hs ha

@[simp] theorem icache_iupdate (ip : Slot) : (iupdate sb s ip).icache = s.icache := rfl

theorem blocks_iupdate {ip : Slot} (hi : (s.icache ip).inum < sb.ninodes) {b : Nat}
    (hb : sb.bmapstart ≤ b) : (iupdate sb s ip).blocks b = s.blocks b := by
  have hlt := sb.IBLOCK_lt hi
  have hne : b ≠ sb.IBLOCK (s.icache ip).inum := by omega
  simp [iupdate, blocks_logWrite, hne]

end Blocks

end Xv6.Fs
