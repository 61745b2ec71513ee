import Xv6.Fs.Ownership

/-!
# The consistent file system

What holds of the disk and the inode cache between two calls: every inode in use of size
`s` has exactly the positions mapped that its first `⌈s/BSIZE⌉` blocks need, every block
in use is owned once, and a valid in-memory inode equals its on-disk copy.
-/

namespace Xv6.Fs

open Function

/-- The number of blocks that hold `n` bytes. -/
def blocksFor (n : Nat) : Nat := (n + (BSIZE - 1)) / BSIZE

/-- Inode `i` is in use on the disk. -/
def Live (sb : Superblock) (blocks : Nat → Block) (i : Nat) : Prop :=
  i < sb.ninodes ∧ (dinode sb blocks i).type ≠ 0

instance (sb : Superblock) (blocks : Nat → Block) (i : Nat) : Decidable (Live sb blocks i) :=
  inferInstanceAs (Decidable (_ ∧ _))

/-- The block at a position, as the disk has the inodes. -/
abbrev diskAt (sb : Superblock) (blocks : Nat → Block) (P : Lib.Pos Root) : Nat :=
  blockAt sb blocks (dinode sb blocks) P

/-- The slot is referenced and its inode has been read, as after `ilock`. -/
def Held (s : State) (ip : Slot) : Prop := 0 < (s.icache ip).ref ∧ (s.icache ip).valid = true

/-- The disk is well formed: each block in use has one owner, and each inode in use has just
the blocks of its size. -/
structure DiskOk (sb : Superblock) (blocks : Nat → Block) : Prop where
  owned : Owned sb blocks (dinode sb blocks)
  mapped : ∀ i, Live sb blocks i → ∀ k q, ((i, k), q) ∈ Places →
    (diskAt sb blocks ((i, k), q) ≠ 0 ↔ Needed (blocksFor (dinode sb blocks i).size) k q)
  small : ∀ i, Live sb blocks i → (dinode sb blocks i).size ≤ MAXFILE * BSIZE

/-- The inode cache agrees with the disk. -/
structure CacheOk (sb : Superblock) (s : State) : Prop where
  cached : ∀ ip, Held s ip → (s.icache ip).toDinode = dinode sb s.blocks (s.icache ip).inum
  typed : ∀ ip, Held s ip → (s.icache ip).type ≠ 0
  inum : ∀ ip, 0 < (s.icache ip).ref → (s.icache ip).inum < sb.ninodes
  single : ∀ ip iq, 0 < (s.icache ip).ref → 0 < (s.icache iq).ref →
    (s.icache ip).inum = (s.icache iq).inum → ip = iq

/-- The invariant between two calls. -/
structure Consistent (sb : Superblock) (s : State) : Prop where
  disk : DiskOk sb s.blocks
  cache : CacheOk sb s

section

variable {sb : Superblock} {s s₁ t : State} {ip : Slot}

theorem blocksFor_le {n m : Nat} (h : n ≤ m * BSIZE) : blocksFor n ≤ m := by
  have h' : n ≤ m * 512 := h
  show (n + 511) / 512 ≤ m
  omega

theorem le_blocksFor (n : Nat) : n ≤ blocksFor n * BSIZE := by
  show n ≤ (n + 511) / 512 * 512
  omega

theorem blocksFor_mono {n m : Nat} (h : n ≤ m) : blocksFor n ≤ blocksFor m :=
  Nat.div_le_div_right (Nat.add_le_add_right h _)

/-- Byte `j` lies in one of the blocks for `n` bytes when it is one of them. -/
theorem div_lt_blocksFor {j n : Nat} (h : j < n) : j / BSIZE < blocksFor n := by
  show j / 512 < (n + 511) / 512
  omega

/-- An empty file needs no blocks. -/
theorem not_needed_empty (k : Fin (NDIRECT + 3)) (q : List Nat) : ¬Needed (blocksFor 0) k q := by
  rintro ⟨bn, hbn, -⟩
  exact Nat.not_lt_zero bn hbn

namespace Consistent

/-- For a held inode, the call's view of the inodes is the disk's. -/
theorem look_eq (h : Consistent sb s) (hip : Held s ip) (i : Nat) :
    look sb s ip i = dinode sb s.blocks i := by
  unfold look
  split
  · next he => rw [h.cache.cached ip hip, he]
  · rfl

theorem pos_eq (h : Consistent sb s) (hip : Held s ip) (P : Lib.Pos Root) :
    pos sb ip s P = diskAt sb s.blocks P := by
  have hl : look sb s ip = dinode sb s.blocks := funext (h.look_eq hip)
  unfold pos
  rw [hl]

theorem live (h : Consistent sb s) (hip : Held s ip) : Live sb s.blocks (s.icache ip).inum := by
  refine ⟨h.cache.inum ip hip.1, ?_⟩
  rw [← h.cache.cached ip hip]
  exact h.cache.typed ip hip

theorem ready (h : Consistent sb s) (hip : Held s ip) : Ready sb ip s where
  owned := by
    have hl : look sb s ip = dinode sb s.blocks := funext (h.look_eq hip)
    rw [hl]
    exact h.disk.owned
  inum := h.cache.inum ip hip.1
  typed := h.cache.typed ip hip

theorem maps (h : Consistent sb s) (hip : Held s ip) :
    Maps sb ip s (blocksFor (s.icache ip).size) := by
  intro k q hq
  rw [h.pos_eq hip, h.disk.mapped _ (h.live hip) k q hq, ← h.cache.cached ip hip]

/-- Any slot may be given an inode that no other slot refers to, not yet read or equal to its
on-disk copy. -/
theorem setInode (h : Consistent sb s) {v : Inode} (hv : 0 < v.ref → v.inum < sb.ninodes ∧
      (∀ iq, iq ≠ ip → 0 < (s.icache iq).ref → (s.icache iq).inum ≠ v.inum) ∧
      (v.valid = true → v.toDinode = dinode sb s.blocks v.inum ∧ v.type ≠ 0)) :
    Consistent sb (setInode s ip v) := by
  refine ⟨h.disk, ?_, ?_, ?_, ?_⟩
  · intro iq hq
    by_cases he : iq = ip
    · subst he
      rw [Held, icache_setInode_self] at hq
      rw [icache_setInode_self]
      exact ((hv hq.1).2.2 hq.2).1
    · rw [Held, icache_setInode_ne he] at hq
      rw [icache_setInode_ne he]
      exact h.cache.cached iq hq
  · intro iq hq
    by_cases he : iq = ip
    · subst he
      rw [Held, icache_setInode_self] at hq
      rw [icache_setInode_self]
      exact ((hv hq.1).2.2 hq.2).2
    · rw [Held, icache_setInode_ne he] at hq
      rw [icache_setInode_ne he]
      exact h.cache.typed iq hq
  · intro iq hq
    by_cases he : iq = ip
    · subst he
      rw [icache_setInode_self] at hq ⊢
      exact (hv hq).1
    · rw [icache_setInode_ne he] at hq ⊢
      exact h.cache.inum iq hq
  · intro iq jq hi hj hij
    by_cases he : iq = ip <;> by_cases he' : jq = ip
    · rw [he, he']
    · subst he
      rw [icache_setInode_self] at hi hij
      rw [icache_setInode_ne he'] at hj hij
      exact absurd hij.symm ((hv hi).2.1 jq he' hj)
    · subst he'
      rw [icache_setInode_self] at hj hij
      rw [icache_setInode_ne he] at hi hij
      exact absurd hij ((hv hj).2.1 iq he hi)
    · rw [icache_setInode_ne he] at hi hij
      rw [icache_setInode_ne he'] at hj hij
      exact h.cache.single iq jq hi hj hij

/-- Counting references does not matter, as long as no unused slot comes into use. -/
theorem setRef (h : Consistent sb s) {n : Nat} (hn : 0 < n → 0 < (s.icache ip).ref) :
    Consistent sb (Fs.setInode s ip { s.icache ip with ref := n }) := by
  apply h.setInode
  intro href
  have hip := hn href
  refine ⟨h.cache.inum ip hip, ?_, ?_⟩
  · intro iq hne hq he
    exact hne (h.cache.single iq ip hq hip he)
  · intro hvalid
    exact ⟨h.cache.cached ip ⟨hip, hvalid⟩, h.cache.typed ip ⟨hip, hvalid⟩⟩

theorem size_le (h : Consistent sb s) (hip : Held s ip) :
    (s.icache ip).size ≤ MAXFILE * BSIZE := by
  have hs := h.disk.small _ (h.live hip)
  rwa [← h.cache.cached ip hip] at hs

end Consistent

/-- A call that began in `s` has worked on `ip` up to `s₁` and settles in `t`, where the disk
holds the new in-memory inode. -/
structure Settled (sb : Superblock) (ip : Slot) (s s₁ t : State) : Prop where
  kept : Kept sb ip s s₁
  maps : Maps sb ip s₁ (blocksFor (t.icache ip).size)
  foreign : ∀ P ∈ Places, P.1.1 ≠ (s.icache ip).inum → (pos sb ip s₁ P ≠ 0 ↔ pos sb ip s P ≠ 0)
  blocks : ∀ b, sb.bmapstart ≤ b → t.blocks b = s₁.blocks b
  dinodes : ∀ i < sb.ninodes, dinode sb t.blocks i =
    if i = (s.icache ip).inum then (t.icache ip).toDinode else dinode sb s.blocks i
  addrs : (t.icache ip).addrs = (s₁.icache ip).addrs
  type : (t.icache ip).type = (s.icache ip).type
  size : (t.icache ip).size ≤ MAXFILE * BSIZE
  inum : (t.icache ip).inum = (s.icache ip).inum
  held : Held t ip
  others : ∀ iq, iq ≠ ip → t.icache iq = s.icache iq

namespace Settled

variable (h : Settled sb ip s s₁ t) (hs : Consistent sb s) (hip : Held s ip)

include h hs hip

theorem dinode_self : dinode sb t.blocks (s.icache ip).inum = (t.icache ip).toDinode := by
  rw [h.dinodes _ (hs.live hip).1, if_pos rfl]

omit hs hip in
theorem dinode_other {i : Nat} (hi : i < sb.ninodes) (hne : i ≠ (s.icache ip).inum) :
    dinode sb t.blocks i = dinode sb s.blocks i := by
  rw [h.dinodes i hi, if_neg hne]

private theorem roots_eq : roots sb (dinode sb t.blocks) = roots sb (look sb s₁ ip) := by
  apply roots_congr
  intro i hi
  by_cases he : i = (s.icache ip).inum
  · subst he
    have hl : look sb s₁ ip (s.icache ip).inum = (s₁.icache ip).toDinode :=
      if_pos h.kept.inum_eq.symm
    rw [h.dinode_self hs hip, hl, h.addrs, h.type, h.kept.type_eq]
    exact ⟨rfl, rfl⟩
  · have hl : look sb s₁ ip i = dinode sb s.blocks i := by
      rw [look, if_neg (by rwa [h.kept.inum_eq]), dinode_congr h.kept.disk hi]
    rw [h.dinode_other hi he, hl]
    exact ⟨rfl, rfl⟩

/-- On the settled disk the blocks stand where the call has put them. -/
theorem diskAt_eq {P : Lib.Pos Root} (hP : P ∈ Places) : diskAt sb t.blocks P = pos sb ip s₁ P :=
  blockAt_congr h.kept.owned (fun b hb ↦ h.blocks b (Nat.le_trans sb.bmapstart_lt.le hb))
    (h.roots_eq hs hip) hP

/-- The same inodes are in use as before the call. -/
theorem live_iff (i : Nat) : Live sb t.blocks i ↔ Live sb s.blocks i := by
  unfold Live
  apply and_congr_right
  intro hi
  by_cases he : i = (s.icache ip).inum
  · subst he
    rw [h.dinode_self hs hip, h.type, hs.cache.cached ip hip]
  · rw [h.dinode_other hi he]

theorem diskOk : DiskOk sb t.blocks where
  owned := h.kept.owned.congr h.blocks (h.roots_eq hs hip)
  mapped := by
    intro i hi k q hq
    rw [h.diskAt_eq hs hip hq]
    by_cases he : i = (s.icache ip).inum
    · subst he
      rw [h.dinode_self hs hip]
      have hmk := h.maps k q
      rw [h.kept.inum_eq] at hmk
      exact hmk hq
    · rw [h.foreign _ hq he, h.dinode_other hi.1 he, hs.pos_eq hip]
      exact hs.disk.mapped i ((h.live_iff hs hip i).mp hi) k q hq
  small := by
    intro i hi
    by_cases he : i = (s.icache ip).inum
    · subst he
      rw [h.dinode_self hs hip]
      exact h.size
    · rw [h.dinode_other hi.1 he]
      exact hs.disk.small i ((h.live_iff hs hip i).mp hi)

theorem consistent : Consistent sb t := by
  have hheld : ∀ iq, iq ≠ ip → Held t iq → Held s iq := by
    intro iq hne hq
    rwa [Held, h.others iq hne] at hq
  have href : ∀ iq, 0 < (t.icache iq).ref → 0 < (s.icache iq).ref := by
    intro iq hq
    by_cases he : iq = ip
    · rw [he]
      exact hip.1
    · rwa [h.others iq he] at hq
  have hinums : ∀ iq, (t.icache iq).inum = (s.icache iq).inum := by
    intro iq
    by_cases he : iq = ip
    · rw [he, h.inum]
    · rw [h.others iq he]
  refine ⟨h.diskOk hs hip, ?_, ?_, ?_, ?_⟩
  · intro iq hq
    by_cases he : iq = ip
    · subst he
      rw [h.inum, h.dinode_self hs hip]
    · have hsq := hheld iq he hq
      have hne : (s.icache iq).inum ≠ (s.icache ip).inum := fun heq ↦
        he (hs.cache.single iq ip hsq.1 hip.1 heq)
      rw [h.others iq he, h.dinode_other (hs.cache.inum iq hsq.1) hne]
      exact hs.cache.cached iq hsq
  · intro iq hq
    by_cases he : iq = ip
    · subst he
      rw [h.type]
      exact hs.cache.typed iq hip
    · rw [h.others iq he]
      exact hs.cache.typed iq (hheld iq he hq)
  · intro iq hq
    rw [hinums]
    exact hs.cache.inum iq (href iq hq)
  · intro iq jq hi hj he
    rw [hinums, hinums] at he
    exact hs.cache.single iq jq (href iq hi) (href jq hj) he

end Settled

end

end Xv6.Fs
