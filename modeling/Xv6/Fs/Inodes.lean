import Xv6.Fs.Consistent

/-!
# The inode calls

`ialloc`, `iget`, `ilock`, `idup` and the assignments to a locked inode keep the file
system consistent, and fail only as they are meant to.
-/

namespace Xv6.Fs

open Function

section

variable {sb : Superblock} {s : State} {ip : Slot}

section Seed

variable {t : State} {inum : Nat} {d : Dinode}

theorem dinode_seed (hsize : d.size = 0) (haddrs : ∀ k, d.addrs k = 0)
    (ht : t = logWrite s (sb.IBLOCK inum)
      (writeDinode (s.blocks (sb.IBLOCK inum)) (inum % IPB) d)) (i : Nat) :
    dinode sb t.blocks i = if i = inum then d else dinode sb s.blocks i := by
  rw [ht, blocks_logWrite]
  apply dinode_update
  · rw [hsize]
    exact Nat.two_pow_pos 32
  · intro k
    rw [haddrs]
    exact Nat.two_pow_pos 32

theorem blocks_seed (hi : inum < sb.ninodes)
    (ht : t = logWrite s (sb.IBLOCK inum)
      (writeDinode (s.blocks (sb.IBLOCK inum)) (inum % IPB) d)) {b : Nat}
    (hb : sb.bmapstart ≤ b) : t.blocks b = s.blocks b := by
  have hlt := sb.IBLOCK_lt hi
  have hne : b ≠ sb.IBLOCK inum := by omega
  simp [ht, blocks_logWrite, hne]

private theorem roots_seed (hfree : (dinode sb s.blocks inum).type = 0) (hsize : d.size = 0)
    (haddrs : ∀ k, d.addrs k = 0) (ht : t = logWrite s (sb.IBLOCK inum)
      (writeDinode (s.blocks (sb.IBLOCK inum)) (inum % IPB) d)) :
    roots sb (dinode sb t.blocks) = roots sb (dinode sb s.blocks) := by
  funext r
  unfold roots
  rw [dinode_seed hsize haddrs ht]
  by_cases he : r.1 = inum
  · rw [if_pos he, he, hfree, haddrs, ite_self, if_neg fun hc ↦ hc.2 rfl]
  · rw [if_neg he]

/-- Taking a free inode into use adds no position. -/
theorem Consistent.diskAt_seed (h : Consistent sb s) (hi : inum < sb.ninodes)
    (hfree : (dinode sb s.blocks inum).type = 0) (hsize : d.size = 0)
    (haddrs : ∀ k, d.addrs k = 0) (ht : t = logWrite s (sb.IBLOCK inum)
      (writeDinode (s.blocks (sb.IBLOCK inum)) (inum % IPB) d)) {P : Lib.Pos Root}
    (hP : P ∈ Places) : diskAt sb t.blocks P = diskAt sb s.blocks P :=
  blockAt_congr h.disk.owned
    (fun _ hb ↦ blocks_seed hi ht (Nat.le_trans sb.bmapstart_lt.le hb))
    (roots_seed hfree hsize haddrs ht) hP

/-- A free inode may be given any fields, with no blocks and size 0. -/
theorem Consistent.seed (h : Consistent sb s) (hi : inum < sb.ninodes)
    (hfree : (dinode sb s.blocks inum).type = 0) (hsize : d.size = 0)
    (haddrs : ∀ k, d.addrs k = 0) (ht : t = logWrite s (sb.IBLOCK inum)
      (writeDinode (s.blocks (sb.IBLOCK inum)) (inum % IPB) d)) : Consistent sb t := by
  have hdinode := dinode_seed hsize haddrs ht
  have hic : t.icache = s.icache := by rw [ht, icache_logWrite]
  have hgone : ∀ k q, diskAt sb s.blocks ((inum, k), q) = 0 := by
    intro k q
    apply Lib.ptr_eq_zero_of_root
    rw [roots, if_neg fun hc ↦ hc.2 hfree]
  have hlive : ∀ i, i ≠ inum → Live sb t.blocks i → Live sb s.blocks i := by
    intro i hne hl
    rwa [Live, hdinode, if_neg hne] at hl
  constructor
  · constructor
    · exact h.disk.owned.congr (fun _ hb ↦ blocks_seed hi ht hb) (roots_seed hfree hsize haddrs ht)
    · intro i hl k q hq
      rw [h.diskAt_seed hi hfree hsize haddrs ht hq, hdinode]
      by_cases he : i = inum
      · subst he
        rw [if_pos rfl, hgone, hsize]
        exact iff_of_false (fun hz ↦ hz rfl) (not_needed_empty k q)
      · rw [if_neg he]
        exact h.disk.mapped i (hlive i he hl) k q hq
    · intro i hl
      rw [hdinode]
      by_cases he : i = inum
      · rw [if_pos he, hsize]
        exact Nat.zero_le _
      · rw [if_neg he]
        exact h.disk.small i (hlive i he hl)
  · have hne : ∀ iq, Held s iq → (s.icache iq).inum ≠ inum := by
      intro iq hq he
      apply h.cache.typed iq hq
      rw [h.cache.cached iq hq, he, hfree]
    constructor
    · intro iq hq
      rw [Held, hic] at hq
      rw [hic, hdinode, if_neg (hne iq hq)]
      exact h.cache.cached iq hq
    · intro iq hq
      rw [Held, hic] at hq
      rw [hic]
      exact h.cache.typed iq hq
    · rw [hic]
      exact h.cache.inum
    · rw [hic]
      exact h.cache.single

end Seed

/-- A free inode may be given any type: it has no blocks and size 0. -/
theorem Consistent.fresh (h : Consistent sb s) {inum : Nat} (hi : inum < sb.ninodes)
    (hfree : (dinode sb s.blocks inum).type = 0) (type : Int16) :
    Consistent sb (logWrite s (sb.IBLOCK inum)
      (writeDinode (s.blocks (sb.IBLOCK inum)) (inum % IPB) (Dinode.fresh type))) :=
  h.seed hi hfree rfl (fun _ ↦ rfl) rfl

/-- `iget` refers to the inode through one slot, and leaves the disk alone. -/
theorem iget_spec (h : Consistent sb s) {inum : Nat} (hi : inum < sb.ninodes) :
    Lib.Ensures (iget s inum) (· = .igetNoInodes) fun r ↦
      Consistent sb r.1 ∧ r.1.blocks = s.blocks ∧
        0 < (r.1.icache r.2).ref ∧ (r.1.icache r.2).inum = inum := by
  unfold iget
  split
  · next ip hfind =>
    have hmatch := List.find?_some hfind
    obtain ⟨href, hinum⟩ : 0 < (s.icache ip).ref ∧ (s.icache ip).inum = inum := by
      simpa using hmatch
    refine ⟨h.setRef fun _ ↦ href, blocks_setInode _ _, ?_, ?_⟩
    · dsimp only
      rw [icache_setInode_self]
      exact Nat.succ_pos _
    · dsimp only
      rw [icache_setInode_self]
      exact hinum
  · next hnone =>
    split
    · next ip hfind =>
      refine ⟨h.setInode fun _ ↦ ⟨hi, ?_, ?_⟩, blocks_setInode _ _, ?_, ?_⟩
      · intro iq _ href he
        have hno := List.find?_eq_none.mp hnone iq (List.mem_finRange iq)
        exact hno (by simpa using ⟨href, he⟩)
      · intro hvalid
        cases hvalid
      · dsimp only
        rw [icache_setInode_self]
        exact Nat.one_pos
      · dsimp only
        rw [icache_setInode_self]
    · rfl

/-- `ialloc` takes a free inode into use. -/
theorem ialloc_spec (h : Consistent sb s) (type : Int16) :
    Lib.Ensures (ialloc sb s type) (fun e ↦ e = .iallocNoInodes ∨ e = .igetNoInodes) fun r ↦
      Consistent sb r.1 := by
  unfold ialloc
  split
  · next inum hfind =>
    have hmem := List.mem_range'_1.mp (List.mem_of_find?_eq_some hfind)
    have hfree : (dinode sb s.blocks inum).type = 0 := by simpa using List.find?_some hfind
    have hi : inum < sb.ninodes := by omega
    exact (iget_spec (h.fresh hi hfree type) hi).mono (fun r hr ↦ hr.1) fun e he ↦ Or.inr he
  · exact Or.inl rfl

/-- `ilock` reads the inode from disk if it has not been read. -/
theorem ilock_spec (h : Consistent sb s) (hip : 0 < (s.icache ip).ref) :
    Lib.Ensures (ilock sb s ip) (· = .ilockNoType) (Consistent sb) := by
  unfold ilock
  rw [if_neg (Nat.not_lt.mpr hip)]
  split
  · dsimp only
    split
    · rfl
    · next ht =>
      apply h.setInode
      intro _
      refine ⟨h.cache.inum ip hip, ?_, fun _ ↦ ⟨rfl, ht⟩⟩
      intro iq hne hq he
      exact hne (h.cache.single iq ip hq hip he)
  · exact h

theorem idup_spec (h : Consistent sb s) (hip : 0 < (s.icache ip).ref) :
    Consistent sb (idup s ip) :=
  h.setRef fun _ ↦ hip

/-- A locked inode settles with its `iupdate` after assignments to the other fields. -/
theorem settled_setFields (h : Consistent sb s) (hip : Held s ip) (major minor nlink : Int16) :
    Settled sb ip s s (setFields sb s ip major minor nlink) ∧
      (setFields sb s ip major minor nlink).icache ip =
        { s.icache ip with major, minor, nlink } := by
  have hr := h.ready hip
  have hic : (setFields sb s ip major minor nlink).icache ip =
      { s.icache ip with major, minor, nlink } := by
    rw [setFields, icache_iupdate, icache_setInode_self]
  refine ⟨⟨Kept.refl hr, ?_, fun _ _ _ ↦ Iff.rfl, ?_, ?_, ?_, ?_, ?_, ?_, ?_, ?_⟩, hic⟩
  · rw [hic]
    exact h.maps hip
  · intro b hb
    rw [setFields, blocks_iupdate _ hb, blocks_setInode]
    rw [icache_setInode_self]
    exact hr.inum
  · intro i _
    rw [hic, setFields, dinode_iupdate]
    · rw [icache_setInode_self, blocks_setInode]
    · rw [icache_setInode_self]
      exact Nat.lt_of_le_of_lt (h.size_le hip) (by decide)
    · rw [icache_setInode_self]
      exact hr.addrs_lt
  · rw [hic]
  · rw [hic]
  · rw [hic]
    exact h.size_le hip
  · rw [hic]
  · rw [Held, hic]
    exact hip
  · intro iq hne
    rw [setFields, icache_iupdate, icache_setInode_ne hne]

/-- Assignments to the other fields of a locked inode reach the disk with its `iupdate`. -/
theorem setFields_spec (h : Consistent sb s) (hip : Held s ip) (major minor nlink : Int16) :
    Consistent sb (setFields sb s ip major minor nlink) :=
  (settled_setFields h hip major minor nlink).1.consistent h hip

end

end Xv6.Fs
