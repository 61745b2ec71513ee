import Xv6.Fs.Mkfs
import Xv6.Fs.Contents
import Xv6.Fs.Truncate

/-!
# Runs of the file system layer

Any sequence of the calls on inodes keeps the file system consistent: each block in use
has one owner, and deleting a file frees just its blocks.
-/

namespace Xv6.Fs

open Function

/-- The calls of the file system layer. -/
inductive Call where
  | ialloc (type : Int16)
  | iget (inum : Nat)
  | idup (ip : Slot)
  | ilock (ip : Slot)
  | setFields (ip : Slot) (major minor nlink : Int16)
  | readi (ip : Slot) (off n : UInt32)
  | writei (ip : Slot) (src : Nat → UInt8) (off n : UInt32)
  | iput (ip : Slot)

/-- What the callers see to: inode numbers come from the disk, an `ip` is a reference, and
whoever reads or changes an inode has locked it. -/
def Allowed (sb : Superblock) (s : State) : Call → Prop
  | .ialloc _ => True
  | .iget inum => inum < sb.ninodes
  | .idup ip => 0 < (s.icache ip).ref
  | .ilock ip => 0 < (s.icache ip).ref
  | .setFields ip _ _ _ => Held s ip
  | .readi ip _ _ => Held s ip
  | .writei ip _ _ _ => Held s ip
  | .iput ip => 0 < (s.icache ip).ref

/-- The state after a call. -/
def fsStep (sb : Superblock) (dev : Devsw) (s : State) : Call → Except Panic State
  | .ialloc type => Prod.fst <$> ialloc sb s type
  | .iget inum => Prod.fst <$> iget s inum
  | .idup ip => .ok (idup s ip)
  | .ilock ip => ilock sb s ip
  | .setFields ip major minor nlink => .ok (setFields sb s ip major minor nlink)
  | .readi ip off n => Prod.fst <$> readi sb dev s ip off n
  | .writei ip src off n => Prod.fst <$> writei sb dev s ip src off n
  | .iput ip => iput sb s ip

section

variable {sb : Superblock} {dev : Devsw} {s t : State} {ip : Slot}

/-- Reading never changes the state, be it a file or a device. -/
theorem readi_state (dev : Devsw) (h : Consistent sb s) (hip : Held s ip) (off n : UInt32) :
    ∃ r, readi sb dev s ip off n = .ok (s, r) := by
  by_cases ht : (s.icache ip).type = T_DEV
  · unfold readi
    dsimp only
    rw [if_pos ht]
    split
    · exact ⟨none, rfl⟩
    · split
      · exact ⟨none, rfl⟩
      · exact ⟨_, rfl⟩
  · exact ⟨_, readi_spec h hip dev ht⟩

/-- Whatever the range, `writei` keeps the file system consistent and the inode locked. -/
private theorem writei_consistent (dev : Devsw) (h : Consistent sb s) (hip : Held s ip) (src : Nat → UInt8)
    (off n : UInt32) :
    Lib.Ensures (writei sb dev s ip src off n) (· = .outOfBlocks) fun r ↦
      Consistent sb r.1 ∧ Held r.1 ip := by
  by_cases ht : (s.icache ip).type = T_DEV
  · obtain ⟨r, hr⟩ := writei_dev sb dev ht src off n
    rw [hr]
    exact ⟨h, hip⟩
  · by_cases hf : WriteFails (s.icache ip).size off.toNat n.toNat
    · rw [writei_fails dev ht src hf]
      exact ⟨h, hip⟩
    · apply (writei_spec h hip dev ht src hf).imp
      rintro r ⟨-, hr, -, s₁, hset⟩
      exact ⟨hr, hset.held⟩

private theorem iput_consistent (h : Consistent sb s) (hip : 0 < (s.icache ip).ref)
    (err : Panic → Prop) : Lib.Ensures (iput sb s ip) err (Consistent sb) := by
  by_cases hf : Frees s ip
  · apply (iput_of_frees h hf err).imp
    rintro t ⟨v, htype, href, ht⟩
    exact ht.consistent h ⟨hip, hf.1⟩ htype href
  · rw [iput_of_not_frees hf]
    exact h.setRef fun _ ↦ hip

/-- The panics that a call may end in: a table or the disk is full, or the inode is free. -/
def Exhausted (e : Panic) : Prop :=
  e = .outOfBlocks ∨ e = .iallocNoInodes ∨ e = .igetNoInodes ∨ e = .ilockNoType

/-- Each call keeps the file system consistent. -/
theorem fsStep_consistent (dev : Devsw) (h : Consistent sb s) {c : Call} (hc : Allowed sb s c) :
    Lib.Ensures (fsStep sb dev s c) Exhausted (Consistent sb) := by
  cases c with
  | ialloc type =>
    apply Lib.Ensures.bind (ialloc_spec h type |>.mono (fun _ hr ↦ hr) ?_)
    · exact fun r hr ↦ hr
    · rintro e (rfl | rfl)
      · exact Or.inr (Or.inl rfl)
      · exact Or.inr (Or.inr (Or.inl rfl))
  | iget inum =>
    apply Lib.Ensures.bind (iget_spec h hc |>.mono (fun _ hr ↦ hr.1) ?_)
    · exact fun r hr ↦ hr
    · rintro e rfl
      exact Or.inr (Or.inr (Or.inl rfl))
  | idup ip => exact idup_spec h hc
  | ilock ip =>
    apply (ilock_spec h hc).mono fun _ hr ↦ hr
    rintro e rfl
    exact Or.inr (Or.inr (Or.inr rfl))
  | setFields ip major minor nlink => exact setFields_spec h hc major minor nlink
  | readi ip off n =>
    obtain ⟨r, hr⟩ := readi_state dev h hc off n
    rw [fsStep, hr]
    exact h
  | writei ip src off n =>
    apply Lib.Ensures.bind (writei_consistent dev h hc src off n |>.mono (fun _ hr ↦ hr.1) ?_)
    · exact fun r hr ↦ hr
    · rintro e rfl
      exact Or.inl rfl
  | iput ip => exact iput_consistent h hc Exhausted

/-- In every run from a consistent file system: the state stays consistent, so each data block
in use is at exactly one position of one inode and the cached inodes equal the ones on disk;
reads change nothing; and the `iput` that deletes a file frees its blocks and no others. -/
theorem block_ownership (h : Consistent sb s) (cs : List Call)
    (hp : Lib.Along (fsStep sb dev) (Allowed sb) s cs) :
    Lib.Ensures (Lib.exec (fsStep sb dev) s cs) Exhausted fun t ↦
      Consistent sb t ∧
      (∀ b, sb.nmeta ≤ b → b < sb.size → used sb t.blocks b = true →
        ∃! P, P ∈ Places ∧ diskAt sb t.blocks P = b) ∧
      (∀ ip, Held t ip → (t.icache ip).toDinode = dinode sb t.blocks (t.icache ip).inum) ∧
      (∀ ip, Held t ip → ∀ off n, ∃ r, readi sb dev t ip off n = .ok (t, r)) ∧
      ∀ ip, Frees t ip → Lib.Ensures (iput sb t ip) (fun _ ↦ False) fun u ↦
        ∀ b, sb.nmeta ≤ b → b < sb.size → (used sb u.blocks b = true ↔
          used sb t.blocks b = true ∧
            ∀ P ∈ Places, P.1.1 = (t.icache ip).inum → diskAt sb t.blocks P ≠ b) := by
  have hrun := Lib.Ensures.exec (fun s c hs hc ↦ fsStep_consistent dev hs hc) h hp
  apply hrun.imp
  intro t ht
  refine ⟨ht, ?_, ht.cache.cached, fun ip hip ↦ readi_state dev ht hip, ?_⟩
  · intro b hlo hhi hu
    exact ht.disk.owned.unique hlo hhi hu
  · intro ip hf
    have hip : Held t ip := ⟨by rw [hf.2.2]; exact Nat.one_pos, hf.1⟩
    apply (iput_of_frees ht hf _).imp
    rintro u ⟨v, -, -, hu⟩ b hlo hhi
    rw [hu.free b hlo hhi]
    simp only [ht.pos_eq hip]

end

/-- A file is written, and deleted by the last `iput`. -/
theorem block_ownership_oneFile :
    Lib.Ensures (Lib.exec (fsStep mkfsSuperblock ⟨fun _ ↦ none, fun _ ↦ none⟩) oneFile
      [.writei 0 (fun _ ↦ 7) 0 3, .iput 0]) Exhausted (Consistent mkfsSuperblock) := by
  have hrun := @block_ownership mkfsSuperblock ⟨fun _ ↦ none, fun _ ↦ none⟩ oneFile
    oneFile_consistent [.writei 0 (fun _ ↦ 7) 0 3, .iput 0] (by
      refine ⟨oneFile_held, fun t ht ↦ ⟨?_, fun _ _ ↦ trivial⟩⟩
      have hwrite := writei_consistent ⟨fun _ ↦ none, fun _ ↦ none⟩ oneFile_consistent
        oneFile_held (fun _ ↦ 7) 0 3
      have hheld : Lib.Ensures (fsStep mkfsSuperblock ⟨fun _ ↦ none, fun _ ↦ none⟩ oneFile
          (.writei 0 (fun _ ↦ 7) 0 3)) (· = .outOfBlocks) (Held · 0) :=
        hwrite.bind fun r hr ↦ hr.2
      exact (hheld.of_ok ht).1)
  exact hrun.imp fun t ht ↦ ht.1

end Xv6.Fs
