import Xv6.Fs.Calls
import Xv6.Fs.Kinds
import Xv6.Fs.FileTable
import Xv6.Lib.Holders

/-!
# Open files

Each file counts the references to it, and holds one to an inode or an end of a pipe. Closing the
last reference to a file gives that up, so that an inode goes with its last name and the last file
that has it, and the page of a pipe with the last file of its last end.
-/

namespace Xv6.Fs

open Function

open Mkfs (DIRSIZ T_DIR T_FILE ROOTINO)

/-! ### Reading and writing -/

section

variable {sb : Superblock} {dev : Devsw} {pipes : Pipes} {s t : State} {ip : Slot}
  {H : Multiset Slot} {f : File}

private theorem liftFs_iff {α : Type} {x : Except Panic α} {err : FilePanic → Prop}
    {ok : α → Prop} :
    Lib.Ensures (liftFs x) err ok ↔ Lib.Ensures x (fun e ↦ err (.fs e)) ok := by
  cases x <;> rfl

/-- Locking an inode. -/
private theorem Intact.ilock (h : Intact sb H s) (hip : ip ∈ H) (err : Panic → Prop) :
    Lib.Ensures (Fs.ilock sb s ip) err fun t ↦
      Intact sb H t ∧ Keeps sb H s t ∧ (t.icache ip).valid = true := by
  apply (ilock_refs h.holding hip err).imp
  rintro t ⟨ht, hs, hb, hv⟩
  have hview : view sb t.blocks = view sb s.blocks := by rw [hb]
  exact ⟨h.congr ht hs hview, Keeps.of_view hs hview, hv⟩

/-- A write in one transaction, to an inode that is not a directory. -/
private theorem writeOp_keeps (dev : Devsw) (h : Intact sb H s) (hip : ip ∈ H)
    (hdir : ∀ nd, view sb s.blocks (s.icache ip).inum = some nd → nd.type ≠ T_DIR)
    (addr : Nat → UInt8) (off n : UInt32) :
    Lib.Ensures (writeOp sb dev s ip addr off n) (· = .outOfBlocks) fun r ↦
      Intact sb H r.1 ∧ Keeps sb H s r.1 := by
  apply Lib.Ensures.bind (h.ilock hip _)
  rintro t ⟨ht, hk, hv⟩
  obtain ⟨nd, hnd⟩ := ht.holding.node hip
  obtain ⟨htype, hnlink, hdata⟩ := ht.holding.fields hip hv hnd
  have hnot : nd.type ≠ T_DIR := by
    obtain ⟨nd₀, hnd₀⟩ := h.holding.node hip
    obtain ⟨nd', hnd', hsame⟩ := hk.kinds ip hip nd₀ hnd₀
    rw [← (hk.steady ip hip).1, hnd] at hnd'
    cases hnd'
    rw [hsame]
    exact hdir nd₀ hnd₀
  by_cases hdev : (t.icache ip).type = T_DEV
  · obtain ⟨r, hr⟩ := writei_dev sb dev hdev addr off n
    rw [hr]
    exact ⟨ht, hk⟩
  · by_cases hf : WriteFails (t.icache ip).size off.toNat n.toNat
    · rw [writei_fails dev hdev addr hf]
      exact ⟨ht, hk⟩
    · apply (writei_refs dev ht.holding hip hv hdev addr hf).imp
      rintro ⟨u, r⟩ ⟨-, hu, hs, hview⟩
      dsimp only at hu hs hview ⊢
      rw [htype, hnlink, hdata] at hview
      refine ⟨⟨hu, ?_, ?_⟩, hk.trans ⟨hs, ?_⟩⟩
      · rw [hview]
        exact ht.tree.write hnd hnot _
      · intro i nd' hi hl
        have hold : ∃ nd'', view sb t.blocks i = some nd'' ∧ nd''.nlink = 0 := by
          rw [hview] at hi
          by_cases he : i = (t.icache ip).inum
          · rw [he, update_self] at hi
            cases hi
            exact ⟨nd, by rw [he, hnd], hl⟩
          · rw [update_of_ne he] at hi
            exact ⟨nd', hi, hl⟩
        obtain ⟨nd'', hi', hl'⟩ := hold
        obtain ⟨iq, hiq, hinum, hvq⟩ := ht.orphans i nd'' hi' hl'
        exact ⟨iq, hiq, (hs iq hiq).1.trans hinum, (hs iq hiq).2 hvq⟩
      · rw [hview]
        have hkind : (⟨nd.type, nd.nlink, overwrite nd.data off.toNat
            ((List.range n.toNat).map addr)⟩ : Node).type = nd.type := rfl
        exact (SameKinds.update hnd hkind).kinds

/-- `readi` of what is held changes at most the in-memory copy. -/
private theorem readOp_keeps (dev : Devsw) (h : Intact sb H s) (hip : ip ∈ H) (off n : UInt32)
    (err : Panic → Prop) :
    Lib.Ensures (readOp sb dev s ip off n) err fun r ↦ Intact sb H r.1 ∧ Keeps sb H s r.1 := by
  apply Lib.Ensures.bind (h.ilock hip _)
  rintro t ⟨ht, hk, hv⟩
  obtain ⟨r, hr⟩ := readi_state dev ht.holding.consistent (ht.holding.held hip hv) off n
  rw [hr]
  exact ⟨ht, hk⟩

/-- The offset of a file is all that reads and writes change. -/
def SameFile (f g : File) : Prop := g = { f with off := g.off }

theorem fileread_keeps (dev : Devsw) (pipes : Pipes) (h : Intact sb H s)
    (hopen : f.type ≠ .FD_NONE) (hip : f.type = .FD_INODE → f.ip ∈ H) (n : Int32)
    (err : FilePanic → Prop) :
    Lib.Ensures (fileread sb dev pipes s f n) err fun r ↦
      Intact sb H r.1 ∧ Keeps sb H s r.1 ∧ SameFile f r.2.1 := by
  have hsame : Intact sb H s ∧ Keeps sb H s s ∧ SameFile f f := ⟨h, Keeps.refl sb H s, rfl⟩
  unfold fileread
  split
  · exact hsame
  · split
    · exact hsame
    · next htype =>
      apply Lib.Ensures.bind (liftFs_iff.mpr (readOp_keeps dev h (hip htype) _ _ _))
      rintro ⟨t, r⟩ ⟨ht, hk⟩
      dsimp only at ht hk ⊢
      cases r with
      | none => exact ⟨ht, hk, rfl⟩
      | some r =>
        refine ⟨ht, hk, ?_⟩
        dsimp only
        split <;> rfl
    · next htype => exact absurd htype hopen

/-- The panics of a write: the disk is full, or a device has taken a part only. -/
def WriteStops (e : FilePanic) : Prop := e = .fs .outOfBlocks ∨ e = .shortFilewrite

private theorem filewriteLoop_keeps (dev : Devsw) (h : Intact sb H s) (hip : f.ip ∈ H)
    (hdir : ∀ nd, view sb s.blocks (s.icache f.ip).inum = some nd → nd.type ≠ T_DIR)
    (addr : Nat → UInt8) (n i : Nat) :
    Lib.Ensures (filewriteLoop sb dev s f addr n i) WriteStops fun r ↦
      Intact sb H r.1 ∧ Keeps sb H s r.1 ∧ SameFile f r.2.1 := by
  induction hm : n - i using Nat.strong_induction_on generalizing s f i with
  | h m ih =>
    unfold filewriteLoop
    split
    · next hlt =>
      have hwrite := writeOp_keeps dev h hip hdir (fun j ↦ addr (i + j)) f.off
        (UInt32.ofNat (min (n - i) chunkMax))
      apply Lib.Ensures.bind (liftFs_iff.mpr (hwrite.mono (fun _ hr ↦ hr) ?_))
      · rintro ⟨t, r⟩ ⟨ht, hk⟩
        dsimp only at ht hk ⊢
        have hend : Intact sb H (end_op t) :=
          { holding := { ht.holding with consistent := ht.holding.consistent.unlogged }
            tree := ht.tree
            orphans := ht.orphans }
        have hkend : Keeps sb H s (end_op t) := ⟨hk.steady, hk.kinds⟩
        cases r with
        | none => exact ⟨hend, hkend, rfl⟩
        | some r =>
          have hmoved : ∃ off, (if r > 0 then { f with off := f.off + UInt32.ofNat r } else f) =
              { f with off } := by
            split
            · exact ⟨_, rfl⟩
            · exact ⟨f.off, rfl⟩
          obtain ⟨off, hoff⟩ := hmoved
          dsimp only
          rw [hoff]
          split
          · exact Or.inr rfl
          · have hpos := chunkMax_pos
            have hdir' : ∀ nd, view sb (end_op t).blocks
                ((end_op t).icache ({ f with off } : File).ip).inum = some nd →
                  nd.type ≠ T_DIR := by
              intro nd hnd
              obtain ⟨nd₀, hnd₀⟩ := h.holding.node hip
              obtain ⟨nd', hnd', hsame⟩ := hk.kinds f.ip hip nd₀ hnd₀
              rw [← (hk.steady f.ip hip).1] at hnd'
              have he : nd = nd' := Option.some.inj (hnd.symm.trans hnd')
              rw [he, hsame]
              exact hdir nd₀ hnd₀
            have hrest := ih (n - (i + min (n - i) chunkMax)) (by omega) hend
              (show ({ f with off } : File).ip ∈ H from hip) hdir' (i + min (n - i) chunkMax) rfl
            apply hrest.imp
            rintro ⟨u, g, k⟩ ⟨hu, hk', hg⟩
            exact ⟨hu, hkend.trans hk', hg⟩
      · exact fun e he ↦ Or.inl (congrArg FilePanic.fs he)
    · exact ⟨h, Keeps.refl sb H s, rfl⟩

theorem filewrite_keeps (dev : Devsw) (pipes : Pipes) (h : Intact sb H s)
    (hopen : f.type ≠ .FD_NONE) (hip : f.type = .FD_INODE → f.ip ∈ H)
    (hdir : f.type = .FD_INODE → f.writable = true →
      ∀ nd, view sb s.blocks (s.icache f.ip).inum = some nd → nd.type ≠ T_DIR)
    (addr : Nat → UInt8) (n : Int32) :
    Lib.Ensures (filewrite sb dev pipes s f addr n) WriteStops fun r ↦
      Intact sb H r.1 ∧ Keeps sb H s r.1 ∧ SameFile f r.2.1 := by
  have hsame : Intact sb H s ∧ Keeps sb H s s ∧ SameFile f f := ⟨h, Keeps.refl sb H s, rfl⟩
  unfold filewrite
  split
  · exact hsame
  · next hw =>
    split
    · exact hsame
    · next htype =>
      have hnot := hdir htype (Bool.eq_true_of_not_eq_false hw)
      apply Lib.Ensures.bind (filewriteLoop_keeps dev h (hip htype) hnot addr _ 0)
      rintro ⟨t, g, i⟩ ht
      exact ht
    · next htype => exact absurd htype hopen

theorem filepread_keeps (dev : Devsw) (pipes : Pipes) (h : Intact sb H s)
    (hopen : f.type ≠ .FD_NONE) (hip : f.type = .FD_INODE → f.ip ∈ H) (n off : Int32)
    (err : FilePanic → Prop) :
    Lib.Ensures (filepread sb dev pipes s f n off) err fun r ↦
      Intact sb H r.1 ∧ Keeps sb H s r.1 ∧ SameFile f r.2.1 := by
  rw [filepread_eq]
  have hread := fileread_keeps (f := { f with off := off.toUInt32 }) dev pipes h hopen hip n err
  cases hr : fileread sb dev pipes s { f with off := off.toUInt32 } n with
  | error e => exact hread.of_error hr
  | ok r =>
    obtain ⟨ht, hk, -⟩ := hread.of_ok hr
    exact ⟨ht, hk, rfl⟩

theorem filepwrite_keeps (dev : Devsw) (pipes : Pipes) (h : Intact sb H s)
    (hopen : f.type ≠ .FD_NONE) (hip : f.type = .FD_INODE → f.ip ∈ H)
    (hdir : f.type = .FD_INODE → f.writable = true →
      ∀ nd, view sb s.blocks (s.icache f.ip).inum = some nd → nd.type ≠ T_DIR)
    (addr : Nat → UInt8) (n off : Int32) :
    Lib.Ensures (filepwrite sb dev pipes s f addr n off) WriteStops fun r ↦
      Intact sb H r.1 ∧ Keeps sb H s r.1 ∧ SameFile f r.2.1 := by
  rw [filepwrite_eq]
  have hwrite := filewrite_keeps (f := { f with off := off.toUInt32 }) dev pipes h hopen hip hdir
    addr n
  cases hr : filewrite sb dev pipes s { f with off := off.toUInt32 } addr n with
  | error e => exact hwrite.of_error hr
  | ok r =>
    obtain ⟨ht, hk, -⟩ := hwrite.of_ok hr
    exact ⟨ht, hk, rfl⟩

end

end Xv6.Fs
