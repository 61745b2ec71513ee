import Xv6.Fs.Contents
import Xv6.Fs.Mkfs

/-!
# Runs of file calls

Any sequence of `readi` and `writei` calls on held inodes behaves as the same calls on
arrays of bytes, one array for each inode.
-/

namespace Xv6.Fs

open Function

/-- A call of `readi` or `writei`. -/
inductive FileCall where
  | readi (ip : Slot) (off n : UInt32)
  | writei (ip : Slot) (src : Nat → UInt8) (off n : UInt32)

/-- The inode a call is about. -/
def FileCall.slot : FileCall → Slot
  | .readi ip _ _ => ip
  | .writei ip _ _ _ => ip

/-- What a call returns; none for -1. -/
inductive Reply where
  | readi (r : Option (Nat × List UInt8))
  | writei (r : Option Nat)

/-- One call. -/
def call (sb : Superblock) (dev : Devsw) (s : State) : FileCall → Except Panic (State × Reply)
  | .readi ip off n => do
    let (s, r) ← readi sb dev s ip off n
    pure (s, .readi r)
  | .writei ip src off n => do
    let (s, r) ← writei sb dev s ip src off n
    pure (s, .writei r)

/-- A sequence of calls, with their replies. -/
def calls (sb : Superblock) (dev : Devsw) (s : State) :
    List FileCall → Except Panic (State × List Reply)
  | [] => .ok (s, [])
  | c :: cs => do
    let (s, r) ← call sb dev s c
    let (s, rs) ← calls sb dev s cs
    pure (s, r :: rs)

/-! ### The calls on arrays of bytes -/

/-- The same call on the arrays `f`, where `inum` tells the inode of each slot. -/
def specCall (inum : Slot → Nat) (f : Nat → List UInt8) : FileCall → (Nat → List UInt8) × Reply
  | .readi ip off n => (f, .readi (readSpec (f (inum ip)) off.toNat n.toNat))
  | .writei ip src off n =>
    if WriteFails (f (inum ip)).length off.toNat n.toNat then
      (f, .writei none)
    else
      (update f (inum ip)
        (overwrite (f (inum ip)) off.toNat ((List.range n.toNat).map src)), .writei (some n.toNat))

/-- The same sequence of calls on the arrays `f`. -/
def specCalls (inum : Slot → Nat) (f : Nat → List UInt8) :
    List FileCall → (Nat → List UInt8) × List Reply
  | [] => (f, [])
  | c :: cs =>
    let (f, r) := specCall inum f c
    let (f, rs) := specCalls inum f cs
    (f, r :: rs)

/-- A call on the arrays leaves the arrays of the other inodes alone. -/
theorem specCall_other {inum : Slot → Nat} {f : Nat → List UInt8} {c : FileCall} {i : Nat}
    (hi : i ≠ inum c.slot) : (specCall inum f c).1 i = f i := by
  cases c with
  | readi ip off n => rfl
  | writei ip src off n =>
    have hi' : i ≠ inum ip := hi
    unfold specCall
    dsimp only
    split
    · rfl
    · exact update_of_ne hi' _ _

theorem specCalls_other {inum : Slot → Nat} {f : Nat → List UInt8} {cs : List FileCall} {i : Nat}
    (hi : ∀ c ∈ cs, inum c.slot ≠ i) : (specCalls inum f cs).1 i = f i := by
  induction cs generalizing f with
  | nil => rfl
  | cons c cs ih =>
    show (specCalls inum (specCall inum f c).1 cs).1 i = f i
    rw [ih fun c' hc' ↦ hi c' (List.mem_cons_of_mem c hc')]
    exact specCall_other (hi c List.mem_cons_self).symm

/-! ### Refinement -/

section

variable {sb : Superblock} {dev : Devsw} {s t u : State} {ip : Slot}

/-- The slot holds an inode that is not a device. -/
def IsFile (s : State) (ip : Slot) : Prop := Held s ip ∧ (s.icache ip).type ≠ T_DEV

/-- Every slot still holds the inode it held. -/
structure SameSlots (s t : State) : Prop where
  inum : ∀ ip, (t.icache ip).inum = (s.icache ip).inum
  isFile : ∀ ip, IsFile s ip → IsFile t ip

theorem SameSlots.refl (s : State) : SameSlots s s := ⟨fun _ ↦ rfl, fun _ h ↦ h⟩

theorem SameSlots.trans (h : SameSlots s t) (h' : SameSlots t u) : SameSlots s u where
  inum := fun ip ↦ (h'.inum ip).trans (h.inum ip)
  isFile := fun ip hip ↦ h'.isFile ip (h.isFile ip hip)

private theorem Settled.sameSlots {s₁ : State} (h : Settled sb ip s s₁ t) : SameSlots s t where
  inum := by
    intro iq
    by_cases he : iq = ip
    · rw [he, h.inum]
    · rw [h.others iq he]
  isFile := by
    intro iq hq
    by_cases he : iq = ip
    · subst he
      refine ⟨h.held, ?_⟩
      rw [h.type]
      exact hq.2
    · rwa [IsFile, Held, h.others iq he]

/-- One call returns what the call on the arrays returns, and changes the files as it does. -/
private theorem call_spec (h : Consistent sb s) (c : FileCall) (hc : IsFile s c.slot) :
    Lib.Ensures (call sb dev s c) (· = .outOfBlocks) fun r ↦
      Consistent sb r.1 ∧ SameSlots s r.1 ∧
      specCall (fun ip ↦ (s.icache ip).inum) (files sb s.blocks) c = (files sb r.1.blocks, r.2) := by
  obtain ⟨hheld, htype⟩ := hc
  cases c with
  | readi ip off n =>
    have hread : readi sb dev s ip off n = _ := readi_spec h hheld dev htype
    rw [call, hread]
    exact ⟨h, SameSlots.refl s, rfl⟩
  | writei ip src off n =>
    have hlen := length_files_self h hheld
    unfold call specCall
    dsimp only [FileCall.slot] at hheld htype hlen ⊢
    rw [hlen]
    by_cases hf : WriteFails (s.icache ip).size off.toNat n.toNat
    · rw [if_pos hf, writei_fails dev htype src hf]
      exact ⟨h, SameSlots.refl s, rfl⟩
    · rw [if_neg hf]
      apply Lib.Ensures.bind (writei_spec h hheld dev htype src hf)
      rintro ⟨t, r⟩ ⟨hr, ht, hfiles, s₁, hset⟩
      dsimp only at hr ht hfiles hset ⊢
      refine ⟨ht, hset.sameSlots, ?_⟩
      rw [hr, hfiles]

/-- File contents are arrays of bytes: a sequence of calls returns what it returns on the
arrays and leaves the files as it leaves the arrays; files it does not name stay as they are.
In the state it reaches, a write that fails and every read change nothing. -/
theorem files_refine (h : Consistent sb s) (cs : List FileCall)
    (hc : ∀ c ∈ cs, IsFile s c.slot) :
    Lib.Ensures (calls sb dev s cs) (· = .outOfBlocks) fun r ↦
      Consistent sb r.1 ∧
      specCalls (fun ip ↦ (s.icache ip).inum) (files sb s.blocks) cs =
        (files sb r.1.blocks, r.2) ∧
      (∀ i, (∀ c ∈ cs, (s.icache c.slot).inum ≠ i) → files sb r.1.blocks i = files sb s.blocks i) ∧
      ∀ ip, IsFile s ip → ∀ off n : UInt32,
        (∀ src, WriteFails (files sb r.1.blocks (s.icache ip).inum).length off.toNat n.toNat →
          writei sb dev r.1 ip src off n = .ok (r.1, none)) ∧
        readi sb dev r.1 ip off n =
          .ok (r.1, readSpec (files sb r.1.blocks (s.icache ip).inum) off.toNat n.toNat) := by
  induction cs generalizing s with
  | nil =>
    refine ⟨h, rfl, fun _ _ ↦ rfl,
      fun ip hip off n ↦ ⟨fun src hf ↦ ?_, readi_spec h hip.1 dev hip.2⟩⟩
    rw [length_files_self h hip.1] at hf
    exact writei_fails dev hip.2 src hf
  | cons c cs ih =>
    apply Lib.Ensures.bind (call_spec h c (hc c List.mem_cons_self))
    rintro ⟨t, r⟩ ⟨ht, hslots, hspec⟩
    dsimp only at ht hslots hspec ⊢
    have hinum : (fun ip ↦ (t.icache ip).inum) = fun ip ↦ (s.icache ip).inum := funext hslots.inum
    have hrest := ih ht fun c hmem ↦ hslots.isFile _ (hc c (List.mem_cons_of_mem _ hmem))
    apply Lib.Ensures.bind hrest
    rintro ⟨u, rs⟩ ⟨hu, hspecs, -, hcalls⟩
    dsimp only at hu hspecs hcalls ⊢
    rw [hinum] at hspecs
    have hall : specCalls (fun ip ↦ (s.icache ip).inum) (files sb s.blocks) (c :: cs) =
        (files sb u.blocks, r :: rs) := by
      rw [specCalls, hspec]
      dsimp only
      rw [hspecs]
    refine ⟨hu, hall, ?_, ?_⟩
    · intro i hi
      have hother : (specCalls (fun ip ↦ (s.icache ip).inum) (files sb s.blocks) (c :: cs)).1 i =
          files sb s.blocks i := specCalls_other hi
      rwa [hall] at hother
    · intro ip hip off n
      rw [← hslots.inum ip]
      exact hcalls ip (hslots.isFile ip hip) off n

end

private theorem oneFile_isFile : IsFile oneFile 0 := by
  refine ⟨oneFile_held, ?_⟩
  rw [oneFile_slot]
  decide

/-- Three bytes written to an empty file are read back. -/
theorem files_refine_oneFile :
    Lib.Ensures (calls mkfsSuperblock ⟨fun _ ↦ none, fun _ ↦ none⟩ oneFile
      [.writei 0 (fun _ ↦ 7) 0 3, .readi 0 1 5]) (· = .outOfBlocks)
      (·.2 = [.writei (some 3), .readi (some (2, [7, 7]))]) := by
  have hcalls := @files_refine mkfsSuperblock ⟨fun _ ↦ none, fun _ ↦ none⟩ oneFile
    oneFile_consistent [.writei 0 (fun _ ↦ 7) 0 3, .readi 0 1 5] (by
      intro c hc
      have hslot : c.slot = 0 := by
        rcases List.mem_cons.mp hc with rfl | hc
        · rfl
        · rw [List.mem_singleton.mp hc]
          rfl
      rw [hslot]
      exact oneFile_isFile)
  apply hcalls.imp
  rintro r ⟨-, hspec, -⟩
  have hfile : files mkfsSuperblock oneFile.blocks (oneFile.icache 0).inum = [] := by
    apply List.eq_nil_of_length_eq_zero
    rw [length_files_self oneFile_consistent oneFile_held, oneFile_slot]
    rfl
  have hwrite : specCall (fun ip ↦ (oneFile.icache ip).inum)
      (files mkfsSuperblock oneFile.blocks) (.writei 0 (fun _ ↦ 7) 0 3) =
      (update (files mkfsSuperblock oneFile.blocks) (oneFile.icache 0).inum [7, 7, 7],
        .writei (some 3)) := by
    unfold specCall
    dsimp only
    rw [hfile, if_neg (by decide)]
    rfl
  rw [← congrArg Prod.snd hspec, specCalls, hwrite]
  simp only [specCalls, specCall, update_self]
  rfl

end Xv6.Fs
