import Xv6.Fs.Unlink
import Xv6.Fs.Create
import Xv6.Fs.Link
import Xv6.Fs.FileIo

/-!
# What is held keeps its type

No call turns an inode that somebody holds into one of another type, or frees it: what has been
opened as a file, a device or a directory stays one. With that, what each call does to the file
system is stated in one form.
-/

namespace Xv6.Fs

open Function

open Mkfs (DIRSIZ T_DIR T_FILE ROOTINO)

/-- The nodes of what is held in `s` have the same types in `v'`. -/
def Kinds (sb : Superblock) (H : Multiset Slot) (s : State) (v' : Nat → Option Node) : Prop :=
  ∀ ip ∈ H, ∀ nd, view sb s.blocks (s.icache ip).inum = some nd →
    ∃ nd', v' (s.icache ip).inum = some nd' ∧ nd'.type = nd.type

/-- What is held keeps its inodes and their types. -/
structure Keeps (sb : Superblock) (H : Multiset Slot) (s t : State) : Prop where
  steady : Steady H s t
  kinds : Kinds sb H s (view sb t.blocks)

/-- Every node keeps its type. -/
def SameKinds (v v' : Nat → Option Node) : Prop :=
  ∀ i nd, v i = some nd → ∃ nd', v' i = some nd' ∧ nd'.type = nd.type

section

variable {sb : Superblock} {dev : Devsw} {s t u : State} {ip cwd : Slot} {H H' : Multiset Slot}
  {path : CString} {v v' v'' : Nat → Option Node} {n d i : Nat} {nm : CString} {type : Int16}

/-! ### Kinds -/

theorem SameKinds.refl (v : Nat → Option Node) : SameKinds v v := fun _ nd h ↦ ⟨nd, h, rfl⟩

private theorem SameKinds.trans (h : SameKinds v v') (h' : SameKinds v' v'') : SameKinds v v'' := by
  intro j nd hj
  obtain ⟨nd', hj', ht⟩ := h j nd hj
  obtain ⟨nd'', hj'', ht'⟩ := h' j nd' hj'
  exact ⟨nd'', hj'', ht'.trans ht⟩

/-- One node is replaced by one of the same type. -/
theorem SameKinds.update {nd x : Node} (hi : v i = some nd) (hx : x.type = nd.type) :
    SameKinds v (update v i (some x)) := by
  intro j nd' hj
  by_cases hji : j = i
  · rw [hji] at hj ⊢
    rw [hi] at hj
    cases hj
    exact ⟨x, update_self _ _ _, hx⟩
  · exact ⟨nd', by rw [update_of_ne hji, hj], rfl⟩

/-- A node is added. -/
private theorem SameKinds.new (hi : v i = none) (o : Option Node) :
    SameKinds v (Function.update v i o) := by
  intro j nd hj
  have hji : j ≠ i := by
    rintro rfl
    rw [hi] at hj
    cases hj
  exact ⟨nd, by rw [update_of_ne hji, hj], rfl⟩

theorem SameKinds.kinds (h : SameKinds (view sb s.blocks) v') : Kinds sb H s v' :=
  fun _ _ nd hnd ↦ h _ nd hnd

theorem Links.kinds (h : Links d i nm v v') : SameKinds v v' := by
  obtain ⟨nd, ndi, y, hd, hi, ht, -, -, hy, rfl⟩ := h
  have hdi : d ≠ i := by
    rintro rfl
    rw [hd.node] at hi
    cases hi
    exact ht hd.dir
  have htype : (⟨ndi.type, ndi.nlink + 1, ndi.data⟩ : Node).type = ndi.type := rfl
  apply (SameKinds.update hi htype).trans
  apply SameKinds.update
  · rw [update_of_ne hdi, hd.node]
  · rw [hy.dir, hd.dir]

theorem Creates.kinds (h : Creates n d i nm type v v') : SameKinds v v' := by
  obtain ⟨nd, x, y, hd, -, hnew, -, -, -, -, -, -, hy, rfl⟩ := h
  have hdi : d ≠ i := by
    rintro rfl
    rw [hd.node] at hnew
    cases hnew
  apply (SameKinds.new hnew _).trans
  apply SameKinds.update
  · rw [update_of_ne hdi, hd.node]
  · rw [hy.dir, hd.dir]

theorem Unlinks.kinds (h : Unlinks d i nm v v') (hne : d ≠ i) : SameKinds v v' := by
  obtain ⟨nd, ndi, y, k, hd, hi, -, -, -, -, -, hy, rfl⟩ := h
  apply (SameKinds.update hd.node (hy.dir.trans hd.dir.symm)).trans
  apply SameKinds.update
  · rw [update_of_ne hne.symm, hi]
  · rfl

/-- What is held is not reaped. -/
theorem Reaped.kinds (h : Reaped H i s v v') (hv : SameKinds (view sb s.blocks) v) :
    Kinds sb H s v' := by
  intro ip hip nd hnd
  obtain ⟨nd', hnd', ht⟩ := hv _ nd hnd
  rcases h with rfl | ⟨ndr, -, -, hnone, rfl⟩
  · exact ⟨nd', hnd', ht⟩
  · exact ⟨nd', by rw [update_of_ne (hnone ip hip), hnd'], ht⟩

namespace Keeps

theorem refl (sb : Superblock) (H : Multiset Slot) (s : State) : Keeps sb H s s :=
  ⟨Steady.refl H s, (SameKinds.refl _).kinds⟩

theorem trans (h : Keeps sb H s t) (h' : Keeps sb H t u) : Keeps sb H s u where
  steady := h.steady.trans h'.steady
  kinds := by
    intro ip hip nd hnd
    obtain ⟨nd', hnd', ht⟩ := h.kinds ip hip nd hnd
    have hinum := (h.steady ip hip).1
    rw [← hinum] at hnd' ⊢
    obtain ⟨nd'', hnd'', ht'⟩ := h'.kinds ip hip nd' hnd'
    exact ⟨nd'', hnd'', ht'.trans ht⟩

theorem mono (h : Keeps sb H s t) (hle : ∀ ip ∈ H', ip ∈ H) : Keeps sb H' s t :=
  ⟨h.steady.mono hle, fun ip hip ↦ h.kinds ip (hle ip hip)⟩

/-- A call that does not change the disk. -/
theorem of_view (hs : Steady H s t) (hv : view sb t.blocks = view sb s.blocks) :
    Keeps sb H s t :=
  ⟨hs, by rw [hv]; exact (SameKinds.refl _).kinds⟩

end Keeps

/-! ### The calls -/

/-- What a call does in the end, whether it has failed or not. -/
theorem Outcome.keeps {refused : Prop} {done : (Nat → Option Node) → Prop} {r : State × Int}
    (h : Outcome sb H s refused done r) (hdone : ∀ v', done v' → Kinds sb H s v') :
    Intact sb H r.1 ∧ Keeps sb H s r.1 := by
  obtain ⟨hi, hs, hend⟩ := h
  rcases hend with ⟨-, -, hv⟩ | ⟨-, hv⟩
  · exact ⟨hi, Keeps.of_view hs hv⟩
  · exact ⟨hi, hs, hdone _ hv⟩

/-- `iput` keeps what is still held. -/
theorem Intact.iput_keeps (h : Intact sb (ip ::ₘ H) s) (err : Panic → Prop) :
    Lib.Ensures (Fs.iput sb s ip) err fun t ↦ Intact sb H t ∧ Keeps sb H s t := by
  apply (h.iput err).imp
  rintro t ⟨ht, hs, hreap⟩
  exact ⟨ht, hs, hreap.kinds (SameKinds.refl _)⟩

theorem sys_link_keeps (dev : Devsw) (hsmall : sb.ninodes ≤ 65536) (h : Intact sb H s)
    (hcwd : cwd ∈ H) {old new : CString} (hold : Attached sb s cwd old)
    (hnew : Attached sb s cwd new) (hroom : Roomy (view sb s.blocks)) (name : Nat → UInt8) :
    Lib.Ensures (sys_link sb dev s cwd old new name) Halts fun r ↦
      Intact sb H r.1 ∧ Keeps sb H s r.1 := by
  apply (sys_link_spec dev hsmall h hcwd hold hnew hroom name).mono
  · intro r hr
    apply hr.keeps
    rintro v' ⟨d, i, nm, -, -, hl⟩
    exact hl.kinds.kinds
  · exact fun e he ↦ he.imp Full.of_link And.left

theorem sys_unlink_keeps (dev : Devsw) (h : Intact sb H s) (hcwd : cwd ∈ H)
    (ha : Attached sb s cwd path) (name : Nat → UInt8) :
    Lib.Ensures (sys_unlink sb dev s cwd path name) Full fun r ↦
      Intact sb H r.1 ∧ Keeps sb H s r.1 := by
  apply (sys_unlink_spec dev h hcwd ha name).mono
  · intro r hr
    apply hr.keeps
    rintro v' ⟨d, i, nm, v₁, -, hu, hreap⟩
    exact hreap.kinds (hu.kinds (hu.tree h.tree).1)
  · exact fun e ↦ Full.of_iget

private theorem Makes.kinds (h : Makes sb s cwd path type v') : Kinds sb H s v' := by
  obtain ⟨d, i, nm, -, hc⟩ := h
  exact hc.kinds.kinds

theorem sys_mkdir_keeps (dev : Devsw) (hsmall : sb.ninodes ≤ 65536) (h : Intact sb H s)
    (hcwd : cwd ∈ H) (ha : Attached sb s cwd path) (hroom : Roomy (view sb s.blocks))
    (name : Nat → UInt8) :
    Lib.Ensures (sys_mkdir sb dev s cwd path name) Full fun r ↦
      Intact sb H r.1 ∧ Keeps sb H s r.1 := by
  apply (sys_mkdir_spec dev hsmall h hcwd ha hroom name).imp
  exact fun r hr ↦ hr.keeps fun v' ↦ Makes.kinds

theorem sys_mknod_keeps (dev : Devsw) (hsmall : sb.ninodes ≤ 65536) (h : Intact sb H s)
    (hcwd : cwd ∈ H) (ha : Attached sb s cwd path) (hroom : Roomy (view sb s.blocks))
    (major minor : Int16) (name : Nat → UInt8) :
    Lib.Ensures (sys_mknod sb dev s cwd path major minor name) Full fun r ↦
      Intact sb H r.1 ∧ Keeps sb H s r.1 := by
  apply (sys_mknod_spec dev hsmall h hcwd ha hroom major minor name).imp
  exact fun r hr ↦ hr.keeps fun v' ↦ Makes.kinds

/-- What `openInode` returns is open for reading only, if it is a directory. -/
theorem openInode_keeps (dev : Devsw) (hsmall : sb.ninodes ≤ 65536) (h : Intact sb H s)
    (hcwd : cwd ∈ H) (ha : Attached sb s cwd path) (hroom : Roomy (view sb s.blocks))
    (omode : UInt32) (name : Nat → UInt8) :
    Lib.Ensures (openInode sb dev s cwd path omode name) Full fun r ↦
      Keeps sb H s r.1 ∧ (r.2 = none → Intact sb H r.1) ∧
        ∀ ip, r.2 = some ip → Intact sb (ip ::ₘ H) r.1 ∧
          ∀ nd, view sb r.1.blocks (r.1.icache ip).inum = some nd → nd.type = T_DIR →
            omode = O_RDONLY := by
  apply (openInode_spec dev hsmall h hcwd ha hroom omode name).imp
  rintro ⟨t, r⟩ ⟨hs, hnone, hsome⟩
  dsimp only at hs hnone hsome ⊢
  cases r with
  | none =>
    obtain ⟨ht, hv⟩ := hnone rfl
    exact ⟨Keeps.of_view hs hv, fun _ ↦ ht, fun ip hip ↦ by cases hip⟩
  | some ip =>
    obtain ⟨ht, -, hopens⟩ := hsome ip rfl
    have hfile : ∀ {nd : Node}, nd.type = T_FILE → nd.type = T_DIR → omode = O_RDONLY :=
      fun hf hd ↦ absurd (hf.symm.trans hd) (by decide)
    have hall : SameKinds (view sb s.blocks) (view sb t.blocks) ∧
        ∀ nd, view sb t.blocks (t.icache ip).inum = some nd → nd.type = T_DIR →
          omode = O_RDONLY := by
      unfold Opens at hopens
      split at hopens
      · rcases hopens with ⟨-, hv, -, nd, hnd, htype⟩ | ⟨d, nm, -, hc⟩
        · rw [hv]
          refine ⟨SameKinds.refl _, fun nd' hnd' ↦ ?_⟩
          rw [hnd] at hnd'
          cases hnd'
          exact hfile htype
        · refine ⟨hc.kinds, fun nd' hnd' ↦ ?_⟩
          obtain ⟨x, hx, htype, -⟩ := hc.node
          rw [hx] at hnd'
          cases hnd'
          exact hfile htype
      · obtain ⟨hv, -, nd, hnd, hdir⟩ := hopens
        rw [hv]
        refine ⟨SameKinds.refl _, fun nd' hnd' ↦ ?_⟩
        rw [hnd] at hnd'
        cases hnd'
        exact hdir
    refine ⟨⟨hs, hall.1.kinds⟩, fun hc ↦ (by cases hc), fun iq hiq ↦ ?_⟩
    cases hiq
    exact ⟨ht, hall.2⟩

/-- The directory that `sys_chdir` leaves the process in is one. -/
theorem sys_chdir_keeps (dev : Devsw) (h : Intact sb (cwd ::ₘ H) s) (ha : Attached sb s cwd path)
    (hdir : ∀ nd, view sb s.blocks (s.icache cwd).inum = some nd → nd.type = T_DIR)
    (name : Nat → UInt8) :
    Lib.Ensures (sys_chdir sb dev s cwd path name) Full fun r ↦
      Intact sb (r.2.1 ::ₘ H) r.1 ∧ Keeps sb H s r.1 ∧
        ∀ nd, view sb r.1.blocks (r.1.icache r.2.1).inum = some nd → nd.type = T_DIR := by
  apply (sys_chdir_spec dev h ha name).imp
  rintro ⟨t, cwd', r⟩ ⟨ht, hchanged⟩
  refine ⟨ht, ?_⟩
  rcases hchanged with ⟨-, hc, hs, hv⟩ | ⟨-, hs, -, ⟨nd, hd⟩, hreap⟩
  · subst hc
    refine ⟨(Keeps.of_view hs hv).mono (mem_cons_of cwd'), fun nd hnd ↦ hdir nd ?_⟩
    dsimp only at hnd
    rwa [hv, (hs cwd' (Multiset.mem_cons_self cwd' H)).1] at hnd
  · refine ⟨⟨hs, hreap.kinds (SameKinds.refl _)⟩, fun nd' hnd' ↦ ?_⟩
    dsimp only at hnd'
    rw [hd.node] at hnd'
    cases hnd'
    exact hd.dir

end

end Xv6.Fs
