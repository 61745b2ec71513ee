import Xv6.Fs.FileRefs

/-!
# Descriptors

The references to files are the descriptors of the processes, and those to inodes, besides the
ones of the files, their directories. While a call is under way it has some of its own.
-/

namespace Xv6.Fs

open Function

open Mkfs (DIRSIZ T_DIR T_FILE ROOTINO)

/-- The files of a process, each as often as it has a descriptor for it. -/
def Proc.files (x : Proc) : Multiset (Fin NFILE) := Lib.held Lib.single x.ofile

/-- The directory of a process. -/
def Proc.dir (x : Proc) : Multiset Slot := Lib.single x.cwd

/-- The files that processes have descriptors for. -/
def descriptors (σ : System) : Multiset (Fin NFILE) := Lib.held Proc.files σ.proc

/-- The directories of the processes. -/
def cwds (σ : System) : Multiset Slot := Lib.held Proc.dir σ.proc

/-- All references are counted, where a call has references `R` to files and `C` to inodes besides
those of the processes; the descriptors stand for files that have been opened, and the directories
of processes are directories. -/
structure Counted (sb : Superblock) (R : Multiset (Fin NFILE)) (C : Multiset Slot)
    (σ : System) : Prop where
  files : Files sb (R + descriptors σ) (C + cwds σ) σ
  opened : ∀ f ∈ descriptors σ, (σ.file f).type ≠ .FD_NONE
  dirs : ∀ ip ∈ cwds σ, ∀ nd, view sb σ.fs.blocks (σ.fs.icache ip).inum = some nd →
    nd.type = T_DIR

section

variable {sb : Superblock} {σ τ : System} {R R' : Multiset (Fin NFILE)} {C C' : Multiset Slot}
  {f : Fin NFILE} {fd : Fin NOFILE} {p : Fin NPROC} {x : Proc} {ip : Slot} {s : State}

/-! ### Descriptors -/

theorem descriptors_setFd (σ : System) (p : Fin NPROC) (fd : Fin NOFILE)
    (o : Option (Fin NFILE)) : descriptors (σ.setFd p fd o) +
      Lib.single ((σ.proc p).ofile fd) = descriptors σ + Lib.single o := by
  have hproc := Lib.held_update Proc.files σ.proc p
    { σ.proc p with ofile := update (σ.proc p).ofile fd o }
  have hfile := Lib.held_update Lib.single (σ.proc p).ofile fd o
  have hnew : Proc.files { σ.proc p with ofile := update (σ.proc p).ofile fd o } =
      Lib.held Lib.single (update (σ.proc p).ofile fd o) := rfl
  have hold : (σ.proc p).files = Lib.held Lib.single (σ.proc p).ofile := rfl
  show Lib.held Proc.files (update σ.proc p _) + _ = Lib.held Proc.files σ.proc + _
  apply add_right_cancel (b := (σ.proc p).files)
  rw [add_right_comm, hproc, hnew, add_assoc, hfile, hold]
  abel

theorem descriptors_take (h : (σ.proc p).ofile fd = none) (f : Fin NFILE) :
    descriptors (σ.setFd p fd (some f)) = f ::ₘ descriptors σ := by
  have hsum := descriptors_setFd σ p fd (some f)
  rw [h] at hsum
  have hzero : Lib.single (none : Option (Fin NFILE)) = 0 := rfl
  rw [hzero, add_zero, add_comm] at hsum
  exact hsum

theorem descriptors_drop (h : (σ.proc p).ofile fd = some f) :
    descriptors σ = f ::ₘ descriptors (σ.setFd p fd none) := by
  have hsum := descriptors_setFd σ p fd none
  rw [h] at hsum
  have hzero : Lib.single (none : Option (Fin NFILE)) = 0 := rfl
  rw [hzero, add_zero, add_comm] at hsum
  exact hsum.symm

theorem mem_descriptors (h : (σ.proc p).ofile fd = some f) : f ∈ descriptors σ := by
  rw [descriptors_drop h]
  exact Multiset.mem_cons_self f _

/-- Descriptors have nothing to do with directories. -/
theorem cwds_setFd (σ : System) (p : Fin NPROC) (fd : Fin NOFILE) (o : Option (Fin NFILE)) :
    cwds (σ.setFd p fd o) = cwds σ :=
  Lib.held_keep (F := Proc.dir) (g := σ.proc) rfl

theorem mem_cwds {cwd : Slot} (h : (σ.proc p).cwd = some cwd) : cwd ∈ cwds σ :=
  Lib.mem_held.mpr ⟨p, Lib.mem_single.mpr h⟩

theorem descriptors_setProc (hx : x.ofile = (σ.proc p).ofile) :
    descriptors (σ.setProc p x) = descriptors σ := by
  apply Lib.held_keep
  rw [Proc.files, Proc.files, hx]

/-- A process without a directory takes one. -/
theorem cwds_take (h : (σ.proc p).cwd = none) (hx : x.cwd = some ip) :
    cwds (σ.setProc p x) = ip ::ₘ cwds σ := by
  apply Lib.held_take (m := {ip})
  rw [Proc.dir, Proc.dir, h, hx]
  exact (add_zero _).symm

/-- A process gives up its directory. -/
theorem cwds_drop (h : (σ.proc p).cwd = some ip) (hx : x.cwd = none) :
    cwds σ = ip ::ₘ cwds (σ.setProc p x) := by
  apply Lib.held_drop (m := {ip})
  rw [Proc.dir, Proc.dir, h, hx]
  exact (add_zero _).symm

/-- A file structure belongs to the table, whoever the processes are. -/
theorem Files.setProc (h : Files sb R C σ) (p : Fin NPROC) (x : Proc) :
    Files sb R C (σ.setProc p x) :=
  ⟨h.intact, h.count, h.closed, h.readonly, h.pipes⟩

theorem argfd_eq_some {n : Int32} (h : argfd x n = some (fd, f)) : x.ofile fd = some f := by
  unfold argfd at h
  split at h
  · obtain ⟨f', hf, hpair⟩ := Option.map_eq_some_iff.mp h
    cases hpair
    exact hf
  · cases h

theorem fdalloc_eq_some {y : Proc} (h : fdalloc x f = some (y, fd)) :
    x.ofile fd = none ∧ y = { x with ofile := update x.ofile fd (some f) } := by
  obtain ⟨fd', hfind, hpair⟩ := Option.map_eq_some_iff.mp h
  cases hpair
  exact ⟨by simpa using List.find?_some hfind, rfl⟩

/-- The calls on files have nothing to do with processes. -/
theorem filedup_setProc (σ : System) (p : Fin NPROC) (x : Proc) (f : Fin NFILE) :
    filedup (σ.setProc p x) f = (filedup σ f).map fun τ ↦ τ.setProc p x := by
  unfold filedup
  show (if (σ.file f).ref < 1 then _ else _) = _
  split <;> rfl

theorem pipeclose_setProc (σ : System) (p : Fin NPROC) (x : Proc) (q : Nat) (w : Bool) :
    pipeclose (σ.setProc p x) q w = (pipeclose σ q w).map fun τ ↦ τ.setProc p x := by
  have hpipe : (σ.setProc p x).pipe = σ.pipe := rfl
  unfold pipeclose
  simp only [hpipe]
  split <;> rfl

theorem fileclose_setProc (sb : Superblock) (σ : System) (p : Fin NPROC) (x : Proc)
    (f : Fin NFILE) :
    fileclose sb (σ.setProc p x) f = (fileclose sb σ f).map fun τ ↦ τ.setProc p x := by
  have hfile : (σ.setProc p x).file = σ.file := rfl
  unfold fileclose
  simp only [hfile]
  split
  · rfl
  · split
    · rfl
    · split
      · exact pipeclose_setProc (σ.setFile f { σ.file f with ref := 0, type := .FD_NONE }) p x _ _
      · show (iput sb σ.fs _).mapError _ >>= _ =
          Except.map _ ((iput sb σ.fs _).mapError _ >>= _)
        cases iput sb σ.fs (σ.file f).ip <;> rfl
      · rfl

/-! ### Calls under way -/

namespace Counted

/-- A call on files and inodes does not touch the processes. -/
theorem frame (h : Counted sb R C σ) (ht : Files sb (R' + descriptors σ) (C' + cwds σ) τ)
    (hf : Frame sb (descriptors σ) (cwds σ) σ τ) : Counted sb R' C' τ := by
  have hdesc : descriptors τ = descriptors σ := by rw [descriptors, hf.proc, descriptors]
  have hcwds : cwds τ = cwds σ := by rw [cwds, hf.proc, cwds]
  refine ⟨by rw [hdesc, hcwds]; exact ht, ?_, ?_⟩
  · rw [hdesc]
    intro f hmem
    rw [hf.file f hmem]
    exact h.opened f hmem
  · rw [hcwds]
    intro ip hip nd hnd
    obtain ⟨nd₀, hnd₀⟩ := h.files.intact.holding.node
      (Multiset.mem_add.mpr (Or.inr (Multiset.mem_add.mpr (Or.inr hip))))
    obtain ⟨nd', hnd', hsame⟩ := hf.keeps.kinds ip hip nd₀ hnd₀
    rw [← (hf.keeps.steady ip hip).1, hnd] at hnd'
    cases hnd'
    rw [hsame]
    exact h.dirs ip hip nd₀ hnd₀

/-- The inodes that the calls on the file system have to do with. -/
abbrev inodes (σ : System) : Multiset Slot := Lib.held OpenFile.inode σ.file + cwds σ

/-- The references of a call to inodes may change with the file system. -/
theorem setFs (h : Counted sb R C σ) (C' : Multiset Slot) (hi : Intact sb (C' + inodes σ) s)
    (hk : Keeps sb (inodes σ) σ.fs s) : Counted sb R C' { σ with fs := s } := by
  have hi' : Intact sb (Lib.held OpenFile.inode σ.file + (C' + cwds σ)) s := by
    rw [add_left_comm]
    exact hi
  apply h.frame (h.files.setFs hi' (hk.mono fun _ hip ↦ Multiset.mem_add.mpr (Or.inl hip)))
  exact ⟨rfl, fun _ _ ↦ rfl, hk.mono fun _ hip ↦ Multiset.mem_add.mpr (Or.inr hip)⟩

/-- The file system under a call. -/
theorem intact (h : Counted sb R C σ) : Intact sb (C + inodes σ) σ.fs := by
  rw [add_left_comm]
  exact h.files.intact

/-- A reference of the call becomes a descriptor. -/
theorem take_fd (h : Counted sb (f ::ₘ R) C σ) (hfd : (σ.proc p).ofile fd = none)
    (ht : (σ.file f).type ≠ .FD_NONE) : Counted sb R C (σ.setFd p fd (some f)) where
  files := by
    rw [descriptors_take hfd, cwds_setFd, Multiset.add_cons, ← Multiset.cons_add]
    exact h.files.setProc p _
  opened := by
    rw [descriptors_take hfd]
    intro f' hmem
    obtain rfl | hmem := Multiset.mem_cons.mp hmem
    · exact ht
    · exact h.opened f' hmem
  dirs := by
    rw [cwds_setFd]
    exact h.dirs

/-- A descriptor becomes a reference of the call. -/
theorem drop_fd (h : Counted sb R C σ) (hfd : (σ.proc p).ofile fd = some f) :
    Counted sb (f ::ₘ R) C (σ.setFd p fd none) where
  files := by
    rw [cwds_setFd, Multiset.cons_add, ← Multiset.add_cons, ← descriptors_drop hfd]
    exact h.files.setProc p _
  opened f' hmem := by
    apply h.opened f'
    rw [descriptors_drop hfd]
    exact Multiset.mem_cons_of_mem hmem
  dirs := by
    rw [cwds_setFd]
    exact h.dirs

/-- A reference of the call becomes the directory of a process. -/
theorem take_cwd (h : Counted sb R (ip ::ₘ C) σ) (hp : (σ.proc p).cwd = none)
    (hofile : x.ofile = (σ.proc p).ofile) (hx : x.cwd = some ip)
    (hdir : ∀ nd, view sb σ.fs.blocks (σ.fs.icache ip).inum = some nd → nd.type = T_DIR) :
    Counted sb R C (σ.setProc p x) where
  files := by
    rw [descriptors_setProc hofile, cwds_take hp hx, Multiset.add_cons, ← Multiset.cons_add]
    exact h.files.setProc p x
  opened := by
    rw [descriptors_setProc hofile]
    exact h.opened
  dirs := by
    rw [cwds_take hp hx]
    intro iq hiq
    obtain rfl | hiq := Multiset.mem_cons.mp hiq
    · exact hdir
    · exact h.dirs iq hiq

/-- The directory of a process becomes a reference of the call. -/
theorem drop_cwd (h : Counted sb R C σ) (hp : (σ.proc p).cwd = some ip)
    (hofile : x.ofile = (σ.proc p).ofile) (hx : x.cwd = none) :
    Counted sb R (ip ::ₘ C) (σ.setProc p x) where
  files := by
    rw [descriptors_setProc hofile, Multiset.cons_add, ← Multiset.add_cons, ← cwds_drop hp hx]
    exact h.files.setProc p x
  opened := by
    rw [descriptors_setProc hofile]
    exact h.opened
  dirs iq hiq := by
    apply h.dirs iq
    rw [cwds_drop hp hx]
    exact Multiset.mem_cons_of_mem hiq

/-- `filedup` of what a descriptor stands for gives the call a reference. -/
theorem filedup (h : Counted sb R C σ) (hf : f ∈ descriptors σ) (err : CallPanic → Prop) :
    Lib.Ensures (Fs.filedup σ f) err fun τ ↦ Counted sb (f ::ₘ R) C τ ∧ τ.proc = σ.proc ∧
      τ.fs = σ.fs ∧ (τ.file f).type ≠ .FD_NONE := by
  have hmem : f ∈ R + descriptors σ := Multiset.mem_add.mpr (Or.inr hf)
  apply (filedup_spec h.files hmem err).imp
  rintro τ ⟨ht, hframe, hfs⟩
  rw [← Multiset.cons_add] at ht
  refine ⟨h.frame ht hframe.right, hframe.proc, hfs, ?_⟩
  rw [hframe.file f hmem]
  exact h.opened f hf

/-- `fileclose` of a reference of the call. -/
theorem fileclose (h : Counted sb (f ::ₘ R) C σ) (err : CallPanic → Prop) :
    Lib.Ensures (Fs.fileclose sb σ f) err fun τ ↦ Counted sb R C τ ∧ τ.proc = σ.proc := by
  have hfiles := h.files
  rw [Multiset.cons_add] at hfiles
  apply (fileclose_spec hfiles err).imp
  rintro τ ⟨ht, hf⟩
  exact ⟨h.frame ht hf.right, hf.proc⟩

/-- `iput` of a reference of the call. -/
theorem iput (h : Counted sb R (ip ::ₘ C) σ) (err : CallPanic → Prop) :
    Lib.Ensures ((Fs.iput sb σ.fs ip).mapError fun e ↦ CallPanic.dir (.fs e)) err fun s ↦
      Counted sb R C { σ with fs := s } := by
  have hi := h.intact
  rw [Multiset.cons_add] at hi
  apply (Lib.Ensures.mapError_iff.mpr (hi.iput_keeps _)).imp
  rintro s ⟨hs, hk⟩
  exact h.setFs C hs (hk.mono fun _ hip ↦ Multiset.mem_add.mpr (Or.inr hip))

/-- `filealloc` gives the call a reference to a file that holds nothing. -/
theorem filealloc (h : Counted sb R C σ) (ha : Fs.filealloc σ = some (τ, f)) :
    Counted sb (f ::ₘ R) C τ ∧ τ.proc = σ.proc ∧ τ.fs = σ.fs ∧ τ.pipe = σ.pipe ∧
      f ∉ R + descriptors σ ∧ (τ.file f).type = .FD_NONE ∧
      ∀ f', f' ≠ f → τ.file f' = σ.file f' := by
  obtain ⟨ht, hf, hpipe, hnot, hnone, hothers⟩ := filealloc_spec h.files ha
  rw [← Multiset.cons_add] at ht
  refine ⟨h.frame ht hf.right, hf.proc, ?_, hpipe, hnot, hnone, hothers⟩
  obtain ⟨f', -, hpair⟩ := Option.map_eq_some_iff.mp ha
  cases hpair
  rfl

/-- A file of the call takes over a reference of the call to an inode. -/
theorem install (h : Counted sb (f ::ₘ R) (ip ::ₘ C) σ) (hf : f ∉ descriptors σ)
    (hnone : (σ.file f).type = .FD_NONE) {g : OpenFile} (htype : g.type = .FD_INODE)
    (hip : g.ip = ip) (href : g.ref = (σ.file f).ref) (hdir : g.writable = true → ∀ nd,
      view sb σ.fs.blocks (σ.fs.icache ip).inum = some nd → nd.type ≠ T_DIR) :
    Counted sb (f ::ₘ R) C (σ.setFile f g) := by
  have hfiles := h.files
  rw [Multiset.cons_add ip] at hfiles
  have hmem : f ∈ f ::ₘ R + descriptors σ := by
    rw [Multiset.cons_add]
    exact Multiset.mem_cons_self f _
  refine h.frame (hfiles.install hnone hmem htype hip href hdir)
    ⟨rfl, fun f' hf' ↦ ?_, Keeps.refl _ _ _⟩
  have hne : f' ≠ f := by
    rintro rfl
    exact hf hf'
  show (update σ.file f g f').type = _
  rw [update_of_ne hne]

/-- Two files of the call take the ends of a new pipe. -/
theorem install_pipe {f₀ f₁ : Fin NFILE} (h : Counted sb (f₁ ::ₘ f₀ ::ₘ R) C σ) (hne : f₀ ≠ f₁)
    (hf₀ : f₀ ∉ descriptors σ) (hf₁ : f₁ ∉ descriptors σ) (h₀ : (σ.file f₀).type = .FD_NONE)
    (h₁ : (σ.file f₁).type = .FD_NONE) {q : Nat} (hq : σ.pipe q = none) (g₀ g₁ : OpenFile)
    (hg₀ : g₀.type = .FD_PIPE ∧ g₀.pipe = q ∧ g₀.writable = false ∧ g₀.ref = (σ.file f₀).ref)
    (hg₁ : g₁.type = .FD_PIPE ∧ g₁.pipe = q ∧ g₁.writable = true ∧ g₁.ref = (σ.file f₁).ref) :
    Counted sb (f₁ ::ₘ f₀ ::ₘ R) C { σ with
      file := update (update σ.file f₀ g₀) f₁ g₁
      pipe := update σ.pipe q (some ⟨true, true⟩) } := by
  have hm₁ : f₁ ∈ f₁ ::ₘ f₀ ::ₘ R + descriptors σ := by
    rw [Multiset.cons_add]
    exact Multiset.mem_cons_self _ _
  have hm₀ : f₀ ∈ f₁ ::ₘ f₀ ::ₘ R + descriptors σ := by
    rw [Multiset.cons_add, Multiset.cons_add]
    exact Multiset.mem_cons_of_mem (Multiset.mem_cons_self _ _)
  refine h.frame (h.files.install_pipe hne h₀ h₁ hm₀ hm₁ hq hg₀ hg₁)
    ⟨rfl, fun f' hf' ↦ ?_, Keeps.refl _ _ _⟩
  have hne₀ : f' ≠ f₀ := by
    rintro rfl
    exact hf₀ hf'
  have hne₁ : f' ≠ f₁ := by
    rintro rfl
    exact hf₁ hf'
  show (update (update σ.file f₀ g₀) f₁ g₁ f').type = _
  rw [update_of_ne hne₁, update_of_ne hne₀]

end Counted

end

end Xv6.Fs
