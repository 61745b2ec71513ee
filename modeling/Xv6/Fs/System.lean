import Xv6.Fs.Descriptors

/-!
# Runs of system calls

Whatever calls the processes make, in any order, all references are counted, the directories form
a tree, and what has no name is there only while it is held.
-/

namespace Xv6.Fs

open Function

open Mkfs (DIRSIZ T_DIR T_FILE ROOTINO)

/-- A process that is there has a directory; a slot without one has neither files nor
directory. -/
structure ProcOk (x : Proc) : Prop where
  live : x.live = true → ∃ cwd, x.cwd = some cwd
  dead : x.live = false → x.cwd = none ∧ ∀ fd, x.ofile fd = none

/-- The invariant between calls. -/
structure Sound (sb : Superblock) (σ : System) : Prop where
  counted : Counted sb 0 0 σ
  procs : ∀ p, ProcOk (σ.proc p)

/-- Nothing but the descriptors of process `p` differs between the processes. -/
structure OnlyFiles (p : Fin NPROC) (σ τ : System) : Prop where
  others : ∀ q, q ≠ p → τ.proc q = σ.proc q
  live : (τ.proc p).live = (σ.proc p).live
  cwd : (τ.proc p).cwd = (σ.proc p).cwd

/-- The path starts at a directory with links, for process `p`. -/
def Walkable (sb : Superblock) (σ : System) (p : Fin NPROC) (path : CString) : Prop :=
  ∀ cwd, (σ.proc p).cwd = some cwd → Attached sb σ.fs cwd path

/-- What a process that makes a call sees to, and what `allocproc` and `kalloc` do: relative paths
start at a directory that has not been removed, no link count is at its limit, `init` does not
exit, a new process gets a free slot, and a new pipe a page that is not a pipe. -/
def Permitted (sb : Superblock) (σ : System) (p : Fin NPROC) : SysCall → Prop
  | .open path _ => Walkable sb σ p path ∧ Roomy (view sb σ.fs.blocks)
  | .link old new => Walkable sb σ p old ∧ Walkable sb σ p new ∧ Roomy (view sb σ.fs.blocks)
  | .unlink path => Walkable sb σ p path
  | .mkdir path => Walkable sb σ p path ∧ Roomy (view sb σ.fs.blocks)
  | .mknod path _ _ => Walkable sb σ p path ∧ Roomy (view sb σ.fs.blocks)
  | .chdir path => Walkable sb σ p path
  | .pipe page => ∀ q, page = some q → σ.pipe q = none
  | .fork child => ∀ np, child = some np → (σ.proc np).live = false
  | .exit => p ≠ initproc
  | _ => True

/-- How calls may fail to return: in a panic since a table, the disk or a directory is full, or a
device has taken a part only of what it was to write; or the process waits for itself in a link
whose new name is that of the directory. -/
def Stops : CallPanic → Prop
  | .dir e => Halts e
  | .file e => WriteStops e
  | _ => False

section

variable {sb : Superblock} {dev : Devsw} {pipes : Pipes} {σ τ υ : System} {p : Fin NPROC}
  {f : Fin NFILE} {fd : Fin NOFILE} {name : Nat → UInt8}

namespace OnlyFiles

theorem of_proc (h : τ.proc = σ.proc) : OnlyFiles p σ τ := by
  constructor <;> simp [h]

theorem trans (h : OnlyFiles p σ τ) (h' : OnlyFiles p τ υ) : OnlyFiles p σ υ where
  others q hq := (h'.others q hq).trans (h.others q hq)
  live := h'.live.trans h.live
  cwd := h'.cwd.trans h.cwd

theorem setFd (σ : System) (p : Fin NPROC) (fd : Fin NOFILE) (o : Option (Fin NFILE)) :
    OnlyFiles p σ (σ.setFd p fd o) where
  others _ hq := update_of_ne hq _ _
  live := by
    show (update σ.proc p _ p).live = _
    rw [update_self]
  cwd := by
    show (update σ.proc p _ p).cwd = _
    rw [update_self]

end OnlyFiles

/-- What a descriptor stands for after it has been set. -/
theorem ofile_setFd (σ : System) (p : Fin NPROC) (fd fd' : Fin NOFILE)
    (o : Option (Fin NFILE)) : ((σ.setFd p fd o).proc p).ofile fd' =
      if fd' = fd then o else (σ.proc p).ofile fd' := by
  show (update σ.proc p _ p).ofile fd' = _
  rw [update_self]
  show update (σ.proc p).ofile fd o fd' = _
  by_cases he : fd' = fd
  · rw [he, update_self, if_pos rfl]
  · rw [update_of_ne he, if_neg he]

namespace Sound

/-- A call that does not touch the processes. -/
theorem of_proc (h : Sound sb σ) (ht : Counted sb 0 0 τ) (hp : τ.proc = σ.proc) : Sound sb τ :=
  ⟨ht, fun q ↦ by rw [hp]; exact h.procs q⟩

/-- A call that changes the descriptors of a process only. -/
theorem of_files (h : Sound sb σ) (hp : (σ.proc p).live = true) (ht : Counted sb 0 0 τ)
    (ho : OnlyFiles p σ τ) : Sound sb τ := by
  refine ⟨ht, fun q ↦ ?_⟩
  by_cases hq : q = p
  · subst hq
    obtain ⟨cwd, hc⟩ := (h.procs q).live hp
    refine ⟨fun _ ↦ ⟨cwd, ho.cwd.trans hc⟩, fun hd ↦ ?_⟩
    rw [ho.live, hp] at hd
    cases hd
  · rw [ho.others q hq]
    exact h.procs q

/-- The directory of a process that makes a call. -/
theorem cwd (h : Sound sb σ) (hp : (σ.proc p).live = true) :
    ∃ cwd, (σ.proc p).cwd = some cwd ∧ cwdOf σ p = .ok cwd := by
  obtain ⟨cwd, hc⟩ := (h.procs p).live hp
  exact ⟨cwd, hc, by rw [cwdOf, hc]⟩

/-- The file system between calls. -/
theorem intact (h : Sound sb σ) : Intact sb (Counted.inodes σ) σ.fs := by
  have hi := h.counted.intact
  rwa [zero_add] at hi

theorem mem_inodes {cwd : Slot} (hc : (σ.proc p).cwd = some cwd) : cwd ∈ Counted.inodes σ :=
  Multiset.mem_add.mpr (Or.inr (mem_cwds hc))

end Sound

/-- Stepping over a value that is there. -/
private theorem ensures_of_eq {α : Type} {x : Except CallPanic α} {a : α} (h : x = .ok a)
    (err : CallPanic → Prop) : Lib.Ensures x err (· = a) := by
  rw [h]
  rfl

/-! ### Calls on descriptors -/

theorem sys_dup_sound (h : Sound sb σ) (hp : (σ.proc p).live = true) (n : Int32) :
    Lib.Ensures (sys_dup σ p n) Stops fun r ↦ Sound sb r.1 := by
  unfold sys_dup
  split
  · exact h
  · next fd₀ f hfd =>
    split
    · exact h
    · next x fd hx =>
      obtain ⟨hnone, rfl⟩ := fdalloc_eq_some hx
      have hdup := h.counted.filedup (mem_descriptors (argfd_eq_some hfd)) Stops
      have hset : Lib.Ensures (filedup (σ.setFd p fd (some f)) f) Stops fun τ ↦
          Counted sb 0 0 τ ∧ OnlyFiles p σ τ := by
        rw [System.setFd, filedup_setProc]
        apply Lib.Ensures.map_iff.mpr
        apply hdup.imp
        rintro τ ⟨hτ, hproc, -, ht⟩
        have hτnone : (τ.proc p).ofile fd = none := by rw [hproc, hnone]
        have htake := hτ.take_fd hτnone ht
        have honly : OnlyFiles p σ τ := .of_proc hproc
        rw [← hproc]
        exact ⟨htake, honly.trans (.setFd τ p fd (some f))⟩
      apply Lib.Ensures.bind hset
      rintro τ ⟨hτ, honly⟩
      exact h.of_files hp hτ honly

theorem sys_close_sound (h : Sound sb σ) (hp : (σ.proc p).live = true) (n : Int32) :
    Lib.Ensures (sys_close sb σ p n) Stops fun r ↦ Sound sb r.1 := by
  unfold sys_close
  split
  · exact h
  · next fd f hfd =>
    have hdrop := h.counted.drop_fd (argfd_eq_some hfd)
    apply Lib.Ensures.bind (hdrop.fileclose Stops)
    rintro τ ⟨ht, hproc⟩
    exact h.of_files hp ht ((OnlyFiles.setFd σ p fd none).trans (.of_proc hproc))

/-- Reading and writing change the offset of a file and what is in the file system. -/
theorem onFile_sound {α : Type} (h : Sound sb σ) (n : Int32)
    {op : State → File → Except FilePanic (State × File × Option α)}
    (hop : ∀ f ∈ descriptors σ, Lib.Ensures (op σ.fs (σ.file f).toFile) WriteStops fun r ↦
      Intact sb (Counted.inodes σ) r.1 ∧ Keeps sb (Counted.inodes σ) σ.fs r.1 ∧
        SameFile (σ.file f).toFile r.2.1) :
    Lib.Ensures (onFile σ p n op) Stops fun r ↦ Sound sb r.1 := by
  unfold onFile
  split
  · exact h
  · next fd f hfd =>
    have hmem := mem_descriptors (argfd_eq_some hfd)
    have hcall : Lib.Ensures ((op σ.fs (σ.file f).toFile).mapError CallPanic.file) Stops _ :=
      Lib.Ensures.mapError_iff.mpr (hop f hmem)
    apply Lib.Ensures.bind hcall
    rintro ⟨s, g, r⟩ ⟨hs, hk, hg⟩
    dsimp only at hs hk hg ⊢
    have hfs := h.counted.setFs 0 (by rwa [zero_add]) hk
    rw [hg]
    have hfiles : Files sb (0 + descriptors σ) (0 + cwds σ) (System.setFile { σ with fs := s } f
        { σ.file f with off := g.off }) :=
      hfs.files.setFile (hfs.files.count f) (fun _ _ ↦ rfl) (hfs.files.closed f) rfl rfl rfl rfl
    refine h.of_proc (hfs.frame hfiles ⟨rfl, fun f' _ ↦ ?_, Keeps.refl _ _ _⟩) rfl
    show (update σ.file f _ f').type = (σ.file f').type
    by_cases he : f' = f
    · rw [he, update_self]
    · rw [update_of_ne he]

/-- What a descriptor stands for can be read. -/
private theorem held_of_type (ht : (σ.file f).type = .FD_INODE) :
    (σ.file f).ip ∈ Counted.inodes σ :=
  Multiset.mem_add.mpr (Or.inl (Files.mem_inode ht))

theorem sys_read_sound (dev : Devsw) (pipes : Pipes) (h : Sound sb σ) (fd n : Int32) :
    Lib.Ensures (sys_read sb dev pipes σ p fd n) Stops fun r ↦ Sound sb r.1 := by
  apply onFile_sound h
  intro f hf
  exact fileread_keeps dev pipes h.intact (h.counted.opened f hf) held_of_type n _

theorem sys_pread_sound (dev : Devsw) (pipes : Pipes) (h : Sound sb σ) (fd n off : Int32) :
    Lib.Ensures (sys_pread sb dev pipes σ p fd n off) Stops fun r ↦ Sound sb r.1 := by
  apply onFile_sound h
  intro f hf
  exact filepread_keeps dev pipes h.intact (h.counted.opened f hf) held_of_type n off _

theorem sys_write_sound (dev : Devsw) (pipes : Pipes) (h : Sound sb σ) (fd : Int32)
    (addr : Nat → UInt8) (n : Int32) :
    Lib.Ensures (sys_write sb dev pipes σ p fd addr n) Stops fun r ↦ Sound sb r.1 := by
  apply onFile_sound h
  intro f hf
  exact filewrite_keeps dev pipes h.intact (h.counted.opened f hf) held_of_type
    (h.counted.files.readonly f) addr n

theorem sys_pwrite_sound (dev : Devsw) (pipes : Pipes) (h : Sound sb σ) (fd : Int32)
    (addr : Nat → UInt8) (n off : Int32) :
    Lib.Ensures (sys_pwrite sb dev pipes σ p fd addr n off) Stops fun r ↦ Sound sb r.1 := by
  apply onFile_sound h
  intro f hf
  exact filepwrite_keeps dev pipes h.intact (h.counted.opened f hf) held_of_type
    (h.counted.files.readonly f) addr n off

/-! ### Calls on paths -/

theorem onPath_sound (h : Sound sb σ) (hp : (σ.proc p).live = true)
    (op : State → Slot → Except DirPanic (State × Int))
    (hop : ∀ cwd, (σ.proc p).cwd = some cwd → Lib.Ensures (op σ.fs cwd) Halts fun r ↦
      Intact sb (Counted.inodes σ) r.1 ∧ Keeps sb (Counted.inodes σ) σ.fs r.1) :
    Lib.Ensures (onPath σ p op) Stops fun r ↦ Sound sb r.1 := by
  obtain ⟨cwd, hc, hcwd⟩ := h.cwd hp
  apply Lib.Ensures.bind (ensures_of_eq hcwd Stops)
  rintro cwd rfl
  have hcall : Lib.Ensures ((op σ.fs cwd).mapError CallPanic.dir) Stops _ :=
    Lib.Ensures.mapError_iff.mpr (hop cwd hc)
  apply Lib.Ensures.bind hcall
  rintro ⟨s, r⟩ ⟨hs, hk⟩
  exact h.of_proc (h.counted.setFs 0 (by rwa [zero_add]) hk) rfl

theorem chdir_sound (dev : Devsw) (h : Sound sb σ) (hp : (σ.proc p).live = true) {path : CString}
    (ha : Walkable sb σ p path) (name : Nat → UInt8) :
    Lib.Ensures (chdir sb dev σ p path name) Stops fun r ↦ Sound sb r.1 := by
  obtain ⟨cwd, hc, hcwd⟩ := h.cwd hp
  apply Lib.Ensures.bind (ensures_of_eq hcwd Stops)
  rintro cwd rfl
  have hnone : ({ σ.proc p with cwd := none } : Proc).cwd = none := rfl
  have hdrop := h.counted.drop_cwd hc (x := { σ.proc p with cwd := none }) rfl hnone
  have hintact := hdrop.intact
  rw [Multiset.cons_add, zero_add] at hintact
  have hkeeps := sys_chdir_keeps dev hintact (ha cwd hc)
    (h.counted.dirs cwd (mem_cwds hc)) name
  have hcall : Lib.Ensures ((sys_chdir sb dev σ.fs cwd path name).mapError CallPanic.dir) Stops _ :=
    Lib.Ensures.mapError_iff.mpr (hkeeps.mono (fun _ hr ↦ hr) fun _ ↦ Halts.of_full)
  apply Lib.Ensures.bind hcall
  rintro ⟨s, cwd', r⟩ ⟨hs, hk, hdir⟩
  dsimp only at hs hk hdir ⊢
  have hfs := hdrop.setFs (cwd' ::ₘ 0) (by rwa [Multiset.cons_add, zero_add]) hk
  have hself : (({ σ.setProc p { σ.proc p with cwd := none } with fs := s } : System).proc p).cwd =
      none := by
    show (update σ.proc p _ p).cwd = none
    rw [update_self]
  have hofile : (σ.proc p).ofile =
      (({ σ.setProc p { σ.proc p with cwd := none } with fs := s } : System).proc p).ofile := by
    show _ = (update σ.proc p _ p).ofile
    rw [update_self]
  have hτ := hfs.take_cwd (x := { σ.proc p with cwd := some cwd' }) hself hofile rfl hdir
  have heq : System.setProc { σ with fs := s } p { σ.proc p with cwd := some cwd' } =
      System.setProc { σ.setProc p { σ.proc p with cwd := none } with fs := s } p
        { σ.proc p with cwd := some cwd' } := by
    show ({ σ with fs := s, proc := update σ.proc p _ } : System) =
      { σ with fs := s, proc := update (update σ.proc p _) p _ }
    rw [update_idem]
  rw [heq]
  refine ⟨hτ, fun q ↦ ?_⟩
  rw [← heq]
  show ProcOk (update σ.proc p _ q)
  by_cases hq : q = p
  · rw [hq, update_self]
    refine ⟨fun _ ↦ ⟨cwd', rfl⟩, fun hd ↦ ?_⟩
    have hd' : (σ.proc p).live = false := hd
    rw [hp] at hd'
    cases hd'
  · rw [update_of_ne hq]
    exact h.procs q

/-- A new descriptor is not one for what is open already. -/
private theorem not_descriptor {R : Multiset (Fin NFILE)} (hnot : f ∉ R + descriptors σ)
    (hproc : τ.proc = σ.proc) : f ∉ descriptors τ := by
  rw [descriptors, hproc, ← descriptors]
  exact fun hm ↦ hnot (Multiset.mem_add.mpr (Or.inr hm))

theorem sys_open_sound (dev : Devsw) (hsmall : sb.ninodes ≤ 65536) (h : Sound sb σ)
    (hp : (σ.proc p).live = true) {path : CString} (ha : Walkable sb σ p path)
    (hroom : Roomy (view sb σ.fs.blocks)) (omode : UInt32) (name : Nat → UInt8) :
    Lib.Ensures (sys_open sb dev σ p path omode name) Stops fun r ↦ Sound sb r.1 := by
  obtain ⟨cwd, hc, hcwd⟩ := h.cwd hp
  apply Lib.Ensures.bind (ensures_of_eq hcwd Stops)
  rintro cwd rfl
  have hopen := openInode_keeps dev hsmall h.intact (Sound.mem_inodes hc) (ha cwd hc) hroom omode
    name
  have hcall : Lib.Ensures ((openInode sb dev σ.fs cwd path omode name).mapError CallPanic.dir)
      Stops _ := Lib.Ensures.mapError_iff.mpr (hopen.mono (fun _ hr ↦ hr) fun _ ↦ Halts.of_full)
  apply Lib.Ensures.bind hcall
  rintro ⟨s, r⟩ ⟨hk, hnone, hsome⟩
  dsimp only at hk hnone hsome ⊢
  cases r with
  | none => exact h.of_proc (h.counted.setFs 0 (by rw [zero_add]; exact hnone rfl) hk) rfl
  | some ip =>
    obtain ⟨hs, hmode⟩ := hsome ip rfl
    have hfs := h.counted.setFs (ip ::ₘ 0) (by rwa [Multiset.cons_add, zero_add]) hk
    dsimp only
    split
    · apply Lib.Ensures.bind (hfs.iput Stops)
      rintro t ht
      exact h.of_proc ht rfl
    · next τ f hf =>
      obtain ⟨hτ, hproc, hτfs, -, hnot, hfnone, -⟩ := hfs.filealloc hf
      split
      · apply Lib.Ensures.bind (hτ.fileclose Stops)
        rintro υ ⟨hυ, hυproc⟩
        apply Lib.Ensures.bind (hυ.iput Stops)
        rintro t ht
        exact h.of_proc ht (hυproc.trans hproc)
      · next x fd hx =>
        obtain ⟨hfd, rfl⟩ := fdalloc_eq_some hx
        have hin := hτ.install (not_descriptor hnot hproc) hfnone (g := { τ.file f with
          type := .FD_INODE
          ip
          off := 0
          readable := decide (omode &&& O_WRONLY = 0)
          writable := decide (omode &&& O_WRONLY ≠ 0 ∨ omode &&& O_RDWR ≠ 0) }) rfl rfl rfl (by
            intro hw nd hnd hdir
            rw [hτfs] at hnd
            rw [hmode nd hnd hdir] at hw
            have hw' : decide (O_RDONLY &&& O_WRONLY ≠ 0 ∨ O_RDONLY &&& O_RDWR ≠ 0) = true := hw
            exact absurd hw' (by decide))
        have hopened : ((τ.setFile f { τ.file f with
            type := .FD_INODE
            ip
            off := 0
            readable := decide (omode &&& O_WRONLY = 0)
            writable := decide (omode &&& O_WRONLY ≠ 0 ∨ omode &&& O_RDWR ≠ 0) }).file f).type ≠
              .FD_NONE := by
          show (update τ.file f _ f).type ≠ _
          rw [update_self]
          exact fun hc ↦ by cases hc
        have hlast := hin.take_fd hfd hopened
        have hfirst : OnlyFiles p σ τ := .of_proc hproc
        have hsecond := hfirst.trans (OnlyFiles.setFd τ p fd (some f))
        exact h.of_files hp hlast ⟨hsecond.others, hsecond.live, hsecond.cwd⟩

theorem sys_pipe_sound (h : Sound sb σ) (hp : (σ.proc p).live = true) {page : Option Nat}
    (hpage : ∀ q, page = some q → σ.pipe q = none) :
    Lib.Ensures (sys_pipe sb σ p page) Stops fun r ↦ Sound sb r.1 := by
  -- what `pipealloc` has done
  have halloc : Lib.Ensures (pipealloc sb σ page) Stops fun r ↦ r.1.proc = σ.proc ∧
      (r.2 = none → Counted sb 0 0 r.1) ∧ ∀ f₀ f₁, r.2 = some (f₀, f₁) →
        Counted sb (f₁ ::ₘ f₀ ::ₘ 0) 0 r.1 ∧ (r.1.file f₀).type ≠ .FD_NONE ∧
          (r.1.file f₁).type ≠ .FD_NONE := by
    unfold pipealloc
    split
    · exact ⟨rfl, fun _ ↦ h.counted, fun _ _ hc ↦ by cases hc⟩
    · next τ f₀ hf₀ =>
      obtain ⟨hτ, hproc, -, hpipe, hnot, hnone₀, -⟩ := h.counted.filealloc hf₀
      split
      · apply Lib.Ensures.bind (hτ.fileclose Stops)
        rintro υ ⟨hυ, hυproc⟩
        exact ⟨hυproc.trans hproc, fun _ ↦ hυ, fun _ _ hc ↦ by cases hc⟩
      · next υ f₁ hf₁ =>
        obtain ⟨hυ, hυproc, -, hυpipe, hnot₁, hnone₁, hothers⟩ := hτ.filealloc hf₁
        have hne : f₀ ≠ f₁ := by
          rintro rfl
          exact hnot₁ (Multiset.mem_add.mpr (Or.inl (Multiset.mem_cons_self _ _)))
        have hproc' := hυproc.trans hproc
        cases page with
        | none =>
          dsimp only
          rw [Multiset.cons_swap] at hυ
          apply Lib.Ensures.bind (hυ.fileclose Stops)
          rintro υ' ⟨hυ', hυproc'⟩
          apply Lib.Ensures.bind (hυ'.fileclose Stops)
          rintro ω ⟨hω, hωproc⟩
          exact ⟨hωproc.trans (hυproc'.trans hproc'), fun _ ↦ hω, fun _ _ hc ↦ by cases hc⟩
        | some q =>
          have hq : υ.pipe q = none := by rw [hυpipe, hpipe, hpage q rfl]
          have hnone₀' : (υ.file f₀).type = .FD_NONE := by rw [hothers f₀ hne, hnone₀]
          refine ⟨hproc', fun hc ↦ (by cases hc), fun f₀' f₁' hr ↦ ?_⟩
          cases hr
          have hin := hυ.install_pipe hne (not_descriptor hnot hproc')
            (not_descriptor hnot₁ hυproc) hnone₀' hnone₁ hq
            { υ.file f₀ with type := .FD_PIPE, readable := true, writable := false, pipe := q }
            { update υ.file f₀ { υ.file f₀ with
                type := .FD_PIPE
                readable := true
                writable := false
                pipe := q } f₁ with
              type := .FD_PIPE, readable := false, writable := true, pipe := q }
            ⟨rfl, rfl, rfl, rfl⟩ ⟨rfl, rfl, rfl, by rw [update_of_ne hne.symm]⟩
          refine ⟨hin, ?_, ?_⟩
          · show (update (update υ.file f₀ _) f₁ _ f₀).type ≠ _
            rw [update_of_ne hne, update_self]
            exact fun hc ↦ by cases hc
          · show (update (update υ.file f₀ _) f₁ _ f₁).type ≠ _
            rw [update_self]
            exact fun hc ↦ by cases hc
  apply Lib.Ensures.bind halloc
  rintro ⟨τ, r⟩ ⟨hproc, hnone, hsome⟩
  dsimp only at hproc hnone hsome ⊢
  cases r with
  | none => exact h.of_proc (hnone rfl) hproc
  | some r =>
    obtain ⟨f₀, f₁⟩ := r
    obtain ⟨hτ, ht₀, ht₁⟩ := hsome f₀ f₁ rfl
    rw [Multiset.cons_swap] at hτ
    have hfirst : OnlyFiles p σ τ := .of_proc hproc
    dsimp only
    split
    · apply Lib.Ensures.bind (hτ.fileclose Stops)
      rintro υ ⟨hυ, hυproc⟩
      apply Lib.Ensures.bind (hυ.fileclose Stops)
      rintro ω ⟨hω, hωproc⟩
      exact h.of_proc hω (hωproc.trans (hυproc.trans hproc))
    · next x fd₀ hx =>
      obtain ⟨hfd₀, rfl⟩ := fdalloc_eq_some hx
      have htake := hτ.take_fd hfd₀ ht₀
      have hsecond := hfirst.trans (OnlyFiles.setFd τ p fd₀ (some f₀))
      have hself : ((τ.setFd p fd₀ (some f₀)).proc p).ofile fd₀ = some f₀ := by
        rw [ofile_setFd, if_pos rfl]
      split
      · apply Lib.Ensures.bind ((htake.drop_fd hself).fileclose Stops)
        rintro υ ⟨hυ, hυproc⟩
        apply Lib.Ensures.bind (hυ.fileclose Stops)
        rintro ω ⟨hω, hωproc⟩
        have hthird := hsecond.trans (OnlyFiles.setFd _ p fd₀ none)
        exact h.of_files hp hω (hthird.trans (.of_proc (hωproc.trans hυproc)))
      · next y fd₁ hy =>
        obtain ⟨hfd₁, rfl⟩ := fdalloc_eq_some hy
        have hproc₁ : (τ.setFd p fd₀ (some f₀)).proc p =
            { τ.proc p with ofile := update (τ.proc p).ofile fd₀ (some f₀) } := update_self _ _ _
        have hfd₁' : ((τ.setFd p fd₀ (some f₀)).proc p).ofile fd₁ = none := by
          rw [hproc₁]
          exact hfd₁
        have hlast := htake.take_fd hfd₁' ht₁
        have heq : (τ.setFd p fd₀ (some f₀)).setFd p fd₁ (some f₁) = τ.setProc p { τ.proc p with
            ofile := update (update (τ.proc p).ofile fd₀ (some f₀)) fd₁ (some f₁) } := by
          rw [System.setFd, hproc₁]
          show ({ τ with proc := update (update τ.proc p _) p _ } : System) =
            { τ with proc := update τ.proc p _ }
          rw [update_idem]
        have hthird := hsecond.trans (OnlyFiles.setFd _ p fd₁ (some f₁))
        rw [heq] at hlast hthird
        exact h.of_files hp hlast hthird

/-! ### `fork` and `exit` -/

/-- The descriptors that have been copied are those of the parent; each counts. -/
private theorem forkFiles_spec {np : Fin NPROC} (fds : List (Fin NOFILE))
    (hnodup : fds.Nodup) (h : Counted sb 0 0 σ)
    (hnone : ∀ fd ∈ fds, (σ.proc np).ofile fd = none) :
    Lib.Ensures (forkFiles p np σ fds) Stops fun τ ↦
      Counted sb 0 0 τ ∧ OnlyFiles np σ τ ∧ τ.fs = σ.fs := by
  induction fds generalizing σ with
  | nil => exact ⟨h, .of_proc rfl, rfl⟩
  | cons fd fds ih =>
    obtain ⟨hfd, hnodup⟩ := List.nodup_cons.mp hnodup
    unfold forkFiles
    split
    · exact ih hnodup h fun fd' hfd' ↦ hnone fd' (List.mem_cons_of_mem fd hfd')
    · next f hf =>
      have hmem := mem_descriptors hf
      have hfiles := filedup_spec h.files (by rwa [zero_add]) Stops
      apply Lib.Ensures.bind hfiles
      rintro τ ⟨ht, hframe, hfs⟩
      rw [← Multiset.cons_add] at ht
      have hτ : Counted sb (f ::ₘ 0) 0 τ := by
        apply h.frame ht
        rw [zero_add, zero_add] at hframe
        exact hframe
      have hproc := hframe.proc
      have hfree : (τ.proc np).ofile fd = none := by
        rw [hproc]
        exact hnone fd List.mem_cons_self
      have hopened : (τ.file f).type ≠ .FD_NONE := by
        rw [hframe.file f (by rwa [zero_add])]
        exact h.opened f hmem
      have hrest : ∀ fd' ∈ fds, ((τ.setFd np fd (some f)).proc np).ofile fd' = none := by
        intro fd' hfd'
        have hne' : fd' ≠ fd := by
          rintro rfl
          exact hfd hfd'
        rw [ofile_setFd, if_neg hne', hproc]
        exact hnone fd' (List.mem_cons_of_mem fd hfd')
      apply (ih hnodup (hτ.take_fd hfree hopened) hrest).imp
      rintro υ ⟨hυ, honly, hυfs⟩
      have hstep : OnlyFiles np σ τ := .of_proc hproc
      exact ⟨hυ, (hstep.trans (.setFd τ np fd _)).trans honly, hυfs.trans hfs⟩

theorem fork_sound (h : Sound sb σ) (hp : (σ.proc p).live = true) {child : Option (Fin NPROC)}
    (hchild : ∀ np, child = some np → (σ.proc np).live = false) :
    Lib.Ensures (fork σ p child) Stops (Sound sb) := by
  unfold fork
  split
  · exact h
  · next np =>
    have hdead := hchild np rfl
    have hne : np ≠ p := by
      rintro rfl
      rw [hp] at hdead
      cases hdead
    obtain ⟨hnocwd, hnofile⟩ := (h.procs np).dead hdead
    apply Lib.Ensures.bind (forkFiles_spec _ (List.nodup_finRange NOFILE) h.counted
      fun fd _ ↦ hnofile fd)
    rintro τ ⟨hτ, honly, hfs⟩
    obtain ⟨cwd, hc, -⟩ := h.cwd hp
    have hpτ : τ.proc p = σ.proc p := honly.others p hne.symm
    have hc' : (τ.proc p).cwd = some cwd := by rw [hpτ, hc]
    have hcwd : cwdOf τ p = .ok cwd := by rw [cwdOf, hc']
    apply Lib.Ensures.bind (ensures_of_eq hcwd Stops)
    rintro cwd rfl
    -- the directory is that of the parent
    have hintact := hτ.intact
    rw [zero_add] at hintact
    have hmem : cwd ∈ Counted.inodes τ := Sound.mem_inodes hc'
    obtain ⟨hdup, hs, hb, -⟩ := idup_refs hintact.holding hmem
    have hview : view sb (idup τ.fs cwd).blocks = view sb τ.fs.blocks := by rw [hb]
    have hmore := hintact.more hdup hs hview
    have hfork := hτ.setFs (cwd ::ₘ 0) (by rwa [Multiset.cons_add, zero_add])
      (Keeps.of_view hs hview)
    have hfree : (({ τ with fs := idup τ.fs cwd } : System).proc np).cwd = none :=
      honly.cwd.trans hnocwd
    have hlast := hfork.take_cwd (x := { τ.proc np with live := true, cwd := some cwd }) hfree rfl
      rfl (by
        intro nd hnd
        have hinum := (hs cwd hmem).1
        have hnd' : view sb (idup τ.fs cwd).blocks ((idup τ.fs cwd).icache cwd).inum =
          some nd := hnd
        rw [hview, hinum] at hnd'
        exact hτ.dirs cwd (mem_cwds hc') nd hnd')
    refine ⟨hlast, fun q ↦ ?_⟩
    show ProcOk (update τ.proc np _ q)
    by_cases hq : q = np
    · rw [hq, update_self]
      exact ⟨fun _ ↦ ⟨cwd, rfl⟩, fun hd ↦ by cases hd⟩
    · rw [update_of_ne hq, honly.others q hq]
      exact h.procs q

/-- The descriptors that have been closed are free; the others stay. -/
private theorem exitFiles_spec (fds : List (Fin NOFILE)) (h : Counted sb 0 0 σ) :
    Lib.Ensures (exitFiles sb p σ fds) Stops fun τ ↦
      Counted sb 0 0 τ ∧ OnlyFiles p σ τ ∧
        ∀ fd, (τ.proc p).ofile fd = if fd ∈ fds then none else (σ.proc p).ofile fd := by
  induction fds generalizing σ with
  | nil => exact ⟨h, .of_proc rfl, fun fd ↦ (if_neg List.not_mem_nil).symm⟩
  | cons fd fds ih =>
    unfold exitFiles
    split
    · next hnone =>
      apply (ih h).imp
      rintro τ ⟨hτ, honly, hofile⟩
      refine ⟨hτ, honly, fun fd' ↦ ?_⟩
      rw [hofile fd']
      by_cases he : fd' = fd
      · simp [he, hnone]
      · simp [he]
    · next f hf =>
      have hclose := (h.drop_fd hf).fileclose Stops
      rw [System.setFd, fileclose_setProc] at hclose
      have hproc : Lib.Ensures (fileclose sb σ f) Stops fun τ ↦ τ.proc = σ.proc := by
        have hfiles := h.files
        rw [zero_add, descriptors_drop hf] at hfiles
        apply (fileclose_spec hfiles Stops).imp
        exact fun τ hτ ↦ hτ.2.proc
      apply Lib.Ensures.bind ((Lib.Ensures.map_iff.mp hclose).and hproc)
      rintro τ ⟨⟨hτ, -⟩, hproc⟩
      rw [← hproc] at hτ
      have hset : Counted sb 0 0 (τ.setFd p fd none) := hτ
      apply (ih hset).imp
      rintro υ ⟨hυ, honly, hofile⟩
      have hstep : OnlyFiles p σ τ := .of_proc hproc
      refine ⟨hυ, (hstep.trans (.setFd τ p fd none)).trans honly, fun fd' ↦ ?_⟩
      rw [hofile fd', ofile_setFd, hproc]
      by_cases he : fd' = fd
      · simp [he]
      · simp [he]

theorem exit_sound (h : Sound sb σ) (hp : (σ.proc p).live = true) (hinit : p ≠ initproc) :
    Lib.Ensures (exit sb σ p) Stops (Sound sb) := by
  unfold exit
  rw [if_neg hinit]
  apply Lib.Ensures.bind (exitFiles_spec (List.finRange NOFILE) h.counted)
  rintro τ ⟨hτ, honly, hofile⟩
  obtain ⟨cwd, hc, -⟩ := h.cwd hp
  have hc' : (τ.proc p).cwd = some cwd := honly.cwd.trans hc
  have hcwd : cwdOf τ p = .ok cwd := by rw [cwdOf, hc']
  apply Lib.Ensures.bind (ensures_of_eq hcwd Stops)
  rintro cwd rfl
  have hdrop := hτ.drop_cwd hc' (x := { τ.proc p with live := false, cwd := none }) rfl rfl
  apply Lib.Ensures.bind (hdrop.iput Stops)
  rintro s hs
  refine ⟨hs, fun q ↦ ?_⟩
  show ProcOk (update τ.proc p _ q)
  by_cases hq : q = p
  · rw [hq, update_self]
    refine ⟨fun hl ↦ (by cases hl), fun _ ↦ ⟨rfl, fun fd ↦ ?_⟩⟩
    show (τ.proc p).ofile fd = none
    rw [hofile fd, if_pos (List.mem_finRange fd)]
  · rw [update_of_ne hq, honly.others q hq]
    exact h.procs q

/-! ### Runs -/

/-- Every call keeps the invariant, or fails to return in one of the ways listed. -/
theorem sysStep_sound (dev : Devsw) (pipes : Pipes) (hsmall : sb.ninodes ≤ 65536)
    (h : Sound sb σ) (hp : (σ.proc p).live = true) {c : SysCall} (hc : Permitted sb σ p c)
    (name : Nat → UInt8) :
    Lib.Ensures (sysStep sb dev pipes σ p name c) Stops (Sound sb) := by
  cases c with
  | «open» path omode =>
    exact (sys_open_sound dev hsmall h hp hc.1 hc.2 omode name).bind fun r hr ↦ hr
  | close fd => exact (sys_close_sound h hp fd).bind fun r hr ↦ hr
  | dup fd => exact (sys_dup_sound h hp fd).bind fun r hr ↦ hr
  | read fd n => exact (sys_read_sound dev pipes h fd n).bind fun r hr ↦ hr
  | write fd addr n => exact (sys_write_sound dev pipes h fd addr n).bind fun r hr ↦ hr
  | pread fd n off => exact (sys_pread_sound dev pipes h fd n off).bind fun r hr ↦ hr
  | pwrite fd addr n off => exact (sys_pwrite_sound dev pipes h fd addr n off).bind fun r hr ↦ hr
  | pipe page => exact (sys_pipe_sound h hp hc).bind fun r hr ↦ hr
  | link old new =>
    have hlink := onPath_sound h hp (fun s cwd ↦ sys_link sb dev s cwd old new name)
      fun cwd hcwd ↦ sys_link_keeps dev hsmall h.intact (Sound.mem_inodes hcwd) (hc.1 cwd hcwd)
        (hc.2.1 cwd hcwd) hc.2.2 name
    exact hlink.bind fun r hr ↦ hr
  | unlink path =>
    have hunlink := onPath_sound h hp (fun s cwd ↦ sys_unlink sb dev s cwd path name)
      fun cwd hcwd ↦ (sys_unlink_keeps dev h.intact (Sound.mem_inodes hcwd) (hc cwd hcwd)
        name).mono (fun _ hr ↦ hr) fun _ ↦ Halts.of_full
    exact hunlink.bind fun r hr ↦ hr
  | mkdir path =>
    have hmkdir := onPath_sound h hp (fun s cwd ↦ sys_mkdir sb dev s cwd path name)
      fun cwd hcwd ↦ (sys_mkdir_keeps dev hsmall h.intact (Sound.mem_inodes hcwd)
        (hc.1 cwd hcwd) hc.2 name).mono (fun _ hr ↦ hr) fun _ ↦ Halts.of_full
    exact hmkdir.bind fun r hr ↦ hr
  | mknod path major minor =>
    have hmknod := onPath_sound h hp (fun s cwd ↦ sys_mknod sb dev s cwd path major minor name)
      fun cwd hcwd ↦ (sys_mknod_keeps dev hsmall h.intact (Sound.mem_inodes hcwd)
        (hc.1 cwd hcwd) hc.2 major minor name).mono (fun _ hr ↦ hr) fun _ ↦ Halts.of_full
    exact hmknod.bind fun r hr ↦ hr
  | chdir path => exact (chdir_sound dev h hp hc name).bind fun r hr ↦ hr
  | fork child => exact fork_sound h hp hc
  | exit => exact exit_sound h hp hc

end

end Xv6.Fs
