import Xv6.Fs.OpenFiles

/-!
# References to open files

The table of open files while references `R` to files are held, and references `C` to inodes
besides those of the files. Each call on the table is described by what it does to these two.
-/

namespace Xv6.Fs

open Function

open Mkfs (DIRSIZ T_DIR T_FILE ROOTINO)

/-- The reference to an inode that an open file holds. -/
def OpenFile.inode (g : OpenFile) : Multiset Slot := if g.type = .FD_INODE then {g.ip} else 0

/-- The end of a pipe that an open file holds. -/
def OpenFile.pipeEnd (g : OpenFile) : Multiset (Nat × Bool) :=
  if g.type = .FD_PIPE then {(g.pipe, g.writable)} else 0

/-- The end of a pipe is open: the one that is written if `w` is true. -/
def isOpen (o : Option PipeEnds) (w : Bool) : Bool :=
  match o with
  | none => false
  | some e => if w = true then e.writeopen else e.readopen

/-- The ends `E` of pipes are held: each that is open once, and a page is a pipe as long as one of
its ends is open. -/
structure PipesHeld (E : Multiset (Nat × Bool)) (pipe : Nat → Option PipeEnds) : Prop where
  count : ∀ p w, E.count (p, w) = (isOpen (pipe p) w).toNat
  page : ∀ p, pipe p ≠ none → ∃ w, isOpen (pipe p) w = true

/-- `R` refers to the files and `C` to inodes; each is counted, a file that nobody refers to holds
nothing, and no directory can be written. -/
structure Files (sb : Superblock) (R : Multiset (Fin NFILE)) (C : Multiset Slot) (σ : System) :
    Prop where
  intact : Intact sb (Lib.held OpenFile.inode σ.file + C) σ.fs
  count : ∀ f, (σ.file f).ref = R.count f
  closed : ∀ f, (σ.file f).ref = 0 → (σ.file f).type = .FD_NONE
  readonly : ∀ f, (σ.file f).type = .FD_INODE → (σ.file f).writable = true →
    ∀ nd, view sb σ.fs.blocks (σ.fs.icache (σ.file f).ip).inum = some nd → nd.type ≠ T_DIR
  pipes : PipesHeld (Lib.held OpenFile.pipeEnd σ.file) σ.pipe

/-- What a call on files leaves alone: the processes, the files that are still referred to, and
the inodes that are held besides. -/
structure Frame (sb : Superblock) (R : Multiset (Fin NFILE)) (C : Multiset Slot)
    (σ τ : System) : Prop where
  proc : τ.proc = σ.proc
  file : ∀ g ∈ R, (τ.file g).type = (σ.file g).type
  keeps : Keeps sb C σ.fs τ.fs

section

variable {sb : Superblock} {σ τ υ : System} {R R' : Multiset (Fin NFILE)} {C C' : Multiset Slot}
  {f : Fin NFILE} {g : OpenFile} {s : State} {ip : Slot}

namespace Frame

theorem refl (sb : Superblock) (R : Multiset (Fin NFILE)) (C : Multiset Slot) (σ : System) :
    Frame sb R C σ σ :=
  ⟨rfl, fun _ _ ↦ rfl, Keeps.refl sb C σ.fs⟩

theorem trans (h : Frame sb R C σ τ) (h' : Frame sb R C τ υ) : Frame sb R C σ υ where
  proc := h'.proc.trans h.proc
  file g hg := (h'.file g hg).trans (h.file g hg)
  keeps := h.keeps.trans h'.keeps

theorem mono (h : Frame sb R C σ τ) (hR : ∀ f ∈ R', f ∈ R) (hC : ∀ ip ∈ C', ip ∈ C) :
    Frame sb R' C' σ τ :=
  ⟨h.proc, fun g hg ↦ h.file g (hR g hg), h.keeps.mono hC⟩

/-- What leaves alone all that is held does so with a part of it. -/
theorem right (h : Frame sb (R + R') (C + C') σ τ) : Frame sb R' C' σ τ :=
  h.mono (fun _ hm ↦ Multiset.mem_add.mpr (Or.inr hm)) fun _ hm ↦
    Multiset.mem_add.mpr (Or.inr hm)

end Frame

/-- A page that is not a pipe becomes one with two open ends. -/
theorem PipesHeld.new {E : Multiset (Nat × Bool)} {pipe : Nat → Option PipeEnds} {q : Nat}
    (h : PipesHeld E pipe) (hq : pipe q = none) :
    PipesHeld ({(q, true)} + ({(q, false)} + E)) (update pipe q (some ⟨true, true⟩)) where
  count p w := by
    have hcount := h.count p w
    rw [Multiset.count_add, Multiset.count_add, Multiset.count_singleton,
      Multiset.count_singleton]
    by_cases hp : p = q
    · subst hp
      rw [hq] at hcount
      rw [update_self, hcount]
      cases w <;> simp [isOpen]
    · have hne : ∀ v, (p, w) ≠ (q, v) := fun v hc ↦ hp (Prod.mk.inj hc).1
      rw [update_of_ne hp, hcount, if_neg (hne true), if_neg (hne false), zero_add, zero_add]
  page p hp := by
    by_cases he : p = q
    · exact ⟨true, by rw [he, update_self]; rfl⟩
    · rw [update_of_ne he] at hp ⊢
      exact h.page p hp

namespace Files

theorem ref_pos (h : Files sb R C σ) : 0 < (σ.file f).ref ↔ f ∈ R := by
  rw [h.count, Multiset.count_pos]

/-- The inode of a file is held. -/
theorem mem_inode (ht : (σ.file f).type = .FD_INODE) :
    (σ.file f).ip ∈ Lib.held OpenFile.inode σ.file := by
  apply Lib.mem_held.mpr
  refine ⟨f, ?_⟩
  rw [OpenFile.inode, if_pos ht]
  exact Multiset.mem_singleton_self _

/-- The file system changes, and what is held besides the inodes of the files. -/
theorem setFs (h : Files sb R C σ) (hi : Intact sb (Lib.held OpenFile.inode σ.file + C') s)
    (hk : Keeps sb (Lib.held OpenFile.inode σ.file) σ.fs s) : Files sb R C' { σ with fs := s } where
  intact := hi
  count := h.count
  closed := h.closed
  readonly f ht hw nd hnd := by
    have hmem := mem_inode ht
    obtain ⟨nd₀, hnd₀⟩ := h.intact.holding.node (Multiset.mem_add.mpr (Or.inl hmem))
    obtain ⟨nd', hnd', hsame⟩ := hk.kinds _ hmem nd₀ hnd₀
    rw [← (hk.steady _ hmem).1] at hnd'
    have he : nd = nd' := Option.some.inj (hnd.symm.trans hnd')
    rw [he, hsame]
    exact h.readonly f ht hw nd₀ hnd₀
  pipes := h.pipes

/-- One file changes without taking or giving up an inode or an end of a pipe. -/
theorem setFile (h : Files sb R C σ) (hcount : g.ref = R'.count f)
    (hothers : ∀ f', f' ≠ f → R'.count f' = R.count f')
    (hclosed : g.ref = 0 → g.type = .FD_NONE) (htype : g.type = (σ.file f).type)
    (hip : g.ip = (σ.file f).ip) (hpipe : g.pipe = (σ.file f).pipe)
    (hw : g.writable = (σ.file f).writable) : Files sb R' C (σ.setFile f g) where
  intact := by
    have hkeep : g.inode = (σ.file f).inode := by rw [OpenFile.inode, OpenFile.inode, htype, hip]
    show Intact sb (Lib.held OpenFile.inode (update σ.file f g) + C) σ.fs
    rw [Lib.held_keep hkeep]
    exact h.intact
  count f' := by
    show (update σ.file f g f').ref = _
    by_cases he : f' = f
    · rw [he, update_self, hcount]
    · rw [update_of_ne he, hothers f' he, h.count]
  closed f' := by
    show (update σ.file f g f').ref = 0 → (update σ.file f g f').type = _
    by_cases he : f' = f
    · rw [he, update_self]
      exact hclosed
    · rw [update_of_ne he]
      exact h.closed f'
  readonly f' := by
    show (update σ.file f g f').type = _ → (update σ.file f g f').writable = true → ∀ nd,
      view sb σ.fs.blocks (σ.fs.icache (update σ.file f g f').ip).inum = some nd → _
    by_cases he : f' = f
    · rw [he, update_self, htype, hw, hip]
      exact h.readonly f
    · rw [update_of_ne he]
      exact h.readonly f'
  pipes := by
    have hkeep : g.pipeEnd = (σ.file f).pipeEnd := by
      rw [OpenFile.pipeEnd, OpenFile.pipeEnd, htype, hpipe, hw]
    show PipesHeld (Lib.held OpenFile.pipeEnd (update σ.file f g)) σ.pipe
    rw [Lib.held_keep hkeep]
    exact h.pipes

/-- A file that holds nothing takes over the reference to an inode. -/
theorem install (h : Files sb R (ip ::ₘ C) σ) (hnone : (σ.file f).type = .FD_NONE)
    (hmem : f ∈ R) (htype : g.type = .FD_INODE) (hip : g.ip = ip)
    (href : g.ref = (σ.file f).ref) (hdir : g.writable = true → ∀ nd,
      view sb σ.fs.blocks (σ.fs.icache ip).inum = some nd → nd.type ≠ T_DIR) :
    Files sb R C (σ.setFile f g) where
  intact := by
    have htake : g.inode = {ip} + (σ.file f).inode := by
      rw [OpenFile.inode, OpenFile.inode, htype, if_pos rfl, hnone, if_neg (by decide), hip,
        add_zero]
    show Intact sb (Lib.held OpenFile.inode (update σ.file f g) + C) σ.fs
    rw [Lib.held_take htake, Multiset.singleton_add, Multiset.cons_add, ← Multiset.add_cons]
    exact h.intact
  count f' := by
    show (update σ.file f g f').ref = _
    by_cases he : f' = f
    · rw [he, update_self, href, h.count]
    · rw [update_of_ne he, h.count]
  closed f' := by
    show (update σ.file f g f').ref = 0 → (update σ.file f g f').type = _
    by_cases he : f' = f
    · rw [he, update_self, href]
      have hpos := h.ref_pos.mpr hmem
      omega
    · rw [update_of_ne he]
      exact h.closed f'
  readonly f' := by
    show (update σ.file f g f').type = _ → (update σ.file f g f').writable = true → ∀ nd,
      view sb σ.fs.blocks (σ.fs.icache (update σ.file f g f').ip).inum = some nd → _
    by_cases he : f' = f
    · rw [he, update_self, hip]
      exact fun _ ↦ hdir
    · rw [update_of_ne he]
      exact h.readonly f'
  pipes := by
    have hkeep : g.pipeEnd = (σ.file f).pipeEnd := by
      rw [OpenFile.pipeEnd, OpenFile.pipeEnd, htype, hnone, if_neg (by decide), if_neg (by decide)]
    show PipesHeld (Lib.held OpenFile.pipeEnd (update σ.file f g)) σ.pipe
    rw [Lib.held_keep hkeep]
    exact h.pipes

/-- Two files that hold nothing take the ends of a new pipe. -/
theorem install_pipe (h : Files sb R C σ) {f₀ f₁ : Fin NFILE} (hne : f₀ ≠ f₁)
    (h₀ : (σ.file f₀).type = .FD_NONE) (h₁ : (σ.file f₁).type = .FD_NONE) (hm₀ : f₀ ∈ R)
    (hm₁ : f₁ ∈ R) {q : Nat} (hq : σ.pipe q = none) {g₀ g₁ : OpenFile}
    (hg₀ : g₀.type = .FD_PIPE ∧ g₀.pipe = q ∧ g₀.writable = false ∧ g₀.ref = (σ.file f₀).ref)
    (hg₁ : g₁.type = .FD_PIPE ∧ g₁.pipe = q ∧ g₁.writable = true ∧ g₁.ref = (σ.file f₁).ref) :
    Files sb R C { σ with
      file := update (update σ.file f₀ g₀) f₁ g₁
      pipe := update σ.pipe q (some ⟨true, true⟩) } := by
  obtain ⟨ht₀, hp₀, hw₀, hr₀⟩ := hg₀
  obtain ⟨ht₁, hp₁, hw₁, hr₁⟩ := hg₁
  have hself : update σ.file f₀ g₀ f₁ = σ.file f₁ := update_of_ne hne.symm _ _
  have hfile : ∀ f, update (update σ.file f₀ g₀) f₁ g₁ f = g₁ ∧ f = f₁ ∨
      update (update σ.file f₀ g₀) f₁ g₁ f = g₀ ∧ f = f₀ ∨
      update (update σ.file f₀ g₀) f₁ g₁ f = σ.file f := by
    intro f
    by_cases he₁ : f = f₁
    · exact Or.inl ⟨by rw [he₁, update_self], he₁⟩
    · by_cases he₀ : f = f₀
      · exact Or.inr (Or.inl ⟨by rw [update_of_ne he₁, he₀, update_self], he₀⟩)
      · exact Or.inr (Or.inr (by rw [update_of_ne he₁, update_of_ne he₀]))
  constructor
  · have hkeep₀ : g₀.inode = (σ.file f₀).inode := by
      rw [OpenFile.inode, OpenFile.inode, ht₀, h₀]
      rfl
    have hkeep₁ : g₁.inode = (update σ.file f₀ g₀ f₁).inode := by
      rw [hself, OpenFile.inode, OpenFile.inode, ht₁, h₁]
      rfl
    show Intact sb (Lib.held OpenFile.inode (update (update σ.file f₀ g₀) f₁ g₁) + C) σ.fs
    rw [Lib.held_keep hkeep₁, Lib.held_keep hkeep₀]
    exact h.intact
  · intro f
    show (update (update σ.file f₀ g₀) f₁ g₁ f).ref = _
    rw [← h.count]
    rcases hfile f with ⟨hf, rfl⟩ | ⟨hf, rfl⟩ | hf
    · rw [hf, hr₁]
    · rw [hf, hr₀]
    · rw [hf]
  · intro f
    show (update (update σ.file f₀ g₀) f₁ g₁ f).ref = 0 → _
    have hpos₀ := h.ref_pos.mpr hm₀
    have hpos₁ := h.ref_pos.mpr hm₁
    rcases hfile f with ⟨hf, rfl⟩ | ⟨hf, rfl⟩ | hf
    · rw [hf, hr₁]
      omega
    · rw [hf, hr₀]
      omega
    · show _ → (update (update σ.file f₀ g₀) f₁ g₁ f).type = _
      rw [hf]
      exact h.closed f
  · intro f
    show (update (update σ.file f₀ g₀) f₁ g₁ f).type = _ →
      (update (update σ.file f₀ g₀) f₁ g₁ f).writable = true → ∀ nd, view sb σ.fs.blocks
        (σ.fs.icache (update (update σ.file f₀ g₀) f₁ g₁ f).ip).inum = some nd → _
    rcases hfile f with ⟨hf, rfl⟩ | ⟨hf, rfl⟩ | hf
    · rw [hf, ht₁]
      intro hc
      cases hc
    · rw [hf, ht₀]
      intro hc
      cases hc
    · rw [hf]
      exact h.readonly f
  · have htake₀ : g₀.pipeEnd = {(q, false)} + (σ.file f₀).pipeEnd := by
      rw [OpenFile.pipeEnd, OpenFile.pipeEnd, if_pos ht₀, h₀, hp₀, hw₀]
      rfl
    have htake₁ : g₁.pipeEnd = {(q, true)} + (update σ.file f₀ g₀ f₁).pipeEnd := by
      rw [hself, OpenFile.pipeEnd, OpenFile.pipeEnd, if_pos ht₁, h₁, hp₁, hw₁]
      rfl
    show PipesHeld (Lib.held OpenFile.pipeEnd (update (update σ.file f₀ g₀) f₁ g₁)) _
    rw [Lib.held_take htake₁, Lib.held_take htake₀]
    exact h.pipes.new hq

end Files

/-! ### `filealloc` and `filedup` -/

/-- `filealloc` returns a file that holds nothing, with a reference to it. -/
theorem filealloc_spec (h : Files sb R C σ) (ha : filealloc σ = some (τ, f)) :
    Files sb (f ::ₘ R) C τ ∧ Frame sb R C σ τ ∧ τ.pipe = σ.pipe ∧ f ∉ R ∧
      (τ.file f).type = .FD_NONE ∧ (∀ f', f' ≠ f → τ.file f' = σ.file f') := by
  obtain ⟨f', hfind, hpair⟩ := Option.map_eq_some_iff.mp ha
  cases hpair
  have hzero : (σ.file f).ref = 0 := by simpa using List.find?_some hfind
  have hnot : f ∉ R := by
    rw [← h.ref_pos, hzero]
    exact Nat.lt_irrefl 0
  have hothers : ∀ f', f' ≠ f → (σ.setFile f { σ.file f with ref := 1 }).file f' = σ.file f' :=
    fun f' hne ↦ update_of_ne hne _ _
  have hself : (σ.setFile f { σ.file f with ref := 1 }).file f = { σ.file f with ref := 1 } :=
    update_self _ _ _
  refine ⟨?_, ⟨rfl, ?_, Keeps.refl _ _ _⟩, rfl, hnot, ?_, hothers⟩
  · apply h.setFile
    · rw [Multiset.count_cons_self, Multiset.count_eq_zero.mpr hnot]
    · exact fun f' hne ↦ Multiset.count_cons_of_ne hne R
    · exact fun hc ↦ absurd hc Nat.one_ne_zero
    all_goals rfl
  · intro g hg
    have hne : g ≠ f := by
      rintro rfl
      exact hnot hg
    rw [hothers g hne]
  · rw [hself]
    exact h.closed f hzero

/-- `filedup` counts one reference more. -/
theorem filedup_spec (h : Files sb R C σ) (hf : f ∈ R) (err : CallPanic → Prop) :
    Lib.Ensures (filedup σ f) err fun τ ↦
      Files sb (f ::ₘ R) C τ ∧ Frame sb R C σ τ ∧ τ.fs = σ.fs := by
  have hpos := h.ref_pos.mpr hf
  unfold filedup
  rw [if_neg (by omega)]
  refine ⟨?_, ⟨rfl, ?_, Keeps.refl _ _ _⟩, rfl⟩
  · apply h.setFile
    · rw [Multiset.count_cons_self, ← h.count]
    · exact fun f' hne ↦ Multiset.count_cons_of_ne hne R
    · exact fun hc ↦ absurd hc (Nat.succ_ne_zero _)
    all_goals rfl
  · intro g _
    show (update σ.file f _ g).type = _
    by_cases he : g = f
    · rw [he, update_self]
    · rw [update_of_ne he]

/-! ### `fileclose` -/

/-- What the last `fileclose` of a file leaves in the table. -/
private def emptied (σ : System) (f : Fin NFILE) : OpenFile :=
  { σ.file f with ref := 0, type := .FD_NONE }

private theorem file_emptied (f' : Fin NFILE) : (σ.setFile f (emptied σ f)).file f' =
    if f' = f then emptied σ f else σ.file f' := by
  show update σ.file f (emptied σ f) f' = _
  by_cases he : f' = f
  · rw [he, update_self, if_pos rfl]
  · rw [update_of_ne he, if_neg he]

/-- The counts are right when the file that nobody refers to any more is emptied. -/
private theorem count_emptied (h : Files sb (f ::ₘ R) C σ) (hf : f ∉ R) (f' : Fin NFILE) :
    ((σ.setFile f (emptied σ f)).file f').ref = R.count f' := by
  rw [file_emptied]
  by_cases he : f' = f
  · rw [if_pos he, he, Multiset.count_eq_zero.mpr hf]
    rfl
  · rw [if_neg he, h.count, Multiset.count_cons_of_ne he]

private theorem closed_emptied (h : Files sb (f ::ₘ R) C σ) (f' : Fin NFILE)
    (hz : ((σ.setFile f (emptied σ f)).file f').ref = 0) :
    ((σ.setFile f (emptied σ f)).file f').type = .FD_NONE := by
  rw [file_emptied] at hz ⊢
  by_cases he : f' = f
  · rw [if_pos he]
    rfl
  · rw [if_neg he] at hz ⊢
    exact h.closed f' hz

private theorem readonly_emptied (h : Files sb (f ::ₘ R) C σ) (f' : Fin NFILE)
    (ht : ((σ.setFile f (emptied σ f)).file f').type = .FD_INODE)
    (hw : ((σ.setFile f (emptied σ f)).file f').writable = true) (nd : Node)
    (hnd : view sb σ.fs.blocks
      (σ.fs.icache ((σ.setFile f (emptied σ f)).file f').ip).inum = some nd) :
    nd.type ≠ T_DIR := by
  rw [file_emptied] at ht hw hnd
  by_cases he : f' = f
  · rw [if_pos he] at ht
    cases ht
  · rw [if_neg he] at ht hw hnd
    exact h.readonly f' ht hw nd hnd

private theorem frame_emptied (hf : f ∉ R) (f' : Fin NFILE) (hR : f' ∈ R) :
    ((σ.setFile f (emptied σ f)).file f').type = (σ.file f').type := by
  have hne : f' ≠ f := by
    rintro rfl
    exact hf hR
  rw [file_emptied, if_neg hne]

/-- Emptying the file of an inode leaves the reference to the inode. -/
private theorem Files.give_inode (h : Files sb (f ::ₘ R) C σ) (hf : f ∉ R)
    (ht : (σ.file f).type = .FD_INODE) :
    Files sb R ((σ.file f).ip ::ₘ C) (σ.setFile f (emptied σ f)) where
  intact := by
    have hdrop : (σ.file f).inode = {(σ.file f).ip} + (emptied σ f).inode := by
      rw [OpenFile.inode, if_pos ht]
      rfl
    show Intact sb (Lib.held OpenFile.inode (update σ.file f (emptied σ f)) + _) σ.fs
    rw [Multiset.add_cons, ← Multiset.cons_add, ← Multiset.singleton_add, ← Lib.held_drop hdrop]
    exact h.intact
  count := count_emptied h hf
  closed := closed_emptied h
  readonly := readonly_emptied h
  pipes := by
    have hkeep : (emptied σ f).pipeEnd = (σ.file f).pipeEnd := by
      rw [OpenFile.pipeEnd, OpenFile.pipeEnd, ht]
      rfl
    show PipesHeld (Lib.held OpenFile.pipeEnd (update σ.file f (emptied σ f))) σ.pipe
    rw [Lib.held_keep hkeep]
    exact h.pipes

/-- One end less of a pipe. -/
private theorem isOpen_close (e e' : PipeEnds) (w v : Bool)
    (he : e' = if w = true then { e with writeopen := false } else { e with readopen := false }) :
    isOpen (if e'.readopen = false ∧ e'.writeopen = false then none else some e') v =
      (isOpen (some e) v && decide (v ≠ w)) := by
  subst he
  obtain ⟨r, o⟩ := e
  cases r <;> cases o <;> cases w <;> cases v <;> rfl

/-- `pipeclose` closes an end that is held; the page goes with the second one. -/
theorem pipeclose_spec {E : Multiset (Nat × Bool)} {p : Nat} {w : Bool}
    (h : PipesHeld ((p, w) ::ₘ E) σ.pipe) (err : CallPanic → Prop) :
    Lib.Ensures (pipeclose σ p w) err fun τ ↦
      PipesHeld E τ.pipe ∧ τ = { σ with pipe := τ.pipe } := by
  have hcount := h.count p w
  rw [Multiset.count_cons_self] at hcount
  unfold pipeclose
  cases hp : σ.pipe p with
  | none =>
    rw [hp] at hcount
    exact absurd hcount (Nat.succ_ne_zero _)
  | some e =>
    rw [hp] at hcount
    dsimp only
    obtain ⟨e', he'⟩ : ∃ e', e' = if w = true then { e with writeopen := false }
        else { e with readopen := false } := ⟨_, rfl⟩
    rw [← he']
    refine ⟨⟨?_, ?_⟩, rfl⟩
    · intro q v
      have hq := h.count q v
      show E.count (q, v) = (isOpen (update σ.pipe p _ q) v).toNat
      by_cases hqp : q = p
      · subst hqp
        rw [update_self, isOpen_close e e' w v he']
        rw [hp] at hq
        by_cases hv : v = w
        · subst hv
          rw [Multiset.count_cons_self] at hq
          have hle := Bool.toNat_le (isOpen (some e) v)
          have hzero : E.count (q, v) = 0 := by omega
          simp [hzero]
        · have hne : (q, v) ≠ (q, w) := fun hc ↦ hv (Prod.mk.inj hc).2
          rw [Multiset.count_cons_of_ne hne] at hq
          simp [hq, hv]
      · have hne : (q, v) ≠ (p, w) := fun hc ↦ hqp (Prod.mk.inj hc).1
        rw [Multiset.count_cons_of_ne hne] at hq
        rw [update_of_ne hqp, hq]
    · intro q hq
      show ∃ v, isOpen (update σ.pipe p _ q) v = true
      have hq' : update σ.pipe p _ q ≠ none := hq
      by_cases hqp : q = p
      · subst hqp
        rw [update_self] at hq' ⊢
        split at hq'
        · exact absurd rfl hq'
        · next hopen =>
          rw [if_neg hopen]
          by_cases hr : e'.readopen = true
          · exact ⟨false, hr⟩
          · refine ⟨true, ?_⟩
            by_contra hw
            exact hopen ⟨Bool.eq_false_iff.mpr hr, Bool.eq_false_iff.mpr hw⟩
      · rw [update_of_ne hqp] at hq' ⊢
        exact h.page q hq'

/-- `fileclose` drops one reference, and with the last one what the file holds. It never finds
the page of its pipe freed. -/
theorem fileclose_spec (h : Files sb (f ::ₘ R) C σ) (err : CallPanic → Prop) :
    Lib.Ensures (fileclose sb σ f) err fun τ ↦ Files sb R C τ ∧ Frame sb R C σ τ := by
  have href : (σ.file f).ref = R.count f + 1 := by rw [h.count, Multiset.count_cons_self]
  unfold fileclose
  dsimp only
  rw [if_neg (by omega)]
  split
  · next hmore =>
    have hothers : ∀ f', f' ≠ f → R.count f' = (f ::ₘ R).count f' := fun f' hne ↦
      (Multiset.count_cons_of_ne hne R).symm
    refine ⟨h.setFile ?_ hothers ?_ rfl rfl rfl rfl, rfl, ?_, Keeps.refl _ _ _⟩
    · show (σ.file f).ref - 1 = _
      omega
    · intro hz
      have hz' : (σ.file f).ref - 1 = 0 := hz
      omega
    · intro f' _
      show (update σ.file f _ f').type = _
      by_cases he : f' = f
      · rw [he, update_self]
      · rw [update_of_ne he]
  · next hlast =>
    have hf : f ∉ R := by
      rw [← Multiset.count_eq_zero]
      omega
    have hframe : Frame sb R C σ (σ.setFile f (emptied σ f)) :=
      ⟨rfl, frame_emptied hf, Keeps.refl _ _ _⟩
    have hproc : (σ.setFile f (emptied σ f)).proc = σ.proc := rfl
    split
    · next ht =>
      -- the end of a pipe
      have hdrop : (σ.file f).pipeEnd =
          {((σ.file f).pipe, (σ.file f).writable)} + (emptied σ f).pipeEnd := by
        rw [OpenFile.pipeEnd, if_pos ht]
        rfl
      have hpipes := h.pipes
      rw [Lib.held_drop hdrop, Multiset.singleton_add] at hpipes
      have hclose := pipeclose_spec (σ := σ.setFile f (emptied σ f)) hpipes err
      apply hclose.imp
      rintro τ ⟨hτ, heq⟩
      have hkeep : (emptied σ f).inode = (σ.file f).inode := by
        rw [OpenFile.inode, OpenFile.inode, ht]
        rfl
      have hintact : Intact sb (Lib.held OpenFile.inode (update σ.file f (emptied σ f)) + C)
          σ.fs := by
        rw [Lib.held_keep hkeep]
        exact h.intact
      rw [heq]
      exact ⟨⟨hintact, count_emptied h hf, closed_emptied h, readonly_emptied h, hτ⟩,
        hframe.proc, hframe.file, hframe.keeps⟩
    · next ht =>
      have hgive := h.give_inode hf ht
      have hintact := hgive.intact
      rw [Multiset.add_cons] at hintact
      apply Lib.Ensures.bind (Lib.Ensures.mapError_iff.mpr (hintact.iput_keeps _))
      rintro s ⟨hs, hk⟩
      refine ⟨hgive.setFs hs (hk.mono fun _ hip ↦ Multiset.mem_add.mpr (Or.inl hip)),
        hframe.trans ⟨rfl, fun _ _ ↦ rfl, ?_⟩⟩
      exact hk.mono fun _ hip ↦ Multiset.mem_add.mpr (Or.inr hip)
    · next ht =>
      have hothers : ∀ f', f' ≠ f → R.count f' = (f ::ₘ R).count f' := fun f' hne ↦
        (Multiset.count_cons_of_ne hne R).symm
      refine ⟨h.setFile ?_ hothers (fun _ ↦ rfl) ht.symm rfl rfl rfl, hframe⟩
      exact (Multiset.count_eq_zero.mpr hf).symm

end

end Xv6.Fs
