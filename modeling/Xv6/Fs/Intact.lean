import Xv6.Fs.Naming
import Xv6.Fs.Sysfile

/-!
# What the system calls on directories do

Each call, made while no other one is running, gives or takes the name it is asked to, or fails
and leaves the disk as it was. It keeps the tree, leaves no inode without a name that nobody
holds, and gives back every reference it takes.
-/

namespace Xv6.Fs

open Function

open Mkfs (DIRSIZ T_DIR T_FILE ROOTINO)

/-- The callers hold the references `H`; the directories form a tree; and of each inode without
links, which is in use only because it is held, the in-memory copy has been read. -/
structure Intact (sb : Superblock) (H : Multiset Slot) (s : State) : Prop where
  holding : Holding sb H s
  tree : Tree sb.ninodes (view sb s.blocks)
  orphans : ∀ i nd, view sb s.blocks i = some nd → nd.nlink = 0 →
    ∃ ip ∈ H, (s.icache ip).inum = i ∧ (s.icache ip).valid = true

/-- The path starts at a directory that has not been removed: the root, or the directory `cwd` of
the process, if it still has links. -/
def Attached (sb : Superblock) (s : State) (cwd : Slot) (path : CString) : Prop :=
  HasLinks (view sb s.blocks) (origin (s.icache cwd).inum path)

/-- No link count is at its largest value. -/
def Roomy (v : Nat → Option Node) : Prop := ∀ i nd, v i = some nd → nd.nlink.toInt < 32767

/-- A table, the disk or a directory is full. -/
def Full (e : DirPanic) : Prop :=
  e = .fs .igetNoInodes ∨ e = .fs .iallocNoInodes ∨ e = .fs .outOfBlocks ∨ e = .dirlink

/-- A table, the disk or a directory is full, or the process waits for itself. -/
def Halts (e : DirPanic) : Prop := Full e ∨ e = .deadlock

/-- The last name of the path is not free, or there is no directory for it. -/
def Taken (v : Nat → Option Node) (i : Nat) (ns : List CString) : Prop :=
  ∀ d nm, resolveParent v i ns = some (d, nm) → nameIn v d nm ≠ none

/-- The node of `i` goes if it has no links and nobody in `H` holds it. -/
def Reaped (H : Multiset Slot) (i : Nat) (s : State) (v v' : Nat → Option Node) : Prop :=
  v' = v ∨ ∃ nd, v i = some nd ∧ nd.nlink = 0 ∧ (∀ ip ∈ H, (s.icache ip).inum ≠ i) ∧
    v' = update v i none

section

variable {sb : Superblock} {dev : Devsw} {s t u : State} {ip dp cwd : Slot} {H : Multiset Slot}
  {path : CString} {nd : Node}

theorem mem_cons_of (ip : Slot) : ∀ iq ∈ H, iq ∈ ip ::ₘ H := fun _ hq ↦ Multiset.mem_cons_of_mem hq

/-- What is attached stays so while the disk stays the same. -/
theorem Attached.congr (h : Attached sb s cwd path) (hb : view sb t.blocks = view sb s.blocks)
    (hi : (t.icache cwd).inum = (s.icache cwd).inum) : Attached sb t cwd path := by
  rw [Attached, hb, hi]
  exact h

/-- An intact file system stays so while neither the disk nor what is held changes. -/
theorem Intact.congr (h : Intact sb H s) (ht : Holding sb H t) (hs : Steady H s t)
    (hb : view sb t.blocks = view sb s.blocks) : Intact sb H t where
  holding := ht
  tree := by
    rw [hb]
    exact h.tree
  orphans i nd hi hl := by
    rw [hb] at hi
    obtain ⟨ip, hip, hinum, hv⟩ := h.orphans i nd hi hl
    exact ⟨ip, hip, ((hs ip hip).1).trans hinum, (hs ip hip).2 hv⟩

/-- Further references do no harm. -/
theorem Intact.more (h : Intact sb H s) (ht : Holding sb (ip ::ₘ H) t) (hs : Steady H s t)
    (hb : view sb t.blocks = view sb s.blocks) : Intact sb (ip ::ₘ H) t where
  holding := ht
  tree := by
    rw [hb]
    exact h.tree
  orphans i nd hi hl := by
    rw [hb] at hi
    obtain ⟨iq, hiq, hinum, hv⟩ := h.orphans i nd hi hl
    exact ⟨iq, Multiset.mem_cons_of_mem hiq, ((hs iq hiq).1).trans hinum, (hs iq hiq).2 hv⟩

/-- Dropping a reference to an inode with links. -/
theorem iput_links (h : Holding sb (ip ::ₘ H) s)
    (hl : HasLinks (view sb s.blocks) (s.icache ip).inum) (err : DirPanic → Prop) :
    Lib.Ensures ((iput sb s ip).mapError DirPanic.fs) err fun t ↦
      Holding sb H t ∧ Steady H s t ∧ t.blocks = s.blocks := by
  obtain ⟨nd, hnd, hnz⟩ := hl
  exact Lib.Ensures.mapError_iff.mpr (iput_refs h hnd hnz _)

/-- Dropping any reference: an inode without links goes with the last one. -/
theorem Intact.iput (h : Intact sb (ip ::ₘ H) s) (err : Panic → Prop) :
    Lib.Ensures (Fs.iput sb s ip) err fun t ↦
      Intact sb H t ∧ Steady H s t ∧
        Reaped H (s.icache ip).inum s (view sb s.blocks) (view sb t.blocks) := by
  have hself := Multiset.mem_cons_self ip H
  obtain ⟨nd, hnd⟩ := h.holding.node hself
  by_cases hl : nd.nlink = 0
  · -- the copy of an inode without links has been read
    obtain ⟨iq, hiq, hinum, hvq⟩ := h.orphans _ nd hnd hl
    have heq : iq = ip := by
      by_contra hne
      exact h.holding.inum_ne hiq hself hne hinum
    subst heq
    have hcopy := (h.holding.fields hself hvq hnd).2.1
    apply (iput_last_refs h.holding hvq err).imp
    rintro t ⟨ht, hs, hview⟩
    by_cases hlast : iq ∉ H
    · rw [if_pos ⟨hlast, hcopy.trans hl⟩] at hview
      refine ⟨⟨ht, ?_, ?_⟩, hs, Or.inr ⟨nd, hnd, hl, ?_, hview⟩⟩
      · rw [hview]
        exact h.tree.free hnd hl
      · intro i nd' hi hl'
        have hne : i ≠ (s.icache iq).inum := by
          rintro rfl
          rw [hview, update_self] at hi
          cases hi
        rw [hview, update_of_ne hne] at hi
        obtain ⟨ir, hir, hinum', hv'⟩ := h.orphans i nd' hi hl'
        have hirH : ir ∈ H := by
          apply (Multiset.mem_cons.mp hir).resolve_left
          rintro rfl
          exact hne hinum'.symm
        exact ⟨ir, hirH, (hs ir hirH).1.trans hinum', (hs ir hirH).2 hv'⟩
      · intro ir hir he
        have hne : ir ≠ iq := by
          rintro rfl
          exact hlast hir
        exact h.holding.inum_ne (Multiset.mem_cons_of_mem hir) hself hne he
    · rw [if_neg fun hc ↦ hlast hc.1] at hview
      have hmem := not_not.mp hlast
      refine ⟨⟨ht, by rw [hview]; exact h.tree, ?_⟩, hs, Or.inl hview⟩
      intro i nd' hi hl'
      rw [hview] at hi
      obtain ⟨ir, hir, hinum', hv'⟩ := h.orphans i nd' hi hl'
      have hirH : ir ∈ H := by
        rcases Multiset.mem_cons.mp hir with rfl | hir
        · exact hmem
        · exact hir
      exact ⟨ir, hirH, (hs ir hirH).1.trans hinum', (hs ir hirH).2 hv'⟩
  · apply (iput_refs h.holding hnd hl err).imp
    rintro t ⟨ht, hs, hb⟩
    refine ⟨⟨ht, by rw [hb]; exact h.tree, ?_⟩, hs, Or.inl (by rw [hb])⟩
    intro i nd' hi hl'
    rw [hb] at hi
    obtain ⟨ir, hir, hinum', hv'⟩ := h.orphans i nd' hi hl'
    have hirH : ir ∈ H := by
      apply (Multiset.mem_cons.mp hir).resolve_left
      rintro rfl
      rw [← hinum', hnd] at hi
      cases hi
      exact hl hl'
    exact ⟨ir, hirH, (hs ir hirH).1.trans hinum', (hs ir hirH).2 hv'⟩

/-- The in-memory copy of an inode is written back with another link count. -/
theorem setFields_node (h : Holding sb H s) (hip : ip ∈ H) (hv : (s.icache ip).valid = true)
    (hnd : view sb s.blocks (s.icache ip).inum = some nd) (major minor nlink : Int16) :
    Holding sb H (setFields sb s ip major minor nlink) ∧
      Steady H s (setFields sb s ip major minor nlink) ∧
      view sb (setFields sb s ip major minor nlink).blocks =
        update (view sb s.blocks) (s.icache ip).inum (some ⟨nd.type, nlink, nd.data⟩) := by
  obtain ⟨hh, hs, hview, -⟩ := setFields_refs h hip hv major minor nlink
  obtain ⟨htype, -, hdata⟩ := h.fields hip hv hnd
  rw [htype, hdata] at hview
  exact ⟨hh, hs, hview⟩

/-- How a call ends: it is refused and has changed nothing, or it returns 0 and has done what is
asked. -/
def Outcome (sb : Superblock) (H : Multiset Slot) (s : State) (refused : Prop)
    (done : (Nat → Option Node) → Prop) (r : State × Int) : Prop :=
  Intact sb H r.1 ∧ Steady H s r.1 ∧
    (r.2 = -1 ∧ refused ∧ view sb r.1.blocks = view sb s.blocks ∨
      r.2 = 0 ∧ done (view sb r.1.blocks))

theorem Outcome.fail (h : Intact sb H s) {refused : Prop} {done : (Nat → Option Node) → Prop}
    (ht : Holding sb H t) (hs : Steady H s t) (hb : t.blocks = s.blocks) (hr : refused) :
    Outcome sb H s refused done (t, -1) :=
  ⟨h.congr ht hs (by rw [hb]), hs, Or.inl ⟨rfl, hr, by rw [hb]⟩⟩

/-- `ilock` in the middle of a call. -/
theorem lock_spec (h : Holding sb H s) (hip : ip ∈ H) (err : DirPanic → Prop) :
    Lib.Ensures ((ilock sb s ip).mapError DirPanic.fs) err fun t ↦
      Holding sb H t ∧ Steady H s t ∧ t.blocks = s.blocks ∧ (t.icache ip).valid = true :=
  Lib.Ensures.mapError_iff.mpr (ilock_refs h hip _)

/-- The parent of a path is a directory with links. -/
theorem Intact.parent (h : Intact sb H s) {i d : Nat} {nm : CString} {ns : List CString}
    (hi : HasLinks (view sb s.blocks) i)
    (hp : resolveParent (view sb s.blocks) i ns = some (d, nm)) :
    ∃ nd, LinkedDir (view sb s.blocks) d nd := by
  obtain ⟨⟨nd, hnd, hl⟩, es, hes⟩ := h.tree.sane.resolveParent hi hp
  obtain ⟨nd', hnd', ht, -⟩ := dirAt_eq_some.mp hes
  rw [hnd] at hnd'
  cases hnd'
  exact ⟨nd, hnd, ht, hl⟩

/-- What a directory with links names has links. -/
theorem Intact.named (h : Intact sb H s) {d i : Nat} {nm : CString}
    (hd : LinkedDir (view sb s.blocks) d nd) (hl : lookup (entries nd.data) nm = some i) :
    HasLinks (view sb s.blocks) i :=
  h.tree.sane.linked d _ ⟨nd, hd.node, hd.links⟩
    (dirAt_eq_some.mpr ⟨nd, hd.node, hd.dir, rfl⟩) nm i hl

/-- A slot that holds a directory with links is a locked directory, once it has been read. -/
theorem LinkedDir.locked {v : Nat → Option Node} {n d : Nat} (hd : LinkedDir v d nd) (h : Tree n v)
    (hv : (s.icache dp).valid = true) (hview : view sb s.blocks = v)
    (hinum : (s.icache dp).inum = d) : LockedDir sb s dp nd where
  valid := hv
  node := by rw [hview, hinum, hd.node]
  dir := hd.dir
  aligned := (h.dirOk d nd hd.node hd.dir hd.links).aligned

theorem Full.of_iget {e : DirPanic} (h : e = .fs .igetNoInodes) : Full e := Or.inl h

theorem Full.of_link {e : DirPanic} (h : LinkFails e) : Full e := by
  rcases h with h | h | h
  · exact Or.inl h
  · exact Or.inr (Or.inr (Or.inl h))
  · exact Or.inr (Or.inr (Or.inr h))

theorem Taken.of_none {v : Nat → Option Node} {i : Nat} {ns : List CString}
    (hp : resolveParent v i ns = none) : Taken v i ns := by
  intro d nm hc
  rw [hp] at hc
  cases hc

theorem Taken.of_found {v : Nat → Option Node} {i j d : Nat} {nm : CString} {ns : List CString}
    (hp : resolveParent v i ns = some (d, nm)) (hd : LinkedDir v d nd)
    (hl : lookup (entries nd.data) nm = some j) : Taken v i ns := by
  intro d' nm' hc
  rw [hp] at hc
  cases hc
  rw [hd.nameIn_eq, hl]
  exact Option.some_ne_none _

theorem Halts.of_full {e : DirPanic} (h : Full e) : Halts e := Or.inl h

/-- What a path leads to, when its last name is in the parent. -/
theorem resolve_of_parent {v : Nat → Option Node} {i d : Nat} {nm : CString} {ns : List CString}
    (hp : resolveParent v i ns = some (d, nm)) (hd : LinkedDir v d nd) :
    resolve v i ns = lookup (entries nd.data) nm := by
  have hne : ns ≠ [] := by
    rintro rfl
    cases hp
  rw [resolve_eq_parent hne, hp, Option.bind_some, dirAt_eq_some.mpr ⟨nd, hd.node, hd.dir, rfl⟩,
    Option.bind_some]

/-! ### `sys_chdir` -/

/-- How `sys_chdir` ends: it fails and has changed nothing, or the process has the directory at
the path, and the old one goes if it has been removed and nobody else holds it. -/
def Changed (sb : Superblock) (H : Multiset Slot) (s : State) (cwd : Slot) (path : CString) :
    State × Slot × Int → Prop
  | (t, cwd', r) => r = -1 ∧ cwd' = cwd ∧ Steady (cwd ::ₘ H) s t ∧
      view sb t.blocks = view sb s.blocks ∨
    r = 0 ∧ Steady H s t ∧ resolve (view sb s.blocks) (origin (s.icache cwd).inum path)
      (elements path) = some (t.icache cwd').inum ∧
      (∃ nd, LinkedDir (view sb t.blocks) (t.icache cwd').inum nd) ∧
      Reaped H (s.icache cwd).inum s (view sb s.blocks) (view sb t.blocks)

/-- `sys_chdir` takes the process to the directory at the path. -/
theorem sys_chdir_spec (dev : Devsw) (h : Intact sb (cwd ::ₘ H) s) (ha : Attached sb s cwd path)
    (name : Nat → UInt8) :
    Lib.Ensures (sys_chdir sb dev s cwd path name) Full fun r ↦
      Intact sb (r.2.1 ::ₘ H) r.1 ∧ Changed sb H s cwd path r := by
  have hcwd := Multiset.mem_cons_self cwd H
  have hnamei := namei_spec dev h.holding hcwd h.tree.sane ha name
  apply Lib.Ensures.bind (hnamei.mono (fun _ hr ↦ hr) fun _ ↦ Full.of_iget)
  rintro ⟨t₁, r⟩ ⟨hs₁, hb₁, hnone, hsome⟩
  dsimp only at hs₁ hb₁ hnone hsome ⊢
  have hv₁ : view sb t₁.blocks = view sb s.blocks := by rw [hb₁]
  cases r with
  | none => exact ⟨h.congr (hnone rfl).1 hs₁ hv₁, Or.inl ⟨rfl, rfl, hs₁, hv₁⟩⟩
  | some ip =>
    obtain ⟨ht₁, hres⟩ := hsome ip rfl
    have hself := Multiset.mem_cons_self ip (cwd ::ₘ H)
    apply Lib.Ensures.bind (lock_spec ht₁ hself _)
    rintro t₂ ⟨ht₂, hs₂, hb₂, hiv₂⟩
    have hv₂ : view sb t₂.blocks = view sb s.blocks := by rw [hb₂, hv₁]
    have hs₀₂ : Steady (cwd ::ₘ H) s t₂ := hs₁.trans (hs₂.mono (mem_cons_of ip))
    rw [← (hs₂ ip hself).1] at hres
    obtain ⟨nd, hnd, hl⟩ := h.tree.sane.resolve ha hres
    have hnode : view sb t₂.blocks (t₂.icache ip).inum = some nd := by rw [hv₂, hnd]
    rw [(ht₂.fields hself hiv₂ hnode).1]
    split
    · apply Lib.Ensures.bind (iput_links ht₂ ⟨nd, hnode, hl⟩ _)
      rintro t₃ ⟨ht₃, hs₃, hb₃⟩
      have hv₃ : view sb t₃.blocks = view sb s.blocks := by rw [hb₃, hv₂]
      have hs₀₃ := hs₀₂.trans hs₃
      exact ⟨h.congr ht₃ hs₀₃ hv₃, Or.inl ⟨rfl, rfl, hs₀₃, hv₃⟩⟩
    · next hdir =>
      have ht₂' : Intact sb (ip ::ₘ cwd ::ₘ H) t₂ := h.more ht₂ hs₀₂ hv₂
      rw [Multiset.cons_swap] at ht₂'
      apply Lib.Ensures.bind (Lib.Ensures.mapError_iff.mpr (ht₂'.iput _))
      rintro t₃ ⟨ht₃, hs₃, hreap⟩
      have hself' := Multiset.mem_cons_self ip H
      have hcwd₂ := (hs₀₂ cwd hcwd).1
      have hsub := mem_cons_of (H := H) cwd
      have hs₀₃ : Steady H s t₃ := (hs₀₂.mono hsub).trans (hs₃.mono (mem_cons_of ip))
      rw [hcwd₂, hv₂] at hreap
      rw [← (hs₃ ip hself').1] at hres hnd
      refine ⟨ht₃, Or.inr ⟨rfl, hs₀₃, hres, ⟨nd, ?_, not_not.mp hdir, hl⟩, ?_⟩⟩
      · rcases hreap with hsame | ⟨ndr, hndr, hz, -, hgone⟩
        · rw [hsame, hnd]
        · have hne : (t₃.icache ip).inum ≠ (s.icache cwd).inum := by
            intro he
            rw [he, hndr] at hnd
            cases hnd
            exact hl hz
          rw [hgone, update_of_ne hne, hnd]
      · exact hreap.imp id fun ⟨ndr, hndr, hz, hnone, hgone⟩ ↦ ⟨ndr, hndr, hz, fun iq hiq he ↦
          hnone iq (mem_cons_of ip iq hiq) ((hs₀₂ iq (hsub iq hiq)).1.trans he), hgone⟩

end

end Xv6.Fs
