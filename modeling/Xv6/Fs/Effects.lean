import Xv6.Fs.Root

/-!
# What calls do to names

A successful call gives or takes the one name that it is asked to, in the directory that the path
leads to. Afterwards the path leads to what it should, and all other paths lead where they led.
-/

namespace Xv6.Fs

open Function Relation

open Mkfs (DIRSIZ T_DIR T_FILE ROOTINO)

section

variable {sb : Superblock} {dev : Devsw} {pipes : Pipes} {s : State} {cwd : Slot}
  {H : Multiset Slot} {path old new : CString} {v v' : Nat → Option Node} {d i j : Nat}
  {nm : CString} {ns : List CString}

/-! ### Paths after a name has come or gone -/

/-- Paths to parents stay when names are only added. -/
theorem resolve_of_added (hmono : ∀ d m j, nameIn v d m = some j → nameIn v' d m = some j)
    (hp : resolveParent v j ns = some (d, nm)) : resolve v' j ns = nameIn v' d nm := by
  obtain ⟨init, rfl, hinit, -⟩ := resolveParent_eq_some.mp hp
  rw [resolve_append, resolve_mono hmono hinit, Option.bind_some, resolve_cons]
  cases nameIn v' d nm <;> rfl

/-- A path leads nowhere once its last name is gone, even if it came through that name. -/
theorem resolve_of_removed (hmono : ∀ d m j, nameIn v' d m = some j → nameIn v d m = some j)
    (hp : resolveParent v j ns = some (d, nm)) (hgone : nameIn v' d nm = none) :
    resolve v' j ns = none := by
  obtain ⟨init, rfl, hinit, -⟩ := resolveParent_eq_some.mp hp
  rw [resolve_append]
  cases hr : resolve v' j init with
  | none => rfl
  | some k =>
    have hk := resolve_mono hmono hr
    rw [hinit] at hk
    cases hk
    rw [Option.bind_some, resolve_cons, hgone]
    rfl

private theorem nameIn_of_search {nd : Node} (hd : LinkedDir v d nd)
    (hs : search (entries nd.data) nm = none) : nameIn v d nm = none := by
  rw [nameIn, dirAt_eq_some.mpr ⟨nd, hd.node, hd.dir, rfl⟩, Option.bind_some]
  exact lookup_eq_none.mpr (search_eq_none.mp hs)

/-- A new inode has no names in it. -/
private theorem nameIn_of_free (hi : v i = none) (m : CString) : nameIn v i m = none := by
  rw [nameIn, dirAt, hi]
  rfl

/-- Names are only added when an inode is made. -/
private theorem Creates.mono {n : Nat} {type : Int16} (h : Tree n v)
    (hc : Creates n d i nm type v v') (d' : Nat) (m : CString) (j : Nat)
    (hj : nameIn v d' m = some j) : nameIn v' d' m = some j := by
  rw [hc.nameIn_eq h]
  obtain ⟨nd, x, y, hd, -, hnew, -, -, -, -, -, hs, -⟩ := hc
  have hne : ¬(d' = d ∧ m = nm) := by
    rintro ⟨rfl, rfl⟩
    rw [nameIn_of_search hd hs] at hj
    cases hj
  have hne' : d' ≠ i := by
    rintro rfl
    rw [nameIn_of_free hnew] at hj
    cases hj
  rw [if_neg hne, if_neg fun hc ↦ hne' hc.1, if_neg fun hc ↦ hne' hc.1, hj]

/-- Only the names in an inode that goes are gone with it. -/
private theorem Reaped.nameIn_eq (h : Reaped H i s v v') (hi : v i ≠ none) (d : Nat)
    (m : CString) : nameIn v' d m = if d = i ∧ v' i = none then none else nameIn v d m := by
  rcases h with rfl | ⟨nd, -, -, -, rfl⟩
  · rw [if_neg fun hc : d = i ∧ v' i = none ↦ hi hc.2]
  · by_cases hdi : d = i
    · rw [hdi, nameIn_of_free (update_self _ _ _), if_pos ⟨rfl, update_self _ _ _⟩]
    · have hat : dirAt (update v i none) d = dirAt v d := by
        rw [dirAt, update_of_ne hdi, dirAt]
      rw [nameIn, hat, ← nameIn, if_neg fun hc : d = i ∧ update v i none i = none ↦ hdi hc.1]

/-- An inode that has gone was not held. -/
private theorem Reaped.unheld (h : Reaped H i s v v') (hi : v i ≠ none) (hgone : v' i = none) :
    ∀ ip ∈ H, (s.icache ip).inum ≠ i := by
  rcases h with rfl | ⟨nd, -, -, hnone, -⟩
  · exact absurd hgone hi
  · exact hnone

/-- `sys_mkdir` makes an empty directory under the last name of the path, unless that is taken; then
no other name in any directory has changed, the path leads to the new directory, and every path
that led somewhere still leads there. -/
theorem mkdir_names (dev : Devsw) (hsmall : sb.ninodes ≤ 65536) (h : Intact sb H s)
    (hcwd : cwd ∈ H) (ha : Attached sb s cwd path) (hroom : Roomy (view sb s.blocks))
    (name : Nat → UInt8) :
    Lib.Ensures (sys_mkdir sb dev s cwd path name) Full fun r ↦
      r.2 = -1 ∧ Taken (view sb s.blocks) (origin (s.icache cwd).inum path) (elements path) ∧
        view sb r.1.blocks = view sb s.blocks ∨
      r.2 = 0 ∧ ∃ d i nm,
        resolveParent (view sb s.blocks) (origin (s.icache cwd).inum path) (elements path) =
          some (d, nm) ∧ nameIn (view sb s.blocks) d nm = none ∧ view sb s.blocks i = none ∧
        (∀ d' m, nameIn (view sb r.1.blocks) d' m = if d' = d ∧ m = nm then some i
          else if d' = i ∧ m = dot then some i
          else if d' = i ∧ m = dotdot then some d else nameIn (view sb s.blocks) d' m) ∧
        resolve (view sb r.1.blocks) (origin (s.icache cwd).inum path) (elements path) = some i ∧
        ∀ j ns k, resolve (view sb s.blocks) j ns = some k →
          resolve (view sb r.1.blocks) j ns = some k := by
  apply (sys_mkdir_spec dev hsmall h hcwd ha hroom name).imp
  rintro r ⟨-, -, hr⟩
  apply hr.imp id
  rintro ⟨hz, d, i, nm, hp, hc⟩
  have hnames := hc.nameIn_eq h.tree
  have hmono := hc.mono h.tree
  obtain ⟨nd, x, y, hd, -, hnew, -, -, -, -, -, hs, -⟩ := hc
  refine ⟨hz, d, i, nm, hp, nameIn_of_search hd hs, hnew, ?_, ?_, ?_⟩
  · intro d' m
    rw [hnames]
    simp only [true_and]
  · rw [resolve_of_added hmono hp, hnames, if_pos ⟨rfl, rfl⟩]
  · exact fun j ns k ↦ resolve_mono hmono

theorem mkdir_names_rootFs : Lib.Ensures (sys_mkdir mkfsSuperblock ⟨fun _ ↦ none, fun _ ↦ none⟩
    (rootFs mkfsSuperblock) 0 threeDots fun _ ↦ 0) Full fun r ↦
      r.2 = 0 ∧ ∃ i, view mkfsSuperblock (rootFs mkfsSuperblock).blocks i = none ∧
        resolve (view mkfsSuperblock r.1.blocks) ROOTINO [threeDots] = some i := by
  have hi : ROOTINO < mkfsSuperblock.ninodes := by decide
  have hroom : mkfsSuperblock.nmeta < mkfsSuperblock.size := by decide
  have helements : elements threeDots = [threeDots] := by decide
  apply (mkdir_names ⟨fun _ ↦ none, fun _ ↦ none⟩ (by decide) (rootFs_intact hi hroom)
    (Multiset.mem_singleton_self 0) (rootFs_attached hi hroom threeDots)
    (rootFs_roomy hi hroom) fun _ ↦ 0).imp
  have hdir := dirAt_rootFs hi hroom
  rw [origin_rootFs hi hroom, helements]
  rintro r (⟨-, htaken, -⟩ | ⟨hz, d, i, nm, -, -, hnew, -, hpath, -⟩)
  · -- the name is free
    have hparent := resolveParent_single (hdir ▸ Option.some_ne_none _) threeDots
    have hname := htaken ROOTINO threeDots hparent
    rw [nameIn, hdir] at hname
    exact absurd (by decide) hname
  · exact ⟨hz, i, hnew, hpath⟩

/-- `sys_link` gives the inode at the old path, which is not a directory, the last name of the new
path, which was free; then no other name in any directory has changed, the new path leads to that
inode, and every path that led somewhere still leads there. It fails when there is no such inode,
or the name is that of another one than its directory; and it does not return when a table, the disk
or the directory is full, or when the name is that of the directory, which it has locked. -/
theorem link_names (dev : Devsw) (hsmall : sb.ninodes ≤ 65536) (h : Intact sb H s)
    (hcwd : cwd ∈ H) (hold : Attached sb s cwd old) (hnew : Attached sb s cwd new)
    (hroom : Roomy (view sb s.blocks)) (name : Nat → UInt8) :
    Lib.Ensures (sys_link sb dev s cwd old new name)
      (fun e ↦ LinkFails e ∨ e = .deadlock ∧
        EndsInSelf (view sb s.blocks) (origin (s.icache cwd).inum new) (elements new)) fun r ↦
      r.2 = -1 ∧ NoLink sb s cwd old new ∧ view sb r.1.blocks = view sb s.blocks ∨
      r.2 = 0 ∧ ∃ d i nm,
        resolve (view sb s.blocks) (origin (s.icache cwd).inum old) (elements old) = some i ∧
        dirAt (view sb s.blocks) i = none ∧
        resolveParent (view sb s.blocks) (origin (s.icache cwd).inum new) (elements new) =
          some (d, nm) ∧ nameIn (view sb s.blocks) d nm = none ∧
        (∀ d' m, nameIn (view sb r.1.blocks) d' m =
          if d' = d ∧ m = nm then some i else nameIn (view sb s.blocks) d' m) ∧
        resolve (view sb r.1.blocks) (origin (s.icache cwd).inum new) (elements new) = some i ∧
        ∀ j ns k, resolve (view sb s.blocks) j ns = some k →
          resolve (view sb r.1.blocks) j ns = some k := by
  apply (sys_link_spec dev hsmall h hcwd hold hnew hroom name).imp
  rintro r ⟨-, -, hr⟩
  apply hr.imp id
  rintro ⟨hz, d, i, nm, ho, hp, hl⟩
  have hnames := hl.nameIn_eq h.tree
  obtain ⟨nd, ndi, y, hd, hi, ht, -, hs, -⟩ := hl
  have hfree := nameIn_of_search hd hs
  have hmono : ∀ d' m j, nameIn (view sb s.blocks) d' m = some j →
      nameIn (view sb r.1.blocks) d' m = some j := by
    intro d' m j hj
    have hne : ¬(d' = d ∧ m = nm) := by
      rintro ⟨rfl, rfl⟩
      rw [hfree] at hj
      cases hj
    rw [hnames, if_neg hne, hj]
  refine ⟨hz, d, i, nm, ho, ?_, hp, hfree, hnames, ?_, fun j ns k ↦ resolve_mono hmono⟩
  · rw [dirAt, hi]
    exact if_neg ht
  · rw [resolve_of_added hmono hp, hnames, if_pos ⟨rfl, rfl⟩]

theorem link_names_fileFs : Lib.Ensures (sys_link mkfsSuperblock ⟨fun _ ↦ none, fun _ ↦ none⟩
    (fileFs mkfsSuperblock) 0 threeDots (period :: threeDots) fun _ ↦ 0) LinkFails fun r ↦
      r.2 = 0 ∧ resolve (view mkfsSuperblock r.1.blocks) ROOTINO [threeDots] = some 2 ∧
        resolve (view mkfsSuperblock r.1.blocks) ROOTINO [period :: threeDots] = some 2 := by
  have hi : 2 < mkfsSuperblock.ninodes := by decide
  have hroom : mkfsSuperblock.nmeta < mkfsSuperblock.size := by decide
  have hold : elements threeDots = [threeDots] := by decide
  have hnew : elements (period :: threeDots) = [period :: threeDots] := by decide
  have hview := (fileFs_spec hi hroom).2.2
  have hparent := resolveParent_single dirAt_home (period :: threeDots)
  have hleads : resolve fileView ROOTINO [threeDots] = some 2 := by
    rw [resolve_cons, nameIn_fileView]
    rfl
  have hfree : nameIn fileView ROOTINO (period :: threeDots) = none := by
    rw [nameIn_fileView]
    decide
  have hlink := link_names ⟨fun _ ↦ none, fun _ ↦ none⟩ (by decide) (fileFs_intact hi hroom)
    (Multiset.mem_singleton_self 0) (fileFs_attached hi hroom threeDots)
    (fileFs_attached hi hroom (period :: threeDots)) (fileFs_roomy hi hroom) fun _ ↦ 0
  simp only [NoLink, hview, origin_fileFs hi hroom, hold, hnew] at hlink
  apply hlink.mono
  · rintro r (⟨-, hno | helse, -⟩ | ⟨hz, d, i, nm, hfile, -, -, -, -, hpath, hstill⟩)
    · exact absurd dirAt_fileView (hno 2 hleads)
    · obtain ⟨j, -, hname⟩ := helse ROOTINO _ hparent
      rw [hfree] at hname
      cases hname
    · rw [hleads] at hfile
      cases hfile
      exact ⟨hz, hstill _ _ _ hleads, hpath⟩
  · rintro e (he | ⟨-, d, nm, hself, hdots⟩)
    · exact he
    · rw [hparent] at hself
      cases hself
      exact absurd hdots (by decide)

/-- `sys_unlink` takes the last name of the path away, unless that is a dot or the name of a
directory that is not empty. Then no other name in any directory has changed, but for the dots of
the directory, which go with it when nobody holds it; the path leads nowhere, and what a path leads
to now it has led to before. It fails when there is no such name, and does not return only when the
table of inodes is full. -/
theorem unlink_names (dev : Devsw) (h : Intact sb H s) (hcwd : cwd ∈ H)
    (ha : Attached sb s cwd path) (name : Nat → UInt8) :
    Lib.Ensures (sys_unlink sb dev s cwd path name) (· = .fs .igetNoInodes) fun r ↦
      r.2 = -1 ∧ Stays (view sb s.blocks) (origin (s.icache cwd).inum path) (elements path) ∧
        view sb r.1.blocks = view sb s.blocks ∨
      r.2 = 0 ∧ ∃ d i nm,
        resolveParent (view sb s.blocks) (origin (s.icache cwd).inum path) (elements path) =
          some (d, nm) ∧ nameIn (view sb s.blocks) d nm = some i ∧ nm ≠ dot ∧ nm ≠ dotdot ∧
        (∀ d' m, nameIn (view sb r.1.blocks) d' m = if d' = d ∧ m = nm then none
          else if d' = i ∧ view sb r.1.blocks i = none then none
          else nameIn (view sb s.blocks) d' m) ∧
        (view sb r.1.blocks i = none → ∀ ip ∈ H, (s.icache ip).inum ≠ i) ∧
        resolve (view sb r.1.blocks) (origin (s.icache cwd).inum path) (elements path) = none ∧
        ∀ j ns k, resolve (view sb r.1.blocks) j ns = some k →
          resolve (view sb s.blocks) j ns = some k := by
  apply (sys_unlink_spec dev h hcwd ha name).imp
  rintro r ⟨-, -, hr⟩
  apply hr.imp id
  rintro ⟨hz, d, i, nm, v₁, hp, hu, hreap⟩
  have hnames₁ := hu.nameIn_eq h.tree
  obtain ⟨nd, ndi, y, k, hd, hi, hdot, hdotdot, -, hl, -, -, hv₁⟩ := hu
  have hnode : v₁ i ≠ none := by
    rw [hv₁, update_self]
    exact Option.some_ne_none _
  have hname : nameIn (view sb s.blocks) d nm = some i := by
    rw [nameIn, dirAt_eq_some.mpr ⟨nd, hd.node, hd.dir, rfl⟩, Option.bind_some, hl]
  have hnames : ∀ d' m, nameIn (view sb r.1.blocks) d' m = if d' = d ∧ m = nm then none
      else if d' = i ∧ view sb r.1.blocks i = none then none
      else nameIn (view sb s.blocks) d' m := by
    intro d' m
    rw [hreap.nameIn_eq hnode, hnames₁]
    split_ifs <;> rfl
  have hmono : ∀ d' m j, nameIn (view sb r.1.blocks) d' m = some j →
      nameIn (view sb s.blocks) d' m = some j := by
    intro d' m j hj
    rw [hnames] at hj
    split at hj
    · cases hj
    · split at hj
      · cases hj
      · exact hj
  refine ⟨hz, d, i, nm, hp, hname, hdot, hdotdot, hnames, hreap.unheld hnode, ?_,
    fun j ns k ↦ resolve_mono hmono⟩
  apply resolve_of_removed hmono hp
  rw [hnames, if_pos ⟨rfl, rfl⟩]

theorem unlink_names_fileFs : Lib.Ensures (sys_unlink mkfsSuperblock
    ⟨fun _ ↦ none, fun _ ↦ none⟩ (fileFs mkfsSuperblock) 0 threeDots fun _ ↦ 0)
    (· = .fs .igetNoInodes) fun r ↦ r.2 = 0 ∧
      resolve (view mkfsSuperblock r.1.blocks) ROOTINO [threeDots] = none ∧
        nameIn (view mkfsSuperblock r.1.blocks) ROOTINO dot = some ROOTINO := by
  have hi : 2 < mkfsSuperblock.ninodes := by decide
  have hroom : mkfsSuperblock.nmeta < mkfsSuperblock.size := by decide
  have helements : elements threeDots = [threeDots] := by decide
  have hview := (fileFs_spec hi hroom).2.2
  have hparent := resolveParent_single dirAt_home threeDots
  have hname : nameIn fileView ROOTINO threeDots = some 2 := by
    rw [nameIn_fileView]
    rfl
  have hunlink := unlink_names ⟨fun _ ↦ none, fun _ ↦ none⟩ (fileFs_intact hi hroom)
    (Multiset.mem_singleton_self 0) (fileFs_attached hi hroom threeDots) fun _ ↦ 0
  simp only [hview, origin_fileFs hi hroom, helements] at hunlink
  apply hunlink.imp
  rintro r (⟨-, hstays, -⟩ | ⟨hz, d, i, nm, hp, hi', -, -, hnames, -, hpath, -⟩)
  · rcases hstays ROOTINO threeDots 2 hparent hname with hc | hc | ⟨es, hes, -⟩
    · exact absurd hc (by decide)
    · exact absurd hc (by decide)
    · rw [dirAt_fileView] at hes
      cases hes
  · rw [hparent] at hp
    cases hp
    rw [hname] at hi'
    cases hi'
    refine ⟨hz, hpath, ?_⟩
    rw [hnames, if_neg (by decide), if_neg fun hc ↦ absurd hc.1 (by decide), nameIn_fileView]
    rfl

/-! ### Runs of the system -/

/-- A call of a process, with what is in the buffer that the call has for a name. -/
structure Event where
  pid : Fin NPROC
  name : Nat → UInt8
  call : SysCall

/-- The system after a call. -/
def eventStep (sb : Superblock) (dev : Devsw) (pipes : Pipes) (σ : System) (e : Event) :
    Except CallPanic System :=
  sysStep sb dev pipes σ e.pid e.name e.call

/-- The process is there and may make the call. -/
def MayCall (sb : Superblock) (σ : System) (e : Event) : Prop :=
  (σ.proc e.pid).live = true ∧ Permitted sb σ e.pid e.call

/-- A call that follows no path and needs no inode. -/
def Plain (σ : System) (e : Event) : Prop :=
  (σ.proc e.pid).live = true ∧
    match e.call with
    | .close _ | .dup _ => True
    | .pipe page => ∀ q ∈ page, σ.pipe q = none
    | .fork child => ∀ np ∈ child, (σ.proc np).live = false
    | _ => False

instance (σ : System) (e : Event) : Decidable (Plain σ e) :=
  match e with
  | ⟨_, _, .close _⟩ | ⟨_, _, .dup _⟩ => inferInstanceAs (Decidable (_ ∧ True))
  | ⟨_, _, .pipe page⟩ => inferInstanceAs (Decidable (_ ∧ ∀ q ∈ page, σ.pipe q = none))
  | ⟨_, _, .fork child⟩ =>
    inferInstanceAs (Decidable (_ ∧ ∀ np ∈ child, (σ.proc np).live = false))
  | ⟨_, _, .open _ _⟩ | ⟨_, _, .read _ _⟩ | ⟨_, _, .write _ _ _⟩ | ⟨_, _, .pread _ _ _⟩
  | ⟨_, _, .pwrite _ _ _ _⟩ | ⟨_, _, .link _ _⟩ | ⟨_, _, .unlink _⟩ | ⟨_, _, .mkdir _⟩
  | ⟨_, _, .mknod _ _ _⟩ | ⟨_, _, .chdir _⟩ | ⟨_, _, .exit⟩ =>
    inferInstanceAs (Decidable (_ ∧ False))

private theorem Plain.mayCall {σ : System} {e : Event} (h : Plain σ e) : MayCall sb σ e := by
  obtain ⟨pid, name, call⟩ := e
  refine ⟨h.1, ?_⟩
  have hc := h.2
  cases call with
  | close fd => trivial
  | dup fd => trivial
  | pipe page => exact fun q hq ↦ hc q hq
  | fork child => exact fun np hnp ↦ hc np hnp
  | _ => exact hc.elim

/-- Calls on the disk of `mkfs`, with no devices and nothing in pipes. -/
def diskStep : System → Event → Except CallPanic System :=
  eventStep mkfsSuperblock ⟨fun _ ↦ none, fun _ ↦ none⟩ ⟨fun _ _ ↦ none, fun _ _ _ ↦ none⟩

/-- A call on a path leaves the open files alone. -/
private theorem mkdir_file (σ : System) (p : Fin NPROC) (name : Nat → UInt8) :
    Lib.Ensures (diskStep σ ⟨p, name, .mkdir path⟩) (fun _ ↦ True)
      fun τ ↦ τ.file = σ.file := by
  show Lib.Ensures ((onPath σ p fun s cwd ↦
    sys_mkdir mkfsSuperblock ⟨fun _ ↦ none, fun _ ↦ none⟩ s cwd path name).map Prod.fst) _ _
  rw [Lib.Ensures.map_iff]
  unfold onPath
  cases cwdOf σ p with
  | error e => trivial
  | ok cwd =>
    show Lib.Ensures ((sys_mkdir _ _ σ.fs cwd path name).mapError CallPanic.dir >>= _) _ _
    cases sys_mkdir _ _ σ.fs cwd path name with
    | error e => trivial
    | ok r => rfl

/-- `init` makes a pipe and a second descriptor for its read end. Its child inherits all three and
closes the one for the write end. -/
def sharesPipe : List Event :=
  [⟨initproc, fun _ ↦ 0, .pipe (some 0)⟩, ⟨initproc, fun _ ↦ 0, .dup 0⟩,
    ⟨initproc, fun _ ↦ 0, .fork (some 1)⟩, ⟨1, fun _ ↦ 0, .close 1⟩]

/-- The system then. -/
def shared : System := Lib.final diskStep (rootSystem mkfsSuperblock) sharesPipe

private theorem shared_mayCall :
    MayCall mkfsSuperblock shared ⟨1, fun _ ↦ 0, .mkdir threeDots⟩ := by
  have hi : ROOTINO < mkfsSuperblock.ninodes := by decide
  have hroom : mkfsSuperblock.nmeta < mkfsSuperblock.size := by decide
  have hfs : shared.fs = idup (rootFs mkfsSuperblock) 0 := rfl
  have hblocks : shared.fs.blocks = (rootFs mkfsSuperblock).blocks := by rw [hfs]; rfl
  refine ⟨by decide +kernel, fun cwd hcwd ↦ ?_, ?_⟩
  · have hroot : (shared.proc 1).cwd = some 0 := rfl
    rw [hroot] at hcwd
    cases hcwd
    have hinum : (shared.fs.icache 0).inum = ((rootFs mkfsSuperblock).icache 0).inum := by
      rw [hfs, idup, icache_setInode_self]
    rw [Attached, hblocks, hinum]
    exact rootFs_attached hi hroom threeDots
  · rw [hblocks]
    exact rootFs_roomy hi hroom

end

end Xv6.Fs
