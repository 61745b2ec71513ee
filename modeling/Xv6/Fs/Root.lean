import Xv6.Fs.Fresh
import Xv6.Fs.System

/-!
# The first system

The file system as `mkfs` has it before it adds files, with nothing but the root directory, and
one process that works there. What holds between two calls holds of it, and also when there is a
file in the root.
-/

namespace Xv6.Fs

open Function Relation

open Mkfs (DIRSIZ T_DIR T_FILE ROOTINO)

section

variable (sb : Superblock)

/-- The root as `mkfs` allocates it: a directory with one link; `mkfs.c:223-235`. -/
def rootDinode : Dinode := { Dinode.fresh T_DIR with nlink := 1 }

/-- The disk with the root allocated; slot 0 refers to it. -/
def openRoot : State :=
  setInode (logWrite (emptyFs sb) (sb.IBLOCK ROOTINO)
    (writeDinode ((emptyFs sb).blocks (sb.IBLOCK ROOTINO)) (ROOTINO % IPB) rootDinode)) 0
    { rootDinode with inum := ROOTINO, ref := 1, valid := true }

/-- The entries of the root for itself and for its parent, which is the root; `mkfs.c:120-128`. -/
def rootData : List UInt8 := direntBytes ROOTINO (chars dot) ++ direntBytes ROOTINO (chars dotdot)

/-- The root gets its entries. -/
def makeRoot : Except Panic (State × Option Nat) :=
  writei sb ⟨fun _ ↦ none, fun _ ↦ none⟩ (openRoot sb) 0
    (fun j ↦ rootData.getD j 0) 0 32

/-- The file system with nothing but the root directory. -/
def rootFs : State := ((makeRoot sb).toOption.map Prod.fst).getD (openRoot sb)

/-- `"..."`, a name like any other. -/
def threeDots : CString := [period, period, period]

/-- Inode 2 has become an empty file with one link; no entry names it yet. -/
def unnamedFs : State :=
  logWrite (rootFs sb) (sb.IBLOCK 2) (writeDinode ((rootFs sb).blocks (sb.IBLOCK 2)) (2 % IPB)
    { Dinode.fresh T_FILE with nlink := 1 })

/-- The file gets its entry in the root, behind those that are there. -/
def nameFile : Except Panic (State × Option Nat) :=
  writei sb ⟨fun _ ↦ none, fun _ ↦ none⟩ (unnamedFs sb) 0
    (fun j ↦ (direntBytes 2 (chars threeDots)).getD j 0) 32 16

/-- The file system with the root directory and one file in it. -/
def fileFs : State := ((nameFile sb).toOption.map Prod.fst).getD (unnamedFs sb)

/-- One process, in the root directory and without files, as `userinit` leaves it. -/
def rootSystem : System where
  fs := rootFs sb
  file := fun _ ↦ { type := .FD_NONE, readable := false, writable := false, pipe := 0, ip := 0,
                    off := 0, ref := 0 }
  pipe := fun _ ↦ none
  proc := update (fun _ ↦ ⟨false, fun _ ↦ none, none⟩) initproc ⟨true, fun _ ↦ none, some 0⟩

/-- The node of the root directory. -/
def rootNode : Node := ⟨T_DIR, 1, rootData⟩

variable {sb}

/-! ### The root directory -/

theorem entries_rootData : entries rootData = [⟨ROOTINO, dot⟩, ⟨ROOTINO, dotdot⟩] := by decide

private theorem openRoot_slot : (openRoot sb).icache 0 =
    { rootDinode with inum := ROOTINO, ref := 1, valid := true } :=
  icache_setInode_self _ _

private theorem openRoot_dinode (j : Nat) : dinode sb (openRoot sb).blocks j =
    if j = ROOTINO then rootDinode else dinode sb (emptyFs sb).blocks j :=
  dinode_seed rfl (fun _ ↦ rfl) rfl j

private theorem openRoot_live (hi : ROOTINO < sb.ninodes) {j : Nat} :
    Live sb (openRoot sb).blocks j ↔ j = ROOTINO := by
  rw [Live, openRoot_dinode]
  by_cases hj : j = ROOTINO
  · rw [if_pos hj, hj]
    exact iff_of_true ⟨hi, by decide⟩ rfl
  · rw [if_neg hj]
    exact iff_of_false (fun h ↦ h.2 (type_emptyDisk h.1)) hj

private theorem openRoot_consistent (hi : ROOTINO < sb.ninodes) : Consistent sb (openRoot sb) := by
  apply ((emptyFs_consistent sb).seed (d := rootDinode) hi (type_emptyDisk hi) rfl (fun _ ↦ rfl)
    rfl).setInode
  refine fun _ ↦ ⟨hi, fun iq _ hq ↦ absurd hq (Nat.lt_irrefl 0), fun _ ↦ ⟨?_, by decide⟩⟩
  exact ((openRoot_dinode ROOTINO).trans (if_pos rfl)).symm

private theorem openRoot_ref (ip : Slot) :
    ((openRoot sb).icache ip).ref = ({0} : Multiset Slot).count ip := by
  by_cases hip : ip = 0
  · rw [hip, openRoot_slot]
    rfl
  · have hother : (openRoot sb).icache ip = (emptyFs sb).icache ip := update_of_ne hip _ _
    rw [Multiset.count_singleton, if_neg hip, hother]
    rfl

private theorem openRoot_holding (hi : ROOTINO < sb.ninodes) :
    Holding sb {0} (openRoot sb) := by
  refine ⟨openRoot_consistent hi, openRoot_ref, fun ip hip ↦ ?_⟩
  rw [Multiset.mem_singleton.mp hip, openRoot_slot]
  exact (openRoot_live hi).mpr rfl

private theorem openRoot_view (hi : ROOTINO < sb.ninodes) :
    view sb (openRoot sb).blocks = update (fun _ ↦ none) ROOTINO (some ⟨T_DIR, 1, []⟩) := by
  funext j
  by_cases hj : j = ROOTINO
  · have hl := (openRoot_live hi).mpr hj
    rw [hj] at hl ⊢
    rw [update_self, view_of_live hl, files, if_pos hl, openRoot_dinode, if_pos rfl]
    rfl
  · rw [update_of_ne hj, view_eq_none, openRoot_live hi]
    exact hj

/-- There is room for the entries of the root. -/
private theorem makeRoot_ok (hi : ROOTINO < sb.ninodes) (hroom : sb.nmeta < sb.size) :
    ∃ t, makeRoot sb = .ok (t, some 32) := by
  have hheld : Held (openRoot sb) 0 := by
    rw [Held, openRoot_slot]
    decide
  have hsize : ((openRoot sb).icache 0).size = 0 := by
    rw [openRoot_slot]
    rfl
  have hfree : (freeBlocks sb (openRoot sb).blocks).length = sb.size - sb.nmeta := by
    have hsame : freeBlocks sb (openRoot sb).blocks = freeBlocks sb (emptyFs sb).blocks := by
      apply freeBlocks_congr
      intro b hb
      apply used_congr _ hb
      intro x hx _
      exact blocks_seed hi rfl hx
    rw [hsame, freeBlocks_emptyFs, List.length_range']
  have hgrowth : (growth ROOTINO 0 1).length = 1 := by decide
  apply writei_ok (openRoot_consistent hi) hheld
  · rw [openRoot_slot]
    decide
  · rw [hsize]
    decide
  · have hblocks : blocksFor ((0 : UInt32).toNat + (32 : UInt32).toNat) = 1 := by decide
    have hempty : blocksFor 0 = 0 := by decide
    rw [hsize, hfree, hblocks, hempty, Nat.max_eq_right (Nat.zero_le 1)]
    rw [openRoot_slot]
    exact hgrowth.le.trans (by omega)

/-- With room for one inode and one block, the root can be made: it is the only inode in use, it
has one link, and its entries are the two dots. -/
theorem rootFs_spec (hi : ROOTINO < sb.ninodes) (hroom : sb.nmeta < sb.size) :
    Holding sb {0} (rootFs sb) ∧ ((rootFs sb).icache 0).inum = ROOTINO ∧
      ((rootFs sb).icache 0).valid = true ∧
      view sb (rootFs sb).blocks = update (fun _ ↦ none) ROOTINO (some rootNode) := by
  have hmem : (0 : Slot) ∈ ({0} : Multiset Slot) := Multiset.mem_singleton_self 0
  have hinum : ((openRoot sb).icache 0).inum = ROOTINO := by rw [openRoot_slot]
  have hnd : view sb (openRoot sb).blocks ROOTINO = some ⟨T_DIR, 1, []⟩ := by
    rw [openRoot_view hi, update_self]
  have hfiles : files sb (openRoot sb).blocks ROOTINO = [] := by
    rw [view_of_live ((openRoot_live hi).mpr rfl)] at hnd
    exact congrArg Node.data (Option.some.inj hnd)
  obtain ⟨t, ht⟩ := makeRoot_ok hi hroom
  have hfits : ¬WriteFails ((openRoot sb).icache 0).size (0 : UInt32).toNat
      (32 : UInt32).toNat := by
    rw [openRoot_slot]
    decide
  have hrefs := writei_refs ⟨fun _ ↦ none, fun _ ↦ none⟩ (openRoot_holding hi) hmem
    (by rw [openRoot_slot]) (by rw [openRoot_slot]; decide) (fun j ↦ rootData.getD j 0) hfits
  have hfs : rootFs sb = t := by
    rw [rootFs, ht]
    rfl
  rw [show writei sb _ (openRoot sb) 0 _ 0 32 = _ from ht] at hrefs
  obtain ⟨-, hh, hs, hview⟩ := Lib.Ensures.ok_iff.mp hrefs
  dsimp only at hh hs hview
  rw [hfs]
  refine ⟨hh, (hs 0 hmem).1.trans hinum, (hs 0 hmem).2 (by rw [openRoot_slot]), ?_⟩
  rw [hview, openRoot_view hi, hinum, hfiles, update_idem, openRoot_slot]
  rfl

/-! ### The tree of one directory -/

private theorem shape_root : shape (update (fun _ ↦ none) ROOTINO (some rootNode)) =
    update (fun _ ↦ none) ROOTINO (some (ROOTINO, 0)) := by
  have hroot : shapeOf (some rootNode) = some (ROOTINO, 0) := by
    rw [shapeOf, rootNode, if_pos (by decide), entries_rootData]
    rfl
  funext j
  by_cases hj : j = ROOTINO
  · rw [shape, hj, update_self, update_self, hroot]
  · rw [shape, update_of_ne hj, update_of_ne hj]
    rfl

/-- The root is its own parent, which its one link counts. -/
private theorem linksIn_root {n : Nat} (hi : ROOTINO < n) :
    linksIn n (update (fun _ ↦ none) ROOTINO (some rootNode)) = {ROOTINO} := by
  have hnone : Lib.allNames (Finset.range n) (fun _ ↦ none) = (0 : Multiset Nat) :=
    Finset.sum_eq_zero fun _ _ ↦ rfl
  have hadd := Lib.allNames_update (S := fun _ ↦ none) (Finset.mem_range.mpr hi)
    (some (ROOTINO, (0 : Multiset Nat)))
  have hnames : Lib.names (fun _ ↦ none) ROOTINO = (0 : Multiset Nat) := rfl
  rw [hnone, hnames, add_zero, zero_add] at hadd
  rw [linksIn, shape_root]
  exact hadd

private theorem hierarchy_root {n : Nat} (hi : ROOTINO < n) : Lib.Hierarchy (Finset.range n)
    ROOTINO (update (fun _ ↦ none) ROOTINO (some (ROOTINO, 0))) := by
  have honly : ∀ d, update (fun _ ↦ none) ROOTINO (some (ROOTINO, (0 : Multiset Nat))) d ≠ none →
      d = ROOTINO := by
    intro d hd
    by_contra hne
    exact hd (update_of_ne hne _ _)
  have hchildren : ∀ d, Lib.children (update (fun _ ↦ none) ROOTINO
      (some (ROOTINO, (0 : Multiset Nat)))) d = 0 := by
    intro d
    rw [Lib.children_update]
    split <;> rfl
  constructor
  · intro d hd
    rw [honly d hd]
    exact Finset.mem_range.mpr hi
  · exact ⟨0, update_self _ _ _⟩
  · intro c p es hc hne
    exact absurd (honly c (by rw [hc]; exact Option.some_ne_none _)) hne
  · intro d c hc
    rw [hchildren] at hc
    exact absurd hc (Multiset.notMem_zero c)
  · intro d hd
    rw [honly d hd]

private theorem root_only {i : Nat} {nd : Node}
    (h : update (fun _ ↦ none) ROOTINO (some rootNode) i = some nd) :
    i = ROOTINO ∧ nd = rootNode := by
  by_cases hi : i = ROOTINO
  · rw [hi, update_self] at h
    exact ⟨hi, (Option.some.inj h).symm⟩
  · rw [update_of_ne hi] at h
    cases h

/-- The tree with nothing but a root that names itself. -/
theorem tree_root {n : Nat} (hi : ROOTINO < n) :
    Tree n (update (fun _ ↦ none) ROOTINO (some rootNode)) := by
  constructor
  · intro i nd hnd
    rw [(root_only hnd).1]
    exact ⟨by decide, hi⟩
  · intro d nd hnd _ _
    rw [(root_only hnd).1, (root_only hnd).2]
    refine ⟨by decide, ⟨ROOTINO, [], entries_rootData⟩, ?_⟩
    rw [rootNode, entries_rootData]
    exact unique_dots _ _
  · intro i hmem
    rw [linksIn_root hi, Multiset.mem_singleton] at hmem
    rw [hmem, update_self]
    exact Option.some_ne_none _
  · intro i nd hnd
    rw [(root_only hnd).1, (root_only hnd).2, linksIn_root hi]
    rfl
  · rw [shape_root]
    exact hierarchy_root hi

/-! ### The file system -/

private theorem rootFs_only (hi : ROOTINO < sb.ninodes) (hroom : sb.nmeta < sb.size) {i : Nat}
    {nd : Node} (h : view sb (rootFs sb).blocks i = some nd) : nd = rootNode := by
  rw [(rootFs_spec hi hroom).2.2.2] at h
  exact (root_only h).2

theorem rootFs_intact (hi : ROOTINO < sb.ninodes) (hroom : sb.nmeta < sb.size) :
    Intact sb {0} (rootFs sb) := by
  obtain ⟨hh, -, -, hview⟩ := rootFs_spec hi hroom
  refine ⟨hh, ?_, fun i nd hnd hz ↦ ?_⟩
  · rw [hview]
    exact tree_root hi
  · rw [rootFs_only hi hroom hnd] at hz
    exact absurd hz (by decide)

/-- All paths start at the root. -/
theorem origin_rootFs (hi : ROOTINO < sb.ninodes) (hroom : sb.nmeta < sb.size) (path : CString) :
    origin ((rootFs sb).icache 0).inum path = ROOTINO := by
  rw [origin, (rootFs_spec hi hroom).2.1, ite_self]

theorem rootFs_attached (hi : ROOTINO < sb.ninodes) (hroom : sb.nmeta < sb.size)
    (path : CString) : Attached sb (rootFs sb) 0 path := by
  rw [Attached, origin_rootFs hi hroom, (rootFs_spec hi hroom).2.2.2]
  exact ⟨rootNode, update_self _ _ _, by decide⟩

theorem dirAt_rootFs (hi : ROOTINO < sb.ninodes) (hroom : sb.nmeta < sb.size) :
    dirAt (view sb (rootFs sb).blocks) ROOTINO = some [⟨ROOTINO, dot⟩, ⟨ROOTINO, dotdot⟩] := by
  rw [(rootFs_spec hi hroom).2.2.2]
  exact dirAt_eq_some.mpr ⟨rootNode, update_self _ _ _, rfl, entries_rootData.symm⟩

theorem rootFs_roomy (hi : ROOTINO < sb.ninodes) (hroom : sb.nmeta < sb.size) :
    Roomy (view sb (rootFs sb).blocks) := by
  intro i nd hnd
  rw [rootFs_only hi hroom hnd]
  decide

/-! ### The file system with a file -/

/-- The root with an entry for the file. -/
def homeNode : Node := ⟨T_DIR, 1, rootData ++ direntBytes 2 (chars threeDots)⟩

/-- The inodes in use when there is one file. -/
def fileView : Nat → Option Node :=
  update (update (update (fun _ ↦ none) ROOTINO (some rootNode)) 2 (some ⟨T_FILE, 1, []⟩))
    ROOTINO (some homeNode)

theorem entries_homeNode : entries homeNode.data =
    [⟨ROOTINO, dot⟩, ⟨ROOTINO, dotdot⟩, ⟨2, threeDots⟩] := by decide

private theorem fileView_root : fileView ROOTINO = some homeNode := update_self _ _ _

private theorem fileView_file : fileView 2 = some ⟨T_FILE, 1, []⟩ := by
  rw [fileView, update_of_ne (by decide), update_self]

private theorem unnamedFs_refs (hi : 2 < sb.ninodes) (hroom : sb.nmeta < sb.size) :
    Holding sb {0} (unnamedFs sb) ∧ Steady {0} (rootFs sb) (unnamedFs sb) ∧
      view sb (unnamedFs sb).blocks =
        update (update (fun _ ↦ none) ROOTINO (some rootNode)) 2 (some ⟨T_FILE, 1, []⟩) := by
  obtain ⟨hh, -, -, hview⟩ := rootFs_spec (Nat.lt_of_succ_lt hi) hroom
  have hnone : ¬Live sb (rootFs sb).blocks 2 := by
    rw [← view_eq_none, hview, update_of_ne (by decide)]
  have hfree : (dinode sb (rootFs sb).blocks 2).type = 0 := by
    by_contra hne
    exact hnone ⟨hi, hne⟩
  obtain ⟨ht, hs, -, hv⟩ := seed_refs hh hi hfree (d := { Dinode.fresh T_FILE with nlink := 1 })
    (t := unnamedFs sb) (by decide) rfl (fun _ ↦ rfl) rfl
  refine ⟨ht, hs, ?_⟩
  rw [hv, hview]
  rfl

/-- The file gets its name, for the block of the root has room for the entry. -/
theorem fileFs_spec (hi : 2 < sb.ninodes) (hroom : sb.nmeta < sb.size) :
    Holding sb {0} (fileFs sb) ∧ ((fileFs sb).icache 0).inum = ROOTINO ∧
      view sb (fileFs sb).blocks = fileView := by
  have hmem : (0 : Slot) ∈ ({0} : Multiset Slot) := Multiset.mem_singleton_self 0
  obtain ⟨-, hinum, hvalid, -⟩ := rootFs_spec (Nat.lt_of_succ_lt hi) hroom
  obtain ⟨hh, hs, hview⟩ := unnamedFs_refs hi hroom
  obtain ⟨hinum', hvalid'⟩ := hs 0 hmem
  have hv := hvalid' hvalid
  have hroot : ((unnamedFs sb).icache 0).inum = ROOTINO := hinum'.trans hinum
  have hnode : view sb (unnamedFs sb).blocks ((unnamedFs sb).icache 0).inum = some rootNode := by
    rw [hroot, hview, update_of_ne (by decide), update_self]
  obtain ⟨htype, hnlink, hfiles⟩ := hh.fields hmem hv hnode
  have hheld := hh.held hmem hv
  have hsize : ((unnamedFs sb).icache 0).size = 32 := by
    rw [← length_files_self hh.consistent hheld, hfiles]
    decide
  have hdev : ((unnamedFs sb).icache 0).type ≠ T_DEV := by
    rw [htype]
    decide
  have hfits : ¬WriteFails ((unnamedFs sb).icache 0).size (32 : UInt32).toNat
      (16 : UInt32).toNat := by
    rw [hsize]
    decide
  obtain ⟨t, ht⟩ : ∃ t, nameFile sb = .ok (t, some (16 : UInt32).toNat) := by
    apply writei_ok hh.consistent hheld _ hdev _ hfits
    rw [hsize]
    exact Nat.zero_le _
  have hrefs := writei_refs ⟨fun _ ↦ none, fun _ ↦ none⟩ hh hmem hv hdev
    (fun j ↦ (direntBytes 2 (chars threeDots)).getD j 0) hfits
  have hfs : fileFs sb = t := by
    rw [fileFs, ht]
    rfl
  rw [show writei sb _ (unnamedFs sb) 0 _ 32 16 = _ from ht] at hrefs
  obtain ⟨-, hh', hs', hview'⟩ := Lib.Ensures.ok_iff.mp hrefs
  dsimp only at hh' hs' hview'
  rw [hfs]
  refine ⟨hh', (hs' 0 hmem).1.trans hroot, ?_⟩
  rw [hview', hfiles, htype, hnlink, hroot, hview]
  rfl

private theorem tree_file {n : Nat} (hi : 2 < n) : Tree n fileView := by
  have hroot := tree_root (n := n) (Nat.lt_of_succ_lt hi)
  have hnew : Creates n ROOTINO 2 threeDots T_FILE
      (update (fun _ ↦ none) ROOTINO (some rootNode)) fileView := by
    refine ⟨rootNode, ⟨T_FILE, 1, []⟩, homeNode, ⟨update_self _ _ _, rfl, by decide⟩,
      ⟨by decide, hi⟩, update_of_ne (by decide) _ _, rfl, rfl, fun hc ↦ absurd hc (by decide),
      fun _ ↦ rfl, by decide, ?_, ⟨rfl, rfl, by decide, ?_⟩, rfl⟩
    · rw [rootNode, entries_rootData]
      decide
    · rw [entries_homeNode, rootNode, entries_rootData]
      decide
  exact hnew.tree hroot

/-- Each inode in use has one link. -/
private theorem fileView_links {i : Nat} {nd : Node} (h : fileView i = some nd) :
    nd.nlink = 1 := by
  by_cases hr : i = ROOTINO
  · rw [hr, fileView_root] at h
    cases h
    rfl
  · rw [fileView, update_of_ne hr] at h
    by_cases hf : i = 2
    · rw [hf, update_self] at h
      cases h
      rfl
    · rw [update_of_ne hf, update_of_ne hr] at h
      cases h

theorem fileFs_intact (hi : 2 < sb.ninodes) (hroom : sb.nmeta < sb.size) :
    Intact sb {0} (fileFs sb) := by
  obtain ⟨hh, -, hview⟩ := fileFs_spec hi hroom
  refine ⟨hh, ?_, fun i nd hnd hz ↦ ?_⟩
  · rw [hview]
    exact tree_file hi
  · rw [hview] at hnd
    rw [fileView_links hnd] at hz
    exact absurd hz (by decide)

theorem origin_fileFs (hi : 2 < sb.ninodes) (hroom : sb.nmeta < sb.size) (path : CString) :
    origin ((fileFs sb).icache 0).inum path = ROOTINO := by
  rw [origin, (fileFs_spec hi hroom).2.1, ite_self]

theorem fileFs_attached (hi : 2 < sb.ninodes) (hroom : sb.nmeta < sb.size) (path : CString) :
    Attached sb (fileFs sb) 0 path := by
  rw [Attached, origin_fileFs hi hroom, (fileFs_spec hi hroom).2.2]
  exact ⟨homeNode, fileView_root, by decide⟩

theorem fileFs_roomy (hi : 2 < sb.ninodes) (hroom : sb.nmeta < sb.size) :
    Roomy (view sb (fileFs sb).blocks) := by
  rw [(fileFs_spec hi hroom).2.2]
  intro i nd hnd
  rw [fileView_links hnd]
  decide

theorem dirAt_home : dirAt fileView ROOTINO ≠ none := by
  rw [dirAt_eq_some.mpr ⟨homeNode, fileView_root, rfl, rfl⟩]
  exact Option.some_ne_none _

/-- Names in the root are those of its entries. -/
theorem nameIn_fileView (nm : CString) : nameIn fileView ROOTINO nm =
    lookup [⟨ROOTINO, dot⟩, ⟨ROOTINO, dotdot⟩, ⟨2, threeDots⟩] nm := by
  rw [nameIn, dirAt_eq_some.mpr ⟨homeNode, fileView_root, rfl, rfl⟩, entries_homeNode]
  rfl

/-- The file is not a directory. -/
theorem dirAt_fileView : dirAt fileView 2 = none := by
  rw [dirAt, fileView_file]
  rfl

/-! ### The system -/

theorem rootSystem_proc (p : Fin NPROC) : (rootSystem sb).proc p =
    if p = initproc then ⟨true, fun _ ↦ none, some 0⟩ else ⟨false, fun _ ↦ none, none⟩ :=
  update_apply (fun _ : Fin NPROC ↦ Proc.mk false (fun _ ↦ none) none) initproc
    ⟨true, fun _ ↦ none, some 0⟩ p

private theorem cwds_rootSystem : cwds (rootSystem sb) = {0} := by
  have hothers : Lib.held Proc.dir (fun _ : Fin NPROC ↦ ⟨false, fun _ ↦ none, none⟩) = 0 :=
    Lib.held_eq_zero fun _ ↦ rfl
  have htake : cwds (rootSystem sb) =
      {0} + Lib.held Proc.dir fun _ : Fin NPROC ↦ ⟨false, fun _ ↦ none, none⟩ :=
    Lib.held_take (add_zero _).symm
  rw [htake, hothers, add_zero]

private theorem descriptors_rootSystem : descriptors (rootSystem sb) = 0 := by
  apply Lib.held_eq_zero
  intro p
  apply Lib.held_eq_zero
  intro fd
  rw [rootSystem_proc]
  split <;> rfl

/-- What holds between two calls holds of the first system. -/
theorem rootSystem_sound (hi : ROOTINO < sb.ninodes) (hroom : sb.nmeta < sb.size) :
    Sound sb (rootSystem sb) := by
  have hinodes : Lib.held OpenFile.inode (rootSystem sb).file = 0 :=
    Lib.held_eq_zero fun _ ↦ rfl
  have hends : Lib.held OpenFile.pipeEnd (rootSystem sb).file = 0 :=
    Lib.held_eq_zero fun _ ↦ rfl
  refine ⟨⟨⟨?_, ?_, fun _ _ ↦ rfl, ?_, ?_⟩, ?_, ?_⟩, fun p ↦ ?_⟩
  · rw [hinodes, cwds_rootSystem, zero_add, zero_add]
    exact rootFs_intact hi hroom
  · intro f
    rw [descriptors_rootSystem, add_zero]
    rfl
  · intro f hf
    cases hf
  · rw [hends]
    exact ⟨fun _ _ ↦ rfl, fun _ hp ↦ absurd rfl hp⟩
  · rw [descriptors_rootSystem]
    exact fun f hf ↦ absurd hf (Multiset.notMem_zero f)
  · rw [cwds_rootSystem]
    intro ip _ nd hnd
    rw [rootFs_only hi hroom hnd]
    rfl
  · rw [rootSystem_proc]
    split
    · exact ⟨fun _ ↦ ⟨0, rfl⟩, fun hd ↦ (by cases hd)⟩
    · exact ⟨fun hl ↦ (by cases hl), fun _ ↦ ⟨rfl, fun _ ↦ rfl⟩⟩

end

end Xv6.Fs
