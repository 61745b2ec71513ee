import Xv6.Mkfs.Files

/-!
# `main` of the builder

The root directory, the files of the command line, the size of the root directory and the free
map. `main_spec` says what a run that is not stopped has made of them.
-/

namespace Xv6.Mkfs

open Fs Function

/-- `T_DIR`; `stat.h:1`. -/
def T_DIR : Int16 := 1

/-- `T_FILE`; `stat.h:2`. -/
def T_FILE : Int16 := 2

/-- The number of inodes; `mkfs.c:18`. -/
abbrev NINODES : Nat := 200

/-- The inode number of the root directory; `fs.h:5`. -/
abbrev ROOTINO : Nat := 1

/-- Bytes of a name in a directory entry; `fs.h:53`. -/
abbrev DIRSIZ : Nat := 14

/-- A file of the command line: its argument, a C string, and what each `read` of up to `BSIZE`
bytes returns until one returns none. -/
structure Input where
  name : List UInt8
  reads : List (List UInt8)
  terminated : 0 ∉ name
  chunks : ∀ buf ∈ reads, 0 < buf.length ∧ buf.length ≤ BSIZE

/-- What ends `main` before it is done. -/
inductive Abort where
  /-- A call that works on the image does. -/
  | call (e : Halt)
  /-- `assert(rootino == ROOTINO)` fails. -/
  | rootino
  /-- `assert(index(argv[i], '/') == 0)` fails. -/
  | slash
  /-- `assert(used < BSIZE*8)` fails. -/
  | bitmap
  deriving DecidableEq

/-- `struct dirent`, with the name as `strncpy` copies it; `fs.h:55-58`. -/
def dirent (inum : Nat) (name : List UInt8) : List UInt8 :=
  [UInt8.ofNat inum, UInt8.ofNat (inum / 256)] ++ (name ++ List.replicate DIRSIZ 0).take DIRSIZ

/-- The bits below `used`; `mkfs.c:245-248`. -/
def bitmap (used : Nat) : Block := (List.range used).foldl Block.setBit Block.zero

section

variable (sb : Superblock)

/-- The root directory with its first two entries; `mkfs.c:117-128`. -/
def makeRoot : Except Abort (Image × Nat) := do
  let (img, rootino) ← (ialloc sb (formatted sb) T_DIR).mapError .call
  if rootino ≠ ROOTINO then
    .error .rootino
  else do
    let img ← (iappend sb img rootino (dirent rootino [UInt8.ofNat '.'.toNat])).mapError .call
    let img ← (iappend sb img rootino
      (dirent rootino [UInt8.ofNat '.'.toNat, UInt8.ofNat '.'.toNat])).mapError .call
    pure (img, rootino)

/-- A file of the command line; `mkfs.c:131-156`. -/
def addFile (rootino : Nat) (img : Image) (file : Input) : Except Abort Image :=
  if UInt8.ofNat '/'.toNat ∈ file.name then
    .error .slash
  else do
    let name :=
      if file.name.head? = some (UInt8.ofNat '_'.toNat) then file.name.tail else file.name
    let (img, inum) ← (ialloc sb img T_FILE).mapError .call
    let img ← (iappend sb img rootino (dirent inum name)).mapError .call
    file.reads.foldlM (fun img buf ↦ (iappend sb img inum buf).mapError .call) img

/-- The size of the root directory, rounded; `mkfs.c:158-163`. -/
def fixRoot (img : Image) (rootino : Nat) : Except Abort Image := do
  let din ← (rinode sb img rootino).mapError .call
  let off := din.size
  let off := (off / BSIZE + 1) * BSIZE
  (winode sb img rootino { din with size := off }).mapError .call

/-- Write the free map; `mkfs.c:237-251`. -/
def balloc (img : Image) : Except Abort Image :=
  if img.freeblock < BSIZE * 8 then
    .ok (wsect img sb.bmapstart (bitmap img.freeblock))
  else
    .error .bitmap

/-- The image made from the files of the command line; `mkfs.c:67-168`. -/
def main (files : List Input) : Except Abort Image := do
  let (img, rootino) ← makeRoot sb
  let img ← files.foldlM (addFile sb rootino) img
  let img ← fixRoot sb img rootino
  balloc sb img

end

@[simp] theorem length_dirent (inum : Nat) (name : List UInt8) : (dirent inum name).length = 16 := by
  simp only [dirent, List.length_append, List.length_cons, List.length_nil, List.length_take,
    List.length_replicate]
  show 0 + 1 + 1 + min 14 (name.length + 14) = 16
  omega

theorem root_pos : 0 < ROOTINO := Nat.one_pos

/-- The bytes of the file with inode number `i`, if it is not the root directory. -/
def contents (files : List Input) (i : Nat) : List UInt8 :=
  if i < 2 then [] else files[i - 2]?.elim [] fun file ↦ file.reads.flatten

/-- A few files of one block at most with plain names: no test of `main` stops it. -/
structure Bare (files : List Input) : Prop where
  few : files.length ≤ 30
  short : ∀ file ∈ files, file.reads.flatten.length ≤ BSIZE
  plain : ∀ file ∈ files, UInt8.ofNat '/'.toNat ∉ file.name

/-- The image has the root directory and the files `done`, and nothing else. -/
structure Built (sb : Superblock) (done : List Input) (f : Nat → List UInt8) (img : Image)
    (s : State) : Prop extends Holds sb f img s where
  inodes : img.freeinode = done.length + 2
  entries : (f ROOTINO).length = 16 * (done.length + 2)
  contents : ∀ i, i ≠ ROOTINO → f i = Mkfs.contents done i

/-- The next file has the next inode number. -/
theorem contents_append (done : List Input) (file : Input) :
    contents (done ++ [file]) = update (contents done) (done.length + 2) file.reads.flatten := by
  funext i
  unfold contents
  by_cases hi : i = done.length + 2
  · subst hi
    rw [update_self, if_neg (by omega)]
    simp
  · rw [update_of_ne hi]
    split
    · rfl
    · next h2 =>
      rcases Nat.lt_or_ge (i - 2) done.length with hlt | hge
      · rw [List.getElem?_append_left hlt]
      · rw [List.getElem?_eq_none hge, List.getElem?_eq_none]
        rw [List.length_append, List.length_singleton]
        omega

theorem contents_of_le {files : List Input} {i : Nat} (h : files.length + 2 ≤ i) :
    contents files i = [] := by
  unfold contents
  rw [if_neg (by omega), List.getElem?_eq_none (by omega)]
  rfl

theorem length_contents_le {files : List Input} {n : Nat}
    (h : ∀ file ∈ files, file.reads.flatten.length ≤ n) (i : Nat) :
    (contents files i).length ≤ n := by
  unfold contents
  split
  · exact Nat.zero_le n
  · cases hfile : files[i - 2]? with
    | none => exact Nat.zero_le n
    | some file => exact h file (List.mem_of_getElem? hfile)

section

variable {sb : Superblock} {img : Image} {s : State} {f : Nat → List UInt8}

/-- The size of an inode in use is the length of its file. -/
theorem Holds.size_eq (h : Holds sb f img s) {i : Nat} (hl : Live sb s.blocks i) :
    (dinode sb s.blocks i).size = (f i).length := by
  rw [← h.files, Fs.files, if_pos hl, List.length_map, List.length_range]

/-- With no file longer than a block, every block taken is the first of an inode. -/
theorem Holds.freeblock_le (h : Holds sb f img s) (hshort : ∀ i, (f i).length ≤ BSIZE) :
    img.freeblock ≤ sb.nmeta + img.freeinode := by
  have hpos := sb.nmeta_pos
  have hroom := h.shows.le
  have hfirst : ∀ x, sb.nmeta ≤ x ∧ x < img.freeblock →
      ∃ i, i < img.freeinode ∧ diskAt sb s.blocks (place i 0) = x := by
    rintro x ⟨hlo, hhi⟩
    have hu : used sb s.blocks x = true := by
      rw [h.shows.used x (by omega)]
      exact decide_eq_true hhi
    obtain ⟨⟨⟨i, k⟩, q⟩, hP, hx⟩ := (h.consistent.disk.owned.owns.used x hlo (by omega)).mp hu
    have hx' : diskAt sb s.blocks ((i, k), q) = x := hx
    have hz : diskAt sb s.blocks ((i, k), q) ≠ 0 := by omega
    have hl : Live sb s.blocks i := by
      by_contra hn
      have hroot : roots sb (dinode sb s.blocks) (i, k) = 0 := if_neg hn
      exact hz (Lib.ptr_eq_zero_of_root hroot q)
    obtain ⟨bn, hbn, -, hk, hq⟩ := (h.consistent.disk.mapped i hl k q hP).mp hz
    rw [h.size_eq hl] at hbn
    have hle : blocksFor (f i).length ≤ 1 := blocksFor_le (by have := hshort i; omega)
    have h0 : bn = 0 := by omega
    subst h0
    have hq' : q = [] := List.suffix_nil.mp hq
    refine ⟨i, ?_, ?_⟩
    · by_contra hge
      rw [Live, h.free i (by omega) hl.1] at hl
      exact hl.2 rfl
    · rw [← hx', hq', ← hk]
      rfl
  -- two blocks cannot stand at the same place
  choose! inode hlt hat using hfirst
  have hcard : (Finset.Ico sb.nmeta img.freeblock).card ≤ (Finset.range img.freeinode).card := by
    apply Finset.card_le_card_of_injOn inode
    · intro x hx
      rw [Finset.coe_Ico] at hx
      exact Finset.mem_coe.mpr (Finset.mem_range.mpr (hlt x hx))
    · intro x hx y hy hxy
      rw [Finset.coe_Ico] at hx hy
      rw [← hat x hx, ← hat y hy, hxy]
  rw [Nat.card_Ico, Finset.card_range] at hcard
  omega

/-! ### The parts of `main` -/

variable (hfit : sb.nmeta + sb.ninodes + 2 ≤ sb.size)

include hfit

theorem Holds.ialloc_ok (h : Holds sb f img s) {type : Int16} (ht : type ≠ 0)
    (hdev : type ≠ T_DEV) (hroom : img.freeinode < sb.ninodes) :
    ∃ img' t, ialloc sb img type = .ok (img', img.freeinode) ∧
      img'.freeinode = img.freeinode + 1 ∧ Holds sb f img' t := by
  have hfit' : sb.nmeta ≤ sb.size := by omega
  obtain ⟨img', t, hok, -, hinode, hnext⟩ := h.ialloc_spec hfit' ht hdev hroom
  refine ⟨img', t, ?_, hinode, hnext⟩
  unfold mkfsStep ialloc at hok
  unfold ialloc
  dsimp only at hok ⊢
  rw [winode_eq hfit' hroom] at hok ⊢
  cases hok
  rfl

/-- Bytes go to the end of a file; while every file fits into a block, there is room. -/
theorem Holds.append_short (h : Holds sb f img s) {inum : Nat} (hpos : 0 < inum)
    (hlt : inum < img.freeinode) {xp : List UInt8} (hxp : xp.length ≤ BSIZE) :
    Lib.Ensures (iappend sb img inum xp)
      (fun _ ↦ ¬∀ i, (update f inum (f inum ++ xp) i).length ≤ BSIZE)
      fun img' ↦ img'.freeinode = img.freeinode ∧
        ∃ t, Holds sb (update f inum (f inum ++ xp)) img' t := by
  have hint : BSIZE < 2 ^ 31 := by decide
  have hspec := h.iappend_spec (by omega) hpos hlt (Nat.lt_of_le_of_lt hxp hint)
  apply hspec.mono (fun _ hok ↦ hok)
  intro e herr hshort
  have hself := hshort inum
  rw [update_self, List.length_append] at hself
  have hbefore : ∀ i, (f i).length ≤ BSIZE := by
    intro i
    by_cases hi : i = inum
    · rw [hi]
      omega
    · have hother := hshort i
      rwa [update_of_ne hi] at hother
  have hfew := h.freeblock_le hbefore
  have hcount := h.count
  have hone : blocksFor ((f inum).length + xp.length) ≤ 1 := blocksFor_le (by omega)
  have hcap : BSIZE ≤ capacity := by decide
  rcases herr with ⟨-, hlong⟩ | ⟨-, hfull⟩ <;> omega

/-- An entry goes to the end of the root directory. -/
theorem Holds.append_entry (h : Holds sb f img s) (hlt : ROOTINO < img.freeinode) (inum : Nat)
    (name : List UInt8) :
    Lib.Ensures (iappend sb img ROOTINO (dirent inum name))
      (fun _ ↦ ¬((f ROOTINO).length + 16 ≤ BSIZE ∧ ∀ i, i ≠ ROOTINO → (f i).length ≤ BSIZE))
      fun img' ↦ img'.freeinode = img.freeinode ∧
        ∃ t, Holds sb (update f ROOTINO (f ROOTINO ++ dirent inum name)) img' t := by
  have hentry : (dirent inum name).length ≤ BSIZE := by
    rw [length_dirent]
    decide
  apply (h.append_short hfit root_pos hlt hentry).mono (fun _ hok ↦ hok)
  rintro e hno ⟨hroom, hshort⟩
  apply hno
  intro i
  by_cases hi : i = ROOTINO
  · rw [hi, update_self, List.length_append, length_dirent]
    exact hroom
  · rw [update_of_ne hi]
    exact hshort i hi

theorem makeRoot_spec (hnodes : 1 < sb.ninodes) :
    ∃ img f s, makeRoot sb = .ok (img, ROOTINO) ∧ Built sb [] f img s := by
  have hstart : Holds sb (fun _ ↦ []) (formatted sb) (emptyFs sb) :=
    formatted_holds (by omega) (by omega)
  obtain ⟨img₁, s₁, h₁, hinode₁, hold₁⟩ := hstart.ialloc_ok hfit
    (show T_DIR ≠ 0 by decide) (by decide) hnodes
  have hcount₁ : img₁.freeinode = 2 := hinode₁
  have hlt : ROOTINO < 2 := by decide
  have hdot := hold₁.append_entry hfit (by omega) ROOTINO [UInt8.ofNat '.'.toNat]
  cases h₂ : iappend sb img₁ ROOTINO (dirent ROOTINO [UInt8.ofNat '.'.toNat]) with
  | error e => exact absurd ⟨by decide, fun _ _ ↦ Nat.zero_le _⟩ (hdot.of_error h₂)
  | ok img₂ =>
    obtain ⟨hcount₂, s₂, hold₂⟩ := hdot.of_ok h₂
    have hdots := hold₂.append_entry hfit (by omega) ROOTINO
      [UInt8.ofNat '.'.toNat, UInt8.ofNat '.'.toNat]
    cases h₃ : iappend sb img₂ ROOTINO
        (dirent ROOTINO [UInt8.ofNat '.'.toNat, UInt8.ofNat '.'.toNat]) with
    | error e =>
      refine absurd ⟨?_, fun i hi ↦ ?_⟩ (hdots.of_error h₃)
      · rw [update_self, List.nil_append, length_dirent]
        decide
      · rw [update_of_ne hi]
        exact Nat.zero_le _
    | ok img₃ =>
      obtain ⟨hcount₃, s₃, hold₃⟩ := hdots.of_ok h₃
      refine ⟨img₃, _, s₃, ?_, hold₃, ?_, ?_, ?_⟩
      · apply Lib.bind_eq_ok.mpr ⟨(img₁, ROOTINO), by rw [h₁]; rfl, ?_⟩
        dsimp only
        rw [if_neg (not_not.mpr rfl)]
        apply Lib.bind_eq_ok.mpr ⟨img₂, by rw [h₂]; rfl, ?_⟩
        exact Lib.bind_eq_ok.mpr ⟨img₃, by rw [h₃]; rfl, rfl⟩
      · rw [hcount₃, hcount₂, hcount₁]
        rfl
      · rw [update_self, update_self, List.length_append, List.length_append, length_dirent,
          length_dirent]
        rfl
      · intro i hi
        rw [update_of_ne hi, update_of_ne hi]
        exact (ite_self _).symm

/-- The bytes of one file go to its inode. -/
private theorem reads_spec (h : Holds sb f img s) {inum : Nat} (hpos : 0 < inum)
    (hlt : inum < img.freeinode) (file : Input) :
    Lib.Ensures (file.reads.foldlM (fun img buf ↦ (iappend sb img inum buf).mapError .call) img)
      (fun _ : Abort ↦ ¬∀ i, (update f inum (f inum ++ file.reads.flatten) i).length ≤ BSIZE)
      fun img' ↦ img'.freeinode = img.freeinode ∧
        ∃ t, Holds sb (update f inum (f inum ++ file.reads.flatten)) img' t := by
  suffices hloop : Lib.Ensures
      (file.reads.foldlM (fun img buf ↦ (iappend sb img inum buf).mapError .call) img)
      (fun _ : Abort ↦ ¬∀ i, (update f inum (f inum ++ file.reads.flatten) i).length ≤ BSIZE)
      fun img' ↦ img'.freeinode = img.freeinode ∧ ∃ t,
        Holds sb (update f inum (f inum ++ (file.reads.take file.reads.length).flatten)) img' t by
    rwa [List.take_length] at hloop
  apply Lib.Ensures.foldlM (I := fun n img' ↦ img'.freeinode = img.freeinode ∧
    ∃ t, Holds sb (update f inum (f inum ++ (file.reads.take n).flatten)) img' t)
  · refine ⟨rfl, s, ?_⟩
    rw [List.take_zero, List.flatten_nil, List.append_nil, update_eq_self]
    exact h
  · rintro n hn img' ⟨hcount, t, hold⟩
    have hnext : f inum ++ (file.reads.take n).flatten ++ file.reads[n] =
        f inum ++ (file.reads.take (n + 1)).flatten := by
      rw [← List.take_append_getElem hn, List.flatten_append, List.flatten_singleton,
        List.append_assoc]
    have hone := hold.append_short hfit hpos (by omega)
      (file.chunks _ (List.getElem_mem hn)).2
    rw [update_self, update_idem, hnext] at hone
    rw [Lib.Ensures.mapError_iff]
    apply hone.mono
    · rintro img'' ⟨hcount', t', hold'⟩
      exact ⟨hcount'.trans hcount, t', hold'⟩
    · intro e hno hall
      apply hno
      intro i
      refine Nat.le_trans ?_ (hall i)
      by_cases hi : i = inum
      · have hsplit := congrArg List.flatten (List.take_append_drop (n + 1) file.reads)
        rw [List.flatten_append] at hsplit
        rw [hi, update_self, update_self, ← hsplit, ← List.append_assoc]
        exact (List.prefix_append _ _).length_le
      · rw [update_of_ne hi, update_of_ne hi]

theorem addFile_spec {done : List Input} {file : Input} (h : Built sb done f img s)
    (hnodes : done.length + 2 < sb.ninodes) :
    Lib.Ensures (addFile sb ROOTINO img file) (fun _ ↦ ¬Bare (done ++ [file]))
      fun img' ↦ ∃ g t, Built sb (done ++ [file]) g img' t := by
  have hroot : ROOTINO < done.length + 2 := Nat.succ_lt_succ (Nat.succ_pos _)
  have hnew : f (done.length + 2) = [] := by
    rw [h.contents _ (by omega), contents_of_le (Nat.le_refl _)]
  unfold addFile
  split
  · next hslash => exact fun hb ↦ hb.plain file (by simp) hslash
  · obtain ⟨img₁, s₁, h₁, hinode₁, hold₁⟩ := h.toHolds.ialloc_ok hfit
      (show T_FILE ≠ 0 by decide) (by decide) (by rw [h.inodes]; exact hnodes)
    rw [h.inodes] at h₁ hinode₁
    rw [h₁]
    have hentry := hold₁.append_entry hfit (by omega) (done.length + 2)
      (if file.name.head? = some (UInt8.ofNat '_'.toNat) then file.name.tail else file.name)
    have hshort : Bare (done ++ [file]) →
        16 * (done.length + 3) ≤ BSIZE ∧ ∀ i, i ≠ ROOTINO → (f i).length ≤ BSIZE := by
      intro hb
      have hfew : done.length + 1 ≤ 30 := by simpa using hb.few
      refine ⟨show 16 * (done.length + 3) ≤ 512 by omega, fun i hi ↦ ?_⟩
      rw [h.contents i hi]
      exact length_contents_le (fun x hx ↦ hb.short x (by simp [hx])) i
    apply Lib.Ensures.bind (Lib.Ensures.mapError_iff.mpr (hentry.mono (fun _ hok ↦ hok) ?_))
    rotate_left
    · intro e hno hb
      refine hno ⟨?_, (hshort hb).2⟩
      rw [h.entries]
      exact (hshort hb).1
    · rintro img₂ ⟨hcount₂, s₂, hold₂⟩
      have hloop := reads_spec hfit hold₂ (Nat.zero_lt_of_lt hroot) (by omega) file
      have hne : done.length + 2 ≠ ROOTINO := by omega
      rw [update_of_ne hne, hnew, List.nil_append] at hloop
      apply hloop.mono
      · rintro img₃ ⟨hcount₃, t, hold₃⟩
        refine ⟨_, t, hold₃, ?_, ?_, ?_⟩
        · rw [hcount₃, hcount₂, hinode₁, List.length_append, List.length_singleton]
        · rw [update_of_ne hne.symm, update_self, List.length_append, length_dirent, h.entries,
            List.length_append, List.length_singleton]
          omega
        · intro i hi
          rw [contents_append]
          by_cases he : i = done.length + 2
          · rw [he, update_self, update_self]
          · rw [update_of_ne he, update_of_ne he, update_of_ne hi]
            exact h.contents i hi
      · intro e hno hb
        obtain ⟨hroom, hothers⟩ := hshort hb
        apply hno
        intro i
        by_cases he : i = done.length + 2
        · rw [he, update_self]
          exact hb.short file (by simp)
        · rw [update_of_ne he]
          by_cases hi : i = ROOTINO
          · rw [hi, update_self, List.length_append, length_dirent, h.entries]
            exact hroom
          · rw [update_of_ne hi]
            exact hothers i hi

theorem addFiles_spec {files : List Input} (h : Built sb [] f img s)
    (hnodes : files.length + 2 ≤ sb.ninodes) :
    Lib.Ensures (files.foldlM (addFile sb ROOTINO) img) (fun _ ↦ ¬Bare files)
      fun img' ↦ ∃ g t, Built sb files g img' t := by
  suffices hloop : Lib.Ensures (files.foldlM (addFile sb ROOTINO) img) (fun _ ↦ ¬Bare files)
      fun img' ↦ ∃ g t, Built sb (files.take files.length) g img' t by
    rwa [List.take_length] at hloop
  apply Lib.Ensures.foldlM (I := fun n img' ↦ ∃ g t, Built sb (files.take n) g img' t) ⟨f, s, h⟩
  rintro n hn img' ⟨g, t, hbuilt⟩
  have hlen : (files.take n).length = n := by
    rw [List.length_take]
    omega
  have hone := @addFile_spec _ _ _ _ hfit _ files[n] hbuilt (by omega)
  rw [List.take_append_getElem hn] at hone
  apply hone.mono (fun _ hok ↦ hok)
  intro e hno hb
  refine hno ⟨?_, fun x hx ↦ hb.short x (List.mem_of_mem_take hx), fun x hx ↦
    hb.plain x (List.mem_of_mem_take hx)⟩
  have hfew := hb.few
  rw [List.length_take]
  omega

/-- What `fixRoot` and `balloc` make of the image with all files. -/
structure Finished (sb : Superblock) (img fin : Image) : Prop where
  freeinode : fin.freeinode = img.freeinode
  freeblock : fin.freeblock = img.freeblock
  few : img.freeblock < BSIZE * 8
  blocks : fin.blocks = update
    (update img.blocks (sb.IBLOCK ROOTINO)
      (writeDinode (img.blocks (sb.IBLOCK ROOTINO)) (ROOTINO % IPB)
        { dinode sb img.blocks ROOTINO with
          size := ((dinode sb img.blocks ROOTINO).size / BSIZE + 1) * BSIZE }))
    sb.bmapstart (bitmap img.freeblock)

/-- A run of `main` builds the files and finishes the image. -/
theorem main_spec {files : List Input} (hnodes : files.length + 2 ≤ sb.ninodes)
    (hfew : sb.nmeta + sb.ninodes < BSIZE * 8) :
    Lib.Ensures (main sb files) (fun _ ↦ ¬Bare files)
      fun fin ↦ ∃ img f s, Built sb files f img s ∧ Finished sb img fin := by
  obtain ⟨img₀, f₀, s₀, h₀, hbuilt₀⟩ := makeRoot_spec hfit (show 1 < sb.ninodes by omega)
  unfold main
  rw [h₀]
  apply Lib.Ensures.bind (addFiles_spec hfit hbuilt₀ hnodes)
  rintro img ⟨f, s, hbuilt⟩
  have hroot : ROOTINO < sb.ninodes := show 1 < sb.ninodes by omega
  unfold fixRoot
  rw [rinode_eq (by omega) hroot]
  show Lib.Ensures ((winode sb img ROOTINO _).mapError Abort.call >>= _) _ _
  rw [winode_eq (by omega) hroot]
  show Lib.Ensures (balloc sb _) _ _
  unfold balloc
  split
  · next hlt => exact ⟨img, f, s, hbuilt, rfl, rfl, hlt, rfl⟩
  · next hge =>
    intro hb
    apply hge
    have hle : img.freeblock ≤ sb.nmeta + img.freeinode := by
      apply hbuilt.freeblock_le
      intro i
      by_cases hi : i = ROOTINO
      · have hfiles := hb.few
        rw [hi, hbuilt.entries]
        show 16 * (files.length + 2) ≤ 512
        omega
      · rw [hbuilt.contents i hi]
        exact length_contents_le hb.short i
    exact Nat.lt_of_le_of_lt (Nat.le_trans hle (Nat.add_le_add_left hbuilt.count _)) hfew

end

end Xv6.Mkfs
