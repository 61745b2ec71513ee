import Xv6.Fs.Entries
import Xv6.Fs.Refs

/-!
# Directories

`dirlookup` and `dirlink` of `fs.c` and `isdirempty` of `sysfile.c`, which read the entries of
a directory one by one, and what they do to the list of its entries.
-/

namespace Xv6.Fs

open Function

open Mkfs (DIRSIZ T_DIR T_FILE ROOTINO)

/-- What keeps a call on directories from returning: its panics, those below, and a wait that has
no end. -/
inductive DirPanic where
  | fs (e : Panic)
  /-- "dirlookup not DIR". -/
  | dirlookupNotDir
  /-- "dirlookup read". -/
  | dirlookupRead
  /-- "dirlink read". -/
  | dirlinkRead
  /-- "dirlink". -/
  | dirlink
  /-- "isdirempty: readi". -/
  | isdiremptyReadi
  /-- "unlink: nlink < 1". -/
  | unlinkNlink
  /-- "unlink: writei". -/
  | unlinkWritei
  /-- "create dots". -/
  | createDots
  /-- "create: dirlink". -/
  | createDirlink
  /-- `acquiresleep` of a lock that the process itself holds: nobody will wake it up. -/
  | deadlock
  deriving DecidableEq

section

variable (sb : Superblock) (dev : Devsw)

/-- `if(readi(dp, (char*)&de, off, sizeof(de)) != sizeof(de)) panic(e)`. -/
def readDirent (s : State) (dp : Slot) (off : Nat) (e : DirPanic) :
    Except DirPanic (State × Dirent) := do
  let (s, r) ← (readi sb dev s dp (UInt32.ofNat off) 16).mapError .fs
  match r with
  | some (n, de) => if n ≠ 16 then .error e else .ok (s, Dirent.ofBytes de)
  | none => .error e

/-- `if(writei(dp, (char*)&de, off, sizeof(de)) != sizeof(de)) panic(e)`. -/
def writeDirent (s : State) (dp : Slot) (off : Nat) (de : List UInt8) (e : DirPanic) :
    Except DirPanic State := do
  let (s, r) ← (writei sb dev s dp (fun j ↦ de.getD j 0) (UInt32.ofNat off) 16).mapError .fs
  if r ≠ some 16 then .error e else .ok s

/-- The number of rounds of a loop from `off` to the size of `dp` in steps of 16; reading does
not change the size. -/
def rounds (s : State) (dp : Slot) (off : Nat) : Nat := ((s.icache dp).size - off + 15) / 16

/-- The loop of `dirlookup` from `off` on, with `n` rounds to go; `fs.c:650-662`. -/
def dirlookupLoop (s : State) (dp : Slot) (name : Nat → UInt8) :
    Nat → Nat → Except DirPanic (State × Option (Slot × Nat))
  | 0, _ => .ok (s, none)
  | n + 1, off => do
    let (s, de) ← readDirent sb dev s dp off .dirlookupRead
    if de.inum = 0 then
      dirlookupLoop s dp name n (off + 16)
    else if namecmp name de.name = 0 then do
      let (s, ip) ← (iget s de.inum).mapError .fs
      pure (s, some (ip, off))
    else
      dirlookupLoop s dp name n (off + 16)

/-- Look for a directory entry: its inode and its offset; `fs.c:641-665`. -/
def dirlookup (s : State) (dp : Slot) (name : Nat → UInt8) :
    Except DirPanic (State × Option (Slot × Nat)) :=
  if (s.icache dp).type ≠ T_DIR then .error .dirlookupNotDir
  else dirlookupLoop sb dev s dp name (rounds s dp 0) 0

/-- The loop of `dirlink` that looks for an empty `struct dirent`; `fs.c:682-687`. -/
def vacantLoop (s : State) (dp : Slot) : Nat → Nat → Except DirPanic (State × Nat)
  | 0, off => .ok (s, off)
  | n + 1, off => do
    let (s, de) ← readDirent sb dev s dp off .dirlinkRead
    if de.inum = 0 then pure (s, off) else vacantLoop s dp n (off + 16)

/-- Write a new directory entry into `dp`, which the caller has locked; false for -1;
`fs.c:668-695`. -/
def dirlink (s : State) (dp : Slot) (name : Nat → UInt8) (inum : Nat) :
    Except DirPanic (State × Bool) := do
  let (s, r) ← dirlookup sb dev s dp name
  match r with
  | some (ip, _) =>
    -- `iput` takes the lock of the inode before anything else
    if ip = dp then
      .error .deadlock
    else do
      let s ← (iput sb s ip).mapError .fs
      pure (s, false)
  | none => do
    let (s, off) ← vacantLoop sb dev s dp (rounds s dp 0) 0
    let s ← writeDirent sb dev s dp off (direntBytes inum name) .dirlink
    pure (s, true)

/-- The loop of `isdirempty`; `sysfile.c:198-203`. -/
def emptyLoop (s : State) (dp : Slot) : Nat → Nat → Except DirPanic (State × Bool)
  | 0, _ => .ok (s, true)
  | n + 1, off => do
    let (s, de) ← readDirent sb dev s dp off .isdiremptyReadi
    if de.inum ≠ 0 then pure (s, false) else emptyLoop s dp n (off + 16)

/-- Is the directory empty except for its first two entries; `sysfile.c:192-205`. -/
def isdirempty (s : State) (dp : Slot) : Except DirPanic (State × Bool) :=
  emptyLoop sb dev s dp (rounds s dp 32) 32

end

section

variable {sb : Superblock} {s t : State} {ip dp : Slot} {H : Multiset Slot} {nd : Node}

/-- The slot is a locked directory with the given node. -/
structure LockedDir (sb : Superblock) (s : State) (dp : Slot) (nd : Node) : Prop where
  valid : (s.icache dp).valid = true
  node : view sb s.blocks (s.icache dp).inum = some nd
  dir : nd.type = T_DIR
  aligned : 16 ∣ nd.data.length

private theorem type_eq (h : Holding sb H s) (hdp : dp ∈ H) (hl : LockedDir sb s dp nd) :
    (s.icache dp).type = T_DIR :=
  (h.fields hdp hl.valid hl.node).1.trans hl.dir

private theorem files_eq (h : Holding sb H s) (hdp : dp ∈ H) (hl : LockedDir sb s dp nd) :
    files sb s.blocks (s.icache dp).inum = nd.data :=
  (h.fields hdp hl.valid hl.node).2.2

private theorem size_eq (h : Holding sb H s) (hdp : dp ∈ H) (hl : LockedDir sb s dp nd) :
    (s.icache dp).size = nd.data.length := by
  rw [← files_eq h hdp hl, length_files_self h.consistent (h.held hdp hl.valid)]

private theorem dir_ne_dev (h : Holding sb H s) (hdp : dp ∈ H) (hl : LockedDir sb s dp nd) :
    (s.icache dp).type ≠ T_DEV := by
  rw [type_eq h hdp hl]
  decide

/-- An offset in a directory is small. -/
private theorem toNat_off (h : Holding sb H s) (hdp : dp ∈ H) (hl : LockedDir sb s dp nd) {k : Nat}
    (hk : k ≤ nd.data.length / 16) : (UInt32.ofNat (16 * k)).toNat = 16 * k := by
  have hsize := h.consistent.size_le (h.held hdp hl.valid)
  have hmax : MAXFILE * BSIZE = 1082201088 := rfl
  rw [size_eq h hdp hl] at hsize
  apply UInt32.toNat_ofNat_of_lt'
  show 16 * k < 4294967296
  omega

/-- Each entry can be read, and reading it changes nothing. -/
private theorem readDirent_eq (dev : Devsw) (h : Holding sb H s) (hdp : dp ∈ H)
    (hl : LockedDir sb s dp nd) {k : Nat} (hk : k < nd.data.length / 16) (e : DirPanic) :
    readDirent sb dev s dp (16 * k) e = .ok (s, direntAt nd.data k) := by
  have hoff := toNat_off h hdp hl hk.le
  have hread := @readi_spec sb dp s (UInt32.ofNat (16 * k)) 16 h.consistent (h.held hdp hl.valid)
    dev (dir_ne_dev h hdp hl)
  have hsize := h.consistent.size_le (h.held hdp hl.valid)
  have hmax : MAXFILE * BSIZE = 1082201088 := rfl
  have h16 : (16 : UInt32).toNat = 16 := rfl
  rw [size_eq h hdp hl] at hsize
  rw [files_eq h hdp hl, hoff, h16, readSpec, if_neg (by omega),
    Nat.min_eq_left (by omega)] at hread
  rw [readDirent, hread]
  rfl

private theorem entries_drop {k : Nat} (hk : k < nd.data.length / 16) :
    (entries nd.data).drop k = (direntAt nd.data k).entry :: (entries nd.data).drop (k + 1) := by
  have hlen := length_entries nd.data
  rw [List.drop_eq_getElem_cons (by omega)]
  congr 1
  simp [entries]

private theorem drop_length (nd : Node) : (entries nd.data).drop (nd.data.length / 16) = [] :=
  List.drop_eq_nil_of_le (length_entries nd.data).le

/-- The loop of `dirlink` ends at the first vacant entry. -/
private theorem vacantLoop_eq (dev : Devsw) (h : Holding sb H s) (hdp : dp ∈ H)
    (hl : LockedDir sb s dp nd) {n k : Nat} (hn : k + n = nd.data.length / 16) :
    vacantLoop sb dev s dp n (16 * k) =
      .ok (s, 16 * (k + vacancy ((entries nd.data).drop k))) := by
  induction n generalizing k with
  | zero =>
    rw [show k = nd.data.length / 16 from hn, drop_length]
    rfl
  | succ n ih =>
    have hk : k < nd.data.length / 16 := by omega
    have hrest := ih (k := k + 1) (by omega)
    rw [vacantLoop, readDirent_eq dev h hdp hl hk, entries_drop hk, vacancy, List.findIdx_cons]
    by_cases hz : (direntAt nd.data k).inum = 0
    · have hz' : (direntAt nd.data k).entry.inum = 0 := hz
      simp only [bind, Except.bind, hz', decide_true, cond_true]
      rw [if_pos hz]
      rfl
    · have hz' : ¬(direntAt nd.data k).entry.inum = 0 := hz
      simp only [bind, Except.bind, hz', decide_false, cond_false]
      rw [if_neg hz, show 16 * k + 16 = 16 * (k + 1) from rfl, hrest, vacancy]
      congr 2
      omega

/-- `isdirempty` looks at all entries from the third on. -/
private theorem emptyLoop_eq (dev : Devsw) (h : Holding sb H s) (hdp : dp ∈ H)
    (hl : LockedDir sb s dp nd) {n k : Nat} (hn : k + n = nd.data.length / 16) :
    emptyLoop sb dev s dp n (16 * k) =
      .ok (s, decide (∀ e ∈ (entries nd.data).drop k, e.inum = 0)) := by
  induction n generalizing k with
  | zero =>
    rw [show k = nd.data.length / 16 from hn, drop_length]
    rfl
  | succ n ih =>
    have hk : k < nd.data.length / 16 := by omega
    have hrest := ih (k := k + 1) (by omega)
    have hinum : (direntAt nd.data k).entry.inum = (direntAt nd.data k).inum := rfl
    rw [emptyLoop, readDirent_eq dev h hdp hl hk, entries_drop hk]
    simp only [bind, Except.bind, List.forall_mem_cons, hinum]
    by_cases hz : (direntAt nd.data k).inum = 0
    · rw [if_neg (not_not.mpr hz), show 16 * k + 16 = 16 * (k + 1) from rfl, hrest]
      simp only [hz, true_and]
    · rw [if_pos hz]
      simp only [hz, false_and, decide_false]
      rfl

/-- The loop of `dirlookup` passes over all entries when none has the name. -/
private theorem dirlookupLoop_none (dev : Devsw) (h : Holding sb H s) (hdp : dp ∈ H)
    (hl : LockedDir sb s dp nd) {name : Nat → UInt8} {n k : Nat} (hn : k + n = nd.data.length / 16)
    (hs : search ((entries nd.data).drop k) (stringAt name DIRSIZ) = none) :
    dirlookupLoop sb dev s dp name n (16 * k) = .ok (s, none) := by
  induction n generalizing k with
  | zero => rfl
  | succ n ih =>
    have hk : k < nd.data.length / 16 := by omega
    have hno := search_eq_none.mp hs
    rw [entries_drop hk, List.forall_mem_cons] at hno
    have hrest := ih (k := k + 1) (by omega) (search_eq_none.mpr hno.2)
    rw [dirlookupLoop, readDirent_eq dev h hdp hl hk]
    simp only [bind, Except.bind]
    by_cases hz : (direntAt nd.data k).inum = 0
    · rw [if_pos hz]
      exact hrest
    · have hname : ¬namecmp name (direntAt nd.data k).name = 0 := fun hc ↦
        hno.1 ⟨hz, (namecmp_eq_zero.mp hc).symm⟩
      rw [if_neg hz, if_neg hname]
      exact hrest

/-- The loop of `dirlookup` stops at the first entry with the name. -/
private theorem dirlookupLoop_some (dev : Devsw) (h : Holding sb H s) (hdp : dp ∈ H)
    (hl : LockedDir sb s dp nd) {name : Nat → UInt8} {n k j : Nat} {e : Entry}
    (hn : k + n = nd.data.length / 16)
    (hs : search ((entries nd.data).drop k) (stringAt name DIRSIZ) = some j)
    (he : ((entries nd.data).drop k)[j]? = some e) :
    dirlookupLoop sb dev s dp name n (16 * k) = (do
      let (s, ip) ← (iget s e.inum).mapError .fs
      pure (s, some (ip, 16 * (k + j)))) := by
  induction n generalizing k j with
  | zero =>
    rw [show k = nd.data.length / 16 from hn, drop_length] at he
    cases he
  | succ n ih =>
    have hk : k < nd.data.length / 16 := by omega
    rw [entries_drop hk] at hs he
    rw [dirlookupLoop, readDirent_eq dev h hdp hl hk]
    simp only [bind, Except.bind]
    rw [search, List.findIdx?_cons] at hs
    by_cases hnames : (direntAt nd.data k).entry.Names (stringAt name DIRSIZ)
    · rw [if_pos (decide_eq_true hnames)] at hs
      cases hs
      cases he
      have hz : ¬(direntAt nd.data k).inum = 0 := hnames.1
      rw [if_neg hz, if_pos (namecmp_eq_zero.mpr hnames.2.symm)]
      rfl
    · rw [if_neg (by simpa using hnames), Option.map_eq_some_iff] at hs
      obtain ⟨i, hi, rfl⟩ := hs
      have hrest := ih (k := k + 1) (by omega) hi he
      rw [show k + 1 + i = k + (i + 1) by omega] at hrest
      by_cases hz : (direntAt nd.data k).inum = 0
      · rw [if_pos hz]
        exact hrest
      · have hname : ¬namecmp name (direntAt nd.data k).name = 0 := fun hc ↦
          hnames ⟨hz, (namecmp_eq_zero.mp hc).symm⟩
        rw [if_neg hz, if_neg hname]
        exact hrest

theorem rounds_eq (h : Holding sb H s) (hdp : dp ∈ H) (hl : LockedDir sb s dp nd) {k : Nat} :
    rounds s dp (16 * k) = nd.data.length / 16 - k := by
  have hdvd := hl.aligned
  rw [rounds, size_eq h hdp hl]
  omega

/-- What `dirlookup` returns: a reference to the inode that the entries give to the name, with
the place of its entry, or none. -/
def Found (sb : Superblock) (H : Multiset Slot) (es : List Entry) (n : CString) (t : State) :
    Option (Slot × Nat) → Prop
  | none => search es n = none ∧ Holding sb H t
  | some (ip, off) => Holding sb (ip ::ₘ H) t ∧ lookup es n = some (t.icache ip).inum ∧
      ∃ k, search es n = some k ∧ off = 16 * k

/-- `dirlookup` finds what the entries give to the name. -/
theorem dirlookup_spec (dev : Devsw) (h : Holding sb H s) (hdp : dp ∈ H)
    (hl : LockedDir sb s dp nd) (name : Nat → UInt8)
    (hlive : ∀ i, lookup (entries nd.data) (stringAt name DIRSIZ) = some i → Live sb s.blocks i) :
    Lib.Ensures (dirlookup sb dev s dp name) (· = .fs .igetNoInodes) fun r ↦
      Steady H s r.1 ∧ r.1.blocks = s.blocks ∧
        Found sb H (entries nd.data) (stringAt name DIRSIZ) r.1 r.2 := by
  have hrounds := rounds_eq (k := 0) h hdp hl
  rw [Nat.mul_zero] at hrounds
  rw [dirlookup, if_neg (not_not.mpr (type_eq h hdp hl)), hrounds]
  cases hs : search (entries nd.data) (stringAt name DIRSIZ) with
  | none =>
    have hloop := dirlookupLoop_none (k := 0) dev h hdp hl (Nat.zero_add _) hs
    rw [Nat.sub_zero, hloop]
    exact ⟨Steady.refl H s, rfl, hs, h⟩
  | some k =>
    obtain ⟨e, he, -, hlook⟩ := search_eq_some hs
    have hloop := dirlookupLoop_some (k := 0) dev h hdp hl (Nat.zero_add _) hs he
    rw [Nat.zero_add] at hloop
    rw [Nat.sub_zero, hloop]
    have higet := iget_refs h (hlive _ hlook)
    apply Lib.Ensures.bind (Lib.Ensures.mapError_iff.mpr (higet.mono (fun _ hr ↦ hr) ?_))
    · rintro ⟨t, ip⟩ ⟨hh, hsteady, hb, hinum⟩
      dsimp only at hh hsteady hb hinum
      refine ⟨hsteady, hb, hh, ?_, k, hs, rfl⟩
      rw [hlook, hinum]
    · rintro err rfl
      rfl

/-- `isdirempty` says whether all entries from the third on are vacant. -/
theorem isdirempty_eq (dev : Devsw) (h : Holding sb H s) (hdp : dp ∈ H)
    (hl : LockedDir sb s dp nd) (hlen : 2 ≤ nd.data.length / 16) :
    isdirempty sb dev s dp =
      .ok (s, decide (∀ e ∈ (entries nd.data).drop 2, e.inum = 0)) := by
  rw [isdirempty, show 32 = 16 * 2 from rfl, rounds_eq h hdp hl]
  exact emptyLoop_eq dev h hdp hl (by omega)

/-- Writing over an entry takes no block. -/
private theorem writei_entry (dev : Devsw) (h : Holding sb H s) (hdp : dp ∈ H)
    (hl : LockedDir sb s dp nd) {k : Nat} (hk : k < nd.data.length / 16) (src : Nat → UInt8) :
    ∃ t, writei sb dev s dp src (UInt32.ofNat (16 * k)) 16 = .ok (t, some 16) := by
  have hoff := toNat_off h hdp hl hk.le
  have hheld := h.held hdp hl.valid
  have hsize := h.consistent.size_le hheld
  have hmax : MAXFILE * BSIZE = 1082201088 := rfl
  have h16 : (16 : UInt32).toNat = 16 := rfl
  have hmono : blocksFor (16 * k + 16) ≤ blocksFor nd.data.length := blocksFor_mono (by omega)
  rw [size_eq h hdp hl] at hsize
  apply writei_ok h.consistent hheld dev (dir_ne_dev h hdp hl) src
  · rw [hoff, h16, size_eq h hdp hl, WriteFails]
    omega
  · rw [hoff, h16, size_eq h hdp hl, Nat.max_eq_left hmono, growth, Nat.sub_self]
    exact Nat.zero_le _

/-- Writing an entry of a directory puts it in the list of entries; it fails only at the end of
the directory, for want of blocks or because the directory has its largest size. -/
theorem writeDirent_spec (dev : Devsw) (h : Holding sb H s) (hdp : dp ∈ H)
    (hl : LockedDir sb s dp nd) {k : Nat} (hk : k ≤ nd.data.length / 16) {de : List UInt8}
    (hde : de.length = 16) (e : DirPanic) :
    Lib.Ensures (writeDirent sb dev s dp (16 * k) de e)
      (fun e' ↦ k = nd.data.length / 16 ∧
        (e' = .fs .outOfBlocks ∨ e' = e ∧ nd.data.length = MAXFILE * BSIZE)) fun t ↦
      Holding sb H t ∧ Steady H s t ∧
        view sb t.blocks = update (view sb s.blocks) (s.icache dp).inum
          (some ⟨T_DIR, nd.nlink, overwrite nd.data (16 * k) de⟩) := by
  have hoff := toNat_off h hdp hl hk
  have hsize := h.consistent.size_le (h.held hdp hl.valid)
  have hmax : MAXFILE * BSIZE = 1082201088 := rfl
  have h16 : (16 : UInt32).toNat = 16 := rfl
  have hdvd := hl.aligned
  rw [size_eq h hdp hl] at hsize
  unfold writeDirent
  by_cases hf : WriteFails (s.icache dp).size (UInt32.ofNat (16 * k)).toNat (16 : UInt32).toNat
  · rw [writei_fails dev (dir_ne_dev h hdp hl) _ hf]
    rw [hoff, h16, size_eq h hdp hl, WriteFails] at hf
    exact ⟨by omega, Or.inr ⟨rfl, by omega⟩⟩
  · have hrefs := writei_refs dev h hdp hl.valid (dir_ne_dev h hdp hl) (fun j ↦ de.getD j 0) hf
    have hwrite := hrefs.because (P := k = nd.data.length / 16) fun e' he' ↦ by
      by_contra hne
      have hlt : k < nd.data.length / 16 := by omega
      obtain ⟨t, ht⟩ := writei_entry dev h hdp hl hlt fun j ↦ de.getD j 0
      rw [ht] at he'
      cases he'
    apply Lib.Ensures.bind (Lib.Ensures.mapError_iff.mpr (hwrite.mono (fun _ hr ↦ hr) ?_))
    · rintro ⟨t, r⟩ ⟨hr, hh, hsteady, hview⟩
      dsimp only at hr hh hsteady hview ⊢
      have hbytes : (List.range (16 : UInt32).toNat).map (fun j ↦ de.getD j 0) = de := by
        apply List.ext_getElem
        · rw [List.length_map, List.length_range, hde, h16]
        · intro j h1 h2
          simp [List.getElem?_eq_getElem h2]
      rw [hbytes, hoff, files_eq h hdp hl, type_eq h hdp hl,
        (h.fields hdp hl.valid hl.node).2.1] at hview
      rw [if_neg (by simp [hr])]
      exact ⟨hh, hsteady, hview⟩
    · rintro e' ⟨hend, rfl⟩
      exact ⟨hend, Or.inl rfl⟩

/-- The panics of `dirlink`: a table or the disk is full, or the directory has its largest
size. -/
def LinkFails (e : DirPanic) : Prop :=
  e = .fs .igetNoInodes ∨ e = .fs .outOfBlocks ∨ e = .dirlink

/-- What `dirlink` does: nothing when the name is that of another inode, else it gives the inode to
the name in the first vacant place. -/
def Linked (sb : Superblock) (s t : State) (dp : Slot) (nd : Node) (e : Entry) : Bool → Prop
  | false => (∃ i, lookup (entries nd.data) e.name = some i ∧ i ≠ (s.icache dp).inum) ∧
      t.blocks = s.blocks
  | true => search (entries nd.data) e.name = none ∧ ∃ nd', LockedDir sb t dp nd' ∧
      nd'.nlink = nd.nlink ∧
      entries nd'.data = put (entries nd.data) (vacancy (entries nd.data)) e ∧
      view sb t.blocks = update (view sb s.blocks) (s.icache dp).inum (some nd')

/-- `dirlink` adds an entry or finds that there is one; the inodes that the directory names have
links, so none of them goes. It waits for itself when the name is that of the directory. -/
theorem dirlink_spec (dev : Devsw) (h : Holding sb H s) (hdp : dp ∈ H)
    (hl : LockedDir sb s dp nd) (name : Nat → UInt8) {inum : Nat} (hi : inum < 65536)
    (hlinks : ∀ i, lookup (entries nd.data) (stringAt name DIRSIZ) = some i →
      ∃ nd', view sb s.blocks i = some nd' ∧ nd'.nlink ≠ 0) :
    Lib.Ensures (dirlink sb dev s dp name inum)
      (fun e ↦ LinkFails e ∨ e = .deadlock ∧
        lookup (entries nd.data) (stringAt name DIRSIZ) = some (s.icache dp).inum) fun r ↦
      Holding sb H r.1 ∧ Steady H s r.1 ∧
        Linked sb s r.1 dp nd ⟨inum, stringAt name DIRSIZ⟩ r.2 := by
  have hlook := dirlookup_spec dev h hdp hl name fun i hi ↦ by
    obtain ⟨nd', hnd', -⟩ := hlinks i hi
    exact live_of_view hnd'
  unfold dirlink
  apply Lib.Ensures.bind (hlook.mono (fun _ hr ↦ hr) fun e he ↦ Or.inl (Or.inl he))
  rintro ⟨t, r⟩ ⟨hsteady, hb, hfound⟩
  dsimp only at hsteady hb hfound ⊢
  cases r with
  | some r =>
    obtain ⟨ip, off⟩ := r
    obtain ⟨hh, hlookup, -⟩ := hfound
    obtain ⟨nd', hnd', hnz⟩ := hlinks _ hlookup
    dsimp only
    have hdpt : (t.icache dp).inum = (s.icache dp).inum := (hsteady dp hdp).1
    by_cases hself : ip = dp
    · rw [if_pos hself]
      refine Or.inr ⟨rfl, ?_⟩
      rw [hlookup, hself, hdpt]
    · have hne : (t.icache ip).inum ≠ (s.icache dp).inum := by
        rw [← hdpt]
        exact hh.inum_ne (Multiset.mem_cons_self ip H) (Multiset.mem_cons_of_mem hdp) hself
      rw [← hb] at hnd'
      have hiput := iput_refs hh hnd' hnz fun _ ↦ False
      rw [if_neg hself]
      apply Lib.Ensures.bind (Lib.Ensures.mapError_iff.mpr (hiput.mono (fun _ hr ↦ hr) ?_))
      · rintro u ⟨hu, hsteady', hb'⟩
        exact ⟨hu, hsteady.trans hsteady', ⟨_, hlookup, hne⟩, hb'.trans hb⟩
      · exact fun _ he ↦ he.elim
  | none =>
    obtain ⟨hs, hh⟩ := hfound
    have hl' : LockedDir sb t dp nd := by
      refine ⟨(hsteady dp hdp).2 hl.valid, ?_, hl.dir, hl.aligned⟩
      rw [hb, (hsteady dp hdp).1]
      exact hl.node
    have hrounds := rounds_eq (k := 0) hh hdp hl'
    rw [Nat.mul_zero] at hrounds
    have hloop := vacantLoop_eq (k := 0) dev hh hdp hl' (Nat.zero_add _)
    rw [Nat.zero_add, List.drop_zero] at hloop
    have hle := vacancy_le (entries nd.data)
    rw [length_entries] at hle
    have hlen := length_direntBytes inum name
    have hwrite := writeDirent_spec dev hh hdp hl' hle hlen .dirlink
    simp only [hrounds, Nat.sub_zero, hloop]
    apply Lib.Ensures.bind (hwrite.mono (fun _ hr ↦ hr) ?_)
    · rintro u ⟨hu, hsteady', hview⟩
      rw [(hsteady dp hdp).1, hb] at hview
      have hsteady'' := hsteady.trans hsteady'
      refine ⟨hu, hsteady'', hs, _, ⟨(hsteady'' dp hdp).2 hl.valid, ?_, ?_, ?_⟩, ?_, ?_, hview⟩
      · rw [(hsteady'' dp hdp).1, hview, update_self]
      · rfl
      · exact dvd_overwrite hl.aligned hle hlen
      · rfl
      · rw [entries_overwrite hl.aligned hle hlen, entry_direntBytes hi]
    · rintro e ⟨-, rfl | ⟨rfl, -⟩⟩
      · exact Or.inl (Or.inr (Or.inl rfl))
      · exact Or.inl (Or.inr (Or.inr rfl))

/-- `dirlink` of a name without an entry adds the entry. -/
theorem dirlink_new (dev : Devsw) (h : Holding sb H s) (hdp : dp ∈ H)
    (hl : LockedDir sb s dp nd) {name : Nat → UInt8} {n : CString} (hn : stringAt name DIRSIZ = n)
    {inum : Nat} (hi : inum < 65536) (hs : search (entries nd.data) n = none) :
    Lib.Ensures (dirlink sb dev s dp name inum) LinkFails fun r ↦
      r.2 = true ∧ Holding sb H r.1 ∧ Steady H s r.1 ∧ ∃ nd', LockedDir sb r.1 dp nd' ∧
        nd'.nlink = nd.nlink ∧
        entries nd'.data = put (entries nd.data) (vacancy (entries nd.data)) ⟨inum, n⟩ ∧
        view sb r.1.blocks = update (view sb s.blocks) (s.icache dp).inum (some nd') := by
  subst hn
  have hnone : lookup (entries nd.data) (stringAt name DIRSIZ) = none :=
    lookup_eq_none.mpr (search_eq_none.mp hs)
  have hspec := dirlink_spec dev h hdp hl name hi fun i hc ↦ by
    rw [hnone] at hc
    cases hc
  apply hspec.mono
  · rintro ⟨t, r⟩ ⟨ht, hsteady, hlinked⟩
    cases r with
    | false =>
      obtain ⟨⟨i, hlook, -⟩, -⟩ := hlinked
      rw [hnone] at hlook
      cases hlook
    | true => exact ⟨rfl, ht, hsteady, hlinked.2⟩
  · rintro e (he | ⟨-, hlook⟩)
    · exact he
    · rw [hnone] at hlook
      cases hlook

end

end Xv6.Fs
