import Xv6.Fs.Fresh

/-!
# Reading and writing open files

`file.c` on top of `readi` and `writei`: a write is cut into transactions that are small enough
for the log. `filewrite` moves the offset of the file along, `filepwrite` one of its own.
-/

namespace Xv6.Fs

open Function

/-! ### Open files -/

/-- `enum { FD_NONE, FD_PIPE, FD_INODE }`; `file.h:2`. -/
inductive FileType where
  | FD_NONE
  | FD_PIPE
  | FD_INODE
  deriving DecidableEq

/-- `struct file`; `file.h:1-9`. -/
structure File where
  type : FileType
  readable : Bool
  writable : Bool
  pipe : Nat
  ip : Slot
  off : UInt32

/-- `piperead` and `pipewrite` on each pipe. A read returns its count with the bytes it put at
`addr`; none is -1. -/
structure Pipes where
  piperead : Nat → Int32 → Option (Nat × List UInt8)
  pipewrite : Nat → (Nat → UInt8) → Int32 → Option Nat

/-- The panics of `file.c`, and those below it. -/
inductive FilePanic where
  | fs (e : Panic)
  /-- "fileread". -/
  | fileread
  /-- "filewrite". -/
  | filewrite
  /-- "short filewrite". -/
  | shortFilewrite

/-- A call into `fs.c`. -/
def liftFs {α : Type} : Except Panic α → Except FilePanic α
  | .ok a => .ok a
  | .error e => .error (.fs e)

/-- `int max`: the most bytes that one transaction writes; `file.c:133,192`. -/
def chunkMax : Nat := (MAXOPBLOCKS - 1 - 3 - 4) / 2 * 512

theorem chunkMax_pos : 0 < chunkMax := by decide

/-- `end_op` of an operation. The header list of this model is that of one operation, so the next
one starts with none; whether the log commits here or later is left to `Xv6.Log`. -/
def end_op (s : State) : State := s.unlogged

section

variable (sb : Superblock) (dev : Devsw) (pipes : Pipes)

/-- What is between `begin_op` and `end_op`: `ilock`, `writei` and `iunlock`. -/
def writeOp (s : State) (ip : Slot) (addr : Nat → UInt8) (off n : UInt32) :
    Except Panic (State × Option Nat) := do
  let s ← ilock sb s ip
  writei sb dev s ip addr off n

/-- What is between `ilock` and `iunlock`, with the `ilock`. -/
def readOp (s : State) (ip : Slot) (off n : UInt32) :
    Except Panic (State × Option (Nat × List UInt8)) := do
  let s ← ilock sb s ip
  readi sb dev s ip off n

/-- Read from file `f`; `file.c:96-113`. -/
def fileread (s : State) (f : File) (n : Int32) :
    Except FilePanic (State × File × Option (Nat × List UInt8)) :=
  if f.readable = false then
    .ok (s, f, none)
  else
  match f.type with
  | .FD_PIPE => .ok (s, f, pipes.piperead f.pipe n)
  | .FD_INODE => do
    let (s, r) ← liftFs (readOp sb dev s f.ip f.off n.toUInt32)
    match r with
    | none => pure (s, f, none)
    | some (k, bytes) =>
      pure (s, if k > 0 then { f with off := f.off + UInt32.ofNat k } else f, some (k, bytes))
  | .FD_NONE => .error .fileread

/-- Read from file `f` at `off`; `file.c:158-174`. -/
def filepread (s : State) (f : File) (n off : Int32) :
    Except FilePanic (State × File × Option (Nat × List UInt8)) :=
  if f.readable = false then
    .ok (s, f, none)
  else
  match f.type with
  | .FD_PIPE => .ok (s, f, pipes.piperead f.pipe n)
  | .FD_INODE => do
    let (s, r) ← liftFs (readOp sb dev s f.ip off.toUInt32 n.toUInt32)
    pure (s, f, r)
  | .FD_NONE => .error .fileread

/-- The loop of `filewrite`, with the count it ends at; `file.c:135-152`. -/
def filewriteLoop (s : State) (f : File) (addr : Nat → UInt8) (n i : Nat) :
    Except FilePanic (State × File × Nat) :=
  if _h : i < n then do
    let n1 := min (n - i) chunkMax
    let (s, r) ← liftFs (writeOp sb dev s f.ip (fun j ↦ addr (i + j)) f.off (UInt32.ofNat n1))
    let s := end_op s
    match r with
    | none => pure (s, f, i)
    | some r =>
      let f := if r > 0 then { f with off := f.off + UInt32.ofNat r } else f
      if r ≠ n1 then
        .error .shortFilewrite
      else
        filewriteLoop s f addr n (i + n1)
  else
    pure (s, f, i)
termination_by n - i
decreasing_by
  have hpos := chunkMax_pos
  omega

/-- Write to file `f`; `file.c:117-156`. -/
def filewrite (s : State) (f : File) (addr : Nat → UInt8) (n : Int32) :
    Except FilePanic (State × File × Option Nat) :=
  if f.writable = false then
    .ok (s, f, none)
  else
  match f.type with
  | .FD_PIPE => .ok (s, f, pipes.pipewrite f.pipe addr n)
  | .FD_INODE => do
    let (s, f, i) ← filewriteLoop sb dev s f addr n.toNatClampNeg 0
    pure (s, f, if (i : Int) = n.toInt then some i else none)
  | .FD_NONE => .error .filewrite

/-- The loop of `filepwrite`, with the count it ends at; `file.c:195-212`. -/
def filepwriteLoop (s : State) (f : File) (addr : Nat → UInt8) (off : Int32) (n i : Nat) :
    Except FilePanic (State × Int32 × Nat) :=
  if _h : i < n then do
    let n1 := min (n - i) chunkMax
    let (s, r) ← liftFs
      (writeOp sb dev s f.ip (fun j ↦ addr (i + j)) off.toUInt32 (UInt32.ofNat n1))
    let s := end_op s
    match r with
    | none => pure (s, off, i)
    | some r =>
      let off := if r > 0 then off + Int32.ofNat r else off
      if r ≠ n1 then
        .error .shortFilewrite
      else
        filepwriteLoop s f addr off n (i + n1)
  else
    pure (s, off, i)
termination_by n - i
decreasing_by
  have hpos := chunkMax_pos
  omega

/-- Write to file `f` at `off`; `file.c:176-216`. -/
def filepwrite (s : State) (f : File) (addr : Nat → UInt8) (n off : Int32) :
    Except FilePanic (State × File × Option Nat) :=
  if f.writable = false then
    .ok (s, f, none)
  else
  match f.type with
  | .FD_PIPE => .ok (s, f, pipes.pipewrite f.pipe addr n)
  | .FD_INODE => do
    let (s, _, i) ← filepwriteLoop sb dev s f addr off n.toNatClampNeg 0
    pure (s, f, if (i : Int) = n.toInt then some i else none)
  | .FD_NONE => .error .filewrite

end

/-! ### Positioned calls -/

section

variable {sb : Superblock} {dev : Devsw} {pipes : Pipes} {s t : State} {f : File}

/-- The loops agree: what one does to the offset of the file, the other does to its own. -/
private theorem loops_agree (addr : Nat → UInt8) (off : Int32) (n i : Nat) :
    filewriteLoop sb dev s { f with off := off.toUInt32 } addr n i =
      (filepwriteLoop sb dev s f addr off n i).map fun r ↦
        (r.1, { f with off := r.2.1.toUInt32 }, r.2.2) := by
  fun_induction filepwriteLoop sb dev s f addr off n i with
  | case1 s off i h n1 ih =>
    rw [filewriteLoop, dif_pos h]
    change (liftFs (writeOp sb dev s f.ip (fun j ↦ addr (i + j)) off.toUInt32 (UInt32.ofNat n1)) >>=
      _) = _
    cases writeOp sb dev s f.ip (fun j ↦ addr (i + j)) off.toUInt32 (UInt32.ofNat n1) with
    | error e => rfl
    | ok r =>
      obtain ⟨t, r⟩ := r
      cases r with
      | none => rfl
      | some r =>
        have hrest := ih t r
        have hoff : (if r > 0 then { f with off := off.toUInt32 + UInt32.ofNat r }
            else { f with off := off.toUInt32 }) =
            { f with off := (if r > 0 then off + Int32.ofNat r else off).toUInt32 } := by
          split <;> rfl
        dsimp only [liftFs, bind, Except.bind] at hrest ⊢
        rw [hoff]
        by_cases hr : r ≠ n1
        · rw [if_pos hr, if_pos hr]
          rfl
        · rw [if_neg hr, if_neg hr]
          exact hrest hr
  | case2 s off i h =>
    rw [filewriteLoop, dif_neg h]
    rfl

/-- A positioned write is a plain one from that offset, except that the offset of the file stays. -/
theorem filepwrite_eq (f : File) (addr : Nat → UInt8) (n off : Int32) :
    filepwrite sb dev pipes s f addr n off =
      (filewrite sb dev pipes s { f with off := off.toUInt32 } addr n).map fun r ↦
        (r.1, f, r.2.2) := by
  unfold filepwrite filewrite
  dsimp only
  split
  · rfl
  · split
    · rfl
    · rw [loops_agree]
      cases filepwriteLoop sb dev s f addr off n.toNatClampNeg 0 <;> rfl
    · rfl

theorem filepread_eq (f : File) (n off : Int32) :
    filepread sb dev pipes s f n off =
      (fileread sb dev pipes s { f with off := off.toUInt32 } n).map fun r ↦
        (r.1, f, r.2.2) := by
  unfold filepread fileread
  dsimp only
  split
  · rfl
  · split
    · rfl
    · cases readOp sb dev s f.ip off.toUInt32 n.toUInt32 with
      | error e => rfl
      | ok r =>
        obtain ⟨t, r⟩ := r
        cases r with
        | none => rfl
        | some r =>
          dsimp only [liftFs, bind, Except.bind]
          split <;> rfl
    · rfl

/-! ### Whole writes -/

/-- Locking an inode that has been read changes nothing. -/
private theorem ilock_of_held {ip : Slot} (h : Held s ip) : ilock sb s ip = .ok s := by
  obtain ⟨href, hvalid⟩ := h
  unfold ilock
  rw [if_neg (by omega), if_neg (by simp [hvalid])]

theorem writeOp_of_held {ip : Slot} (h : Held s ip) (addr : Nat → UInt8) (off n : UInt32) :
    writeOp sb dev s ip addr off n = writei sb dev s ip addr off n := by
  unfold writeOp
  rw [ilock_of_held h]
  rfl

/-- Replacing a range in two parts. -/
private theorem overwrite_append {data : List UInt8} {src : Nat → UInt8} {off i m : Nat}
    (h : off ≤ data.length) :
    overwrite (overwrite data off ((List.range i).map src)) (off + i)
        ((List.range m).map fun j ↦ src (i + j)) =
      overwrite data off ((List.range (i + m)).map src) := by
  have hlen : (data.take off ++ (List.range i).map src).length = off + i := by
    rw [List.length_append, List.length_take, List.length_map, List.length_range,
      Nat.min_eq_left h]
  have hrange : (List.range (i + m)).map src =
      (List.range i).map src ++ (List.range m).map fun j ↦ src (i + j) := by
    rw [List.range_add, List.map_append, List.map_map]
    rfl
  have htake : (overwrite data off ((List.range i).map src)).take (off + i) =
      data.take off ++ (List.range i).map src := by
    rw [overwrite, List.take_append_of_le_length hlen.ge, List.take_of_length_le hlen.le]
  have hdrop : (overwrite data off ((List.range i).map src)).drop (off + i + m) =
      data.drop (off + (i + m)) := by
    rw [overwrite, List.drop_append, hlen, List.drop_of_length_le (by omega), List.nil_append,
      List.drop_drop, List.length_map, List.length_range]
    congr 1
    omega
  rw [overwrite, htake]
  simp only [List.length_map, List.length_range]
  rw [hdrop, overwrite, hrange]
  simp

/-- The first `i` bytes of a write at `off` are done. -/
private structure Written (sb : Superblock) (s : State) (ip : Slot) (addr : Nat → UInt8)
    (off i : Nat) (t : State) : Prop where
  consistent : Consistent sb t
  held : Held t ip
  inum : (t.icache ip).inum = (s.icache ip).inum
  type : (t.icache ip).type = (s.icache ip).type
  contents : files sb t.blocks = update (files sb s.blocks) (s.icache ip).inum
    (overwrite (files sb s.blocks (s.icache ip).inum) off ((List.range i).map addr))
  free : (freeBlocks sb s.blocks).length =
    (growth (s.icache ip).inum (blocksFor (s.icache ip).size)
      (max (blocksFor (s.icache ip).size) (blocksFor (off + i)))).length +
    (freeBlocks sb t.blocks).length
  le : off + i ≤ MAXFILE * BSIZE

section Written

variable {ip : Slot} {addr : Nat → UInt8} {off i : Nat}

private theorem Written.refl (h : Consistent sb s) (hip : Held s ip)
    (hoff : off ≤ (s.icache ip).size) : Written sb s ip addr off 0 s where
  consistent := h
  held := hip
  inum := rfl
  type := rfl
  contents := by
    have hsame : overwrite (files sb s.blocks (s.icache ip).inum) off ((List.range 0).map addr) =
        files sb s.blocks (s.icache ip).inum := by
      simp [overwrite]
    rw [hsame, update_eq_self]
  free := by
    rw [Nat.add_zero, Nat.max_eq_left (blocksFor_mono hoff), growth, Nat.sub_self]
    exact (Nat.zero_add _).symm
  le := hoff.trans (h.size_le hip)

/-- The size of the file so far. -/
private theorem Written.size_eq (h : Consistent sb s) (hip : Held s ip)
    (hoff : off ≤ (s.icache ip).size) (hw : Written sb s ip addr off i t) :
    (t.icache ip).size = max (s.icache ip).size (off + i) := by
  have hlen := length_files_self h hip
  rw [← length_files_self hw.consistent hw.held, hw.inum, hw.contents, update_self, length_overwrite,
    hlen, List.length_map, List.length_range]
  rwa [hlen]

/-- The next transaction writes all that it is given, at the offset of the bytes done. -/
private theorem Written.next (h : Consistent sb s) (hip : Held s ip)
    (hoff : off ≤ (s.icache ip).size) (hw : Written sb s ip addr off i t)
    (ht : (s.icache ip).type ≠ T_DEV) {o n : UInt32} (ho : o.toNat = off + i) {u : State}
    {r : Nat} (hu : writei sb dev t ip (fun j ↦ addr (i + j)) o n = .ok (u, some r)) :
    r = n.toNat ∧ Written sb s ip addr off (i + r) u := by
  have htype : (t.icache ip).type ≠ T_DEV := by rwa [hw.type]
  have hlen := length_files_self h hip
  have hsize := hw.size_eq h hip hoff
  by_cases hf : WriteFails (t.icache ip).size o.toNat n.toNat
  · rw [writei_fails dev htype _ hf] at hu
    cases hu
  obtain ⟨hr, hcons, hfiles, s₁, hset⟩ :=
    (writei_spec hw.consistent hw.held dev htype _ hf).of_ok hu
  obtain ⟨s₂, -, htook, hfree, -, -⟩ :=
    (writei_took hw.consistent hw.held dev htype _ hf).of_ok hu
  cases hr
  refine ⟨rfl, hcons, hset.held, ?_, ?_, ?_, ?_, ?_⟩
  · rw [hset.inum, hw.inum]
  · rw [hset.type, hw.type]
  · dsimp only at hfiles ⊢
    rw [hfiles, hw.inum, hw.contents, update_self, update_idem, ho, overwrite_append]
    rwa [hlen]
  · have hcount := congrArg List.length htook.free
    have hbytes := (Nat.le_of_eq ho).trans ((show off + i ≤ (t.icache ip).size by omega).trans
      (le_blocksFor _))
    rw [List.length_append, List.length_map, taken_chunk hbytes, hw.inum, hsize, ho] at hcount
    dsimp only at hfree
    have hmid : blocksFor (max (s.icache ip).size (off + i)) =
        max (blocksFor (s.icache ip).size) (blocksFor (off + i)) :=
      Monotone.map_max fun _ _ hle ↦ blocksFor_mono hle
    have hmono : blocksFor (off + i) ≤ blocksFor (off + i + n.toNat) := blocksFor_mono (by omega)
    have hgrow := congrArg List.length (growth_append (i := (s.icache ip).inum)
      (Nat.le_max_left (blocksFor (s.icache ip).size) (blocksFor (off + i)))
      (Nat.le_max_left _ (blocksFor (off + i + n.toNat))))
    rw [List.length_append] at hgrow
    rw [hmid] at hcount
    rw [hw.free, hcount, hfree, ← Nat.add_assoc off, ← Nat.add_assoc, hgrow]
    congr 3
    omega
  · unfold WriteFails at hf
    omega

private theorem Written.end_op (hw : Written sb s ip addr off i t) :
    Written sb s ip addr off i (end_op t) :=
  { hw with consistent := hw.consistent.unlogged }

/-- A chunk that is written in full is one round of the loop. -/
private theorem filewriteLoop_chunk {n : Nat} (hlt : i < n) (hip : Held s f.ip)
    (hw : writei sb dev s f.ip (fun j ↦ addr (i + j)) f.off (UInt32.ofNat (min (n - i) chunkMax)) =
      .ok (t, some (min (n - i) chunkMax))) :
    filewriteLoop sb dev s f addr n i = filewriteLoop sb dev (Fs.end_op t)
      { f with off := f.off + UInt32.ofNat (min (n - i) chunkMax) } addr n
      (i + min (n - i) chunkMax) := by
  have hpos : 0 < min (n - i) chunkMax := by
    have hmax := chunkMax_pos
    omega
  rw [filewriteLoop, dif_pos hlt]
  dsimp only
  rw [writeOp_of_held hip, hw]
  dsimp only [liftFs, bind, Except.bind]
  rw [if_pos hpos, if_neg (not_not.mpr rfl)]

/-- A loop that ends with all `n` bytes has written a chunk and goes on behind it. -/
private theorem filewriteLoop_ok {n : Nat} {f' : File} {u : State} (hlt : i < n)
    (hip : Held s f.ip) (hu : filewriteLoop sb dev s f addr n i = .ok (u, f', n)) :
    ∃ t, writei sb dev s f.ip (fun j ↦ addr (i + j)) f.off (UInt32.ofNat (min (n - i) chunkMax)) =
        .ok (t, some (min (n - i) chunkMax)) ∧
      filewriteLoop sb dev (Fs.end_op t)
        { f with off := f.off + UInt32.ofNat (min (n - i) chunkMax) } addr n
        (i + min (n - i) chunkMax) = .ok (u, f', n) := by
  rw [filewriteLoop, dif_pos hlt] at hu
  dsimp only at hu
  rw [writeOp_of_held hip] at hu
  generalize hn1 : min (n - i) chunkMax = n1 at hu ⊢
  cases hw : writei sb dev s f.ip (fun j ↦ addr (i + j)) f.off (UInt32.ofNat n1) with
  | error e =>
    rw [hw] at hu
    cases hu
  | ok r =>
    rw [hw] at hu
    obtain ⟨t, r⟩ := r
    cases r with
    | none =>
      obtain ⟨-, hi⟩ := Prod.mk.inj (Prod.mk.inj (Except.ok.inj hu)).2
      omega
    | some r =>
      have hpos := chunkMax_pos
      by_cases hr : r = n1
      · subst hr
        refine ⟨t, rfl, ?_⟩
        dsimp only [liftFs, bind, Except.bind] at hu
        rw [if_neg (by simp), if_pos (by omega)] at hu
        exact hu
      · dsimp only [liftFs, bind, Except.bind] at hu
        rw [if_pos hr] at hu
        cases hu

/-- The loop of `filewrite`, when it ends with all bytes done. -/
private theorem loop_written (h : Consistent sb s) (hip : Held s ip)
    (hoff : off ≤ (s.icache ip).size) (ht : (s.icache ip).type ≠ T_DEV) {n : Nat} (k : Nat)
    {g g' : File} {u : State} (hk : n - i = k) (hin : i ≤ n) (hw : Written sb s ip addr off i t)
    (hg : g.ip = ip) (ho : g.off.toNat = off + i)
    (hu : filewriteLoop sb dev t g addr n i = .ok (u, g', n)) :
    Written sb s ip addr off n u := by
  induction k using Nat.strong_induction_on generalizing t g i with
  | h k ih =>
    by_cases hlt : i < n
    · have hpos := chunkMax_pos
      obtain ⟨v, hv, hrest⟩ := filewriteLoop_ok hlt (hg ▸ hw.held) hu
      rw [hg] at hv
      obtain ⟨hr, hnext⟩ := hw.next h hip hoff ht ho hv
      have hle := hnext.le
      have hsum : (g.off + UInt32.ofNat (min (n - i) chunkMax)).toNat =
          off + (i + min (n - i) chunkMax) := by
        have hmax : MAXFILE * BSIZE < 2 ^ 32 := by decide
        rw [UInt32.toNat_add, ho, ← hr]
        omega
      refine ih (n - (i + min (n - i) chunkMax)) (by omega) rfl (by omega) hnext.end_op ?_ ?_ hrest
      · exact hg
      · exact hsum
    · obtain rfl : i = n := by omega
      rw [filewriteLoop, dif_neg hlt] at hu
      cases hu
      exact hw

end Written

/-- A write that has gone through in chunks goes through at once, to the same files. -/
private theorem unsplit_write (h : Consistent sb s) (hip : Held s f.ip)
    (ht : (s.icache f.ip).type ≠ T_DEV) {addr : Nat → UInt8} {n : UInt32} {g : File} {t : State}
    (hu : filewriteLoop sb dev s f addr n.toNat 0 = .ok (t, g, n.toNat)) :
    ∃ u r, writei sb dev s f.ip addr f.off n = .ok (u, r) ∧ (0 < n.toNat → r = some n.toNat) ∧
      files sb u.blocks = files sb t.blocks ∧ (u.icache f.ip).size = (t.icache f.ip).size := by
  have hlen := length_files_self h hip
  by_cases hf : WriteFails (s.icache f.ip).size f.off.toNat n.toNat
  · refine ⟨s, none, writei_fails dev ht addr hf, ?_⟩
    by_cases hn : 0 < n.toNat
    · -- the first chunk is at the same offset, and the last one ends at the same byte
      exfalso
      by_cases hoff : f.off.toNat ≤ (s.icache f.ip).size
      · have hw := loop_written h hip hoff ht _ rfl (Nat.zero_le _) (Written.refl h hip hoff)
          rfl rfl hu
        have hle := hw.le
        have hmax : MAXFILE * BSIZE < 2 ^ 32 := by decide
        unfold WriteFails at hf
        omega
      · obtain ⟨v, hv, -⟩ := filewriteLoop_ok hn hip hu
        rw [writei_fails dev ht _ (Or.inl (by omega))] at hv
        cases hv
    · rw [filewriteLoop, dif_neg hn] at hu
      obtain ⟨rfl, -⟩ := Prod.mk.inj (Except.ok.inj hu)
      exact ⟨fun hn' ↦ absurd hn' hn, rfl, rfl⟩
  · have hoff : f.off.toNat ≤ (s.icache f.ip).size := by
      unfold WriteFails at hf
      omega
    have hw := loop_written h hip hoff ht _ rfl (Nat.zero_le _) (Written.refl h hip hoff) rfl rfl hu
    have htook := writei_took h hip dev ht addr hf
    have hspec := writei_spec h hip dev ht addr hf
    cases hwrite : writei sb dev s f.ip addr f.off n with
    | error e =>
      -- the chunks have found room for the same growth
      rw [hwrite] at htook
      obtain ⟨-, hshort⟩ := htook
      rw [taken_chunk (hoff.trans (le_blocksFor _))] at hshort
      have hfree := hw.free
      omega
    | ok r =>
      rw [hwrite] at hspec
      obtain ⟨u, r⟩ := r
      obtain ⟨hr, hcons, hfiles, s₁, hset⟩ := Lib.Ensures.ok_iff.mp hspec
      dsimp only at hr hcons hfiles hset
      have hsame : files sb u.blocks = files sb t.blocks := by rw [hfiles, hw.contents]
      refine ⟨u, r, rfl, fun _ ↦ hr, hsame, ?_⟩
      rw [← length_files_self hcons hset.held, ← length_files_self hw.consistent hw.held, hset.inum,
        hw.inum, hsame]

/-- Positioned I/O is plain I/O at that offset: `filepwrite` and `filepread` return what `filewrite`
and `fileread` return with the offset of the file set to theirs, leave the same file system (or
panic alike), and leave the file as it is. And a write that returns all of its `n` bytes, in however
many transactions, leaves the files and the size that one unsplit `writei` leaves. -/
theorem positioned_io (s : State) (f : File) (addr : Nat → UInt8) (n off : Int32) :
    filepwrite sb dev pipes s f addr n off =
        (filewrite sb dev pipes s { f with off := off.toUInt32 } addr n).map
          (fun r ↦ (r.1, f, r.2.2)) ∧
      filepread sb dev pipes s f n off =
        (fileread sb dev pipes s { f with off := off.toUInt32 } n).map (fun r ↦ (r.1, f, r.2.2)) ∧
      (Consistent sb s → f.type = .FD_INODE → Held s f.ip → (s.icache f.ip).type ≠ T_DEV → ∀ t g k,
        filewrite sb dev pipes s f addr n = .ok (t, g, some k) →
        (k : Int) = n.toInt ∧ ∃ u r, writei sb dev s f.ip addr f.off n.toUInt32 = .ok (u, r) ∧
          (0 < k → r = some k) ∧ files sb u.blocks = files sb t.blocks ∧
          (u.icache f.ip).size = (t.icache f.ip).size) := by
  refine ⟨filepwrite_eq f addr n off, filepread_eq f n off, ?_⟩
  intro h hf hip ht t g k hw
  unfold filewrite at hw
  split at hw
  · cases hw
  · rw [hf] at hw
    dsimp only at hw
    obtain ⟨⟨t', g', i⟩, hloop, hw⟩ := Lib.bind_eq_ok.mp hw
    obtain ⟨rfl, hret⟩ := Prod.mk.inj (Except.ok.inj hw)
    obtain ⟨rfl, hk⟩ := Prod.mk.inj hret
    dsimp only at hk ⊢
    split at hk
    · next hi =>
      obtain rfl := Option.some.inj hk
      have hn : 0 ≤ n := by
        rw [Int32.le_iff_toInt_le, ← hi]
        exact Int.natCast_nonneg i
      have hnat := Int32.toNat_toUInt32_of_le hn
      have hin : i = n.toUInt32.toNat := by
        have hcl := Int32.toNat_toInt n
        omega
      rw [← hnat] at hloop
      subst hin
      exact ⟨hi, unsplit_write h hip ht hloop⟩
    · cases hk

end

/-- Two chunks are written at the start of an empty file, the second of which takes the indirect
block. The offset of the file stays where it is. -/
theorem positioned_io_chunks : ∃ t u r,
    filepwrite mkfsSuperblock ⟨fun _ ↦ none, fun _ ↦ none⟩ ⟨fun _ _ ↦ none, fun _ _ _ ↦ none⟩
      oneFile ⟨.FD_INODE, true, true, 0, 0, 9⟩ (fun _ ↦ 7) 6144 0 =
      .ok (t, ⟨.FD_INODE, true, true, 0, 0, 9⟩, some 6144) ∧
    writei mkfsSuperblock ⟨fun _ ↦ none, fun _ ↦ none⟩ oneFile 0 (fun _ ↦ 7) 0 6144 =
      .ok (u, r) ∧ files mkfsSuperblock u.blocks = files mkfsSuperblock t.blocks := by
  have htype : (oneFile.icache 0).type ≠ T_DEV := by rw [oneFile_slot]; decide
  have hoff : (0 : UInt32).toNat = 0 * BSIZE := by decide
  have hoff' : (3072 : UInt32).toNat = 6 * BSIZE := by decide
  have hn : (3072 : UInt32).toNat = (6 - 0) * BSIZE := by decide
  have hn' : (3072 : UInt32).toNat = (12 - 6) * BSIZE := by decide
  have hstart : oneFile.icache 0 = fileInode 1 (0 * BSIZE) fun _ ↦ 0 := oneFile_slot
  obtain ⟨v, hv, hfirst, -⟩ := writei_fresh ⟨fun _ ↦ none, fun _ ↦ none⟩ (fun _ ↦ 7)
    oneFile_consistent hstart freeBlocks_oneFile (Nat.zero_le 6) (by decide) (by decide) hoff hn
  obtain ⟨addrs, hslot⟩ := hfirst.self
  obtain ⟨w, hw, -⟩ := writei_fresh (s := v.unlogged) ⟨fun _ ↦ none, fun _ ↦ none⟩ (fun _ ↦ 7)
    hfirst.consistent.unlogged hslot hfirst.free (by decide : 6 ≤ 12) (by decide) (by decide)
    hoff' hn'
  have hloop : filewriteLoop mkfsSuperblock ⟨fun _ ↦ none, fun _ ↦ none⟩ oneFile
      ⟨.FD_INODE, true, true, 0, 0, 0⟩ (fun _ ↦ 7) 6144 0 =
      .ok (end_op w, ⟨.FD_INODE, true, true, 0, 0, 6144⟩, 6144) := by
    have hone : filewriteLoop mkfsSuperblock ⟨fun _ ↦ none, fun _ ↦ none⟩ oneFile
        ⟨.FD_INODE, true, true, 0, 0, 0⟩ (fun _ ↦ 7) 6144 0 =
        filewriteLoop mkfsSuperblock ⟨fun _ ↦ none, fun _ ↦ none⟩ (end_op v)
          ⟨.FD_INODE, true, true, 0, 0, 3072⟩ (fun _ ↦ 7) 6144 3072 :=
      filewriteLoop_chunk (by decide) oneFile_held hv
    have htwo : filewriteLoop mkfsSuperblock ⟨fun _ ↦ none, fun _ ↦ none⟩ (end_op v)
        ⟨.FD_INODE, true, true, 0, 0, 3072⟩ (fun _ ↦ 7) 6144 3072 =
        filewriteLoop mkfsSuperblock ⟨fun _ ↦ none, fun _ ↦ none⟩ (end_op w)
          ⟨.FD_INODE, true, true, 0, 0, 6144⟩ (fun _ ↦ 7) 6144 6144 :=
      filewriteLoop_chunk (s := end_op v) (by decide) (held_fileInode hslot) hw
    rw [hone, htwo, filewriteLoop, dif_neg (by decide)]
    rfl
  have hwrite : filewrite mkfsSuperblock ⟨fun _ ↦ none, fun _ ↦ none⟩
      ⟨fun _ _ ↦ none, fun _ _ _ ↦ none⟩ oneFile ⟨.FD_INODE, true, true, 0, 0, 0⟩ (fun _ ↦ 7)
      6144 = .ok (end_op w, ⟨.FD_INODE, true, true, 0, 0, 6144⟩, some 6144) := by
    unfold filewrite
    have hlen : (6144 : Int32).toNatClampNeg = 6144 := by decide
    dsimp only
    rw [if_neg (by decide), hlen, hloop]
    rfl
  obtain ⟨hpwrite, -⟩ := @positioned_io mkfsSuperblock ⟨fun _ ↦ none, fun _ ↦ none⟩
    ⟨fun _ _ ↦ none, fun _ _ _ ↦ none⟩ oneFile ⟨.FD_INODE, true, true, 0, 0, 9⟩ (fun _ ↦ 7) 6144 0
  obtain ⟨-, -, hunsplit⟩ := @positioned_io mkfsSuperblock ⟨fun _ ↦ none, fun _ ↦ none⟩
    ⟨fun _ _ ↦ none, fun _ _ _ ↦ none⟩ oneFile ⟨.FD_INODE, true, true, 0, 0, 0⟩ (fun _ ↦ 7) 6144 0
  obtain ⟨-, u, r, hu, -, hfiles, -⟩ :=
    hunsplit oneFile_consistent rfl oneFile_held htype _ _ _ hwrite
  exact ⟨end_op w, u, r, hpwrite.trans (congrArg _ hwrite), hu, hfiles⟩

end Xv6.Fs
