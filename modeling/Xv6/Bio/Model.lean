import Xv6.Log.Model

/-!
# The buffer cache

The buffers of `bio.c` and the log of `log.c` that pins them, as one process uses them: which
buffer holds which block, and which buffers are in use. The contents of the blocks are the
business of `Xv6.Log`. The process keeps what `bread` returned until it calls `brelse`; only it
locks buffers, so a buffer is locked exactly while the process has it. All blocks are on one
device, and a disk request ends before `iderw` returns.
-/

namespace Xv6.Bio

open Function Log

/-! ### Data -/

/-- `struct buf` without its data; `valid` is `B_VALID`, `dirty` is `B_DIRTY`, and `locked` is
`lock.locked`; `buf.h`. -/
structure Buf where
  dev : Nat
  blockno : Nat
  valid : Bool
  dirty : Bool
  refcnt : Nat
  locked : Bool

/-- A pointer into `bcache.buf`. -/
abbrev Index := Fin NBUF

/-- The buffer cache and the log. `list` is the list of all buffers from `bcache.head.next` on;
`op` holds the distinct blocks that the operation in progress has logged. -/
structure State where
  buf : Index → Buf
  list : List Index
  outstanding : Int
  committing : Bool
  lh : List Nat
  op : Option (List Nat)

/-- The panics of `bio.c`, of `iderw` and of `log.c`. -/
inductive Panic where
  /-- "bget: no buffers". -/
  | noBuffers
  /-- "bwrite". -/
  | bwrite
  /-- "brelse". -/
  | brelse
  /-- "iderw: buf not locked". -/
  | notLocked
  /-- "iderw: nothing to do". -/
  | nothingToDo
  /-- "too big a transaction". -/
  | tooBig
  /-- "log_write outside of trans". -/
  | outsideTrans
  /-- "log.committing". -/
  | committing
  deriving DecidableEq

/-- What ends a run: a panic, a sleep that nobody ends, or a step that cannot be taken. -/
inductive Stop where
  | panic (p : Panic)
  | asleep
  | disabled
  deriving DecidableEq

/-- Assignments to fields of a buffer. -/
def State.modify (s : State) (i : Index) (f : Buf → Buf) : State :=
  { s with buf := update s.buf i (f (s.buf i)) }

/-! ### Buffers -/

/-- The buffer holds block `b`; `bio.c:70`. -/
def Holds (v : Buf) (b : Nat) : Prop := v.dev = ROOTDEV ∧ v.blockno = b

instance (v : Buf) (b : Nat) : Decidable (Holds v b) := inferInstanceAs (Decidable (_ ∧ _))

/-- `acquiresleep(&b->lock)`; `sleeplock.c:22-32`. -/
def acquiresleep (s : State) (i : Index) : Except Stop State :=
  if (s.buf i).locked = true then .error .asleep
  else .ok (s.modify i fun v ↦ { v with locked := true })

/-- Look for block `b` in the cache, or recycle the least recently used buffer that is free;
`bio.c:61-93`. -/
def bget (s : State) (b : Nat) : Except Stop (State × Index) :=
  match s.list.find? fun i ↦ Holds (s.buf i) b with
  | some i => do
    let s ← acquiresleep (s.modify i fun v ↦ { v with refcnt := v.refcnt + 1 }) i
    pure (s, i)
  | none =>
    match s.list.reverse.find? fun i ↦ (s.buf i).refcnt = 0 ∧ (s.buf i).dirty = false with
    | some i => do
      let s ← acquiresleep (s.modify i fun v ↦ { v with
        dev := ROOTDEV, blockno := b, valid := false, dirty := false, refcnt := 1 }) i
      pure (s, i)
    | none => .error (.panic .noBuffers)

/-- `ide.c:137-168`, with the answer of the disk; `ide.c:103-131`. -/
def iderw (s : State) (i : Index) : Except Stop State :=
  if (s.buf i).locked = false then .error (.panic .notLocked)
  else if (s.buf i).valid = true ∧ (s.buf i).dirty = false then .error (.panic .nothingToDo)
  else .ok (s.modify i fun v ↦ { v with valid := true, dirty := false })

/-- `bio.c:96-106`. -/
def bread (s : State) (b : Nat) : Except Stop (State × Index) := do
  let (s, i) ← bget s b
  if (s.buf i).valid = false then
    let s ← iderw s i
    pure (s, i)
  else
    pure (s, i)

/-- `bio.c:109-116`. -/
def bwrite (s : State) (i : Index) : Except Stop State :=
  if (s.buf i).locked = false then .error (.panic .bwrite)
  else iderw (s.modify i fun v ↦ { v with dirty := true }) i

/-- Release a buffer and move it to the head of the list; `bio.c:120-141`. -/
def brelse (s : State) (i : Index) : Except Stop State :=
  if (s.buf i).locked = false then .error (.panic .brelse)
  else
    let s := s.modify i fun v ↦ { v with locked := false, refcnt := v.refcnt - 1 }
    if (s.buf i).refcnt = 0 then .ok { s with list := i :: s.list.erase i } else .ok s

/-! ### The log -/

/-- `log_write` of buffer `i`; `log.c:213-233`. -/
def log_write (g : Geometry) (s : State) (i : Index) : Except Stop State :=
  if s.lh.length ≥ LOGSIZE ∨ s.lh.length ≥ g.size - 1 then .error (.panic .tooBig)
  else if s.outstanding < 1 then .error (.panic .outsideTrans)
  else
    .ok { s.modify i fun v ↦ { v with dirty := true } with
      lh := absorb s.lh (s.buf i).blockno
      op := s.op.map fun l ↦ l.insert (s.buf i).blockno }

/-- One round of `write_log`; `log.c:182-189`. -/
def writeLogRound (g : Geometry) (s : State) (tail : Nat) : Except Stop State := do
  let (s, toBuf) ← bread s (g.start + tail + 1)
  let (s, fromBuf) ← bread s (s.lh.getD tail 0)
  let s ← bwrite s toBuf
  let s ← brelse s fromBuf
  brelse s toBuf

/-- `log.c:177-190`. -/
def write_log (g : Geometry) (s : State) : Except Stop State :=
  (List.range s.lh.length).foldlM (writeLogRound g) s

/-- `log.c:101-113`. -/
def write_head (g : Geometry) (s : State) : Except Stop State := do
  let (s, i) ← bread s g.start
  let s ← bwrite s i
  brelse s i

/-- One round of `install_trans`; `log.c:74-81`. -/
def installRound (g : Geometry) (s : State) (tail : Nat) : Except Stop State := do
  let (s, lbuf) ← bread s (g.start + tail + 1)
  let (s, dbuf) ← bread s (s.lh.getD tail 0)
  let s ← bwrite s dbuf
  let s ← brelse s lbuf
  brelse s dbuf

/-- `log.c:69-82`. -/
def install_trans (g : Geometry) (s : State) : Except Stop State :=
  (List.range s.lh.length).foldlM (installRound g) s

/-- `log.c:192-202`. -/
def commit (g : Geometry) (s : State) : Except Stop State :=
  if s.lh.length > 0 then do
    let s ← write_log g s
    let s ← write_head g s
    let s ← install_trans g s
    write_head g { s with lh := [] }
  else
    .ok s

/-- `log.c:125-141`. -/
def begin_op (s : State) : Except Stop State :=
  if s.committing = true then .error .asleep
  else if (s.lh.length : Int) + (s.outstanding + 1) * MAXOPBLOCKS > LOGSIZE then .error .asleep
  else .ok { s with outstanding := s.outstanding + 1, op := some [] }

/-- `log.c:145-174`. -/
def end_op (g : Geometry) (s : State) : Except Stop State :=
  if s.committing = true then .error (.panic .committing)
  else
    let s := { s with outstanding := s.outstanding - 1, op := none }
    if s.outstanding = 0 ∧ (s.lh.length : Int) + MAXOPBLOCKS > LOGSIZE then do
      let s ← commit g { s with committing := true }
      pure { s with committing := false }
    else
      .ok s

/-- `log.c:235-253`. -/
def sync (g : Geometry) (s : State) : Except Stop State :=
  if s.committing = true ∨ s.outstanding ≠ 0 then .error .asleep
  else do
    let s ← commit g { s with committing := true }
    pure { s with committing := false }

/-! ### Steps -/

/-- The calls that the file system makes. -/
inductive Action where
  | begin_op
  | bread (b : Nat)
  | log_write (b : Nat)
  | brelse (b : Nat)
  | end_op
  | sync
  deriving DecidableEq

/-- What `bread` of block `b` has returned to the process. -/
def held (s : State) (b : Nat) : Option Index :=
  (List.finRange NBUF).find? fun i ↦ (s.buf i).locked = true ∧ Holds (s.buf i) b

/-- The process has no buffer. -/
def Unlocked (s : State) : Prop := ∀ i, (s.buf i).locked = false

instance (s : State) : Decidable (Unlocked s) := inferInstanceAs (Decidable (∀ _, _))

/-- One call. Operations do not nest, and a process has no buffer when it begins or ends one or
calls `sync`; `log_write` is called on a home block, by the contract of `log.c:204-212`. -/
def step (g : Geometry) (s : State) : Action → Except Stop State
  | .begin_op => if s.op = none ∧ Unlocked s then begin_op s else .error .disabled
  | .bread b => do
    let (s, _) ← bread s b
    pure s
  | .log_write b =>
    match held s b with
    | some i => if g.Home b then log_write g s i else .error .disabled
    | none => .error .disabled
  | .brelse b =>
    match held s b with
    | some i => brelse s i
    | none => .error .disabled
  | .end_op => if s.op ≠ none ∧ Unlocked s then end_op g s else .error .disabled
  | .sync => if s.op = none ∧ Unlocked s then sync g s else .error .disabled

/-! ### The start -/

/-- The cache at boot; `bio.c:38-56`. -/
def binit : State where
  buf := fun _ ↦ ⟨0, 0, false, false, 0, false⟩
  list := (List.finRange NBUF).reverse
  outstanding := 0
  committing := false
  lh := []
  op := none

/-- `recover_from_log` when `header` is what the header block lists; `log.c:85-96,115-122`. -/
def recover_from_log (g : Geometry) (s : State) (header : List Nat) : Except Stop State := do
  let (s, i) ← bread s g.start
  let s ← brelse { s with lh := header } i
  let s ← install_trans g s
  write_head g { s with lh := [] }

/-- `readsb` and `recover_from_log`; `log.c:53-66`. -/
def initlog (g : Geometry) (s : State) (header : List Nat) : Except Stop State := do
  let (s, i) ← bread s 1
  let s ← brelse s i
  recover_from_log g s header

end Xv6.Bio
