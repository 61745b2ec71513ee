import Xv6.Base.Block
import Xv6.Lib.Transition

/-!
# The logging layer

The redo log of `log.c` with its deferred group commit. A process is between two
critical sections on `log.lock`; each section is one step, and inside `commit()` and
`recover_from_log()` each disk block write is one step of its own, so that other
processes and crashes fall between any two writes.

The two tests of `log_write` are made before it takes the lock; they belong to its
step here. A `bread` that finds the block uncached only makes a clean copy of it: this
is the separate step `fill`, and `evict` is `bget` recycling a clean buffer.
The fields of `History` are written and never read by the code's own steps.
-/

namespace Xv6.Log

open Function

/-! ### Data -/

/-- `log.start` and `log.size` as `initlog` sets them from the superblock; `log.c:62-63`. -/
structure Geometry where
  start : Nat
  size : Nat
  size_pos : 0 < size
  bound : start + size ≤ 2 ^ 32

/-- The log area of a disk made by `mkfs`: `logstart` 2 and `nlog` blocks;
`mkfs.c:25,100-101`. -/
def mkfsGeometry : Geometry where
  start := 2
  size := LOGSIZE
  size_pos := by decide
  bound := by decide

/-- A block number outside the log area. -/
def Geometry.Home (g : Geometry) (b : Nat) : Prop :=
  b < 2 ^ 32 ∧ (b < g.start ∨ g.start + g.size ≤ b)

instance (g : Geometry) (b : Nat) : Decidable (g.Home b) :=
  inferInstanceAs (Decidable (_ ∧ _))

/-- A cached block; `B_VALID` is set, `dirty` is `B_DIRTY`; `buf.h`. -/
structure Buf where
  data : Block
  dirty : Bool

/-- The panics of `log.c`. -/
inductive Panic where
  /-- `end_op`: "log.committing". -/
  | committing
  /-- `log_write`: "too big a transaction". -/
  | tooBig
  /-- `log_write`: "log_write outside of trans". -/
  | outsideTrans
  deriving DecidableEq

/-- Why an action is not a step: the process is elsewhere in the code, or it panics. -/
inductive Stop where
  | disabled
  | panic (p : Panic)
  deriving DecidableEq

/-- An operation in progress: its number and the distinct blocks it has logged. -/
structure Op where
  id : Nat
  blocks : List Nat
  deriving DecidableEq

/-- The next disk write of `commit()`, or its return; `log.c:192-202`. -/
inductive Stage where
  | writeLog (tail : Nat)
  | writeHead
  | install (tail : Nat)
  | clear
  | done
  deriving DecidableEq

/-- Where a process is between two critical sections. `seen` holds the operations that
had ended when `sync` was called. -/
inductive Pc where
  | idle
  | beginWait (asleep : Bool)
  | inOp (op : Op)
  | syncWait (asleep : Bool) (seen : List Nat)
  | commit (stage : Stage) (seen : List Nat)
  deriving DecidableEq

/-- The next disk write of `recover_from_log()`, or the system running; `log.c:115-122`. -/
inductive Mode where
  | readHead
  | install (tail : Nat)
  | clear
  | up
  deriving DecidableEq

/-- What has happened, for specifications only. -/
structure History where
  /-- Cached contents when the last non-empty header write reached the disk. -/
  durable : Nat → Block
  /-- Number of the next operation. -/
  nextOp : Nat
  /-- Operations ended since the last boot. -/
  ended : List Nat
  /-- Operations that logged a block since the last non-empty header write. -/
  pending : List Nat
  /-- Operations that ended before a `sync` that returned. -/
  synced : List Nat
  /-- Operations that were pending at a crash. -/
  lost : List Nat

/-- The log, the disk, the buffer cache and the processes. -/
structure State (P : Type) where
  outstanding : Int
  committing : Bool
  /-- `log.lh.block[0..log.lh.n)`. -/
  lh : List Nat
  disk : Nat → Block
  cache : Nat → Option Buf
  mode : Mode
  procs : P → Pc
  hist : History

/-- What a process, the buffer cache or the machine does next. -/
inductive Action (P : Type) where
  | beginOp (p : P)
  | logWrite (p : P) (b : Nat) (data : Block)
  | endOp (p : P)
  | sync (p : P)
  /-- The next disk write, or the end, of the `commit()` that `p` is in. -/
  | commit (p : P)
  /-- `kill` makes a sleeper runnable without a wakeup; `proc.c:625-626`. -/
  | kill (p : P)
  | fill (b : Nat)
  | evict (b : Nat)
  | crash
  /-- The next step of `recover_from_log()`. -/
  | recover

/-! ### The header block -/

/-- `lh->n` of a header block as the number of loop rounds: a negative `int` gives none. -/
def headCount (blk : Block) : Nat := if blk.word 0 < 2 ^ 31 then blk.word 0 else 0

/-- The block numbers `read_head` takes from a header block; `log.c:85-96`. -/
def readHead (blk : Block) : List Nat :=
  (List.range (headCount blk)).map fun i ↦ blk.word (i + 1)

/-- `hb->block[i..] = xs`. -/
def putBlocks (blk : Block) (i : Nat) : List Nat → Block
  | [] => blk
  | x :: xs => putBlocks (blk.setWord (i + 1) x) (i + 1) xs

/-- The header block `write_head` writes over `blk`; `log.c:101-113`. -/
def writeHead (blk : Block) (lh : List Nat) : Block :=
  putBlocks (blk.setWord 0 lh.length) 0 lh

/-! ### The buffer cache -/

variable {P : Type}

/-- The data of the buffer `bread` returns. -/
def bread (s : State P) (b : Nat) : Block :=
  match s.cache b with
  | some buf => buf.data
  | none => s.disk b

/-- `bwrite` of a buffer holding `v`: the block reaches the disk and `B_DIRTY` is cleared. -/
def bwrite (s : State P) (b : Nat) (v : Block) : State P :=
  { s with disk := update s.disk b v, cache := update s.cache b (some ⟨v, false⟩) }

/-- `B_DIRTY` is set in the buffer of block `b`. -/
def Dirty (s : State P) (b : Nat) : Prop := ∃ buf, s.cache b = some buf ∧ buf.dirty = true

/-! ### Processes -/

/-- A sleeper on `&log` becomes runnable. -/
def Pc.wake : Pc → Pc
  | .beginWait _ => .beginWait false
  | .syncWait _ seen => .syncWait false seen
  | pc => pc

/-- `wakeup(&log)`. -/
def wakeup (s : State P) : State P := { s with procs := fun p ↦ (s.procs p).wake }

/-- The first stage of `commit()`: nothing is written for an empty log; `log.c:195`. -/
def commitStart (lh : List Nat) : Stage := if lh.length > 0 then .writeLog 0 else .done

/-- Log absorption: the header list after `log_write` of `b`; `log.c:224-230`. -/
def absorb (lh : List Nat) (b : Nat) : List Nat := if b ∈ lh then lh else lh ++ [b]

section Processes

variable [DecidableEq P]

def State.goto (s : State P) (p : P) (pc : Pc) : State P := { s with procs := update s.procs p pc }

/-- One pass through the loop of `begin_op`; `log.c:129-140`. -/
def beginOp (s : State P) (p : P) : State P :=
  if s.committing then
    s.goto p (.beginWait true)
  else if (s.lh.length : Int) + (s.outstanding + 1) * MAXOPBLOCKS > LOGSIZE then
    s.goto p (.beginWait true)
  else
    { s with
      outstanding := s.outstanding + 1
      procs := update s.procs p (.inOp ⟨s.hist.nextOp, []⟩)
      hist := { s.hist with nextOp := s.hist.nextOp + 1 } }

/-- `log_write` of a buffer for block `b` that now holds `data`; `log.c:213-233`. -/
def logWrite (g : Geometry) (s : State P) (p : P) (op : Op) (b : Nat) (data : Block) :
    Except Stop (State P) :=
  if s.lh.length ≥ LOGSIZE ∨ s.lh.length ≥ g.size - 1 then
    .error (.panic .tooBig)
  else if s.outstanding < 1 then
    .error (.panic .outsideTrans)
  else
    .ok { s with
      lh := absorb s.lh b
      cache := update s.cache b (some ⟨data, true⟩)
      procs := update s.procs p (.inOp ⟨op.id, op.blocks.insert b⟩)
      hist := { s.hist with pending := s.hist.pending.insert op.id } }

/-- `end_op` up to the call of `commit()`; `log.c:150-163`. -/
def endOp (s : State P) (p : P) (op : Op) : Except Stop (State P) :=
  if s.committing then
    .error (.panic .committing)
  else
    let s := { s with
      outstanding := s.outstanding - 1
      hist := { s.hist with ended := s.hist.ended.insert op.id } }
    if s.outstanding = 0 ∧ (s.lh.length : Int) + MAXOPBLOCKS > LOGSIZE then
      .ok ({ s with committing := true }.goto p (.commit (commitStart s.lh) []))
    else
      .ok ((wakeup s).goto p .idle)

/-- One pass through the loop of `sync`, and the start of its commit; `log.c:238-246`. -/
def sync (s : State P) (p : P) (seen : List Nat) : State P :=
  if s.committing ∨ s.outstanding ≠ 0 then
    s.goto p (.syncWait true seen)
  else
    { s with committing := true }.goto p (.commit (commitStart s.lh) seen)

/-! ### Commit and recovery -/

omit [DecidableEq P] in
/-- One round of `write_log`; `log.c:182-189`. -/
def writeLogRound (g : Geometry) (s : State P) (tail : Nat) : State P :=
  bwrite s (g.start + tail + 1) (bread s (s.lh.getD tail 0))

omit [DecidableEq P] in
/-- One round of `install_trans`; `log.c:74-81`. -/
def installRound (g : Geometry) (s : State P) (tail : Nat) : State P :=
  bwrite s (s.lh.getD tail 0) (bread s (g.start + tail + 1))

omit [DecidableEq P] in
/-- `write_head`; `log.c:101-113`. -/
def putHead (g : Geometry) (s : State P) : State P :=
  bwrite s g.start (writeHead (bread s g.start) s.lh)

/-- The step of `commit()` at `stage`, or its caller's last section; `log.c:165-173,
192-202,246-252`. -/
def commitStep (g : Geometry) (s : State P) (p : P) (seen : List Nat) : Stage → State P
  | .writeLog tail =>
    (writeLogRound g s tail).goto p
      (.commit (if tail + 1 < s.lh.length then .writeLog (tail + 1) else .writeHead) seen)
  | .writeHead =>
    { putHead g s with hist := { s.hist with durable := bread s, pending := [] } }.goto p
      (.commit (.install 0) seen)
  | .install tail =>
    (installRound g s tail).goto p
      (.commit (if tail + 1 < s.lh.length then .install (tail + 1) else .clear) seen)
  | .clear => (putHead g { s with lh := [] }).goto p (.commit .done seen)
  | .done =>
    (wakeup { s with
      committing := false
      hist := { s.hist with synced := s.hist.synced ++ seen } }).goto p .idle

omit [DecidableEq P] in
/-- The step of `recover_from_log()`; `log.c:115-122`. -/
def recoverStep (g : Geometry) (s : State P) : Mode → Except Stop (State P)
  | .readHead =>
    let lh := readHead (bread s g.start)
    .ok { s with lh := lh, mode := if 0 < lh.length then .install 0 else .clear }
  | .install tail =>
    .ok { installRound g s tail with
      mode := if tail + 1 < s.lh.length then .install (tail + 1) else .clear }
  | .clear => .ok { putHead g { s with lh := [] } with mode := .up }
  | .up => .error .disabled

omit [DecidableEq P] in
/-- The machine stops: only the disk survives, and the next boot runs `initlog`. -/
def crash (s : State P) : State P where
  outstanding := 0
  committing := false
  lh := []
  disk := s.disk
  cache := fun _ ↦ none
  mode := .readHead
  procs := fun _ ↦ .idle
  hist := { s.hist with ended := [], pending := [], lost := s.hist.lost ++ s.hist.pending }

omit [DecidableEq P] in
/-- The machine before the first boot from `disk`. -/
def boot (disk : Nat → Block) : State P where
  outstanding := 0
  committing := false
  lh := []
  disk := disk
  cache := fun _ ↦ none
  mode := .readHead
  procs := fun _ ↦ .idle
  hist := ⟨disk, 0, [], [], [], []⟩

/-- One action. A process acts only while the system is up; `log_write` is called inside
the caller's own operation on a home block, by the contract of `log.c:204-212`. -/
def step (g : Geometry) (s : State P) : Action P → Except Stop (State P)
  | .beginOp p =>
    match s.mode, s.procs p with
    | .up, .idle | .up, .beginWait false => .ok (beginOp s p)
    | _, _ => .error .disabled
  | .logWrite p b data =>
    match s.mode, s.procs p with
    | .up, .inOp op => if g.Home b then logWrite g s p op b data else .error .disabled
    | _, _ => .error .disabled
  | .endOp p =>
    match s.mode, s.procs p with
    | .up, .inOp op => endOp s p op
    | _, _ => .error .disabled
  | .sync p =>
    match s.mode, s.procs p with
    | .up, .idle => .ok (sync s p s.hist.ended)
    | .up, .syncWait false seen => .ok (sync s p seen)
    | _, _ => .error .disabled
  | .commit p =>
    match s.mode, s.procs p with
    | .up, .commit stage seen => .ok (commitStep g s p seen stage)
    | _, _ => .error .disabled
  | .kill p => .ok (s.goto p (s.procs p).wake)
  | .fill b =>
    match s.cache b with
    | some _ => .error .disabled
    | none => .ok { s with cache := update s.cache b (some ⟨s.disk b, false⟩) }
  | .evict b =>
    match s.cache b with
    | some ⟨_, false⟩ => .ok { s with cache := update s.cache b none }
    | _ => .error .disabled
  | .crash => .ok (crash s)
  | .recover => recoverStep g s s.mode

end Processes

end Xv6.Log
