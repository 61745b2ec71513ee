import Xv6.Lib.Transition
import Xv6.Lib.Ring

/-!
# Pipes

`pipe.c` under any interleaving of any number of processes. `p->lock` is held from `acquire` to
`release`, and `sleep` gives it up and takes it again, so a step is one round of a loop by the
process that holds the lock, or takes it. `kill` needs no lock of the pipe and may come between
any two steps.

The processes are those without threads: `thread_create` copies `ofile[]` without `filedup`
(`thread.c:181-184`), so with threads an end can be closed while another thread is in a call on it.
-/

namespace Xv6.Pipe

open Function

/-- `PIPESIZE`; `pipe.c:11`. -/
abbrev PIPESIZE : Nat := 512

/-- Where a process is in `pipewrite` or `piperead`; `addr` are the bytes to write, of which `i`
are written, and `got` are the bytes read. -/
inductive Pc where
  | idle
  /-- At the test of a loop of `pipewrite`. -/
  | write (addr : List UInt8) (i : Nat)
  /-- At `sleep(&p->nwrite, &p->lock)`. -/
  | writeSleep (addr : List UInt8) (i : Nat)
  | writeWait (asleep : Bool) (addr : List UInt8) (i : Nat)
  /-- At the test of the `while` loop of `piperead`. -/
  | read (n : Nat)
  /-- At `sleep(&p->nread, &p->lock)`. -/
  | readSleep (n : Nat)
  | readWait (asleep : Bool) (n : Nat)
  /-- At the test of the `for` loop of `piperead`. -/
  | copy (n : Nat) (got : List UInt8)
  deriving DecidableEq

/-- What has happened, for specifications only. -/
structure History (P : Type) where
  /-- The bytes put into the pipe, with the process that put them. -/
  put : List (P × UInt8)
  /-- The bytes taken out of the pipe. -/
  taken : List UInt8
  /-- What the finished writes of a process have written: all bytes, or those before the -1. -/
  sent : P → List UInt8
  /-- What the last call of a process returned, with the bytes at `addr` for a read; none is -1. -/
  ret : P → Option (List UInt8)
  /-- A process has been killed and has left `pipewrite` while the read end was open. -/
  abandoned : Bool

/-- A `struct pipe` and the processes that use it. -/
structure State (P : Type) where
  data : Nat → UInt8
  nread : UInt32
  nwrite : UInt32
  readopen : Bool
  writeopen : Bool
  /-- The holder of `p->lock`. -/
  lock : Option P
  killed : P → Bool
  procs : P → Pc
  /-- How often `kfree(p)` has been called. -/
  frees : Nat
  hist : History P

/-- What a process does next. -/
inductive Action (P : Type) where
  | pipewrite (p : P) (addr : List UInt8)
  | piperead (p : P) (n : Nat)
  | pipeclose (p : P) (writable : Bool)
  /-- The next step of the call that `p` is in. -/
  | run (p : P)
  | kill (p : P)

/-- Why an action is not a step: the process is elsewhere, or it spins on the lock. -/
inductive Stop where
  | disabled
  deriving DecidableEq

/-! ### Sleeping and waking -/

/-- A sleeper on `&p->nread` becomes runnable. -/
def Pc.wakeReader : Pc → Pc
  | .readWait _ n => .readWait false n
  | pc => pc

/-- A sleeper on `&p->nwrite` becomes runnable. -/
def Pc.wakeWriter : Pc → Pc
  | .writeWait _ addr i => .writeWait false addr i
  | pc => pc

variable {P : Type}

/-- `wakeup(&p->nread)`. -/
def wakeReaders (s : State P) : State P := { s with procs := fun p ↦ (s.procs p).wakeReader }

/-- `wakeup(&p->nwrite)`. -/
def wakeWriters (s : State P) : State P := { s with procs := fun p ↦ (s.procs p).wakeWriter }

/-- `p->nwrite == p->nread + PIPESIZE`. -/
def Full (s : State P) : Prop := s.nwrite = s.nread + UInt32.ofNat PIPESIZE

instance (s : State P) : Decidable (Full s) := inferInstanceAs (Decidable (_ = _))

/-- `p->nread == p->nwrite`. -/
def Empty (s : State P) : Prop := s.nread = s.nwrite

instance (s : State P) : Decidable (Empty s) := inferInstanceAs (Decidable (_ = _))

section

variable [DecidableEq P]

/-- The holder of the lock goes on at `pc`. -/
def State.goto (s : State P) (p : P) (pc : Pc) : State P :=
  { s with procs := update s.procs p pc, lock := some p }

/-- `sleep` releases the lock. -/
def State.rest (s : State P) (p : P) (pc : Pc) : State P :=
  { s with procs := update s.procs p pc, lock := none }

/-- `release(&p->lock); return r`. -/
def State.done (s : State P) (p : P) (r : Option (List UInt8)) : State P :=
  { s.rest p .idle with hist := { s.hist with ret := update s.hist.ret p r } }

/-- `p->data[p->nwrite++ % PIPESIZE] = b`. -/
def put (s : State P) (p : P) (b : UInt8) : State P :=
  { s with
    data := update s.data (s.nwrite % UInt32.ofNat PIPESIZE).toNat b
    nwrite := s.nwrite + 1
    hist := { s.hist with put := s.hist.put ++ [(p, b)] } }

/-- `p->data[p->nread++ % PIPESIZE]`. -/
def take (s : State P) : State P × UInt8 :=
  let b := s.data (s.nread % UInt32.ofNat PIPESIZE).toNat
  ({ s with nread := s.nread + 1, hist := { s.hist with taken := s.hist.taken ++ [b] } }, b)

/-- A write of `p` has put `bytes` into the pipe and returns. -/
def sentBy (s : State P) (p : P) (bytes : List UInt8) : State P :=
  { s with hist := { s.hist with sent := update s.hist.sent p (s.hist.sent p ++ bytes) } }

/-- `pipewrite` finds the pipe full, and the read end closed or its process killed. -/
def abandon (s : State P) (p : P) (addr : List UInt8) (i : Nat) : State P :=
  let t := (sentBy s p (addr.take i)).done p none
  { t with hist := { t.hist with abandoned := s.hist.abandoned || s.readopen } }

/-- The loops of `pipewrite` from one test; `pipe.c:84-96`. -/
def writeRound (s : State P) (p : P) (addr : List UInt8) (i : Nat) : State P :=
  if h : i < addr.length then
    if Full s then
      if s.readopen = false ∨ s.killed p = true then
        abandon s p addr i
      else
        (wakeReaders s).goto p (.writeSleep addr i)
    else
      (put s p addr[i]).goto p (.write addr (i + 1))
  else
    (sentBy (wakeReaders s) p addr).done p (some addr)

/-- The `while` loop of `piperead` from its test; `pipe.c:106-112`. -/
def readRound (s : State P) (p : P) (n : Nat) : State P :=
  if Empty s ∧ s.writeopen = true then
    if s.killed p = true then
      s.done p none
    else
      s.goto p (.readSleep n)
  else
    s.goto p (.copy n [])

/-- The `for` loop of `piperead` from its test; `pipe.c:113-120`. -/
def copyRound (s : State P) (p : P) (n : Nat) (got : List UInt8) : State P :=
  if got.length < n ∧ ¬Empty s then
    let (s, b) := take s
    s.goto p (.copy n (got ++ [b]))
  else
    (wakeWriters s).done p (some got)

omit [DecidableEq P] in
/-- One end of the pipe is closed; `pipe.c:63-69`. -/
def closeEnd (s : State P) (writable : Bool) : State P :=
  if writable then wakeReaders { s with writeopen := false }
  else wakeWriters { s with readopen := false }

omit [DecidableEq P] in
/-- The critical section of `pipeclose`, with the `kfree` after it; `pipe.c:59-75`. -/
def pipeclose (s : State P) (writable : Bool) : State P :=
  let s := closeEnd s writable
  { s with frees := if s.readopen = false ∧ s.writeopen = false then s.frees + 1 else s.frees }

/-- One action. -/
def step (s : State P) : Action P → Except Stop (State P)
  | .pipewrite p addr =>
    match s.procs p, s.lock with
    | .idle, none => .ok (s.goto p (.write addr 0))
    | _, _ => .error .disabled
  | .piperead p n =>
    match s.procs p, s.lock with
    | .idle, none => .ok (s.goto p (.read n))
    | _, _ => .error .disabled
  | .pipeclose p writable =>
    match s.procs p, s.lock with
    | .idle, none => .ok (pipeclose s writable)
    | _, _ => .error .disabled
  | .run p =>
    match s.procs p with
    | .idle => .error .disabled
    | .write addr i => .ok (writeRound s p addr i)
    | .writeSleep addr i => .ok (s.rest p (.writeWait true addr i))
    | .writeWait true _ _ => .error .disabled
    | .writeWait false addr i =>
      match s.lock with
      | none => .ok (s.goto p (.write addr i))
      | some _ => .error .disabled
    | .read n => .ok (readRound s p n)
    | .readSleep n => .ok (s.rest p (.readWait true n))
    | .readWait true _ => .error .disabled
    | .readWait false n =>
      match s.lock with
      | none => .ok (s.goto p (.read n))
      | some _ => .error .disabled
    | .copy n got => .ok (copyRound s p n got)
  | .kill p =>
    .ok { s with
      killed := update s.killed p true
      procs := update s.procs p (s.procs p).wakeReader.wakeWriter }

end

/-- The pipe that `pipealloc` makes; `pipe.c:31-46`. -/
def pipealloc (data : Nat → UInt8) (killed : P → Bool) : State P where
  data := data
  nread := 0
  nwrite := 0
  readopen := true
  writeopen := true
  lock := none
  killed := killed
  procs := fun _ ↦ .idle
  frees := 0
  hist := ⟨[], [], fun _ ↦ [], fun _ ↦ none, false⟩

/-! ### What the callers see to -/

/-- The process is in `pipewrite`. -/
def Pc.Writing : Pc → Prop
  | .write _ _ | .writeSleep _ _ | .writeWait _ _ _ => True
  | _ => False

/-- The process is in `piperead`. -/
def Pc.Reading : Pc → Prop
  | .read _ | .readSleep _ | .readWait _ _ | .copy _ _ => True
  | _ => False

instance (pc : Pc) : Decidable pc.Writing :=
  match pc with
  | .write _ _ | .writeSleep _ _ | .writeWait _ _ _ => .isTrue trivial
  | .idle | .read _ | .readSleep _ | .readWait _ _ | .copy _ _ => .isFalse id

instance (pc : Pc) : Decidable pc.Reading :=
  match pc with
  | .read _ | .readSleep _ | .readWait _ _ | .copy _ _ => .isTrue trivial
  | .idle | .write _ _ | .writeSleep _ _ | .writeWait _ _ _ => .isFalse id

/-- What holds of processes without threads. A call is made through an open file to which a
descriptor of the caller refers, and `fileclose` closes the end with the last reference, so nobody
is in a call on the end that is closed; `file.c:56-80`. -/
def Allowed (s : State P) : Action P → Prop
  | .pipewrite _ _ => s.writeopen = true
  | .piperead _ _ => s.readopen = true
  | .pipeclose _ true => s.writeopen = true ∧ ∀ p, ¬(s.procs p).Writing
  | .pipeclose _ false => s.readopen = true ∧ ∀ p, ¬(s.procs p).Reading
  | .run _ => True
  | .kill _ => True

instance [Fintype P] (s : State P) (a : Action P) : Decidable (Allowed s a) :=
  match a with
  | .pipewrite _ _ => inferInstanceAs (Decidable (s.writeopen = true))
  | .piperead _ _ => inferInstanceAs (Decidable (s.readopen = true))
  | .pipeclose _ true =>
    inferInstanceAs (Decidable (s.writeopen = true ∧ ∀ p, ¬(s.procs p).Writing))
  | .pipeclose _ false =>
    inferInstanceAs (Decidable (s.readopen = true ∧ ∀ p, ¬(s.procs p).Reading))
  | .run _ => .isTrue trivial
  | .kill _ => .isTrue trivial

end Xv6.Pipe
