import Xv6.Base.Param
import Xv6.Lib.MinHeap
import Xv6.Lib.Transition

/-!
# Processes, threads and the two-level scheduler

The process table, the MLFQ and stride heaps and the LWP groups of `proc.c`, `scheduler.c`,
`thread.c` and the timer part of `trap.c`, as a step function. What runs under `ptable.lock`
is one step, from where the lock is taken to where the CPU has switched; the two locked parts
of `fork` and `thread_create` are two steps. `set_cpu_share`, which takes no lock, is one, and so
is what `allocthread` does after it has let the lock go.
Page tables, files and return values of threads are left out.
-/

namespace Xv6.Sched

open Function

/-! ### Data -/

/-- `enum procstate`; `proc.h:35`. -/
inductive ProcState where
  | UNUSED | EMBRYO | SLEEPING | RUNNABLE | RUNNING | ZOMBIE
  deriving DecidableEq

/-- An entry of `ptable.proc`. -/
abbrev Slot := Fin NPROC

/-- A `struct proc *`; none is the null pointer. -/
abbrev Ptr := Option Slot

/-- What a process sleeps on: an entry of `ptable.proc` or another object of the kernel. -/
inductive Chan where
  | proc (p : Slot)
  | object (n : Nat)
  deriving DecidableEq

/-- Per-process state; `proc.h:39-74`. `np` is the local variable `np` of a `fork`, or `new` of
a `thread_create`, that the process is in the middle of; `trapped` tells that it has yielded in
`trap` before the test for a priority boost. -/
structure Proc where
  state : ProcState
  pid : Nat
  parent : Ptr
  chan : Option Chan
  killed : Bool
  qlev : Int
  qticks : Nat
  isexhausted : Bool
  tickets : Int
  stride : Int
  pass : Int
  threads : Fin (MAXTHREAD + 1) → Ptr
  t_cnt : Int
  t_lastsched : Fin (MAXTHREAD + 1)
  isthread : Bool
  tid : Fin (MAXTHREAD + 1)
  master : Ptr
  np : Ptr
  trapped : Bool

/-- The two schedulers. -/
inductive Class where
  | mlfq | stride
  deriving DecidableEq

/-- `struct scheduler`; `proc.h:76-82`. -/
structure Scheduler extends Lib.Heap Ptr where
  tickets : Int
  stride : Int
  pass : Int

/-- The part of `struct cpu` that concerns scheduling. `dispatched` is the local variable `p` of
`scheduler()`, with the branch it is in, from the switch to `p` until `p` is put back. -/
structure Cpu where
  proc : Ptr
  dispatched : Option (Class × Slot)

/-- A record that CPU `cpu` has switched to `proc`, whose state was `before`. -/
structure Dispatch (n : Nat) where
  cpu : Fin n
  proc : Slot
  before : ProcState

/-- The state of a machine with `n` CPUs. `trace` is the history of the switches. -/
structure State (n : Nat) where
  proc : Slot → Proc
  nextpid : Nat
  initproc : Ptr
  sched : Class → Scheduler
  mlfqticks : Nat
  cpu : Fin n → Cpu
  trace : List (Dispatch n)

/-- What ends a run: a panic, a trap in the kernel, or a step that cannot be taken. -/
inductive Fault where
  /-- A division by zero. -/
  | divide
  /-- A null pointer is followed, or an array is read past its end. -/
  | pointer
  /-- "sched running". -/
  | schedRunning
  /-- "zombie exit". -/
  | zombieExit
  /-- "ZOMBIE thread exit". -/
  | zombieThreadExit
  /-- "init exiting". -/
  | initExiting
  /-- "full thread". -/
  | fullThread
  /-- "thread alloc fail". -/
  | threadAlloc
  /-- The CPU or the process is not where the step starts. -/
  | disabled
  deriving DecidableEq

/-! ### Arithmetic -/

/-- A sum of two `int`s as the machine computes it. -/
def int32 (x : Int) : Int := Int.bmod x (2 ^ 32)

/-- The `float` nearest to an integer, ties to even; all floats of the schedulers are integers.
The steps take the rounding as a parameter, so that `id` makes them compute exactly. -/
def float (x : Int) : Int :=
  if x.natAbs < 2 ^ 24 then x
  else
    let e := Nat.log2 x.natAbs - 23
    let q := x.natAbs / 2 ^ e
    let r := x.natAbs % 2 ^ e
    let q := if 2 * r > 2 ^ e ∨ (2 * r = 2 ^ e ∧ q % 2 = 1) then q + 1 else q
    x.sign * (q * 2 ^ e : Nat)

section

variable {n : Nat} (round : Int → Int)

/-! ### The process table -/

/-- `*p = v`. -/
def State.set (s : State n) (p : Slot) (v : Proc) : State n := { s with proc := update s.proc p v }

/-- Assignments to fields of `*p`. -/
def State.modify (s : State n) (p : Slot) (f : Proc → Proc) : State n := s.set p (f (s.proc p))

/-- The first entry of `ptable.proc` that is `UNUSED`. -/
def findUnused (s : State n) : Ptr :=
  (List.finRange NPROC).find? fun p ↦ (s.proc p).state = .UNUSED

/-! ### The heaps -/

/-- The key of an entry: `p->qlev` in `mlfqsched`, `p->pass` in `stridesched`. -/
def key (s : State n) (k : Class) : Ptr → Int
  | none => 0
  | some p =>
    match k with
    | .mlfq => (s.proc p).qlev
    | .stride => (s.proc p).pass

/-- `mlfq_enqueue` and `stride_enqueue`, which differ in the key only. -/
def enqueue (s : State n) (k : Class) (p : Slot) : State n × Int :=
  if (s.sched k).count ≥ NPROC then
    (s, -1)
  else
    let v := s.sched k
    ({ s with sched := update s.sched k { v with toHeap := v.enqueue (key s k) (some p) } }, 0)

/-- `mlfq_dequeue` and `stride_dequeue`, which differ in the key only. -/
def dequeue (s : State n) (k : Class) : State n × Ptr :=
  if (s.sched k).count = 0 then
    (s, none)
  else
    let v := s.sched k
    ({ s with sched := update s.sched k { v with toHeap := v.dequeue (key s k) } }, v.heap 1)

/-- `scheduler.c:47-71`. -/
def mlfq_enqueue (s : State n) (p : Slot) : State n × Int := enqueue s .mlfq p

/-- `scheduler.c:73-102`. -/
def mlfq_dequeue (s : State n) : State n × Ptr := dequeue s .mlfq

/-- `scheduler.c:104-128`. -/
def stride_enqueue (s : State n) (p : Slot) : State n × Int := enqueue s .stride p

/-- `scheduler.c:130-159`. -/
def stride_dequeue (s : State n) : State n × Ptr := dequeue s .stride

/-! ### Dispatch -/

/-- `c->proc = q; q->state = RUNNING;` and the switch to `q`. -/
def switchTo (s : State n) (c : Fin n) (q : Slot) : State n :=
  { s.modify q fun v ↦ { v with state := .RUNNING } with
    cpu := update s.cpu c { s.cpu c with proc := some q }
    trace := ⟨c, q, (s.proc q).state⟩ :: s.trace }

/-- The switch to `p` in branch `k` of `scheduler()`. -/
def dispatch (s : State n) (c : Fin n) (k : Class) (p : Slot) : State n :=
  let s := switchTo s c p
  { s with cpu := update s.cpu c { s.cpu c with dispatched := some (k, p) } }

/-- `swtch(&(p->context), mycpu()->scheduler)`: `scheduler()` goes on after its own `swtch`, puts
the process it dispatched back and has no process; `proc.c:411-418,448-455`. -/
def swtchScheduler (s : State n) (c : Fin n) : State n :=
  let s :=
    match (s.cpu c).dispatched with
    | some (k, p) => (enqueue s k p).1
    | none => s
  { s with cpu := update s.cpu c { proc := none, dispatched := none } }

/-! ### LWP groups -/

/-- `t != 0 && t->state == RUNNABLE`. -/
def isRunnable (s : State n) : Ptr → Bool
  | none => false
  | some q => (s.proc q).state = .RUNNABLE

/-- The index at which the search of `get_next_thread` stops, if before `t_lastsched`. -/
def nextIndex (s : State n) (m : Slot) : Option (Fin (MAXTHREAD + 1)) :=
  let v := s.proc m
  ((List.finRange MAXTHREAD).map fun k ↦ v.t_lastsched + 1 + k.castSucc).find? fun i ↦
    isRunnable s (v.threads i)

/-- The next thread of the group of `m` in round robin order; `thread.c:254-280`. -/
def get_next_thread (s : State n) (m : Slot) : State n × Ptr :=
  let v := s.proc m
  if v.t_cnt = 0 then
    (s, some m)
  else
    match nextIndex s m with
    | some i => (s.modify m fun v ↦ { v with t_lastsched := i }, v.threads i)
    | none =>
      (s, if isRunnable s (v.threads v.t_lastsched) then v.threads v.t_lastsched else none)

/-- `get_next_thread` reads `threads[t_lastsched]->state` through a null pointer. In `scheduler()`
address 0 is not mapped; in a process it is memory of the user, and the result is 0 either way. -/
def ReadsNull (s : State n) (m : Slot) : Prop :=
  (s.proc m).t_cnt ≠ 0 ∧ nextIndex s m = none ∧ (s.proc m).threads (s.proc m).t_lastsched = none

instance (s : State n) (m : Slot) : Decidable (ReadsNull s m) := inferInstanceAs (Decidable (_ ∧ _))

/-- Switch from `p` to the next thread of its group, or to the scheduler; `thread.c:282-317`. The
flag tells that the next thread is `p`, so that the call returns at once. -/
def run_next_thread (s : State n) (c : Fin n) (p m : Slot) : State n × Bool :=
  match get_next_thread s m with
  | (s, none) => (swtchScheduler s c, false)
  | (s, some next) => if next = p then (s, true) else (switchTo s c next, false)

/-- Enter the scheduler from `p` on CPU `c`; `proc.c:476-505`. The flag tells that the call
returns at once. -/
def sched (s : State n) (c : Fin n) (p : Slot) : Except Fault (State n × Bool) :=
  if (s.proc p).state = .RUNNING then
    .error .schedRunning
  else
    match (s.proc p).master with
    | none => .error .pointer
    | some m =>
      if (s.proc m).isexhausted = true then
        .ok (swtchScheduler (s.modify m fun v ↦ { v with isexhausted := false }) c, false)
      else if (s.proc p).isthread = true then
        .ok (run_next_thread s c p m)
      else
        .ok (swtchScheduler s c, false)

/-! ### `scheduler()` -/

/-- The test by which branch `k` drops a process of the other class; `proc.c:383,422`. -/
def Misplaced (k : Class) (v : Proc) : Prop :=
  match k with
  | .mlfq => v.tickets > 0
  | .stride => v.tickets = 0

instance (k : Class) (v : Proc) : Decidable (Misplaced k v) :=
  match k with
  | .mlfq => inferInstanceAs (Decidable (v.tickets > 0))
  | .stride => inferInstanceAs (Decidable (v.tickets = 0))

/-- The new key of a sleeping process that branch `k` puts back; `proc.c:387-388,426`. -/
def park (s : State n) (k : Class) (p : Slot) : Except Fault (State n) :=
  match k with
  | .mlfq => .ok (s.modify p fun v ↦ { v with qlev := 3, qticks := 0 })
  | .stride =>
    match (s.sched .stride).heap (s.sched .stride).count with
    | none => .error .pointer
    | some q => .ok (s.modify p fun v ↦ { v with pass := (s.proc q).pass })

/-- Branch `k` of the loop, up to the switch to a process; `proc.c:381-410,421-447`. -/
def branch (s : State n) (c : Fin n) (k : Class) : Except Fault (State n) :=
  match dequeue s k with
  | (s, none) => .ok s
  | (s, some p) =>
    if Misplaced k (s.proc p) then
      .ok s
    else if (s.proc p).state = .SLEEPING then do
      let s ← park s k p
      let s := (enqueue s k p).1
      if (s.proc p).isthread = true then
        if ReadsNull s p then
          .error .pointer
        else
          match get_next_thread s p with
          | (s, none) => .ok s
          | (s, some q) => .ok (dispatch s c k q)
      else
        .ok s
    else if (s.proc p).state ≠ .RUNNABLE then
      .ok s
    else
      .ok (dispatch s c k p)

/-- The branch that an iteration takes; `proc.c:380`. -/
def chosen (s : State n) : Class :=
  if (s.sched .mlfq).pass ≤ (s.sched .stride).pass ∨ (s.sched .stride).count = 0 then .mlfq
  else .stride

/-- One iteration of the loop of `scheduler()` on a CPU without a process; `proc.c:373-457`. -/
def scheduler (s : State n) (c : Fin n) : Except Fault (State n) :=
  if (s.cpu c).proc ≠ none ∨ (s.cpu c).dispatched ≠ none then
    .error .disabled
  else
    branch s c (chosen s)

/-! ### Allocation -/

/-- The entry that `allocproc` sets up in `p`; `proc.c:93-94,119-133`. -/
def Proc.fresh (p : Slot) (pid : Nat) (v : Proc) : Proc :=
  { v with
    pid, state := .EMBRYO, qlev := 0, qticks := 0, isexhausted := false, tickets := 0, pass := 0,
    t_cnt := 0, threads := fun i ↦ if i = 0 then some p else none, master := some p,
    t_lastsched := 0, isthread := false, np := none, trapped := false }

/-- Initialize an entry of the table; `proc.c:76-136`. The flag tells whether `kalloc` succeeds. -/
def allocproc (s : State n) (kalloc : Bool) : State n × Ptr :=
  match findUnused s with
  | none => (s, none)
  | some p =>
    if kalloc = true then
      ({ s.modify p (Proc.fresh p s.nextpid) with nextpid := s.nextpid + 1 }, some p)
    else
      ({ s.modify p fun v ↦ { v with pid := s.nextpid } with nextpid := s.nextpid + 1 }, none)

/-- Initialize an entry of the table as a thread of `m`; `thread.c:21-85`. It is taken whole,
although it holds `ptable.lock` from the search for an entry to its new pid only: no other CPU and
no tick comes between the test of `t_cnt`, the search in `threads` and the end. -/
def allocthread (s : State n) (m : Slot) : Except Fault (State n × Slot) :=
  if (s.proc m).t_cnt ≥ MAXTHREAD then
    .error .fullThread
  else
    match findUnused s with
    | none => .error .threadAlloc
    | some p =>
      let s := { s.modify p fun v ↦ { v with
        state := .EMBRYO, pid := s.nextpid, qlev := 0, qticks := 0, tickets := 0, pass := 0,
        np := none, trapped := false } with nextpid := s.nextpid + 1 }
      let s :=
        match (List.finRange (MAXTHREAD + 1)).find? fun i ↦
            i ≠ 0 ∧ (s.proc m).threads i = none with
        | some i =>
          (s.modify m fun v ↦ { v with threads := update v.threads i (some p) }).modify p
            fun v ↦ { v with tid := i }
        | none => s
      let s := s.modify m fun v ↦ { v with t_cnt := v.t_cnt + 1 }
      .ok (s.modify p fun v ↦ { v with isthread := true }, p)

/-! ### The calls, up to their call of `sched` -/

/-- What a call has come to: its end, or a call of `sched` by `p` on CPU `c`. -/
inductive Next (n : Nat) where
  | done (s : State n)
  | sched (s : State n) (c : Fin n) (p : Slot)

/-- `fork` up to the end of `allocproc`; `proc.c:201-211`. -/
def fork (s : State n) (p : Slot) (kalloc : Bool) : State n :=
  let (s, np) := allocproc s kalloc
  s.modify p fun v ↦ { v with np }

/-- The rest of `fork`; the flag tells whether `copyuvm` succeeds; `proc.c:213-244`. -/
def forkDone (s : State n) (p : Slot) (copyuvm : Bool) : Except Fault (State n) :=
  match (s.proc p).np with
  | none => .error .disabled
  | some np =>
    let s := s.modify p fun v ↦ { v with np := none }
    if copyuvm = true then
      .ok (mlfq_enqueue (s.modify np fun v ↦ { v with parent := some p, state := .RUNNABLE }) np).1
    else
      .ok (s.modify np fun v ↦ { v with state := .UNUSED })

/-- `thread_create` up to the end of `allocthread`; `thread.c:144-156`. -/
def thread_create (s : State n) (p : Slot) : Except Fault (State n) :=
  match (s.proc p).master with
  | none => .error .pointer
  | some m => do
    let (s, new) ← allocthread s m
    pure (s.modify p fun v ↦ { v with np := some new })

/-- The rest of `thread_create`; `thread.c:157-192`. -/
def threadReady (s : State n) (p : Slot) : Except Fault (State n) :=
  match (s.proc p).np, (s.proc p).master with
  | some new, some m =>
    let s := s.modify p fun v ↦ { v with np := none }
    let s := s.modify new fun v ↦ { v with master := some m }
    let s := s.modify m fun v ↦ { v with isthread := true }
    .ok (s.modify new fun v ↦ { v with state := .RUNNABLE })
  | _, _ => .error .disabled

/-- Wake up all processes sleeping on `chan`; `proc.c:580-590`. -/
def wakeup1 (s : State n) (chan : Option Chan) : State n :=
  { s with
    proc := fun p ↦
      if (s.proc p).state = .SLEEPING ∧ (s.proc p).chan = chan then
        { s.proc p with state := .RUNNABLE, qlev := 0 }
      else
        s.proc p }

/-- `proc.c:508-515`. -/
def yield (s : State n) (c : Fin n) (p : Slot) : Next n :=
  .sched (s.modify p fun v ↦ { v with state := .RUNNABLE }) c p

/-- `proc.c:540-575`. The reset of `chan` when the process is dispatched again is left out:
`chan` is read of sleeping processes only, and set when they go to sleep. -/
def sleep (s : State n) (c : Fin n) (p : Slot) (chan : Chan) : Next n :=
  .sched (s.modify p fun v ↦ { v with chan := some chan, state := .SLEEPING }) c p

/-- The workers of `m`: the entries of `threads` from 1 on. -/
def IsWorker (s : State n) (m q : Slot) : Prop := ∃ i, i ≠ 0 ∧ (s.proc m).threads i = some q

instance (s : State n) (m q : Slot) : Decidable (IsWorker s m q) :=
  inferInstanceAs (Decidable (∃ _, _))

/-- The loop of `exit` over the threads of `m`; `proc.c:277-292`. -/
def freeThreads (s : State n) (m : Slot) : State n :=
  let s' := { s with
    proc := fun q ↦
      if IsWorker s m q then { s.proc q with state := .UNUSED, killed := false } else s.proc q }
  s'.modify m fun v ↦ { v with
    threads := fun i ↦ if i = 0 then v.threads i else none, t_cnt := 0 }

/-- The loop of `exit` over the children of `p`; `proc.c:298-305`. -/
def abandonChildren (s : State n) (p : Slot) : State n :=
  let s' := { s with
    proc := fun q ↦
      if (s.proc q).parent = some p then { s.proc q with parent := s.initproc } else s.proc q }
  if (∃ q, (s.proc q).parent = some p ∧ (s.proc q).state = .ZOMBIE) then
    wakeup1 s' (s.initproc.map .proc)
  else
    s'

/-- The process that `exit` ends when `p` calls it: `p`, or the master of its group. -/
def exiting (s : State n) (p : Slot) : Ptr :=
  if (s.proc p).isthread = true then (s.proc p).master else some p

/-- `proc.c:249-311`. -/
def exit (s : State n) (c : Fin n) (p : Slot) : Except Fault (Next n) :=
  match exiting s p with
  | none => .error .pointer
  | some m =>
    if s.initproc = some m then
      .error .initExiting
    else
      let s := if (s.proc m).isthread = true then freeThreads s m else s
      let s := wakeup1 s ((s.proc m).parent.map .proc)
      let s := abandonChildren s m
      .ok (.sched (s.modify m fun v ↦ { v with state := .ZOMBIE }) c p)

/-- The child that `wait` finds. -/
def zombieChild (s : State n) (p : Slot) : Ptr :=
  (List.finRange NPROC).find? fun q ↦ (s.proc q).parent = some p ∧ (s.proc q).state = .ZOMBIE

/-- One round of the loop of `wait`; `proc.c:315-356`. -/
def wait (s : State n) (c : Fin n) (p : Slot) : Next n :=
  match zombieChild s p with
  | some q =>
    .done (s.modify q fun v ↦ { v with
      pid := 0, parent := none, killed := false, state := .UNUSED })
  | none =>
    if (∀ q, (s.proc q).parent ≠ some p) ∨ (s.proc p).killed = true then
      .done s
    else
      sleep s c p (.proc p)

/-- One round of the loop of `thread_join`; `thread.c:195-221`. -/
def thread_join (s : State n) (c : Fin n) (p : Slot) (thread : Nat) : Except Fault (Next n) :=
  if h : thread < MAXTHREAD + 1 then
    match (s.proc p).threads ⟨thread, h⟩ with
    | none => .error .pointer
    | some t =>
      if (s.proc t).state ≠ .ZOMBIE then
        .ok (sleep s c p (.proc p))
      else
        let s := s.modify p fun v ↦ { v with
          threads := update v.threads (s.proc t).tid none
          isthread := if v.t_cnt = 0 then false else v.isthread }
        .ok (.done (s.modify t fun v ↦ { v with state := .UNUSED }))
  else
    .error .pointer

/-- `thread.c:224-252`. -/
def thread_exit (s : State n) (c : Fin n) (p : Slot) : Except Fault (Next n) :=
  match (s.proc p).master with
  | none => .error .pointer
  | some m =>
    let s := wakeup1 s (some (.proc m))
    let s := s.modify p fun v ↦ { v with state := .ZOMBIE }
    .ok (.sched (s.modify m fun v ↦ { v with t_cnt := v.t_cnt - 1 }) c p)

/-- Kill the process with the given pid; `proc.c:604-633`. -/
def kill (s : State n) (pid : Nat) : Except Fault (State n) :=
  match (List.finRange NPROC).find? fun p ↦ (s.proc p).pid = pid with
  | none => .ok s
  | some p => do
    let s := s.modify p fun v ↦ { v with killed := true }
    let s ←
      if (s.proc p).isthread = true then
        match (s.proc p).master with
        | none => .error .pointer
        | some m => .ok { s with
            proc := fun q ↦
              if IsWorker s m q then { s.proc q with state := .ZOMBIE } else s.proc q }
      else
        .ok s
    if (s.proc p).state = .SLEEPING then
      pure (s.modify p fun v ↦ { v with state := .RUNNABLE })
    else
      pure s

/-- `scheduler.c:11-45`. It is taken whole, although it holds no lock: no other CPU and no tick
comes in between. -/
def set_cpu_share (s : State n) (p : Slot) (share : Int) : Except Fault (State n × Int) :=
  let tickets := int32 (TOTALTICKETS * share) |>.tdiv 100
  if int32 ((s.sched .stride).tickets + tickets) > TOTALTICKETS * MAXSHARE / 100 then
    .ok (s, -1)
  else
    let mlfq := s.sched .mlfq
    let stride := s.sched .stride
    let mlfqTickets := int32 (mlfq.tickets - tickets)
    let strideTickets := int32 (stride.tickets + tickets)
    if mlfqTickets = 0 ∨ strideTickets = 0 ∨ tickets = 0 ∨
        (strideTickets = -2 ^ 31 ∧ tickets = -1) then
      .error .divide
    else
      let stride := { stride with
        tickets := strideTickets
        pass := if stride.stride = 0 then mlfq.pass else stride.pass
        stride := round (TOTALTICKETS.tdiv strideTickets) }
      let mlfq := { mlfq with
        tickets := mlfqTickets
        stride := round (TOTALTICKETS.tdiv mlfqTickets) }
      let s := { s with sched := update (update s.sched .mlfq mlfq) .stride stride }
      let pass := if stride.count > 0 then key s .stride (stride.heap 1) else 0
      let s := s.modify p fun v ↦ { v with
        tickets, stride := round (strideTickets.tdiv tickets), qticks := 0, qlev := 0, pass }
      .ok ((stride_enqueue s p).1, 0)

/-! ### The timer -/

/-- `scheduler.c:161-199`. -/
def check_on_timer (s : State n) (m : Slot) : State n :=
  let v := s.proc m
  if v.tickets = 0 then
    let tq := if v.qlev = 1 then TQMIDDLE else if v.qlev = 2 then TQLOW else TQHIGH
    let ta := if v.qlev = 1 then TAMIDDLE else TAHIGH
    if v.qlev < 2 ∧ v.qticks % ta = 0 then
      s.set m { v with qlev := v.qlev + 1, qticks := 0, isexhausted := true }
    else if 0 < v.qticks ∧ v.qticks % tq = 0 then
      s.set m { v with isexhausted := true }
    else
      s.set m { v with isexhausted := false }
  else
    if 0 < v.qticks ∧ v.qticks % TQSTRIDE = 0 then
      s.set m { v with isexhausted := true }
    else
      s.set m { v with isexhausted := false }

/-- All slots of the array, also those past `count`; `proc.c:460-467`. -/
def priority_boost (s : State n) : State n :=
  { s with
    proc := fun p ↦
      if (∃ i : Fin NPROC, (s.sched .mlfq).heap (i + 1) = some p) then
        { s.proc p with qlev := 0, qticks := 0 }
      else
        s.proc p }

/-- The end of the timer part of `trap`; `trap.c:123-125`. -/
def boost (s : State n) (p : Slot) : State n :=
  let s := s.modify p fun v ↦ { v with trapped := false }
  if 0 < s.mlfqticks ∧ s.mlfqticks % PRIORITYBOOST = 0 then priority_boost s else s

/-- Addition of a stride to a pass. -/
def Scheduler.advance (v : Scheduler) : Scheduler := { v with pass := round (v.pass + v.stride) }

/-- A timer interrupt on CPU `c` while `p` is running; `trap.c:107-139`. -/
def tick (s : State n) (c : Fin n) (p : Slot) : Except Fault (Next n) :=
  if (s.proc p).state ≠ .RUNNING then
    .ok (.done s)
  else
    match (s.proc p).master with
    | none => .error .pointer
    | some m =>
      if (s.proc m).tickets = 0 then
        let s := s.modify m fun v ↦ { v with qticks := v.qticks + 1 }
        let s := { s with
          mlfqticks := (s.mlfqticks + 1) % 2 ^ 32
          sched := update s.sched .mlfq ((s.sched .mlfq).advance round) }
        let s := check_on_timer s m
        if (s.proc p).isthread = true ∨ (s.proc p).isexhausted = true then
          .ok (yield (s.modify p fun v ↦ { v with trapped := true }) c p)
        else
          .ok (.done (boost s p))
      else
        let s := s.modify p fun v ↦ { v with pass := round (v.pass + v.stride) }
        let s := { s with sched := update s.sched .stride ((s.sched .stride).advance round) }
        if (s.proc p).isthread = true then
          let s := s.modify m fun v ↦ { v with qticks := v.qticks + 1 }
          .ok (yield (check_on_timer s m) c p)
        else
          .ok (yield s c p)

/-! ### Steps -/

/-- The steps of the machine. -/
inductive Action (n : Nat) where
  | scheduler (c : Fin n)
  | tick (c : Fin n)
  | boost (c : Fin n)
  | yield (c : Fin n)
  | sleep (c : Fin n) (chan : Chan)
  | wakeup (chan : Chan)
  | kill (pid : Nat)
  | fork (c : Fin n) (kalloc : Bool)
  | forkDone (c : Fin n) (copyuvm : Bool)
  | exit (c : Fin n)
  | wait (c : Fin n)
  | set_cpu_share (c : Fin n) (share : Int)
  | thread_create (c : Fin n)
  | threadReady (c : Fin n)
  | thread_exit (c : Fin n)
  | thread_join (c : Fin n) (thread : Nat)

/-- `myproc()` on CPU `c`, when it is not in the middle of `trap`. -/
def current (s : State n) (c : Fin n) : Except Fault Slot :=
  match (s.cpu c).proc with
  | none => .error .disabled
  | some p => if (s.proc p).trapped = true then .error .disabled else .ok p

/-- `myproc()` on CPU `c`, when it may enter a system call. -/
def caller (s : State n) (c : Fin n) : Except Fault Slot := do
  let p ← current s c
  if (s.proc p).np = none then pure p else .error .disabled

/-- A step up to its call of `sched`, if it makes one. -/
def enter (s : State n) : Action n → Except Fault (Next n)
  | .scheduler c => do pure (.done (← scheduler s c))
  | .tick c => do tick round s c (← current s c)
  | .boost c =>
    match (s.cpu c).proc with
    | none => .error .disabled
    | some p => if (s.proc p).trapped = true then .ok (.done (boost s p)) else .error .disabled
  | .yield c => do pure (yield s c (← caller s c))
  | .sleep c chan => do pure (sleep s c (← caller s c) chan)
  | .wakeup chan => .ok (.done (wakeup1 s (some chan)))
  | .kill pid => do pure (.done (← kill s pid))
  | .fork c kalloc => do pure (.done (fork s (← caller s c) kalloc))
  | .forkDone c copyuvm => do pure (.done (← forkDone s (← current s c) copyuvm))
  | .exit c => do exit s c (← caller s c)
  | .wait c => do pure (wait s c (← caller s c))
  | .set_cpu_share c share => do pure (.done (← set_cpu_share round s (← caller s c) share).1)
  | .thread_create c => do pure (.done (← thread_create s (← caller s c)))
  | .threadReady c => do pure (.done (← threadReady s (← current s c)))
  | .thread_exit c => do thread_exit s c (← caller s c)
  | .thread_join c thread => do thread_join s c (← caller s c) thread

/-- What `p` does after a call of `sched` that returns at once. -/
def leave (s : State n) (p : Slot) : Action n → Except Fault (State n)
  | .exit _ => .error .zombieExit
  | .thread_exit _ => .error .zombieThreadExit
  | .tick _ => if (s.proc p).trapped = true then .ok (boost s p) else .ok s
  | .sleep _ _ | .wait _ | .thread_join _ _ => .ok (s.modify p fun v ↦ { v with chan := none })
  | _ => .ok s

/-- One step. -/
def step (s : State n) (a : Action n) : Except Fault (State n) := do
  match ← enter round s a with
  | .done s => pure s
  | .sched s c p =>
    let (s, back) ← sched s c p
    if back = true then leave s p a else pure s

/-! ### The start -/

/-- A zeroed entry of the table. -/
def Proc.zero : Proc where
  state := .UNUSED
  pid := 0
  parent := none
  chan := none
  killed := false
  qlev := 0
  qticks := 0
  isexhausted := false
  tickets := 0
  stride := 0
  pass := 0
  threads := fun _ ↦ none
  t_cnt := 0
  t_lastsched := 0
  isthread := false
  tid := 0
  master := none
  np := none
  trapped := false

/-- The static initial values; `scheduler.c:7-9`, `proc.c:20`. -/
def reset (n : Nat) : State n where
  proc := fun _ ↦ Proc.zero
  nextpid := 1
  initproc := none
  sched
    | .mlfq => ⟨⟨fun _ ↦ none, 0⟩, TOTALTICKETS, 1, 0⟩
    | .stride => ⟨⟨fun _ ↦ none, 0⟩, 0, 0, 0⟩
  mlfqticks := 0
  cpu := fun _ ↦ ⟨none, none⟩
  trace := []

/-- The first process; `proc.c:140-175`. -/
def userinit (s : State n) : State n :=
  match allocproc s true with
  | (s, none) => s
  | (s, some p) =>
    let s := { s with initproc := some p }
    (mlfq_enqueue (s.modify p fun v ↦ { v with state := .RUNNABLE }) p).1

/-- The machine when the CPUs enter `scheduler()`. -/
def boot (n : Nat) : State n := userinit (reset n)

/-- The CPU of a machine with one. -/
abbrev cpu0 : Fin 1 := ⟨0, Nat.one_pos⟩

end

end Xv6.Sched
