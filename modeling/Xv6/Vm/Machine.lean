import Xv6.Vm.Model

/-!
# Processes and their memory

The machine of the processes together with their memory and the page directories that the CPUs have
loaded. A step of the processes is taken with what its call does to memory; the parts of
`thread_create`, `sbrk` and `exec` that concern memory only are steps of their own.
-/

namespace Xv6.Vm

open Function Sched

section

variable {n : Nat} (round : Int → Int)

/-- A machine with `n` CPUs. `cr3` is the page directory a CPU has loaded, none for that of the
kernel. -/
structure State (n : Nat) where
  kernel : Sched.State n
  vm : Spaces
  cr3 : Fin n → Option Frame

/-- The steps of the machine. `exec` is given the ends of the segments of the file and whether the
rest of the call succeeds. -/
inductive Action (n : Nat) where
  | call (a : Sched.Action n)
  | t_allocustack (c : Fin n)
  | growproc (c : Fin n) (k : Int)
  | exec (c : Fin n) (ends : List Nat) (succeeds : Bool)

/-- The processes run on, or stop. -/
def sched {α : Type} (x : Except Sched.Fault α) : Except Fault α :=
  match x with
  | .ok a => .ok a
  | .error e => .error (.sched e)

/-! ### What the calls do to memory -/

/-- `kalloc` in `allocproc`; `proc.c:99-103`. -/
def fork (s : State n) (kalloc : Bool) : Except Fault Spaces :=
  match findUnused s.kernel with
  | none => .ok s.vm
  | some w =>
    match s.vm.mem.kalloc, kalloc with
    | none, false => .ok (s.vm.modify w fun v ↦ { v with kstack := none })
    | some (f, mem), true =>
      .ok ({ s.vm with mem }.modify w fun v ↦ { v with kstack := some f, stacked := false })
    | _, _ => .error .disabled

/-- `proc.c:214-221`. -/
def forkDone (s : State n) (p : Slot) (copied : Bool) : Except Fault Spaces :=
  match (s.kernel.proc p).np with
  | none => .error .disabled
  | some w =>
    if (s.kernel.proc w).isthread = true then
      .error .disabled
    else do
      let v := s.vm.space p
      let (mem, pgdir) ← s.vm.mem.copyuvm v.pgdir v.sz
      match pgdir, copied with
      | none, false =>
        let mem ← mem.kfree (s.vm.space w).kstack
        .ok ({ s.vm with mem }.modify w fun v ↦ { v with pgdir := none, kstack := none })
      | some f, true =>
        .ok ({ s.vm with mem }.modify w fun x ↦ { x with pgdir := some f, sz := v.sz })
      | _, _ => .error .disabled

/-- A turn of the loop of `exit` over the threads of a group; `proc.c:280-289`. -/
def freeThread (s : State n) (vm : Spaces) (t : Ptr) : Except Fault Spaces :=
  match t with
  | none => .ok vm
  | some w =>
    match (s.kernel.proc w).master with
    | none => .error .pointer
    | some m => do
      let vm ← vm.t_deallocustack w m
      .ok (vm.modify w fun v ↦ { v with kstack := none })

/-- `proc.c:276-292`. -/
def exit (s : State n) (p : Slot) : Except Fault Spaces :=
  match exiting s.kernel p with
  | none => .error .pointer
  | some m =>
    if (s.kernel.proc m).isthread = true then
      ((List.finRange MAXTHREAD).map fun i ↦ (s.kernel.proc m).threads i.succ).foldlM
        (freeThread s) s.vm
    else .ok s.vm

/-- `proc.c:328-340`. -/
def wait (s : State n) (p : Slot) : Except Fault Spaces :=
  match zombieChild s.kernel p with
  | none => .ok s.vm
  | some q => do
    let mem ← s.vm.mem.kfree (s.vm.space q).kstack
    let mem ← mem.freevm (s.vm.space q).pgdir
    .ok ({ s.vm with mem }.modify q fun v ↦ { v with kstack := none })

/-- `kalloc` in `allocthread`, and the page directory of the new thread; `thread.c:47-51,158`. -/
def thread_create (s : State n) (p : Slot) : Except Fault Spaces :=
  match (s.kernel.proc p).master, findUnused s.kernel with
  | some m, some w =>
    match s.vm.mem.kalloc with
    | none => .error .threadAlloc
    | some (f, mem) =>
      .ok ({ s.vm with mem }.modify w fun v ↦ { v with
        kstack := some f, pgdir := (s.vm.space m).pgdir, stacked := false })
  | _, _ => .error .disabled

/-- A `thread_create` ends when it has allocated a stack. -/
def threadReady (s : State n) (p : Slot) : Except Fault Spaces :=
  match (s.kernel.proc p).np with
  | none => .error .disabled
  | some w =>
    if (s.kernel.proc w).isthread = true ∧ (s.vm.space w).stacked = true then .ok s.vm
    else .error .disabled

/-- `thread.c:201-209`. -/
def thread_join (s : State n) (p : Slot) (thread : Nat) : Except Fault Spaces :=
  if h : thread < MAXTHREAD + 1 then
    match (s.kernel.proc p).threads ⟨thread, h⟩ with
    | none => .error .pointer
    | some t =>
      if (s.kernel.proc t).state ≠ .ZOMBIE then .ok s.vm
      else
        match (s.kernel.proc t).master with
        | none => .error .pointer
        | some m => s.vm.t_deallocustack t m
  else .error .pointer

/-- What a step of the processes does to memory. -/
def effect (s : State n) : Sched.Action n → Except Fault Spaces
  | .fork _ kalloc => fork s kalloc
  | .forkDone c copied => do forkDone s (← sched (current s.kernel c)) copied
  | .exit c => do exit s (← sched (caller s.kernel c))
  | .wait c => do wait s (← sched (caller s.kernel c))
  | .thread_create c => do thread_create s (← sched (caller s.kernel c))
  | .threadReady c => do threadReady s (← sched (current s.kernel c))
  | .thread_join c thread => do thread_join s (← sched (caller s.kernel c)) thread
  | _ => .ok s.vm

/-! ### Switches -/

/-- What `switchuvm` and `run_next_thread` require of a process; `vm.c:159-164`,
`thread.c:299-302`. -/
def switchable (vm : Spaces) (p : Slot) : Except Fault Unit :=
  if (vm.space p).kstack = none then .error .noKstack
  else if (vm.space p).pgdir = none then .error .noPgdir
  else .ok ()

/-- Load the page directory of `p`; `vm.c:156-178`. -/
def switchuvm (s : State n) (c : Fin n) (p : Slot) : Except Fault (State n) := do
  switchable s.vm p
  .ok { s with cr3 := update s.cr3 c (s.vm.space p).pgdir }

/-- The CPU of a step. -/
def cpuOf : Sched.Action n → Option (Fin n)
  | .scheduler c | .tick c | .boost c | .yield c | .sleep c _ | .fork c _ | .forkDone c _ | .exit c
  | .wait c | .set_cpu_share c _ | .thread_create c | .threadReady c | .thread_exit c
  | .thread_join c _ => some c
  | .wakeup _ | .kill _ => none

/-- The page directory that CPU `c` loads when the processes go on as `t`: `scheduler()` calls
`switchuvm` before it runs a process and `switchkvm` when it is back, `run_next_thread` neither. -/
def switched (s : State n) (vm : Spaces) (t : Sched.State n) (c : Fin n) :
    Except Fault (State n) :=
  let u : State n := ⟨t, vm, s.cr3⟩
  match (s.kernel.cpu c).proc, (t.cpu c).proc with
  | none, none => .ok u
  | none, some q => switchuvm u c q
  | some _, none => .ok { u with cr3 := update s.cr3 c none }
  | some p, some q =>
    if q = p then .ok u
    else do
      switchable vm q
      .ok u

/-! ### Steps -/

/-- `thread.c:161-173`. -/
def ustack (s : State n) (p : Slot) : Except Fault Spaces :=
  match (s.kernel.proc p).np, (s.kernel.proc p).master with
  | some w, some m =>
    if (s.kernel.proc w).isthread = true ∧ (s.vm.space w).stacked = false then do
      let vm ← s.vm.t_allocustack m w
      let copied ← vm.mem.copyout (vm.space w).pgdir (Spaces.uint ((vm.space w).sz - 8)) 8
      if copied = true then .ok vm else .error .ustackCopy
    else .error .disabled
  | _, _ => .error .disabled

/-- `proc.c:177-196`. It holds no lock between the read of `sz` and the store; here it is taken
whole, and the results about groups ask that no other member can execute when it changes `sz`. -/
def growproc (s : State n) (c : Fin n) (p : Slot) (k : Int) : Except Fault (State n) := do
  let v := s.vm.space p
  let (mem, sz) ←
    if 0 < k then s.vm.mem.allocuvm v.pgdir v.sz (Spaces.uint (v.sz + k))
    else if k < 0 then s.vm.mem.deallocuvm v.pgdir v.sz (Spaces.uint (v.sz + k))
    else .ok (s.vm.mem, v.sz)
  let s := { s with vm := { s.vm with mem } }
  if k ≠ 0 ∧ sz = 0 then .ok s
  else switchuvm { s with vm := s.vm.modify p fun v ↦ { v with sz } } c p

/-- The loop of `exec` over the segments, none on failure; `exec.c:42-58`. -/
def load (pgdir : Option Frame) : List Nat → Nat → Memory → Except Fault (Memory × Option Nat)
  | [], sz, mem => .ok (mem, some sz)
  | e :: es, sz, mem => do
    let (mem, sz) ← mem.allocuvm pgdir sz e
    if sz = 0 then .ok (mem, none) else load pgdir es sz mem

/-- The new address space of `exec`, with the size of its user part, none on failure;
`exec.c:38-89`. -/
def image (mem : Memory) (ends : List Nat) (succeeds : Bool) :
    Except Fault (Memory × Option (Frame × Nat)) := do
  let (mem, pgdir) ← mem.setupkvm
  match pgdir with
  | none => .ok (mem, none)
  | some f =>
    let bad (mem : Memory) : Except Fault (Memory × Option (Frame × Nat)) := do
      .ok (← mem.freevm (some f), none)
    let (mem, sz) ← load (some f) ends 0 mem
    match sz with
    | none => bad mem
    | some sz =>
      let sz := pageUp sz * PGSIZE
      let (mem, sz) ← mem.allocuvm (some f) sz (sz + 2 * PGSIZE)
      if sz = 0 then
        bad mem
      else
        let mem ← mem.clearpteu (some f) (sz - 2 * PGSIZE)
        if succeeds = true then .ok (mem, some (f, sz)) else bad mem

/-- `exec.c:36-114`. -/
def exec (s : State n) (c : Fin n) (p : Slot) (ends : List Nat) (succeeds : Bool) :
    Except Fault (State n) := do
  let (mem, new) ← image s.vm.mem ends succeeds
  let old := (s.vm.space p).pgdir
  let s := { s with vm := { s.vm with mem } }
  match new with
  | none => .ok s
  | some (f, sz) =>
    let s ← switchuvm { s with vm := s.vm.modify p fun v ↦ { v with pgdir := some f, sz } } c p
    let mem ← s.vm.mem.freevm old
    .ok { s with vm := { s.vm with mem } }

/-- One step. -/
def step (s : State n) : Action n → Except Fault (State n)
  | .call a => do
    let t ← sched (Sched.step round s.kernel a)
    let vm ← effect s a
    match cpuOf a with
    | none => .ok { s with kernel := t, vm }
    | some c => switched s vm t c
  | .t_allocustack c => do
    let vm ← ustack s (← sched (current s.kernel c))
    .ok { s with vm }
  | .growproc c k => do growproc s c (← sched (caller s.kernel c)) k
  | .exec c ends succeeds => do exec s c (← sched (caller s.kernel c)) ends succeeds

/-! ### The start -/

/-- The memory of an entry that is zeroed. -/
def Space.zero : Space := ⟨0, none, none, fun _ ↦ 0, false⟩

/-- The first process has one page; `proc.c:140-152`, `vm.c:180-193`. -/
def inituvm (pages : List Frame) : Except Fault Spaces :=
  match (Memory.mk pages fun _ ↦ none).kalloc with
  | none => .error .pointer
  | some (kstack, mem) => do
    let (mem, pgdir) ← mem.setupkvm
    match mem.kalloc with
    | none => .error .pointer
    | some (f, mem) =>
      let (mem, _) ← mem.mappages pgdir 0 ⟨f, true, true⟩
      .ok (Spaces.mk (fun _ ↦ Space.zero) mem |>.modify 0 fun v ↦
        { v with kstack := some kstack, pgdir, sz := PGSIZE })

/-- The machine when the CPUs enter `scheduler()`, with the given pages free before. -/
def boot (n : Nat) (pages : List Frame) : Except Fault (State n) := do
  let vm ← inituvm pages
  .ok ⟨Sched.boot n, vm, fun _ ↦ none⟩

end

end Xv6.Vm
