import Xv6.Lib.Outcome
import Xv6.Sched.Model

/-!
# User memory

Page directories, the page allocator and the functions of `vm.c` and `kalloc.c` on them, with the
stacks of threads that `thread.c` carves out of the memory of a process. What the pages of a user
hold is left out.
-/

namespace Xv6.Vm

open Function Sched

/-- Bytes of a page; `mmu.h:85`. -/
abbrev PGSIZE : Nat := 4096

/-- Entries of a page table; `mmu.h:84`. -/
abbrev NPTENTRIES : Nat := 1024

/-- Entries of a page directory for user addresses, which are those below `KERNBASE`. -/
abbrev UPDENTRIES : Nat := 512

/-- The first address of the kernel; `memlayout.h:8`. -/
abbrev KERNBASE : Nat := 0x80000000

/-- Page tables of the kernel part of an address space: `kmap` has 224 MiB from `KERNBASE` on and
the 32 MiB from `DEVSPACE` on; `vm.c:105-115`. -/
abbrev KPDENTRIES : Nat := 64

/-! ### Data -/

/-- A physical page, by its number. -/
abbrev Frame := Nat

/-- An entry of a page table that is present, with `PTE_W` and `PTE_U`. -/
structure Pte where
  frame : Frame
  writable : Bool
  user : Bool
  deriving DecidableEq

/-- A page table: the page it is in, and its entries that are present. -/
structure PageTable where
  frame : Frame
  pte : Nat → Option Pte

/-- A page directory: the page tables for user addresses, and the pages that hold those of the
kernel. -/
structure PageDir where
  pde : Nat → Option PageTable
  kernel : List Frame

/-- The list of `kalloc`, and the pages that hold page directories. -/
structure Memory where
  freelist : List Frame
  dir : Frame → Option PageDir

/-- The memory of an entry of `ptable.proc`; `proc.h:40-42,67`. `stacked` tells that the
`thread_create` that has made it a thread has called `t_allocustack`. -/
structure Space where
  sz : Nat
  pgdir : Option Frame
  kstack : Option Frame
  freeupages : Fin MAXTHREAD → Nat
  stacked : Bool

/-- The memory of all entries. -/
structure Spaces where
  space : Slot → Space
  mem : Memory

/-- What ends a run: a fault of the processes, a panic, or a use of memory that is not there. -/
inductive Fault where
  | sched (e : Sched.Fault)
  /-- "kfree". -/
  | kfree
  /-- "remap". -/
  | remap
  /-- "clearpteu". -/
  | clearpteu
  /-- "freevm: no pgdir". -/
  | freevm
  /-- "copyuvm: pte should exist". -/
  | pteShouldExist
  /-- "copyuvm: page not present". -/
  | pageNotPresent
  /-- "thread ustack allocation fail". -/
  | ustackAllocation
  /-- "thread ustack deallocation fail". -/
  | ustackDeallocation
  /-- "thread ustack copy fail". -/
  | ustackCopy
  /-- "thread alloc fail". -/
  | threadAlloc
  /-- "switchuvm: no kstack" or "run thread: no kstack". -/
  | noKstack
  /-- "switchuvm: no pgdir" or "run thread: no pgdir". -/
  | noPgdir
  /-- A null pointer is followed. -/
  | pointer
  /-- A page that does not hold a page directory is used as one. -/
  | dangling
  /-- The step cannot be taken. -/
  | disabled
  deriving DecidableEq

/-! ### Pages -/

/-- The number of the page at `PGROUNDUP(a)`; `mmu.h:90`. -/
def pageUp (a : Nat) : Nat := (a + PGSIZE - 1) / PGSIZE

/-- The entry for page `v`, if it is present. -/
def PageDir.pte (d : PageDir) (v : Nat) : Option Pte :=
  (d.pde (v / NPTENTRIES)).bind fun tbl ↦ tbl.pte (v % NPTENTRIES)

/-- Write the entry for page `v` in a page table that is there. -/
def PageDir.setPte (d : PageDir) (v : Nat) (e : Option Pte) : PageDir :=
  match d.pde (v / NPTENTRIES) with
  | none => d
  | some tbl => { d with
      pde := update d.pde (v / NPTENTRIES) (some { tbl with
        pte := update tbl.pte (v % NPTENTRIES) e }) }

namespace Memory

variable (mem : Memory)

/-- The page directory at `pgdir`. -/
def lookup (pgdir : Option Frame) : Except Fault (Frame × PageDir) :=
  match pgdir with
  | none => .error .pointer
  | some f =>
    match mem.dir f with
    | none => .error .dangling
    | some d => .ok (f, d)

/-- Write to a page that holds a page directory. -/
def write (f : Frame) (d : PageDir) : Memory := { mem with dir := update mem.dir f (some d) }

/-- `kalloc.c:82-95`. -/
def kalloc : Option (Frame × Memory) :=
  match mem.freelist with
  | [] => none
  | f :: fs => some (f, { mem with freelist := fs })

/-- `kalloc.c:55-77`; the page is overwritten. -/
def kfree (v : Option Frame) : Except Fault Memory :=
  match v with
  | none => .error .kfree
  | some f => .ok { freelist := f :: mem.freelist, dir := update mem.dir f none }

/-- Map page `v`; `vm.c:60-80`. The flag tells whether there was memory for a page table. -/
def mappages (pgdir : Option Frame) (v : Nat) (e : Pte) : Except Fault (Memory × Bool) := do
  let (f, d) ← mem.lookup pgdir
  match d.pde (v / NPTENTRIES) with
  | some _ =>
    if (d.pte v).isSome = true then .error .remap
    else .ok (mem.write f (d.setPte v (some e)), true)
  | none =>
    match mem.kalloc with
    | none => .ok (mem, false)
    | some (tbl, mem) =>
      let d := { d with pde := update d.pde (v / NPTENTRIES) (some ⟨tbl, fun _ ↦ none⟩) }
      .ok (mem.write f (d.setPte v (some e)), true)

/-- Unmap and free page `v`, if it is mapped; `vm.c:266-276`. -/
def freePage (pgdir : Option Frame) (v : Nat) : Except Fault Memory := do
  let (f, d) ← mem.lookup pgdir
  match d.pte v with
  | none => .ok mem
  | some e =>
    let mem ← mem.kfree (some e.frame)
    .ok (mem.write f (d.setPte v none))

/-- The pages from `lo` up to `hi` whose page table is there. -/
def walked (d : PageDir) (lo hi : Nat) : List Nat :=
  (List.range' (lo / NPTENTRIES) (hi / NPTENTRIES + 1 - lo / NPTENTRIES)).flatMap fun i ↦
    if (d.pde i).isSome = true then
      (List.range' (i * NPTENTRIES) NPTENTRIES).filter fun v ↦ lo ≤ v ∧ v < hi
    else []

/-- Shrink user memory from `oldsz` to `newsz`; `vm.c:251-279`. -/
def deallocuvm (pgdir : Option Frame) (oldsz newsz : Nat) : Except Fault (Memory × Nat) :=
  if newsz ≥ oldsz then .ok (mem, oldsz)
  else do
    let (_, d) ← mem.lookup pgdir
    let mem ← (walked d (pageUp newsz) (pageUp oldsz)).foldlM (fun mem v ↦ mem.freePage pgdir v) mem
    .ok (mem, newsz)

/-- The loop of `allocuvm` over the pages to map. -/
def allocPages (pgdir : Option Frame) (oldsz newsz : Nat) :
    List Nat → Memory → Except Fault (Memory × Nat)
  | [], mem => .ok (mem, newsz)
  | v :: vs, mem =>
    match mem.kalloc with
    | none => do
      let (mem, _) ← mem.deallocuvm pgdir newsz oldsz
      .ok (mem, 0)
    | some (f, mem) => do
      let (mem, mapped) ← mem.mappages pgdir v ⟨f, true, true⟩
      if mapped = true then allocPages pgdir oldsz newsz vs mem
      else do
        let (mem, _) ← mem.deallocuvm pgdir newsz oldsz
        let mem ← mem.kfree (some f)
        .ok (mem, 0)

/-- Grow user memory from `oldsz` to `newsz`, with 0 on failure; `vm.c:219-249`. -/
def allocuvm (pgdir : Option Frame) (oldsz newsz : Nat) : Except Fault (Memory × Nat) :=
  if newsz ≥ KERNBASE then .ok (mem, 0)
  else if newsz < oldsz then .ok (mem, oldsz)
  else
    allocPages pgdir oldsz newsz (List.range' (pageUp oldsz) (pageUp newsz - pageUp oldsz)) mem

/-- Free an address space; `vm.c:281-298`. -/
def freevm (pgdir : Option Frame) : Except Fault Memory :=
  match pgdir with
  | none => .error .freevm
  | some f => do
    let (mem, _) ← mem.deallocuvm (some f) KERNBASE 0
    let (_, d) ← mem.lookup (some f)
    let tables := (List.range UPDENTRIES).filterMap fun i ↦ (d.pde i).map (·.frame)
    let mem ← (tables ++ d.kernel).foldlM (fun mem v ↦ mem.kfree (some v)) mem
    mem.kfree (some f)

/-- Make an address space without user memory; `vm.c:117-136`. -/
def setupkvm : Except Fault (Memory × Option Frame) :=
  match mem.kalloc with
  | none => .ok (mem, none)
  | some (f, mem) =>
    let kernel := mem.freelist.take KPDENTRIES
    let mem := { mem with freelist := mem.freelist.drop KPDENTRIES }.write f ⟨fun _ ↦ none, kernel⟩
    if kernel.length < KPDENTRIES then do
      let mem ← mem.freevm (some f)
      .ok (mem, none)
    else .ok (mem, some f)

/-- Make a page inaccessible to the user; `vm.c:300-311`. -/
def clearpteu (pgdir : Option Frame) (uva : Nat) : Except Fault Memory := do
  let (f, d) ← mem.lookup pgdir
  match d.pde (uva / PGSIZE / NPTENTRIES) with
  | none => .error .clearpteu
  | some _ =>
    .ok (mem.write f (d.setPte (uva / PGSIZE)
      ((d.pte (uva / PGSIZE)).map fun e ↦ { e with user := false })))

/-- The loop of `copyuvm` over the pages of the parent. -/
def copyPages (pgdir child : Option Frame) :
    List Nat → Memory → Except Fault (Memory × Option Frame)
  | [], mem => .ok (mem, child)
  | v :: vs, mem => do
    let (_, d) ← mem.lookup pgdir
    match d.pde (v / NPTENTRIES) with
    | none => .error .pteShouldExist
    | some _ =>
      match d.pte v with
      | none => .error .pageNotPresent
      | some e =>
        match mem.kalloc with
        | none => do
          let mem ← mem.freevm child
          .ok (mem, none)
        | some (f, mem) => do
          let (mem, mapped) ← mem.mappages child v { e with frame := f }
          if mapped = true then copyPages pgdir child vs mem
          else do
            let mem ← mem.kfree (some f)
            let mem ← mem.freevm child
            .ok (mem, none)

/-- Copy an address space for a child, none on failure; `vm.c:313-345`. -/
def copyuvm (pgdir : Option Frame) (sz : Nat) : Except Fault (Memory × Option Frame) := do
  let (mem, child) ← mem.setupkvm
  match child with
  | none => .ok (mem, none)
  | some f => copyPages pgdir (some f) (List.range (pageUp sz)) mem

/-- The loop of `copyout` over the pages to write to. -/
def accessible (d : PageDir) : List Nat → Except Fault Bool
  | [] => .ok true
  | v :: vs =>
    match d.pde (v / NPTENTRIES) with
    | none => .error .pointer
    | some _ =>
      match d.pte v with
      | none => .ok false
      | some e => if e.user = true then accessible d vs else .ok false

/-- Whether `copyout` can write `len` bytes to `va`; `vm.c:349-386`. -/
def copyout (pgdir : Option Frame) (va len : Nat) : Except Fault Bool := do
  let (_, d) ← mem.lookup pgdir
  accessible d (List.range' (va / PGSIZE) (pageUp (va + len) - va / PGSIZE))

end Memory

/-! ### The memory of a process -/

namespace Spaces

variable (vm : Spaces)

/-- Assignments to fields of the memory of an entry. -/
def modify (p : Slot) (f : Space → Space) : Spaces :=
  { vm with space := update vm.space p (f (vm.space p)) }

/-- A `uint`. -/
def uint (x : Int) : Nat := (x % 2 ^ 32).toNat

/-- The place where `t_allocustack` finds a stack to use again; `thread.c:94-95`. -/
def reusable (m : Slot) : Option (Fin MAXTHREAD) :=
  (List.finRange MAXTHREAD).find? fun i ↦ (vm.space m).freeupages i ≠ 0

/-- Where `t_allocustack` allocates a stack. -/
def nextStack (m : Slot) : Nat :=
  match vm.reusable m with
  | some i => (vm.space m).freeupages i
  | none => (vm.space m).sz

/-- The stack up to `top` is taken; `thread.c:101,112`. -/
def claim (m : Slot) (top : Nat) : Spaces :=
  vm.modify m fun v ↦
    match vm.reusable m with
    | some i => { v with freeupages := update v.freeupages i 0 }
    | none => { v with sz := top }

/-- Allocate a user stack for `thread` in the memory of `master`; `thread.c:87-118`. -/
def t_allocustack (master thread : Slot) : Except Fault Spaces := do
  let base := vm.nextStack master
  let (mem, sz) ← vm.mem.allocuvm (vm.space master).pgdir base (uint (base + 2 * PGSIZE))
  if sz = 0 then
    .error .ustackAllocation
  else
    let mem ← mem.clearpteu (vm.space master).pgdir (uint (sz - 2 * PGSIZE))
    .ok ({ vm.claim master sz with mem }.modify thread fun v ↦ { v with sz, stacked := true })

/-- The place in which `t_deallocustack` puts a stack; `thread.c:133-134`. -/
def vacant (m : Slot) : Option (Fin MAXTHREAD) :=
  (List.finRange MAXTHREAD).find? fun i ↦ (vm.space m).freeupages i = 0

/-- The stack at `base` is given back, if there is a place for it; `thread.c:133-138`. -/
def giveBack (m : Slot) (base : Nat) : Spaces :=
  vm.modify m fun v ↦
    match vm.vacant m with
    | some i => { v with freeupages := update v.freeupages i base }
    | none => v

/-- Free the stacks of `thread`, a thread of `master`; `thread.c:120-142`. -/
def t_deallocustack (thread master : Slot) : Except Fault Spaces := do
  let v := vm.space thread
  let mem ← vm.mem.kfree v.kstack
  let (mem, sz) ← mem.deallocuvm v.pgdir v.sz (uint (v.sz - 2 * PGSIZE))
  if sz = 0 then .error .ustackDeallocation else .ok ({ vm with mem }.giveBack master sz)

end Spaces

end Xv6.Vm
