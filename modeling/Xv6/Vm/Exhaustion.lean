import Xv6.Sched.Links
import Xv6.Vm.Stacks
import Xv6.Vm.Steps

/-!
# `thread_create` without resources

A `thread_create` takes an entry of the table, a kernel stack and a user stack one after the other.
Where one of them is missing the kernel panics; where `threads` is full of workers that have not
been joined, the new thread is in no group.
-/

namespace Xv6.Vm

open Function Lib Sched

section

variable {n : Nat} (round : Int → Int)

/-- `thread_create` on CPU `c`, when no other step is taken meanwhile; `thread.c:144-192`. No failure
comes back to it: `allocthread` and `t_allocustack` panic. -/
def sys_thread_create (s : State n) (c : Fin n) : Except Fault (State n × Int) := do
  let s ← step round s (.call (.thread_create c))
  let s ← step round s (.t_allocustack c)
  let s ← step round s (.call (.threadReady c))
  .ok (s, 0)

/-- The resources that a `thread_create` for the group of `m` needs are not there: `m` has as many
workers as it may have, the table is full, or there is no page for the kernel stack or none for the
user stack. -/
def Exhausted (s : State n) (m : Slot) : Prop :=
  (∀ i, i ≠ 0 → ∃ q ∈ (s.kernel.proc m).threads i, (s.kernel.proc q).state ≠ .UNUSED) ∨
    (s.kernel.proc m).t_cnt ≥ MAXTHREAD ∨ findUnused s.kernel = none ∨ s.vm.mem.kalloc = none ∨
      ∃ f mem mem', s.vm.mem.kalloc = some (f, mem) ∧ mem.allocuvm (s.vm.space m).pgdir
        (s.vm.nextStack m) (Spaces.uint (s.vm.nextStack m + 2 * PGSIZE)) = .ok (mem', 0)

/-- The call returns -1 and leaves processes and memory as they were. -/
def FailsCleanly (s : State n) (c : Fin n) : Prop :=
  ∃ t, sys_thread_create round s c = .ok (t, -1) ∧ t.kernel = s.kernel ∧ t.vm = s.vm

/-- The call returns 0 and has made a thread that is not in `threads` of `m`. -/
def Unlisted (s : State n) (c : Fin n) (m : Slot) : Prop :=
  ∃ t w, sys_thread_create round s c = .ok (t, 0) ∧ (s.kernel.proc w).state = .UNUSED ∧
    (t.kernel.proc w).state = .RUNNABLE ∧ ∀ i, i ≠ 0 → (t.kernel.proc m).threads i ≠ some w

/-- A fault of the functions of `vm.c` and `thread.c` on memory. -/
def Fault.OfMemory (e : Fault) : Prop := e ≠ .disabled ∧ ∀ x, e ≠ .sched x

/-- A fault of `thread_create`. -/
def Fault.OfCreate (e : Fault) : Prop :=
  e = .sched .fullThread ∨ e = .sched .threadAlloc ∨ e.OfMemory

/-- The result of a function of `vm.c` or `thread.c` on memory. -/
private abbrev Runs {α : Type} (x : Except Fault α) : Prop :=
  Ensures x Fault.OfMemory fun _ ↦ True

variable {round} {s t : State n} {vm : Spaces} {mem : Memory} {c : Fin n} {p m w : Slot}
  {pgdir : Option Frame} {oldsz newsz v : Nat} {d : PageDir} {e : Pte}

/-! ### Faults of memory -/

private theorem runs_lookup : Runs (mem.lookup pgdir) := by
  unfold Memory.lookup
  split
  · exact ⟨nofun, nofun⟩
  · split
    · exact ⟨nofun, nofun⟩
    · trivial

private theorem runs_kfree {x : Option Frame} : Runs (mem.kfree x) := by
  unfold Memory.kfree
  split
  · exact ⟨nofun, nofun⟩
  · trivial

private theorem runs_mappages : Runs (mem.mappages pgdir v e) := by
  unfold Memory.mappages
  refine runs_lookup.bind fun ⟨f, d⟩ _ ↦ ?_
  dsimp only
  split
  · split
    · exact ⟨nofun, nofun⟩
    · trivial
  · split <;> trivial

private theorem runs_freePage : Runs (mem.freePage pgdir v) := by
  unfold Memory.freePage
  refine runs_lookup.bind fun ⟨f, d⟩ _ ↦ ?_
  dsimp only
  split
  · trivial
  · exact runs_kfree.bind fun _ _ ↦ trivial

private theorem runs_freePages (vs : List Nat) :
    Runs (vs.foldlM (fun mem v ↦ mem.freePage pgdir v) mem) := by
  induction vs generalizing mem with
  | nil => trivial
  | cons v vs ih =>
    rw [List.foldlM_cons]
    exact runs_freePage.bind fun _ _ ↦ ih

private theorem runs_deallocuvm : Runs (mem.deallocuvm pgdir oldsz newsz) := by
  unfold Memory.deallocuvm
  split
  · trivial
  · exact runs_lookup.bind fun _ _ ↦ (runs_freePages _).bind fun _ _ ↦ trivial

private theorem runs_allocPages (vs : List Nat) :
    Runs (Memory.allocPages pgdir oldsz newsz vs mem) := by
  induction vs generalizing mem with
  | nil => trivial
  | cons v vs ih =>
    unfold Memory.allocPages
    split
    · exact runs_deallocuvm.bind fun _ _ ↦ trivial
    · refine runs_mappages.bind fun ⟨mem, mapped⟩ _ ↦ ?_
      dsimp only
      split
      · exact ih
      · exact runs_deallocuvm.bind fun _ _ ↦ runs_kfree.bind fun _ _ ↦ trivial

private theorem runs_allocuvm : Runs (mem.allocuvm pgdir oldsz newsz) := by
  unfold Memory.allocuvm
  split
  · trivial
  · split
    · trivial
    · exact runs_allocPages _

private theorem runs_clearpteu {uva : Nat} : Runs (mem.clearpteu pgdir uva) := by
  unfold Memory.clearpteu
  refine runs_lookup.bind fun ⟨f, d⟩ _ ↦ ?_
  dsimp only
  split
  · exact ⟨nofun, nofun⟩
  · trivial

private theorem runs_t_allocustack :
    Ensures (vm.t_allocustack m w) Fault.OfMemory fun vm' ↦ (vm'.space w).stacked = true := by
  unfold Spaces.t_allocustack
  dsimp only
  generalize Spaces.uint (vm.nextStack m + 2 * PGSIZE) = top
  refine runs_allocuvm.bind fun ⟨mem, sz⟩ _ ↦ ?_
  dsimp only
  split
  · exact ⟨nofun, nofun⟩
  · refine runs_clearpteu.bind fun _ _ ↦ ?_
    show ((Spaces.modify _ w _).space w).stacked = true
    rw [Spaces.modify_space, if_pos rfl]

private theorem runs_accessible (l : List Nat) : Runs (Memory.accessible d l) := by
  induction l with
  | nil => trivial
  | cons v vs ih =>
    unfold Memory.accessible
    split
    · exact ⟨nofun, nofun⟩
    · split
      · trivial
      · split
        · exact ih
        · trivial

private theorem runs_copyout {va len : Nat} : Runs (mem.copyout pgdir va len) :=
  runs_lookup.bind fun _ _ ↦ runs_accessible _

/-! ### The parts of the call -/

/-- An `allocthread` that fails panics. -/
private theorem allocthread_error {k : Sched.State n} {x : Sched.Fault}
    (h : allocthread k m = .error x) : x = .fullThread ∨ x = .threadAlloc := by
  unfold allocthread at h
  split at h
  · cases h
    exact .inl rfl
  · split at h
    · cases h
      exact .inr rfl
    · cases h

private theorem step_thread_create {k : Sched.State n} (hp : caller k c = .ok p)
    (hm : (k.proc p).master = some m) : Sched.step round k (.thread_create c) = (do
      let (u, w) ← allocthread k m
      .ok (u.modify p fun v ↦ { v with np := some w })) := by
  have henter : enter round k (.thread_create c) =
      (do pure (.done (← Sched.thread_create k (← caller k c)))) := rfl
  unfold Sched.step
  rw [henter, hp]
  unfold Sched.thread_create
  simp only [bind, Except.bind, hm]
  cases allocthread k m with
  | error x => rfl
  | ok x => rfl

/-- What the first part of the call leaves when it finds an entry `w` and a page `f`. -/
private def begun (s : State n) (p w : Slot) (u : Sched.State n) (f : Frame) (mem : Memory)
    (pgdir : Option Frame) : State n :=
  { s with
    kernel := u.modify p fun v ↦ { v with np := some w }
    vm := { s.vm with mem }.modify w fun v ↦ { v with kstack := some f, pgdir, stacked := false } }

private theorem first_part (hp : caller s.kernel c = .ok p)
    (hm : (s.kernel.proc p).master = some m) :
    Ensures (step round s (.call (.thread_create c))) Fault.OfCreate fun t ↦ ∃ u w f mem,
      allocthread s.kernel m = .ok (u, w) ∧ s.vm.mem.kalloc = some (f, mem) ∧
        t = begun s p w u f mem (s.vm.space m).pgdir := by
  have hstep : step round s (.call (.thread_create c)) = (do
      let t ← sched (Sched.step round s.kernel (.thread_create c))
      let vm ← effect s (.thread_create c)
      switched s vm t c) := rfl
  rw [hstep, step_thread_create hp hm]
  cases ha : allocthread s.kernel m with
  | error x =>
    show Fault.OfCreate (.sched x)
    rcases allocthread_error ha with rfl | rfl
    · exact .inl rfl
    · exact .inr (.inl rfl)
  | ok x =>
    obtain ⟨u, w⟩ := x
    obtain ⟨hw, _, th, i, hu⟩ := allocthread_ok ha
    have hcpu : u.cpu = s.kernel.cpu := by
      rw [hu]
      rfl
    have heffect : effect s (.thread_create c) = thread_create s p := by
      have hunfold : effect s (.thread_create c) =
          (do thread_create s (← sched (caller s.kernel c))) := rfl
      rw [hunfold, hp]
      rfl
    show Ensures (effect s (.thread_create c) >>= fun vm ↦ switched s vm _ c) _ _
    rw [heffect]
    unfold thread_create
    rw [hm, hw]
    dsimp only
    split
    · exact .inr (.inr ⟨nofun, nofun⟩)
    · next f mem hf =>
      have hproc := cpu_of_caller hp
      show Ensures (switched s _ (u.modify p fun v ↦ { v with np := some w }) c) _ _
      unfold switched
      dsimp only
      rw [modify_cpu, hcpu, hproc]
      dsimp only
      rw [if_pos rfl]
      exact ⟨u, w, f, mem, rfl, hf, rfl⟩

/-- Between the parts of the call `p` goes on with the new thread `w` of `m`. -/
private structure Between (k : Sched.State n) (c : Fin n) (p m w : Slot) : Prop where
  current : current k c = .ok p
  np : (k.proc p).np = some w
  master : (k.proc p).master = some m
  isthread : (k.proc w).isthread = true

private theorem between {k u : Sched.State n} (hp : caller k c = .ok p)
    (hm : (k.proc p).master = some m) (ha : allocthread k m = .ok (u, w)) :
    Between (u.modify p fun v ↦ { v with np := some w }) c p m w := by
  obtain ⟨_, _, i, _, _, hlinks⟩ := links_create (p := p) ha
  obtain ⟨hcpu, htrap⟩ := current_eq_ok.mp (caller_eq_ok.mp hp).1
  have hw : (u.proc w).isthread = true ∧ (u.proc p).trapped = false ∧ u.cpu = k.cpu := by
    obtain ⟨_, _, th, j, rfl⟩ := allocthread_ok ha
    refine ⟨by simp, ?_, rfl⟩
    rw [modify_field (·.trapped) rfl, modify_field (·.trapped) rfl, modify_field (·.trapped) rfl,
      modify_field (·.trapped) rfl]
    dsimp only
    rw [modify_proc]
    split
    · rfl
    · exact htrap
  generalize hk : (u.modify p fun v ↦ { v with np := some w }) = k' at hlinks ⊢
  constructor
  · subst hk
    refine current_eq_ok.mpr ⟨?_, ?_⟩
    · rw [modify_cpu, hw.2.2, hcpu]
    · rw [modify_field (·.trapped) rfl, hw.2.1]
  · show (k'.links p).np = some w
    rw [hlinks]
    exact if_pos rfl
  · show (k'.links p).master = some m
    rw [hlinks]
    exact hm
  · show (k'.links w).isthread = true
    rw [hlinks]
    exact if_pos rfl

/-- The second part of the call allocates the user stack. -/
private theorem second_part (hb : Between s.kernel c p m w) (hs : (s.vm.space w).stacked = false) :
    Ensures (step round s (.t_allocustack c)) Fault.OfCreate fun t ↦ t.kernel = s.kernel ∧
      s.vm.t_allocustack m w = .ok t.vm ∧ (t.vm.space w).stacked = true := by
  have hstep : step round s (.t_allocustack c) = (do
      let vm ← ustack s (← sched (current s.kernel c))
      .ok { s with vm }) := rfl
  have hustack : ustack s p = (do
      let vm ← s.vm.t_allocustack m w
      let copied ← vm.mem.copyout (vm.space w).pgdir (Spaces.uint ((vm.space w).sz - 8)) 8
      if copied = true then .ok vm else .error .ustackCopy) := by
    unfold ustack
    rw [hb.np, hb.master]
    exact if_pos ⟨hb.isthread, hs⟩
  rw [hstep, hb.current]
  show Ensures (ustack s p >>= fun vm ↦ .ok { s with vm }) _ _
  rw [hustack]
  cases ht : s.vm.t_allocustack m w with
  | error e => exact .inr (.inr (runs_t_allocustack.of_error ht))
  | ok vm =>
    show Ensures ((vm.mem.copyout (vm.space w).pgdir (Spaces.uint ((vm.space w).sz - 8)) 8 >>=
      fun copied ↦ if copied = true then .ok vm else .error .ustackCopy) >>= _) _ _
    cases hcopy : vm.mem.copyout (vm.space w).pgdir (Spaces.uint ((vm.space w).sz - 8)) 8 with
    | error e => exact .inr (.inr (runs_copyout.of_error hcopy))
    | ok copied =>
      cases copied with
      | false => exact .inr (.inr ⟨nofun, nofun⟩)
      | true => exact ⟨rfl, rfl, runs_t_allocustack.of_ok ht⟩

private theorem threadReady_step : step round s (.call (.threadReady c)) = (do
    let t ← sched (do
      match ← (do pure (Next.done (← Sched.threadReady s.kernel (← current s.kernel c)))) with
      | .done u => pure u
      | .sched u c p =>
        let (u, back) ← Sched.sched u c p
        if back = true then leave u p (.threadReady c) else pure u)
    let vm ← (do threadReady s (← sched (current s.kernel c)))
    switched s vm t c) :=
  rfl

/-- The third part of the call makes the thread ready. -/
private theorem third_part (hb : Between s.kernel c p m w) (hs : (s.vm.space w).stacked = true) :
    ∃ t, step round s (.call (.threadReady c)) = .ok t ∧ (t.kernel.proc w).state = .RUNNABLE ∧
      (t.kernel.proc m).threads = (s.kernel.proc m).threads := by
  have hready : Sched.threadReady s.kernel p = .ok ((((s.kernel.modify p fun v ↦
      { v with np := none }).modify w fun v ↦ { v with master := some m }).modify m fun v ↦
        { v with isthread := true }).modify w fun v ↦ { v with state := .RUNNABLE }) := by
    unfold Sched.threadReady
    rw [hb.np, hb.master]
  have heffect : threadReady s p = .ok s.vm := by
    unfold threadReady
    rw [hb.np]
    exact if_pos ⟨hb.isthread, hs⟩
  have hcpu := cpu_of_current hb.current
  rw [threadReady_step, hb.current]
  simp only [bind, Except.bind, pure, Except.pure, hready, sched, heffect]
  unfold switched
  dsimp only
  simp only [modify_cpu, hcpu, if_true]
  exact ⟨_, rfl, by simp, by simp⟩

/-- What a call that returns has done. -/
private structure Created (s t : State n) (p m w : Slot) : Prop where
  thread : ∃ u : Sched.State n, allocthread s.kernel m = .ok (u, w) ∧
    (t.kernel.proc w).state = .RUNNABLE ∧
    (t.kernel.proc m).threads = ((u.modify p fun v ↦ { v with np := some w }).proc m).threads
  stack : ∃ (f : Frame) (mem : Memory) (vm vm' : Spaces), s.vm.mem.kalloc = some (f, mem) ∧ vm.mem = mem ∧
    (vm.space m).pgdir = (s.vm.space m).pgdir ∧ vm.nextStack m = s.vm.nextStack m ∧
      vm.t_allocustack m w = .ok vm'

private theorem nextStack_congr {vm vm' : Spaces} (hsz : (vm'.space m).sz = (vm.space m).sz)
    (hfree : (vm'.space m).freeupages = (vm.space m).freeupages) :
    vm'.nextStack m = vm.nextStack m := by
  unfold Spaces.nextStack Spaces.reusable
  rw [hsz, hfree]

private theorem create_parts (hp : caller s.kernel c = .ok p) (hm : (s.kernel.proc p).master = some m) :
    Ensures (sys_thread_create round s c) Fault.OfCreate fun r ↦
      r.2 = 0 ∧ ∃ w, Created s r.1 p m w := by
  unfold sys_thread_create
  refine (first_part hp hm).bind fun t₁ ⟨u, w, f, mem, ha, hf, ht₁⟩ ↦ ?_
  have hself : ∀ q, t₁.vm.space q = if q = w then { s.vm.space w with
      kstack := some f, pgdir := (s.vm.space m).pgdir, stacked := false } else s.vm.space q := by
    intro q
    rw [ht₁]
    unfold begun
    rw [Spaces.modify_space]
  have hkernel : t₁.kernel = u.modify p fun v ↦ { v with np := some w } := by rw [ht₁]; rfl
  have hmem : t₁.vm.mem = mem := by rw [ht₁]; rfl
  have hb : Between t₁.kernel c p m w := hkernel ▸ between hp hm ha
  have hspace : (t₁.vm.space m).pgdir = (s.vm.space m).pgdir ∧
      t₁.vm.nextStack m = s.vm.nextStack m := by
    constructor
    · rw [hself]
      split
      · rfl
      · rfl
    · apply nextStack_congr
      · rw [hself]
        split
        · next h => rw [h]
        · rfl
      · rw [hself]
        split
        · next h => rw [h]
        · rfl
  have hunstacked : (t₁.vm.space w).stacked = false := by rw [hself, if_pos rfl]
  refine (second_part hb hunstacked).bind fun t₂ ⟨hk, hstack, hstacked⟩ ↦ ?_
  obtain ⟨t₃, ht₃, hstate, hthreads⟩ := third_part (hk ▸ hb) hstacked
  rw [ht₃]
  refine ⟨rfl, w, ⟨u, ha, hstate, ?_⟩, ⟨f, mem, t₁.vm, t₂.vm, hf, hmem, hspace.1, hspace.2, hstack⟩⟩
  rw [hthreads, hk, hkernel]

/-- A `thread_create` that finds a resource missing panics, or returns 0 with a thread in no entry
of `threads`; it never returns -1 with everything as before. -/
theorem create_exhausted (hp : caller s.kernel c = .ok p) (hm : (s.kernel.proc p).master = some m)
    (h : Exhausted s m) : ¬FailsCleanly round s c ∧
      ((∃ e, sys_thread_create round s c = .error e ∧ e.OfCreate) ∨ Unlisted round s c m) := by
  have hcreated := @create_parts _ round _ _ _ _ hp hm
  unfold FailsCleanly Unlisted
  cases hcall : sys_thread_create round s c with
  | error e =>
    rw [hcall] at hcreated
    exact ⟨nofun, .inl ⟨e, rfl, hcreated⟩⟩
  | ok r =>
    obtain ⟨t, x⟩ := r
    rw [hcall] at hcreated
    obtain ⟨hx, w, ⟨u, ha, hstate, hthreads⟩, f, mem, vm, vm', hf, hmem, hpgdir, hnext, hstack⟩ :=
      hcreated
    dsimp only at hx hstate hthreads
    subst hx
    refine ⟨nofun, .inr ⟨t, w, rfl, ?_⟩⟩
    obtain ⟨hw, hcnt, i, hi, _, hlinks⟩ := links_create (p := p) ha
    rcases h with hfull | hmax | hnone | hnone | ⟨f', mem', mem'', hf', hfail⟩
    · refine ⟨state_of_findUnused hw, hstate, fun j hj hlisted ↦ ?_⟩
      have hnoIndex : i = none := by
        cases i with
        | none => rfl
        | some j =>
          obtain ⟨hj, hnone⟩ := hi j rfl
          obtain ⟨q, hq, _⟩ := hfull j hj
          cases hnone.symm.trans hq
      have hold : (t.kernel.proc m).threads = (s.kernel.proc m).threads := by
        rw [hthreads]
        funext j
        show ((u.modify p fun v ↦ { v with np := some w }).links m).threads j = _
        rw [hlinks, hnoIndex]
        simp [Links.create, links_apply, Proc.link]
      obtain ⟨q, hq, hused⟩ := hfull j hj
      rw [hold] at hlisted
      cases hq.symm.trans hlisted
      exact hused (state_of_findUnused hw)
    · exact absurd hcnt (not_lt.mpr hmax)
    · cases hnone.symm.trans hw
    · cases hnone.symm.trans hf
    · -- the allocation that fails is the one of the user stack
      cases hf.symm.trans hf'
      subst hmem
      unfold Spaces.t_allocustack at hstack
      dsimp only at hstack
      rw [hpgdir, hnext, hfail] at hstack
      cases hstack

end

section

/-- The first process creates ten threads. -/
def tenThreads : List (Action 1) :=
  .call (.scheduler 0) :: (List.replicate MAXTHREAD
    [.call (.thread_create 0), .t_allocustack 0, .call (.threadReady 0)]).flatten

/-- The eleventh `thread_create` panics. -/
theorem tenThreads_panics : (Lib.exec (step float) booted tenThreads).isOk = true ∧
    caller (final (step float) booted tenThreads).kernel 0 = .ok 0 ∧
    Exhausted (final (step float) booted tenThreads) 0 ∧
    ¬FailsCleanly float (final (step float) booted tenThreads) 0 := by
  have hfail : sys_thread_create float (final (step float) booted tenThreads) 0 =
      .error (.sched .fullThread) := by decide +kernel
  refine ⟨by decide +kernel, by decide +kernel, .inr (.inl (by decide +kernel)), ?_⟩
  rintro ⟨t, ht, _⟩
  cases hfail.symm.trans ht

/-- One of the ten threads has exited. -/
def nineThreads : List (Action 1) :=
  tenThreads ++ [.call (.yield 0), .call (.thread_exit 0)]

example : (Lib.exec (step float) booted nineThreads).isOk = true := by decide +kernel

/-- The next thread that is created is in no group. -/
theorem create_exhausted_nineThreads :
    caller (final (step float) booted nineThreads).kernel 0 = .ok 2 ∧
    ¬FailsCleanly float (final (step float) booted nineThreads) 0 ∧
    Unlisted float (final (step float) booted nineThreads) 0 0 := by
  have hp : caller (final (step float) booted nineThreads).kernel 0 = .ok 2 := by decide +kernel
  have hm : ((final (step float) booted nineThreads).kernel.proc 2).master = some 0 := by
    decide +kernel
  have hfull : ∀ i, i ≠ 0 →
      ∃ q ∈ ((final (step float) booted nineThreads).kernel.proc 0).threads i,
        ((final (step float) booted nineThreads).kernel.proc q).state ≠ .UNUSED := by decide +kernel
  have hok : (sys_thread_create float (final (step float) booted nineThreads) 0).isOk = true := by
    decide +kernel
  obtain ⟨hclean, ⟨e, he, _⟩ | hunlisted⟩ := create_exhausted hp hm (.inl hfull)
  · rw [he] at hok
    cases hok
  · exact ⟨hp, hclean, hunlisted⟩

end

end Xv6.Vm
