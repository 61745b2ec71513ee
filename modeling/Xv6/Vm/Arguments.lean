import Xv6.Vm.Exhaustion

/-!
# Arguments of the calls about threads

What `thread_create` and `thread_join` read and write with the index and the pointers that the user
passes. Neither tests them.
-/

namespace Xv6.Vm

open Function Lib Sched

/-- A call with its arguments; `sysproc.c:115-140`. -/
inductive ThreadCall where
  | create (thread : Int)
  | join (thread retval : Int)

/-- What the kernel does with an argument. -/
inductive Access where
  /-- It reads entry `i` of `threads`. -/
  | threads (i : Nat)
  /-- It follows the pointer in an entry of `threads`. -/
  | entry (p : Ptr)
  /-- It reads entry `i` of `t_retval`. -/
  | t_retval (i : Nat)
  /-- It writes four bytes to an address of the user. -/
  | result (addr : Nat)
  deriving DecidableEq

/-- How a call goes on: it returns, it goes to sleep in its loop, or it does neither. -/
inductive Outcome (n : Nat) where
  | returns (s : State n) (x : Int)
  | sleeps (s : State n)
  | faults

section

variable {n : Nat} (round : Int → Int)

/-- The kernel stays within the tables and the memory of a caller with `sz` bytes. -/
def Access.Safe (sz : Nat) : Access → Prop
  | .threads i | .t_retval i => i ≤ MAXTHREAD
  | .entry p => p ≠ none
  | .result addr => addr + 4 ≤ sz

/-- `thread_create` on CPU `c`; `thread.c:144-192`. The id is written when the thread has an entry. -/
def runCreate (s : State n) (c : Fin n) (thread : Nat) : List Access × Outcome n :=
  match step round s (.call (.thread_create c)) with
  | .error _ => ([], .faults)
  | .ok _ =>
    ([.result thread], match sys_thread_create round s c with
      | .ok (u, x) => .returns u x
      | .error _ => .faults)

/-- One round of `thread_join` by `p` on CPU `c`; `thread.c:195-221`. What lies past the end of
`threads` is not known. -/
def runJoin (s : State n) (c : Fin n) (p : Slot) (thread retval : Nat) : List Access × Outcome n :=
  if h : thread < MAXTHREAD + 1 then
    match (s.kernel.proc p).threads ⟨thread, h⟩ with
    | none => ([.threads thread, .entry none], .faults)
    | some t =>
      match step round s (.call (.thread_join c thread)) with
      | .error _ => ([.threads thread, .entry (some t)], .faults)
      | .ok u =>
        if (s.kernel.proc t).state ≠ .ZOMBIE then ([.threads thread, .entry (some t)], .sleeps u)
        else
          ([.threads thread, .entry (some t), .t_retval (s.kernel.proc t).tid, .result retval],
            .returns u 0)
  else ([.threads thread], .faults)

/-- What a call of `p` does; both arguments are converted to `uint`. -/
def run (s : State n) (c : Fin n) (p : Slot) : ThreadCall → List Access × Outcome n
  | .create thread => runCreate round s c (Spaces.uint thread)
  | .join thread retval => runJoin round s c p (Spaces.uint thread) (Spaces.uint retval)

/-- The caller `p` finds at index `thread` a worker of its group that has not been joined. -/
def Joinable (s : State n) (p : Slot) (thread : Nat) : Prop :=
  ∃ i : Fin (MAXTHREAD + 1), i.val = thread ∧ ∃ t ∈ (s.kernel.proc p).threads i,
    ∃ m ∈ (s.kernel.proc p).master, IsWorker s.kernel m t ∧ (s.kernel.proc t).state ≠ .UNUSED

instance (s : State n) (p : Slot) (thread : Nat) : Decidable (Joinable s p thread) :=
  inferInstanceAs (Decidable (∃ _, _))

/-- The arguments of a call are an index of a worker that can be joined and an address in the memory
of the caller. -/
def Valid (s : State n) (p : Slot) : ThreadCall → Prop
  | .create thread => Spaces.uint thread + 4 ≤ (s.vm.space p).sz
  | .join thread retval =>
    Joinable s p (Spaces.uint thread) ∧ Spaces.uint retval + 4 ≤ (s.vm.space p).sz

instance (s : State n) (p : Slot) (call : ThreadCall) : Decidable (Valid s p call) :=
  match call with
  | .create _ => inferInstanceAs (Decidable (_ ≤ _))
  | .join _ _ => inferInstanceAs (Decidable (_ ∧ _))

/-- A call of `p` trusts no argument. -/
structure Checked (s : State n) (c : Fin n) (p : Slot) (call : ThreadCall) : Prop where
  safe : ∀ a ∈ (run round s c p call).1, a.Safe (s.vm.space p).sz
  fails : ¬Valid s p call → (run round s c p call).2 = .returns s (-1)
  joins : ∀ thread retval u, call = .join thread retval →
    (run round s c p call).2 = .returns u 0 → Joinable s p (Spaces.uint thread)

variable {round} {s u : State n} {c : Fin n} {p : Slot} {call : ThreadCall} {thread retval : Nat}

/-- Neither call returns -1. -/
private theorem outcome_ne (t : State n) : (run round s c p call).2 ≠ .returns t (-1) := by
  cases call with
  | create thread =>
    unfold run runCreate
    dsimp only
    split
    · exact nofun
    · unfold sys_thread_create
      cases step round s (.call (.thread_create c)) with
      | error e => exact nofun
      | ok s₁ =>
        dsimp only [bind, Except.bind]
        cases step round s₁ (.t_allocustack c) with
        | error e => exact nofun
        | ok s₂ =>
          dsimp only
          cases step round s₂ (.call (.threadReady c)) with
          | error e => exact nofun
          | ok s₃ => exact nofun
  | join thread retval =>
    unfold run runJoin
    dsimp only
    split
    · split
      · exact nofun
      · split
        · exact nofun
        · split <;> exact nofun
    · exact nofun

private theorem safe_create (h : thread + 4 ≤ (s.vm.space p).sz) :
    ∀ a ∈ (runCreate round s c thread).1, a.Safe (s.vm.space p).sz := by
  unfold runCreate
  split
  · exact nofun
  · intro a ha
    cases List.mem_singleton.mp ha
    exact h

private theorem safe_join (hj : Joinable s p thread) (h : retval + 4 ≤ (s.vm.space p).sz) :
    ∀ a ∈ (runJoin round s c p thread retval).1, a.Safe (s.vm.space p).sz := by
  obtain ⟨i, rfl, t, ht, _⟩ := hj
  have ht : (s.kernel.proc p).threads i = some t := ht
  have hi : Access.Safe (s.vm.space p).sz (.threads i) := Nat.le_of_lt_succ i.isLt
  have hentry : Access.Safe (s.vm.space p).sz (.entry (some t)) := nofun
  have hretval : Access.Safe (s.vm.space p).sz (.t_retval (s.kernel.proc t).tid) :=
    Nat.le_of_lt_succ (s.kernel.proc t).tid.isLt
  have hresult : Access.Safe (s.vm.space p).sz (.result retval) := h
  unfold runJoin
  rw [dif_pos i.isLt, ht]
  dsimp only
  split
  · simp [hi, hentry]
  · split
    · simp [hi, hentry]
    · simp [hi, hentry, hretval, hresult]

/-- A call trusts no argument if and only if its arguments are valid: there is no test that would
make it fail. -/
theorem checked_iff : Checked round s c p call ↔ Valid s p call := by
  constructor
  · intro h
    by_contra hvalid
    exact outcome_ne s (h.fails hvalid)
  · intro hvalid
    cases call with
    | create thread =>
      exact ⟨safe_create hvalid, fun h ↦ absurd hvalid h, nofun⟩
    | join thread retval =>
      refine ⟨safe_join hvalid.1 hvalid.2, fun h ↦ absurd hvalid h, fun _ _ _ hcall _ ↦ ?_⟩
      cases hcall
      exact hvalid.1

end

section

/-- The first process creates a thread, which exits. -/
def exited : List (Action 1) :=
  [.call (.scheduler 0), .call (.thread_create 0), .t_allocustack 0, .call (.threadReady 0),
    .call (.yield 0), .call (.thread_exit 0)]

example : ((final (step float) booted exited).vm.space 0).sz = 12288 := by decide +kernel

/-- The exit value of the thread goes to the address where the kernel is loaded. -/
theorem exited_unchecked : (Lib.exec (step float) booted exited).isOk = true ∧
    caller (final (step float) booted exited).kernel 0 = .ok 0 ∧
    ¬Checked float (final (step float) booted exited) 0 0 (.join 1 (-2146435072)) := by
  refine ⟨by decide +kernel, by decide +kernel, fun h ↦ ?_⟩
  have hmem : Access.result 0x80100000 ∈
      (run float (final (step float) booted exited) 0 0 (.join 1 (-2146435072))).1 := by
    decide +kernel
  have hsz : ((final (step float) booted exited).vm.space 0).sz = 3 * PGSIZE := by decide +kernel
  have hsafe : 0x80100000 + 4 ≤
      ((final (step float) booted exited).vm.space 0).sz := h.safe _ hmem
  rw [hsz] at hsafe
  exact absurd hsafe (by decide)

/-- A join of the thread with an address of the process. -/
theorem checked_exited : Checked float (final (step float) booted exited) 0 0 (.join 1 0) :=
  checked_iff.2 (by decide +kernel)

end

end Xv6.Vm
