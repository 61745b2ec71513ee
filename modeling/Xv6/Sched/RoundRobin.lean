import Xv6.Lib.Cyclic
import Xv6.Sched.Basic

/-!
# Round robin inside a group

`get_next_thread` against a plain search around the table of the group. It leaves the search out
for a group in which no thread is counted, and reads the entry at which the search began without a
test for null.
-/

namespace Xv6.Sched

open Function Lib

section

variable {n : Nat} (s : State n) (m : Slot)

/-- The member at index `i` of the group of `m` is `RUNNABLE`. -/
def ready (i : Fin (MAXTHREAD + 1)) : Bool := isRunnable s ((s.proc m).threads i)

/-- `get_next_thread` returns the first `RUNNABLE` member after `t_lastsched` and records its
index, returns null if there is none, and follows no null pointer. -/
structure TakesTurns : Prop where
  first : ∀ i, nextFrom (ready s m) (s.proc m).t_lastsched = some i →
    (get_next_thread s m).2 = (s.proc m).threads i ∧
      ((get_next_thread s m).1.proc m).t_lastsched = i
  nobody : (get_next_thread s m).2 = none ↔ ∀ i, ready s m i = false
  reads : ¬ReadsNull s m

/-- If threads are counted, one is `RUNNABLE` or the entry at `t_lastsched` is in use. If none is,
the master is at `t_lastsched` and the only member that is `RUNNABLE`. -/
def Regular : Prop :=
  ((s.proc m).t_cnt = 0 → (s.proc m).threads (s.proc m).t_lastsched = some m ∧
    (s.proc m).state = .RUNNABLE ∧ ∀ i, i ≠ (s.proc m).t_lastsched → ready s m i = false) ∧
  ((s.proc m).t_cnt ≠ 0 → (s.proc m).threads (s.proc m).t_lastsched ≠ none ∨
    ∃ i, ready s m i = true)

instance : Decidable (Regular s m) := inferInstanceAs (Decidable (_ ∧ _))

variable {s m} {i : Fin (MAXTHREAD + 1)} {q : Slot}

/-- The loop of `get_next_thread` is the search up to the index where it began. -/
private theorem nextFrom_ready : nextFrom (ready s m) (s.proc m).t_lastsched =
    (nextIndex s m).or
      (if ready s m (s.proc m).t_lastsched = true then some (s.proc m).t_lastsched else none) := by
  unfold nextFrom nextIndex
  rw [around_eq, List.find?_append]
  congr 1
  by_cases h : ready s m (s.proc m).t_lastsched = true
  · rw [if_pos h, List.find?_cons_of_pos h]
  · rw [if_neg h, List.find?_cons_of_neg h, List.find?_nil]

private theorem ready_of_nextFrom (h : nextFrom (ready s m) (s.proc m).t_lastsched = some i) :
    ready s m i = true := (nextFrom_eq_some.mp h).1

private theorem threads_of_ready (h : ready s m i = true) : (s.proc m).threads i ≠ none := by
  intro hnone
  unfold ready at h
  rw [hnone] at h
  cases h

/-- In a group with threads the search is done. -/
theorem get_next_thread_counted (h0 : (s.proc m).t_cnt ≠ 0) :
    match nextFrom (ready s m) (s.proc m).t_lastsched with
    | some i => (get_next_thread s m).2 = (s.proc m).threads i ∧
      ((get_next_thread s m).1.proc m).t_lastsched = i
    | none => (get_next_thread s m).2 = none := by
  rw [nextFrom_ready]
  unfold get_next_thread
  dsimp only
  rw [if_neg h0]
  cases hn : nextIndex s m with
  | some i => exact ⟨rfl, by rw [modify_proc_self]⟩
  | none =>
    have hready : isRunnable s ((s.proc m).threads (s.proc m).t_lastsched) =
        ready s m (s.proc m).t_lastsched := rfl
    rw [Option.none_or]
    dsimp only
    rw [hready]
    by_cases hr : ready s m (s.proc m).t_lastsched = true
    · rw [if_pos hr, if_pos hr]
      exact ⟨rfl, rfl⟩
    · rw [if_neg hr, if_neg hr]

/-- A group in which no thread is counted returns its master. -/
theorem get_next_thread_uncounted (h0 : (s.proc m).t_cnt = 0) :
    get_next_thread s m = (s, some m) := by
  unfold get_next_thread
  exact if_pos h0

private theorem takesTurns_counted (h0 : (s.proc m).t_cnt ≠ 0) :
    TakesTurns s m ↔ (s.proc m).threads (s.proc m).t_lastsched ≠ none ∨
      ∃ i, ready s m i = true := by
  have hsearch := get_next_thread_counted h0
  constructor
  · intro h
    by_contra hno
    push Not at hno
    have hnone : nextFrom (ready s m) (s.proc m).t_lastsched = none :=
      nextFrom_eq_none.mpr fun i ↦ by simpa using hno.2 i
    rw [nextFrom_ready] at hnone
    exact h.reads ⟨h0, (Option.or_eq_none_iff.mp hnone).1, hno.1⟩
  · intro h
    refine ⟨?_, ?_, ?_⟩
    · intro i hi
      rwa [hi] at hsearch
    · cases hi : nextFrom (ready s m) (s.proc m).t_lastsched with
      | none =>
        rw [hi] at hsearch
        exact ⟨fun _ ↦ nextFrom_eq_none.mp hi, fun _ ↦ hsearch⟩
      | some i =>
        rw [hi] at hsearch
        have hr := ready_of_nextFrom hi
        constructor
        · intro hnone
          rw [hsearch.1] at hnone
          exact absurd hnone (threads_of_ready hr)
        · intro hall
          rw [hall i] at hr
          cases hr
    · rintro ⟨-, hnone, hlast⟩
      rcases h with h | ⟨i, hi⟩
      · exact h hlast
      · have hr : ready s m (s.proc m).t_lastsched ≠ true := fun hr ↦ threads_of_ready hr hlast
        have hno : nextFrom (ready s m) (s.proc m).t_lastsched = none := by
          rw [nextFrom_ready, hnone, if_neg hr]
          rfl
        rw [nextFrom_eq_none.mp hno i] at hi
        cases hi

private theorem takesTurns_uncounted (h0 : (s.proc m).t_cnt = 0) :
    TakesTurns s m ↔ (s.proc m).threads (s.proc m).t_lastsched = some m ∧
      (s.proc m).state = .RUNNABLE ∧ ∀ i, i ≠ (s.proc m).t_lastsched → ready s m i = false := by
  have hnext := get_next_thread_uncounted h0
  constructor
  · intro h
    have hsome : ∃ i, nextFrom (ready s m) (s.proc m).t_lastsched = some i := by
      apply Option.ne_none_iff_exists'.mp
      intro hnone
      have hnull := h.nobody.mpr (nextFrom_eq_none.mp hnone)
      rw [hnext] at hnull
      cases hnull
    obtain ⟨i, hi⟩ := hsome
    obtain ⟨hthread, hlast⟩ := h.first i hi
    rw [hnext] at hthread hlast
    dsimp only at hthread hlast
    subst hlast
    obtain ⟨hr, hfirst⟩ := nextFrom_eq_some.mp hi
    have hrun : isRunnable s ((s.proc m).threads (s.proc m).t_lastsched) = true := hr
    rw [← hthread] at hrun
    refine ⟨hthread.symm, of_decide_eq_true hrun, fun j hj ↦ hfirst j ?_⟩
    exact lt_of_le_of_ne (ahead_le_self j) fun heq ↦ hj (sub_left_injective heq)
  · rintro ⟨hthread, hrun, hothers⟩
    have hr : ready s m (s.proc m).t_lastsched = true := by
      unfold ready
      rw [hthread]
      exact decide_eq_true hrun
    refine ⟨?_, ?_, fun hnull ↦ hnull.1 h0⟩
    · intro i hi
      have hil : i = (s.proc m).t_lastsched := by
        by_contra hne
        have hri := ready_of_nextFrom hi
        rw [hothers i hne] at hri
        cases hri
      rw [hnext, hil, hthread]
      exact ⟨rfl, rfl⟩
    · rw [hnext]
      constructor
      · intro hnone
        cases hnone
      · intro hall
        rw [hall] at hr
        cases hr

private theorem takesTurns_iff : TakesTurns s m ↔ Regular s m := by
  by_cases h0 : (s.proc m).t_cnt = 0
  · rw [takesTurns_uncounted h0]
    exact ⟨fun h ↦ ⟨fun _ ↦ h, fun hne ↦ absurd h0 hne⟩, fun h ↦ h.1 h0⟩
  · rw [takesTurns_counted h0]
    exact ⟨fun h ↦ ⟨fun hz ↦ absurd hz h0, fun _ ↦ h⟩, fun h ↦ h.2 h0⟩

private theorem returned_within {σ : Nat → State n} (hreg : ∀ k, Regular (σ k) m)
    (hlast : ∀ k, ((σ (k + 1)).proc m).t_lastsched =
      ((get_next_thread (σ k) m).1.proc m).t_lastsched)
    (hq : ∀ k, ((σ k).proc m).threads i = some q ∧ ((σ k).proc q).state = .RUNNABLE) :
    ∃ k ≤ MAXTHREAD, (get_next_thread (σ k) m).2 = some q := by
  have hready : ∀ k, ready (σ k) m i = true := by
    intro k
    unfold ready
    rw [(hq k).1]
    exact decide_eq_true (hq k).2
  have hfound : ∀ k, nextFrom (ready (σ k) m) ((σ k).proc m).t_lastsched =
      some ((σ (k + 1)).proc m).t_lastsched := by
    intro k
    cases hi : nextFrom (ready (σ k) m) ((σ k).proc m).t_lastsched with
    | none =>
      have hno := nextFrom_eq_none.mp hi i
      rw [hready k] at hno
      cases hno
    | some j => rw [hlast k, ((takesTurns_iff.mpr (hreg k)).first j hi).2]
  obtain ⟨k, hk, hki⟩ := nextFrom_within (σ := fun k ↦ ((σ k).proc m).t_lastsched) hfound hready
  refine ⟨k, hk, ?_⟩
  rw [((takesTurns_iff.mpr (hreg k)).first _ (hfound k)).1, hki, (hq k).1]

/-- `get_next_thread` takes turns in the regular states and in no others. Where the states are
regular, a member that stays `RUNNABLE` is returned by one of any `MAXTHREAD + 1` calls between
which `t_lastsched` is left alone. -/
theorem round_robin : (∀ (s : State n) (m : Slot), TakesTurns s m ↔ Regular s m) ∧
    ∀ (σ : Nat → State n) (m q : Slot) (i : Fin (MAXTHREAD + 1)), (∀ k, Regular (σ k) m) →
      (∀ k, ((σ (k + 1)).proc m).t_lastsched =
        ((get_next_thread (σ k) m).1.proc m).t_lastsched) →
      (∀ k, ((σ k).proc m).threads i = some q ∧ ((σ k).proc q).state = .RUNNABLE) →
        ∃ k ≤ MAXTHREAD, (get_next_thread (σ k) m).2 = some q :=
  ⟨fun _ _ ↦ takesTurns_iff, fun _ _ _ _ hreg hlast hq ↦ returned_within hreg hlast hq⟩

end

section

/-- The state after `k` calls of `get_next_thread`. -/
def called {n : Nat} (s : State n) (m : Slot) (k : Nat) : State n :=
  (fun t ↦ (get_next_thread t m).1)^[k] s

private theorem called_field {n : Nat} {s : State n} {m q : Slot} {β : Type*} (g : Proc → β)
    (h : ∀ v i, g { v with t_lastsched := i } = g v) (k : Nat) :
    g ((called s m k).proc q) = g (s.proc q) := by
  induction k with
  | zero => rfl
  | succ k ih =>
    rw [called, Function.iterate_succ_apply']
    exact (get_next_thread_field g h).trans ih

/-- The first process creates three threads, and goes on executing. -/
def threeThreads : List (Action 1) :=
  [.scheduler cpu0, .thread_create cpu0, .threadReady cpu0, .thread_create cpu0, .threadReady cpu0,
    .thread_create cpu0, .threadReady cpu0]

example : ((final (step float) (boot 1) threeThreads).proc 0).t_cnt = 3 ∧
    ∀ i, i ≠ 0 → i.val ≤ 3 → ready (final (step float) (boot 1) threeThreads) 0 i = true := by
  decide +kernel

/-- Calls one after the other take turns among the three threads, and one of them returns the
third. -/
theorem round_robin_three : TakesTurns (final (step float) (boot 1) threeThreads) 0 ∧
    ∃ k ≤ MAXTHREAD,
      (get_next_thread (called (final (step float) (boot 1) threeThreads) 0 k) 0).2 = some 3 := by
  have hcnt : ((final (step float) (boot 1) threeThreads).proc 0).t_cnt = 3 := by decide +kernel
  have hq : ((final (step float) (boot 1) threeThreads).proc 0).threads 3 = some 3 ∧
      ((final (step float) (boot 1) threeThreads).proc 3).state = .RUNNABLE := by
    decide +kernel
  generalize final (step float) (boot 1) threeThreads = s at *
  have hcalled : ∀ k, ((called s 0 k).proc 0).threads 3 = some 3 ∧
      ((called s 0 k).proc 3).state = .RUNNABLE := fun k ↦
    ⟨by rw [called_field (·.threads) (fun _ _ ↦ rfl), hq.1],
      by rw [called_field (·.state) (fun _ _ ↦ rfl), hq.2]⟩
  have hreg : ∀ k, Regular (called s 0 k) 0 := by
    intro k
    have hc : ((called s 0 k).proc 0).t_cnt = 3 := by
      rw [called_field (·.t_cnt) (fun _ _ ↦ rfl), hcnt]
    refine ⟨fun h0 ↦ ?_, fun _ ↦ .inr ⟨3, ?_⟩⟩
    · rw [hc] at h0
      cases h0
    · unfold ready
      rw [(hcalled k).1]
      exact decide_eq_true (hcalled k).2
  obtain ⟨hturns, hwithin⟩ := round_robin (n := 1)
  refine ⟨(hturns s 0).mpr (hreg 0), hwithin (called s 0) 0 3 3 hreg (fun k ↦ ?_) hcalled⟩
  rw [called, Function.iterate_succ_apply']
  rfl

/-- The thread of the first process has exited, and the master goes to sleep. -/
def sleepsAlone : List (Action 1) :=
  [.scheduler cpu0, .thread_create cpu0, .threadReady cpu0, .yield cpu0, .thread_exit cpu0,
    .sleep cpu0 (.object 0)]

/-- The master is returned although it sleeps. -/
theorem sleepsAlone_returned : (exec (step float) (boot 1) sleepsAlone).isOk = true ∧
    ¬TakesTurns (final (step float) (boot 1) sleepsAlone) 0 := by
  have hok : (exec (step float) (boot 1) sleepsAlone).isOk = true := by decide +kernel
  have hnext : (get_next_thread (final (step float) (boot 1) sleepsAlone) 0).2 = some 0 := by
    decide +kernel
  have hnone : ∀ i, ready (final (step float) (boot 1) sleepsAlone) 0 i = false := by
    decide +kernel
  refine ⟨hok, fun h ↦ ?_⟩
  rw [h.nobody.mpr hnone] at hnext
  cases hnext

end

end Xv6.Sched
