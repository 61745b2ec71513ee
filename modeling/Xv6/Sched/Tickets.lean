import Xv6.Lib.Update
import Xv6.Sched.Fields

/-!
# Conservation of tickets

The tickets of the two schedulers against those of the processes. `set_cpu_share` moves tickets
from MLFQ to the stride scheduler, and no step moves them back: neither the end of a process nor
a second call by the same process returns what was granted before.
-/

namespace Xv6.Sched

open Function Lib

section

variable {n : Nat}

/-- The process is neither `UNUSED` nor `ZOMBIE`. -/
def Live (v : Proc) : Prop := v.state ≠ .UNUSED ∧ v.state ≠ .ZOMBIE

instance (v : Proc) : Decidable (Live v) := inferInstanceAs (Decidable (_ ∧ _))

/-- The tickets add up: those of the schedulers to the total, those of the processes to the share
of the stride scheduler, which stays within the largest share. -/
structure Conserved (s : State n) : Prop where
  total : (s.sched .mlfq).tickets + (s.sched .stride).tickets = TOTALTICKETS
  sum : (s.sched .stride).tickets = ∑ p with Live (s.proc p), (s.proc p).tickets
  max : (s.sched .stride).tickets ≤ TOTALTICKETS * MAXSHARE / 100

/-- The processes that a step takes out of service. -/
def Ends (s : State n) : Action n → Slot → Prop
  | .exit c, q => ∃ p m, caller s c = .ok p ∧ exiting s p = some m ∧
      (q = m ∨ (s.proc m).isthread = true ∧ IsWorker s m q)
  | .thread_exit c, q => caller s c = .ok q
  | .kill pid, q => ∃ p, findPid s pid = some p ∧ Doomed s p q
  | .forkDone c false, q => ∃ p, current s c = .ok p ∧ (s.proc p).np = some q
  | _, _ => False

instance (s : State n) (a : Action n) (q : Slot) : Decidable (Ends s a q) :=
  match a with
  | .exit _ => inferInstanceAs (Decidable (∃ _, _))
  | .thread_exit _ => inferInstanceAs (Decidable (_ = _))
  | .kill _ => inferInstanceAs (Decidable (∃ _, _))
  | .forkDone _ false => inferInstanceAs (Decidable (∃ _, _))
  | .forkDone _ true | .scheduler _ | .tick _ | .boost _ | .yield _ | .sleep _ _ | .wakeup _
  | .fork _ _ | .wait _ | .set_cpu_share _ _ | .thread_create _ | .threadReady _
  | .thread_join _ _ => inferInstanceAs (Decidable False)

/-- A grant of a share goes to a live process without tickets, and MLFQ's tickets stay an `int`. -/
def FirstGrant (s : State n) : Action n → Prop
  | .set_cpu_share c share => ∀ p, caller s c = .ok p →
      Grants s share → Live (s.proc p) ∧ (s.proc p).tickets = 0 ∧
        TOTALTICKETS - 2 ^ 31 < (s.sched .stride).tickets + ticketsOf share
  | _ => True

instance (s : State n) (a : Action n) : Decidable (FirstGrant s a) :=
  match a with
  | .set_cpu_share _ _ => inferInstanceAs (Decidable (∀ _, _))
  | .exit _ | .thread_exit _ | .kill _ | .forkDone _ _ | .scheduler _ | .tick _ | .boost _
  | .yield _ | .sleep _ _ | .wakeup _ | .fork _ _ | .wait _ | .thread_create _ | .threadReady _
  | .thread_join _ _ => inferInstanceAs (Decidable True)

/-- The step ends no process that has tickets, and grants none to one that has. -/
def KeepsTickets (s : State n) (a : Action n) : Prop :=
  (∀ q, Ends s a q → (s.proc q).tickets = 0) ∧ FirstGrant s a

instance (s : State n) (a : Action n) : Decidable (KeepsTickets s a) :=
  inferInstanceAs (Decidable (_ ∧ _))

/-- What a run whose steps keep the tickets maintains. -/
structure Counted (s : State n) : Prop where
  total : (s.sched .mlfq).tickets + (s.sched .stride).tickets = TOTALTICKETS
  sum : (s.sched .stride).tickets = ∑ p, (s.proc p).tickets
  max : (s.sched .stride).tickets ≤ TOTALTICKETS * MAXSHARE / 100
  live : ∀ p, (s.proc p).tickets ≠ 0 → Live (s.proc p)

end

section

variable {n : Nat} {round : Int → Int} {s t : State n} {a : Action n} {r : Next n} {c : Fin n}
  {p q : Slot}

private theorem total_eq : TOTALTICKETS = 10000 := rfl

private theorem max_eq : TOTALTICKETS * MAXSHARE / 100 = 8000 := rfl

theorem Counted.conserved (h : Counted s) : Conserved s := by
  refine ⟨h.total, ?_, h.max⟩
  rw [h.sum, Finset.sum_filter]
  apply Finset.sum_congr rfl
  intro p _
  split
  · rfl
  · next hp => exact not_not.mp fun h0 ↦ hp (h.live p h0)

private theorem int32_of_bounds {x : Int} (h : -2 ^ 31 ≤ x) (h' : x < 2 ^ 31) : int32 x = x := by
  unfold int32
  apply Int.bmod_eq_of_le <;> omega

private theorem ticketsOf_lt (x : Int) : 100 * ticketsOf x < 2 ^ 31 + 100 := by
  have hhi : int32 (TOTALTICKETS * x) < 2 ^ 31 := by
    unfold int32
    have := @Int.bmod_lt (TOTALTICKETS * x) (2 ^ 32) (by norm_num)
    omega
  unfold ticketsOf
  have hsign : Int.sign 100 = 1 := rfl
  rw [Int.tdiv_eq_ediv, hsign]
  split <;> omega

private theorem granted_tickets {x : Int} : ((granted round s p x).proc q).tickets =
    if q = p then x else (s.proc q).tickets := by
  by_cases hq : q = p
  · subst hq
    simp [granted, stride_enqueue]
  · simp [granted, stride_enqueue, modify_proc_of_ne hq, hq]

private theorem granted_mlfq {x : Int} : ((granted round s p x).sched .mlfq).tickets =
    int32 ((s.sched .mlfq).tickets - x) := by
  simp [granted, stride_enqueue]

private theorem granted_stride {x : Int} : ((granted round s p x).sched .stride).tickets =
    int32 ((s.sched .stride).tickets + x) := by
  simp [granted, stride_enqueue]

/-- A share granted to a process without tickets. -/
private theorem sum_granted {x : Int} (hp : (s.proc p).tickets = 0) :
    ∑ q, ((granted round s p x).proc q).tickets = ∑ q, (s.proc q).tickets + x := by
  have hq : ∀ q, ((granted round s p x).proc q).tickets =
      (s.proc q).tickets + if q = p then x else 0 := by
    intro q
    rw [granted_tickets]
    split
    · next h => rw [h, hp, zero_add]
    · rw [add_zero]
  simp only [hq, Finset.sum_add_distrib, Finset.sum_ite_eq', Finset.mem_univ, if_true]

/-- No process that has tickets is taken out of service. -/
private theorem live_enters (hs : Counted s) (h : Enters round s a r)
    (he : ∀ q, Ends s a q → (s.proc q).tickets = 0) (hq : (s.proc q).tickets ≠ 0) :
    Live (r.state.proc q) := by
  have hlive := hs.live q hq
  have hmoves := enters_state (q := q) h
  generalize hx : (r.state.proc q).state = x at hmoves
  unfold Live
  rw [hx]
  cases hmoves with
  | stay => exact hlive
  | self _ h => rcases h with rfl | rfl <;> simp
  | wake => simp
  | alloc => simp
  | ready => simp
  | run => simp
  | reap hz => exact absurd hz hlive.2
  | fail hp hnp => exact absurd (he q ⟨_, hp, hnp⟩) hq
  | kill hp hd => exact absurd (he q ⟨_, hp, hd⟩) hq
  | free hp hm hi hw => exact absurd (he q ⟨_, _, hp, hm, .inr ⟨hi, hw⟩⟩) hq
  | zombie hp hm => exact absurd (he q ⟨_, _, hp, hm, .inl rfl⟩) hq
  | thread_exit hp => exact absurd (he q hp) hq

private theorem counted_granted {x : Int} (hs : Counted s) (hlive : Live (s.proc p))
    (hp : (s.proc p).tickets = 0)
    (hmax : Grants s x)
    (hmin : TOTALTICKETS - 2 ^ 31 < (s.sched .stride).tickets + ticketsOf x) :
    Counted (granted round s p (ticketsOf x)) := by
  have hx := ticketsOf_lt x
  have htotal := hs.total
  have hle := hs.max
  rw [total_eq] at hmin htotal
  unfold Grants at hmax
  rw [max_eq] at hle hmax
  have hstride := int32_of_bounds (x := (s.sched .stride).tickets + ticketsOf x)
    (by omega) (by omega)
  have hmlfq := int32_of_bounds (x := (s.sched .mlfq).tickets - ticketsOf x)
    (by omega) (by omega)
  have hstate : ∀ q, Live ((granted round s p (ticketsOf x)).proc q) ↔ Live (s.proc q) := by
    intro q
    simp [Live, granted, stride_enqueue]
  rw [hstride] at hmax
  constructor
  · rw [granted_mlfq, granted_stride, hstride, hmlfq, total_eq]
    omega
  · rw [granted_stride, hstride, sum_granted hp, hs.sum]
  · rw [granted_stride, hstride, max_eq]
    exact hmax
  · intro q hq
    rw [hstate]
    by_cases hqp : q = p
    · rw [hqp]
      exact hlive
    · apply hs.live
      rwa [granted_tickets, if_neg hqp] at hq

private theorem counted_enters (hs : Counted s) (h : Enters round s a r) (ha : KeepsTickets s a) :
    Counted r.state := by
  rcases enters_grant h with ⟨c, p, x, rfl, hp, hmax, rfl⟩ | ⟨hrates, hq⟩
  · obtain ⟨hlive, h0, hmin⟩ := ha.2 p hp hmax
    exact counted_granted hs hlive h0 hmax hmin
  · have htickets : ∀ q, (r.state.proc q).tickets = (s.proc q).tickets := by
      intro q
      rcases hq q with hq | ⟨hf, hq⟩
      · exact hq
      · rw [hq, not_not.mp fun h0 ↦ (hs.live q h0).1 (state_of_findUnused hf.findUnused)]
    constructor
    · rw [(hrates .mlfq).1, (hrates .stride).1, hs.total]
    · rw [(hrates .stride).1, hs.sum]
      exact Finset.sum_congr rfl fun q _ ↦ (htickets q).symm
    · rw [(hrates .stride).1]
      exact hs.max
    · intro q hq
      rw [htickets] at hq
      exact live_enters hs h ha.1 hq

private theorem counted_after (hs : Counted s) (h : After s t) : Counted t := by
  constructor
  · rw [(h.rates .mlfq).1, (h.rates .stride).1, hs.total]
  · rw [(h.rates .stride).1, hs.sum]
    exact Finset.sum_congr rfl fun q _ ↦ (h.tickets q).symm
  · rw [(h.rates .stride).1]
    exact hs.max
  · intro q hq
    rw [h.tickets] at hq
    have hlive := hs.live q hq
    unfold Live
    rcases h.state q with hst | ⟨hst, _⟩
    · rw [hst]
      exact hlive
    · rw [hst]
      simp

theorem counted_step (hs : Counted s) (ha : KeepsTickets s a) (h : step round s a = .ok t) :
    Counted t := by
  obtain ⟨r, hr, hafter⟩ := step_enters h
  exact counted_after (counted_enters hs hr ha) hafter

theorem counted_boot : Counted (boot n) := by
  have htickets : ∀ q, ((boot n).proc q).tickets = 0 := by
    intro q
    rw [boot_proc]
    split <;> rfl
  constructor
  · rw [boot_rates.1, boot_rates.2.1, add_zero]
  · simp [boot_rates.2.1, htickets]
  · rw [boot_rates.2.1, max_eq]
    norm_num
  · intro q hq
    exact absurd (htickets q) hq

/-- In a run that takes no process with tickets out of service and grants a share only to a
process without, the tickets add up in every state reached. -/
theorem tickets_conserved (h : ReachesVia (step round) KeepsTickets (boot n) s) : Conserved s :=
  (h.invariant (fun _ _ _ hs ha hst ↦ counted_step hs ha hst) counted_boot).conserved

end

example : ((final (step float) (boot 1) [.scheduler 0, .set_cpu_share 0 10]).sched .stride).tickets =
    1000 := by
  decide +kernel

/-- The first process asks for a tenth of the CPU. -/
theorem tickets_conserved_share :
    Conserved (final (step float) (boot 1) [.scheduler 0, .set_cpu_share 0 10]) := by
  apply tickets_conserved
  refine ⟨[.scheduler 0, .set_cpu_share 0 10], ?_, exec_final ?_⟩
  · decide +kernel
  · decide +kernel

/-- A child of the first process asks for a tenth of the CPU and exits. -/
def exitWithShare : List (Action 1) :=
  [.scheduler cpu0, .fork cpu0 true, .forkDone cpu0 true, .wait cpu0, .scheduler cpu0,
    .set_cpu_share cpu0 10, .exit cpu0]

/-- The stride scheduler keeps the tickets of the child that is gone. -/
theorem exitWithShare_lost : (exec (step float) (boot 1) exitWithShare).isOk = true ∧
    ¬ Conserved (final (step float) (boot 1) exitWithShare) := by
  constructor
  · decide +kernel
  · intro h
    have hsum := h.sum
    revert hsum
    decide +kernel

end Xv6.Sched
