import Xv6.Sched.Passes

/-!
# What a group in the stride scheduler pays

The stride heap is ordered by the pass of the masters. A tick is charged to the process that is
running, which need not be the master.
-/

namespace Xv6.Sched

open Function Lib

section

variable {n : Nat} (round : Int → Int)

/-- A tick charged to the stride scheduler advances the pass of the master of the group by its
stride, and the pass of the scheduler by that of the scheduler. -/
def Pays (s : State n) (a : Action n) (t : State n) : Prop :=
  ∀ p ∈ strider s a, ∀ m ∈ (s.proc p).master,
    (t.proc m).pass = round ((s.proc m).pass + (s.proc m).stride) ∧
      (t.sched .stride).pass = round ((s.sched .stride).pass + (s.sched .stride).stride)

/-- At a tick charged to the stride scheduler the master is running, unless its stride adds
nothing to its pass. -/
def MasterRuns (s : State n) (a : Action n) : Prop :=
  ∀ p ∈ strider s a, ∀ m ∈ (s.proc p).master,
    p = m ∨ round ((s.proc m).pass + (s.proc m).stride) = (s.proc m).pass

instance (s : State n) (a : Action n) (t : State n) : Decidable (Pays round s a t) :=
  inferInstanceAs (Decidable (∀ p ∈ strider s a, ∀ m ∈ (s.proc p).master, _))

instance (s : State n) (a : Action n) : Decidable (MasterRuns round s a) :=
  inferInstanceAs (Decidable (∀ p ∈ strider s a, ∀ m ∈ (s.proc p).master, _))

variable {round} {s t u : State n} {a : Action n} {r : Next n} {c : Fin n} {p q m : Slot}
  {as : List (Action n)}

private theorem leaves_pass {back : Bool} (h : Leaves s c p t back) :
    (t.proc q).pass = (s.proc q).pass := by
  cases h with
  | exhausted => rw [swtchScheduler_proc, modify_field (·.pass) rfl]
  | plain => rw [swtchScheduler_proc]
  | idle => rw [swtchScheduler_proc, get_next_thread_pass]
  | back => rw [get_next_thread_pass]
  | next => rw [switchTo_proc, modify_field (·.pass) rfl, get_next_thread_pass]

private theorem leave_pass (h : leave s p (.tick c) = .ok t) :
    (t.proc q).pass = (s.proc q).pass := by
  unfold leave at h
  dsimp only at h
  split at h
  · cases h
    exact boost_field (·.pass) (fun _ _ _ ↦ rfl) fun _ _ ↦ rfl
  · cases h
    rfl

/-- A tick charged to the stride scheduler advances the pass of the running process alone. -/
theorem tick_pass (h : step round s (.tick c) = .ok t) (hp : strider s (.tick c) = some p) :
    (t.proc q).pass = if q = p then round ((s.proc p).pass + (s.proc p).stride)
      else (s.proc q).pass := by
  have hstrode : ((strode round s p).proc q).pass =
      if q = p then round ((s.proc p).pass + (s.proc p).stride) else (s.proc q).pass := by
    dsimp only [strode]
    rw [modify_proc]
    split <;> rfl
  rw [← hstrode]
  obtain ⟨hcur, hr, m, hm, ht⟩ := strider_eq_some hp
  rcases step_cases h with he | ⟨u, c', p', v, back, he, _, hl, hu⟩
  · exfalso
    cases he with
    | tickIdle hp' hr' =>
      cases hcur.symm.trans hp'
      exact hr' hr
    | tickStay hp' _ hm' ht' =>
      cases hcur.symm.trans hp'
      cases hm.symm.trans hm'
      exact ht ht'
  · have hv : (t.proc q).pass = (u.proc q).pass := by
      rcases hu with ⟨_, rfl⟩ | ⟨_, hu⟩
      · exact leaves_pass hl
      · exact (leave_pass hu).trans (leaves_pass hl)
    rw [hv]
    cases he with
    | tickYield hp' _ hm' ht' =>
      cases hcur.symm.trans hp'
      cases hm.symm.trans hm'
      exact absurd ht' ht
    | tickGroup hp' _ hm' =>
      cases hcur.symm.trans hp'
      rw [modify_field (·.pass) rfl, check_on_timer_field (·.pass) fun _ _ _ _ ↦ rfl,
        modify_field (·.pass) rfl]
    | tickStride hp' =>
      cases hcur.symm.trans hp'
      rw [modify_field (·.pass) rfl]

/-- A step pays if and only if the master is the one that is charged. -/
theorem step_pays_iff (h : step round s a = .ok t) : Pays round s a t ↔ MasterRuns round s a := by
  unfold Pays MasterRuns
  refine forall₂_congr fun p hp ↦ forall₂_congr fun m hm ↦ ?_
  cases a with
  | tick c =>
    have hsched : (t.sched .stride).pass =
        round ((s.sched .stride).pass + (s.sched .stride).stride) := by
      rw [step_pass h trivial, passAfter, if_pos]
      exact Option.ne_none_iff_exists'.mpr ⟨p, hp⟩
    rw [tick_pass h hp]
    constructor
    · rintro ⟨hpass, -⟩
      by_cases hpm : m = p
      · exact .inl hpm.symm
      · rw [if_neg hpm] at hpass
        exact .inr hpass.symm
    · rintro (rfl | hpass)
      · exact ⟨if_pos rfl, hsched⟩
      · refine ⟨?_, hsched⟩
        split
        · next hpm => rw [hpm]
        · exact hpass.symm
  | _ => cases hp

/-- In every run, the groups pay for every tick if and only if the masters run at each of them. -/
theorem group_pays_iff (h : exec (step round) s as = .ok t) :
    Each (step round) (Pays round) s as ↔ Along (step round) (MasterRuns round) s as :=
  each_iff_along (fun _ _ _ ↦ step_pays_iff) h

end

section

/-- The first process gets a share and creates a thread, runs for two ticks with the thread in
between. -/
def workerRuns : List (Action 1) :=
  [.scheduler cpu0, .set_cpu_share cpu0 10, .thread_create cpu0, .threadReady cpu0, .tick cpu0,
    .tick cpu0]

theorem group_pays_iff_workerRuns :
    Each (step float) (Pays float) (boot 1) (workerRuns.take 5) := by
  have hok : (exec (step float) (boot 1) (workerRuns.take 5)).isOk = true := by decide +kernel
  have hc : Along (step float) (MasterRuns float) (boot 1) (workerRuns.take 5) := by
    decide +kernel
  exact (group_pays_iff (exec_final hok)).mpr hc

/-- The tick of the thread is not charged to the master. -/
theorem workerRuns_unpaid : (exec (step float) (boot 1) workerRuns).isOk = true ∧
    ¬Each (step float) (Pays float) (boot 1) workerRuns := by
  decide +kernel

end

end Xv6.Sched
