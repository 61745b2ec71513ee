import Xv6.Sched.Levels
import Xv6.Sched.Switches

/-!
# The levels of running processes

`scheduler()` parks a sleeping process of MLFQ at level 3, from which `wakeup1` takes it back. What
runs is at a level below as long as nothing else gets a parked process, or a thread of one, to run.
-/

namespace Xv6.Sched

open Function Lib

section

variable {n : Nat}

/-- The master of every `RUNNING` process of MLFQ is at a level that has a quantum. -/
def RealLevels (s : State n) : Prop :=
  ∀ q m, (s.proc q).state = .RUNNING → (s.proc q).master = some m → (s.proc m).tickets = 0 →
    (s.proc m).qlev = 0 ∨ (s.proc m).qlev = 1 ∨ (s.proc m).qlev = 2

/-- The threads of the group of `m` that can run have `m` as their master. -/
def TableSound (s : State n) (m : Slot) : Prop :=
  (s.proc m).master = some m ∧ ∀ i, ∀ q ∈ (s.proc m).threads i,
    (s.proc q).state = .RUNNABLE ∨ (s.proc q).state = .SLEEPING → (s.proc q).master = some m

instance (s : State n) (m : Slot) : Decidable (TableSound s m) :=
  inferInstanceAs (Decidable (_ ∧ _))

/-- The root of the heap that `scheduler()` looks at is a process of its own. If it is asleep, no
thread of its group can run. -/
def PollsSound (s : State n) (p : Slot) : Prop :=
  (0 < (s.sched (chosen s)).count → ¬Misplaced (chosen s) (s.proc p) →
    (s.proc p).state = .RUNNABLE → (s.proc p).master = some p) ∧
  (FindsAsleep s .mlfq p → chosen s = .mlfq →
    (∀ c, ∀ x ∈ (s.cpu c).proc, (s.proc x).master ≠ some p) ∧
      ((s.proc p).isthread = true → (get_next_thread s p).2 = none)) ∧
  (FindsAsleep s .stride p → chosen s = .stride → (s.proc p).isthread = true → TableSound s p)

instance (s : State n) (p : Slot) : Decidable (PollsSound s p) :=
  inferInstanceAs (Decidable (_ ∧ _))

/-- A switch from the process on CPU `c` stays in its group. -/
def SwitchesSound (s : State n) (c : Fin n) : Prop :=
  ∀ p ∈ (s.cpu c).proc, ∀ m ∈ (s.proc p).master, (s.proc p).isthread = true → TableSound s m

instance (s : State n) (c : Fin n) : Decidable (SwitchesSound s c) :=
  inferInstanceAs (Decidable (∀ _, _))

/-- No parked process is made `RUNNABLE` without a level, and none is parked while it, or a thread
of its group, can run. -/
def KeepsReal (s : State n) : Action n → Prop
  | .kill pid => ∀ p ∈ findPid s pid, (s.proc p).state = .SLEEPING → (s.proc p).qlev ≠ 3
  | .forkDone c true => ∀ p ∈ (s.cpu c).proc, ∀ np ∈ (s.proc p).np, (s.proc np).qlev ≠ 3
  | .scheduler _ => ∀ p ∈ (s.sched (chosen s)).heap 1, PollsSound s p
  | .tick c | .yield c | .sleep c _ | .exit c | .wait c | .thread_exit c | .thread_join c _ =>
    SwitchesSound s c
  | _ => True

instance (s : State n) (a : Action n) : Decidable (KeepsReal s a) :=
  match a with
  | .kill _ | .scheduler _ | .forkDone _ true => inferInstanceAs (Decidable (∀ _, _))
  | .tick c | .yield c | .sleep c _ | .exit c | .wait c | .thread_exit c | .thread_join c _ =>
    inferInstanceAs (Decidable (SwitchesSound s c))
  | .forkDone _ false | .boost _ | .wakeup _ | .fork _ _ | .set_cpu_share _ _ | .thread_create _
  | .threadReady _ => inferInstanceAs (Decidable True)

/-- What such a run maintains: a process is below level 3 if it can run or if a thread of its group
is on a CPU. -/
private structure Leveled (s : State n) : Prop where
  seated : Seated s
  range : ∀ p, 0 ≤ (s.proc p).qlev ∧ (s.proc p).qlev ≤ 3
  cpu : ∀ c p m, (s.cpu c).proc = some p → (s.proc p).master = some m → (s.proc m).tickets = 0 →
    (s.proc m).qlev ≤ 2
  ready : ∀ p, (s.proc p).state = .RUNNABLE → (s.proc p).master = some p →
    (s.proc p).tickets = 0 → (s.proc p).qlev ≤ 2

variable {round : Int → Int} {s t : State n} {a : Action n} {r : Next n} {c : Fin n}
  {p q m x : Slot}

private theorem Leveled.real (h : Leveled s) : RealLevels s := by
  intro q m hrun hm ht
  obtain ⟨c, hc⟩ := h.seated q hrun
  have hle := h.cpu c q m hc hm ht
  have h0 := (h.range m).1
  omega

/-! ### Levels -/

/-- The step parks `m`. -/
private def Parks (s : State n) (a : Action n) (m : Slot) : Prop :=
  (∃ c, a = .scheduler c) ∧ chosen s = .mlfq ∧ FindsAsleep s .mlfq m

private theorem range_step (hs : Leveled s) (h : step round s a = .ok t) :
    0 ≤ (t.proc p).qlev ∧ (t.proc p).qlev ≤ 3 := by
  obtain ⟨h0, h3⟩ := hs.range p
  rcases step_relevel (q := p) h with ⟨_, _, hl⟩ | ⟨_, hrel⟩
  · have hq : (t.proc p).qlev = 0 := congrArg Prod.fst hl
    omega
  · generalize hl : (t.proc p).level = l at hrel
    have hq : (t.proc p).qlev = l.1 := congrArg Prod.fst hl
    rw [hq]
    cases hrel with
    | stay => exact ⟨h0, h3⟩
    | paid hp =>
      obtain ⟨_, _, _, _, ht⟩ := payer_eq_some hp
      rw [onTimer_level ht]
      split <;> dsimp only <;> omega
    | group => exact ⟨h0, h3⟩
    | _ => dsimp only; omega

private theorem low_step (h : step round s a = .ok t) (hlow : (s.proc m).qlev ≤ 2)
    (hpark : ¬Parks s a m) : (t.proc m).qlev ≤ 2 := by
  rcases step_relevel (q := m) h with ⟨_, _, hl⟩ | ⟨_, hrel⟩
  · have hq : (t.proc m).qlev = 0 := congrArg Prod.fst hl
    omega
  · generalize hl : (t.proc m).level = l at hrel
    have hq : (t.proc m).qlev = l.1 := congrArg Prod.fst hl
    rw [hq]
    cases hrel with
    | stay => exact hlow
    | paid hp =>
      obtain ⟨_, _, _, _, ht⟩ := payer_eq_some hp
      rw [onTimer_level ht]
      split <;> dsimp only <;> omega
    | group => exact hlow
    | park h0 hp hm hst hc => exact absurd ⟨⟨_, rfl⟩, hc, h0, hp, hm, hst⟩ hpark
    | _ => dsimp only; omega

/-- A process with a master keeps it, unless it is new or becomes a thread of a running process's
group. -/
private theorem master_before (h : step round s a = .ok t) (hm : (t.proc p).master = some m) :
    (s.proc p).master = some m ∨ (Allocates s p a ∧ m = p) ∨
      (∃ c, a = .threadReady c ∧ ∃ x, (s.cpu c).proc = some x ∧ (s.proc x).master = some m) := by
  obtain ⟨r, hr, hafter⟩ := step_enters h
  rw [hafter.master] at hm
  rcases enters_master (q := p) hr with hq | ⟨hq, hp⟩ | ⟨c, x, rfl, hx, _, hq⟩
  · exact .inl (hq.symm.trans hm)
  · exact .inr (.inl ⟨hq, Option.some.inj (hm.symm.trans hp)⟩)
  · exact .inr (.inr ⟨c, rfl, x, cpu_of_current hx, hq.symm.trans hm⟩)

private theorem not_parks_running (ha : KeepsReal s a) (hp : (s.cpu c).proc = some p)
    (hm : (s.proc p).master = some m) : ¬Parks s a m := by
  rintro ⟨⟨c', rfl⟩, hc, hasleep⟩
  have hpoll := ha m (by rw [hc]; exact hasleep.root)
  exact (hpoll.2.1 hasleep hc).1 c p hp hm

private theorem not_parks_awake (hst : (s.proc m).state ≠ .SLEEPING) : ¬Parks s a m :=
  fun hpark ↦ hst hpark.2.2.asleep

private theorem not_parks_of_ne (ha : ∀ c, a ≠ .scheduler c) : ¬Parks s a m := by
  rintro ⟨⟨c, rfl⟩, _⟩
  exact ha c rfl

private theorem KeepsReal.switches (ha : KeepsReal s a) (hc : MayCall c a) : SwitchesSound s c := by
  cases a with
  | tick | yield | sleep | exit | wait | thread_exit | thread_join =>
    cases hc
    exact ha
  | _ => exact hc.elim

private theorem not_scheduler_of_call (hc : MayCall c a) (c' : Fin n) : a ≠ .scheduler c' := by
  rintro rfl
  exact hc

/-- The master of a process that a CPU switches to, where it has no tickets. -/
private theorem switch_low (hs : Leveled s) (ha : KeepsReal s a) (h : step round s a = .ok t)
    (hsw : Switch s a c p) (hm : (s.proc p).master = some m) (ht : (s.proc m).tickets = 0) :
    (t.proc m).qlev ≤ 2 := by
  cases hsw with
  | run hsched h0 hp hmis hr =>
    subst hsched
    have hown := (ha p hp).1 h0 hmis hr
    cases hown.symm.trans hm
    exact low_step h (hs.ready p hr hown ht) (not_parks_awake (by rw [hr]; decide))
  | @worker x hsched hx hi hn =>
    subst hsched
    have hpoll := ha x hx.root
    exfalso
    cases hc : chosen s with
    | mlfq =>
      rw [hc] at hx
      have hnone := (hpoll.2.1 hx hc).2 hi
      rw [hn] at hnone
      cases hnone
    | stride =>
      rw [hc] at hx
      obtain ⟨hown, hth⟩ := hpoll.2.2 hx hc hi
      have hxm : m = x := by
        rcases get_next_thread_snd hn with ⟨_, rfl⟩ | ⟨_, hr, i, hpi⟩
        · exact Option.some.inj (hm.symm.trans hown)
        · exact Option.some.inj (hm.symm.trans (hth i p hpi (.inl hr)))
      subst hxm
      exact hx.placed ht
  | @next x y hcall hx hxm hi hp =>
    have hlow : (s.proc y).tickets = 0 → (t.proc y).qlev ≤ 2 := fun h0 ↦
      low_step h (hs.cpu c x y hx hxm h0) (not_parks_of_ne (not_scheduler_of_call hcall))
    obtain ⟨hown, hth⟩ := ha.switches hcall x hx y hxm hi
    have hmy : m = y := by
      rcases hp with rfl | ⟨_, ⟨i, hpi⟩, hst⟩
      · exact Option.some.inj (hm.symm.trans hown)
      · exact Option.some.inj (hm.symm.trans (hth i p hpi hst))
    subst hmy
    exact hlow ht

private theorem cpu_step (hs : Leveled s) (ha : KeepsReal s a) (h : step round s a = .ok t)
    (hp : (t.cpu c).proc = some p) (hm : (t.proc p).master = some m)
    (ht : (t.proc m).tickets = 0) : (t.proc m).qlev ≤ 2 := by
  by_cases halloc : Allocates s m a
  · have hq : (t.proc m).qlev = 0 := congrArg Prod.fst (allocates_level h halloc)
    omega
  have h0 := tickets_before h halloc ht
  rcases master_before h hm with hm' | ⟨hnew, rfl⟩ | ⟨c', rfl, x, hx, hxm⟩
  · rcases step_switch h hp with hcpu | hsw
    · exact low_step h (hs.cpu c p m hcpu hm' h0) (not_parks_running ha hcpu hm')
    · exact switch_low hs ha h hsw hm' h0
  · exact absurd hnew halloc
  · exact low_step h (hs.cpu c' x m hx hxm h0) (not_parks_running ha hx hxm)

/-! ### Processes that can run -/

/-- A sleeping process that a step makes `RUNNABLE` is woken up by `wakeup1` or by `kill`. -/
private theorem woken_level (h : Enters round s a r) (hs : (s.proc p).state = .SLEEPING)
    (hw : Wakes s a p) (hr : (r.state.proc p).state = .RUNNABLE) :
    (r.state.proc p).qlev = 0 ∨ ∃ pid, a = .kill pid ∧ findPid s pid = some p := by
  have hwake : ∀ {chan}, ((wakeup1 s chan).proc p).state = .RUNNABLE →
      ((wakeup1 s chan).proc p).qlev = 0 := by
    intro chan hst
    rcases wakeup1_wakes s chan p with hv | ⟨_, _, hv⟩
    · rw [hv, hs] at hst
      cases hst
    · rw [hv]
  cases hw with
  | wakeup =>
    cases h with
    | wakeup => exact .inl (hwake hr)
  | exit =>
    cases h with
    | @exit _ _ m =>
      dsimp only [Next.state] at hr ⊢
      by_cases hpm : p = m
      · subst hpm
        rw [exited_state_self] at hr
        cases hr
      · cases exited_exited (s := s) hpm with
        | stay hst =>
          rw [hst, hs] at hr
          cases hr
        | wake _ _ _ hl => exact .inl hl
        | free _ _ hst =>
          rw [hst] at hr
          cases hr
  | thread_exit =>
    cases h with
    | @thread_exit _ x m =>
      dsimp only [Next.state] at hr ⊢
      rw [modify_field (·.state) rfl] at hr
      rw [modify_field (·.qlev) rfl, modify_field (·.qlev) rfl]
      by_cases hpx : p = x
      · subst hpx
        rw [modify_proc_self] at hr
        cases hr
      · rw [modify_proc_of_ne hpx] at hr
        exact .inl (hwake hr)
  | kill hpid => exact .inr ⟨_, rfl, hpid⟩

/-- A process that can run after a step could run before, is the caller, is woken up or is new. -/
private theorem ready_enters (hs : Leveled s) (ha : KeepsReal s a) (h : step round s a = .ok t)
    (he : Enters round s a r) (hst : (r.state.proc p).state = .RUNNABLE)
    (hmaster : (t.proc p).master = (r.state.proc p).master)
    (hlevel : Wakes s a p → (t.proc p).qlev = (r.state.proc p).qlev)
    (hm : (t.proc p).master = some p) (ht : (t.proc p).tickets = 0) : (t.proc p).qlev ≤ 2 := by
  by_cases halloc : Allocates s p a
  · have hq : (t.proc p).qlev = 0 := congrArg Prod.fst (allocates_level h halloc)
    omega
  have h0 := tickets_before h halloc ht
  have hmoves := enters_state (q := p) he
  rw [hst] at hmoves
  generalize hx : ProcState.RUNNABLE = y at hmoves
  cases hmoves with
  | stay =>
    have hawake : ¬Parks s a p := not_parks_awake (by rw [← hx]; decide)
    rcases master_before h hm with hm' | ⟨hnew, _⟩ | ⟨c, rfl, x, hcpu, hxm⟩
    · exact low_step h (hs.ready p hx.symm hm' h0) hawake
    · exact absurd hnew halloc
    · exact low_step h (hs.cpu c x p hcpu hxm h0) hawake
  | self hq =>
    have hcpu := cpu_of_current hq
    rcases master_before h hm with hm' | ⟨hnew, _⟩ | ⟨c, rfl, x, hcpu, hxm⟩
    · exact low_step h (hs.cpu _ p p hcpu hm' h0) (not_parks_running ha hcpu hm')
    · exact absurd hnew halloc
    · exact low_step h (hs.cpu c x p hcpu hxm h0) (not_parks_running ha hcpu hxm)
  | wake hsleep hw =>
    rcases woken_level he hsleep hw hst with hz | ⟨pid, rfl, hpid⟩
    · rw [hlevel hw, hz]
      decide
    · have hne := ha p hpid hsleep
      have hrange := (hs.range p).2
      exact low_step h (by omega) (not_parks_of_ne fun _ hc ↦ by cases hc)
  | ready hp hnp hact =>
    rcases hact with rfl | rfl
    · have hne := ha _ (cpu_of_current hp) p hnp
      have hrange := (hs.range p).2
      exact low_step h (by omega) (not_parks_of_ne fun _ hc ↦ by cases hc)
    · cases he with
      | @threadReady _ x new m hp' hnp' hm' =>
        cases hp.symm.trans hp'
        cases hnp.symm.trans hnp'
        have hnew : (t.proc p).master = some m := by
          rw [hmaster]
          simp [Next.state]
        cases hm.symm.trans hnew
        exact low_step h (hs.cpu _ _ p (cpu_of_current hp) hm' h0)
          (not_parks_of_ne fun _ hc ↦ by cases hc)
  | _ => cases hx

private theorem ready_step (hs : Leveled s) (ha : KeepsReal s a) (h : step round s a = .ok t)
    (hst : (t.proc p).state = .RUNNABLE) (hm : (t.proc p).master = some p)
    (ht : (t.proc p).tickets = 0) : (t.proc p).qlev ≤ 2 := by
  rcases step_cases h with he | ⟨u, c, x, v, back, he, _, hl, hu⟩
  · exact ready_enters hs ha h he hst rfl (fun _ ↦ rfl) hm ht
  · have hvst : (v.proc p).state = .RUNNABLE := by
      rcases hu with ⟨_, rfl⟩ | ⟨_, hu⟩
      · exact hst
      · rwa [leave_state hu] at hst
    have hust : (u.proc p).state = .RUNNABLE := by
      rcases leaves_state (q := p) hl with hst' | ⟨hst', _⟩
      · exact hst'.symm.trans hvst
      · cases hst'.symm.trans hvst
    have hlev : (v.proc p).qlev = (u.proc p).qlev := congrArg Prod.fst (level_leaves hl)
    refine ready_enters hs ha h he hust ?_ (fun hw ↦ ?_) hm ht
    · rcases hu with ⟨_, rfl⟩ | ⟨_, hu⟩
      · exact stable_master.leaves hl
      · exact (stable_master.leave hu).trans (stable_master.leaves hl)
    · rcases hu with ⟨_, rfl⟩ | ⟨_, hu⟩
      · exact hlev
      · cases hw with
        | wakeup => cases he
        | exit => cases hu
        | thread_exit => cases hu
        | kill => cases he

private theorem leveled_step (hs : Leveled s) (ha : KeepsReal s a) (h : step round s a = .ok t) :
    Leveled t where
  seated := seated_step hs.seated h
  range _ := range_step hs h
  cpu _ _ _ hp hm ht := cpu_step hs ha h hp hm ht
  ready _ hst hm ht := ready_step hs ha h hst hm ht

private theorem leveled_boot : Leveled (boot n) := by
  have hlev : ∀ p, ((boot n).proc p).qlev = 0 := by
    intro p
    rw [boot_proc]
    split <;> rfl
  refine ⟨seated_boot, fun p ↦ ?_, fun c p m hp ↦ ?_, fun p _ _ _ ↦ ?_⟩
  · rw [hlev]
    decide
  · rw [boot_cpu] at hp
    cases hp
  · rw [hlev]
    decide

/-- In every state that such a run reaches, what runs is at a real level. -/
theorem real_levels (h : ReachesVia (step round) KeepsReal (boot n) s) : RealLevels s :=
  (h.invariant (fun _ _ _ hs ha hst ↦ leveled_step hs ha hst) leveled_boot).real

end

section

/-- The first process sleeps, is polled, woken up and dispatched. -/
def polledAndWoken : List (Action 1) :=
  [.scheduler cpu0, .sleep cpu0 (.object 0), .scheduler cpu0, .wakeup (.object 0), .scheduler cpu0]

example : ((final (step float) (boot 1) polledAndWoken).proc 0).qlev = 0 := by decide +kernel

theorem real_levels_polledAndWoken :
    RealLevels (final (step float) (boot 1) polledAndWoken) := by
  apply real_levels
  refine ⟨polledAndWoken, ?_, exec_final ?_⟩
  · decide +kernel
  · decide +kernel

/-- Master and thread sleep, and the thread is woken up before the master is polled. -/
def wokenThread : List (Action 1) :=
  [.scheduler cpu0, .thread_create cpu0, .threadReady cpu0, .sleep cpu0 (.object 0),
    .sleep cpu0 (.object 1), .wakeup (.object 1), .scheduler cpu0]

/-- The thread runs while its master is parked. -/
theorem wokenThread_parked : (exec (step float) (boot 1) wokenThread).isOk = true ∧
    ¬RealLevels (final (step float) (boot 1) wokenThread) := by
  have hok : (exec (step float) (boot 1) wokenThread).isOk = true := by decide +kernel
  have hrun : ((final (step float) (boot 1) wokenThread).proc 1).state = .RUNNING ∧
      ((final (step float) (boot 1) wokenThread).proc 1).master = some 0 ∧
      ((final (step float) (boot 1) wokenThread).proc 0).tickets = 0 ∧
      ((final (step float) (boot 1) wokenThread).proc 0).qlev = 3 := by decide +kernel
  obtain ⟨hst, hm, ht, hlev⟩ := hrun
  refine ⟨hok, fun h ↦ ?_⟩
  have hreal := h 1 0 hst hm ht
  omega

end

end Xv6.Sched
