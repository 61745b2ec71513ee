import Xv6.Sched.Decision

/-!
# What runs on a CPU after a step

A CPU goes on with the process it has, or with one that `scheduler()` dispatches, or with a thread
of the group of the process that calls `sched`.
-/

namespace Xv6.Sched

open Function Lib

section

variable {n : Nat}

/-- The steps of CPU `c` that may call `sched`. -/
def MayCall (c : Fin n) : Action n → Prop
  | .tick c' | .yield c' | .sleep c' _ | .exit c' | .wait c' | .thread_exit c'
  | .thread_join c' _ => c' = c
  | _ => False

/-- The ways in which CPU `c` switches to `p`. -/
inductive Switch (s : State n) (a : Action n) (c : Fin n) (p : Slot) : Prop
  | run (ha : a = .scheduler c) (h0 : 0 < (s.sched (chosen s)).count)
      (hp : (s.sched (chosen s)).heap 1 = some p) (hm : ¬Misplaced (chosen s) (s.proc p))
      (hr : (s.proc p).state = .RUNNABLE)
  | worker {m} (ha : a = .scheduler c) (hm : FindsAsleep s (chosen s) m)
      (hi : (s.proc m).isthread = true) (hn : (get_next_thread s m).2 = some p)
  | next {x m} (ha : MayCall c a) (hx : (s.cpu c).proc = some x)
      (hm : (s.proc x).master = some m) (hi : (s.proc x).isthread = true)
      (hp : p = m ∨ p ≠ x ∧ (∃ i, (s.proc m).threads i = some p) ∧
        ((s.proc p).state = .RUNNABLE ∨ (s.proc p).state = .SLEEPING))

variable {round : Int → Int} {s t u v : State n} {a : Action n} {r : Next n} {c c' : Fin n}
  {p q m x : Slot}

/-! ### Up to the call of `sched` -/

theorem enters_cpu (h : Enters round s a r) (ha : ∀ c, a ≠ .scheduler c) :
    r.state.cpu = s.cpu := by
  rcases enters_quiet h with hq | ⟨c, _, rfl, _⟩ | ⟨_, _, _, _, _, _, rfl⟩ | ⟨_, p, x, rfl, _, _, rfl⟩
  · exact hq.cpu
  · exact absurd rfl (ha c)
  · simp [Next.state, mlfq_enqueue]
  · simp [Next.state, granted, stride_enqueue]

/-- The scheduler makes no call of `sched`. -/
private theorem not_scheduler (h : Enters round s a (.sched u c x)) (c' : Fin n) :
    a ≠ .scheduler c' := by
  rintro rfl
  cases h

private theorem mayCall (h : Enters round s a (.sched u c x)) : MayCall c a := by
  cases h <;> rfl

theorem sched_master (h : Enters round s a (.sched u c x)) :
    (u.proc q).master = (s.proc q).master := by
  rcases stable_master.enters (q := q) h with hq | ⟨_, _, rfl⟩ | ⟨_, rfl⟩ | ⟨_, rfl⟩ | ⟨_, _, rfl⟩
  · exact hq
  all_goals cases h

theorem charged_field {β : Type*} (g : Proc → β)
    (hg : ∀ v l i e, g { v with qlev := l, qticks := i, isexhausted := e } = g v) :
    g ((charged round s m).proc q) = g (s.proc q) := by
  have hticks : g ((s.modify m fun v ↦ { v with qticks := v.qticks + 1 }).proc q) =
      g (s.proc q) := modify_field g (hg _ (s.proc m).qlev _ (s.proc m).isexhausted)
  unfold charged
  rw [check_on_timer_field g hg]
  exact hticks

private theorem exited_threads {i : Fin (MAXTHREAD + 1)}
    (h : ((exited s m).proc p).threads i = some q) : (s.proc p).threads i = some q := by
  have hfree : ∀ v : State n, (if (s.proc m).isthread = true then freeThreads s m else s) = v →
      (v.proc p).threads i = some q → (s.proc p).threads i = some q := by
    rintro v rfl hv
    split at hv
    · unfold freeThreads at hv
      by_cases hp : p = m
      · subst hp
        rw [modify_proc_self] at hv
        dsimp only at hv
        split at hv
        · split at hv <;> exact hv
        · cases hv
      · rw [modify_proc_of_ne hp] at hv
        dsimp only at hv
        split at hv <;> exact hv
    · exact hv
  unfold exited at h
  generalize hv : (if (s.proc m).isthread = true then freeThreads s m else s) = v at h
  dsimp only at h
  rw [modify_field (·.threads) rfl, abandonChildren_field (·.threads) (fun _ _ _ ↦ rfl) fun _ _ ↦ rfl,
    wakeup1_field (·.threads) fun _ _ _ ↦ rfl] at h
  exact hfree v hv h

/-- No thread is added to a group on the way to a call of `sched`. -/
theorem sched_threads {i : Fin (MAXTHREAD + 1)} (h : Enters round s a (.sched u c x))
    (hq : (u.proc m).threads i = some q) : (s.proc m).threads i = some q := by
  cases h with
  | tickYield =>
    rw [modify_field (·.threads) rfl, modify_field (·.threads) rfl,
      charged_field (·.threads) fun _ _ _ _ ↦ rfl] at hq
    exact hq
  | tickGroup =>
    rw [modify_field (·.threads) rfl, check_on_timer_field (·.threads) fun _ _ _ _ ↦ rfl,
      modify_field (·.threads) rfl] at hq
    dsimp only [strode] at hq
    rwa [modify_field (·.threads) rfl] at hq
  | tickStride =>
    rw [modify_field (·.threads) rfl] at hq
    dsimp only [strode] at hq
    rwa [modify_field (·.threads) rfl] at hq
  | yield => rwa [modify_field (·.threads) rfl] at hq
  | sleep => rwa [modify_field (·.threads) rfl] at hq
  | exit => exact exited_threads hq
  | wait => rwa [modify_field (·.threads) rfl] at hq
  | thread_exit =>
    rwa [modify_field (·.threads) rfl, modify_field (·.threads) rfl,
      wakeup1_field (·.threads) fun _ _ _ ↦ rfl] at hq
  | join => rwa [modify_field (·.threads) rfl] at hq

theorem sched_isthread (h : Enters round s a (.sched u c x)) :
    (u.proc q).isthread = (s.proc q).isthread := by
  cases h with
  | tickYield =>
    rw [modify_field (·.isthread) rfl, modify_field (·.isthread) rfl,
      charged_field (·.isthread) fun _ _ _ _ ↦ rfl]
  | tickGroup =>
    rw [modify_field (·.isthread) rfl, check_on_timer_field (·.isthread) fun _ _ _ _ ↦ rfl,
      modify_field (·.isthread) rfl]
    dsimp only [strode]
    rw [modify_field (·.isthread) rfl]
  | tickStride =>
    rw [modify_field (·.isthread) rfl]
    dsimp only [strode]
    rw [modify_field (·.isthread) rfl]
  | yield => exact modify_field (·.isthread) rfl
  | sleep => exact modify_field (·.isthread) rfl
  | exit =>
    exact exited_field (·.isthread) (fun _ _ _ ↦ rfl) (fun _ _ _ ↦ rfl) (fun _ _ _ ↦ rfl)
      fun _ _ ↦ rfl
  | wait => exact modify_field (·.isthread) rfl
  | thread_exit =>
    rw [modify_field (·.isthread) rfl, modify_field (·.isthread) rfl,
      wakeup1_field (·.isthread) fun _ _ _ ↦ rfl]
  | join => exact modify_field (·.isthread) rfl

/-- A process other than the caller is `RUNNABLE` before, or woken up. -/
theorem sched_runnable (h : Enters round s a (.sched u c x)) (hq : q ≠ x)
    (hr : (u.proc q).state = .RUNNABLE) :
    (s.proc q).state = .RUNNABLE ∨ (s.proc q).state = .SLEEPING := by
  have hwake : ∀ {chan}, ((wakeup1 s chan).proc q).state = .RUNNABLE →
      (s.proc q).state = .RUNNABLE ∨ (s.proc q).state = .SLEEPING := by
    intro chan h
    rcases wakeup1_wakes s chan q with hw | ⟨hs, _⟩
    · rw [hw] at h
      exact .inl h
    · exact .inr hs
  cases h with
  | tickYield =>
    rw [modify_proc_of_ne hq, modify_field (·.state) rfl,
      charged_field (·.state) fun _ _ _ _ ↦ rfl] at hr
    exact .inl hr
  | tickGroup =>
    rw [modify_proc_of_ne hq, check_on_timer_field (·.state) fun _ _ _ _ ↦ rfl,
      modify_field (·.state) rfl] at hr
    dsimp only [strode] at hr
    rw [modify_field (·.state) rfl] at hr
    exact .inl hr
  | tickStride =>
    rw [modify_proc_of_ne hq] at hr
    dsimp only [strode] at hr
    rw [modify_field (·.state) rfl] at hr
    exact .inl hr
  | yield =>
    rw [modify_proc_of_ne hq] at hr
    exact .inl hr
  | sleep =>
    rw [modify_proc_of_ne hq] at hr
    exact .inl hr
  | @exit _ _ m =>
    by_cases hm : q = m
    · subst hm
      rw [exited_state_self] at hr
      cases hr
    · cases exited_exited (s := s) hm with
      | stay hs =>
        rw [hs] at hr
        exact .inl hr
      | wake hs => exact .inr hs
      | free _ _ hs =>
        rw [hs] at hr
        cases hr
  | wait =>
    rw [modify_proc_of_ne hq] at hr
    exact .inl hr
  | thread_exit =>
    rw [modify_field (·.state) rfl, modify_proc_of_ne hq] at hr
    exact hwake hr
  | join =>
    rw [modify_proc_of_ne hq] at hr
    exact .inl hr

/-! ### Whole steps -/

private theorem scheduler_switch (h : scheduler s c = .ok t) :
    (∀ c', c' ≠ c → t.cpu c' = s.cpu c') ∧ (s.cpu c).proc = none ∧
      ∀ p, (t.cpu c).proc = some p → Switch s (.scheduler c) c p := by
  obtain ⟨hp, hd, hpick⟩ := picks h
  have hstay : ∀ {v : State n}, v.cpu = s.cpu → (∀ c', c' ≠ c → v.cpu c' = s.cpu c') ∧
      (s.cpu c).proc = none ∧ ∀ p, (v.cpu c).proc = some p → Switch s (.scheduler c) c p := by
    intro v hv
    refine ⟨fun c' _ ↦ by rw [hv], hp, fun p hpv ↦ ?_⟩
    rw [hv, hp] at hpv
    cases hpv
  have hswitch : ∀ {v : State n} {k q}, v.cpu = s.cpu → Switch s (.scheduler c) c q →
      (∀ c', c' ≠ c → (dispatch v c k q).cpu c' = s.cpu c') ∧ (s.cpu c).proc = none ∧
        ∀ p, ((dispatch v c k q).cpu c).proc = some p → Switch s (.scheduler c) c p := by
    intro v k q hv hq
    rw [dispatch_cpu, hv]
    refine ⟨fun c' hc ↦ update_of_ne hc _ _, hp, fun p hpv ↦ ?_⟩
    rw [update_self] at hpv
    cases hpv
    exact hq
  have hparked : ∀ {k p u}, park (dequeue s k).1 k p = .ok u → (enqueue u k p).1.cpu = s.cpu := by
    intro k p u hu
    obtain ⟨_, _, _, rfl, _⟩ := park_ok hu
    simp
  cases hpick with
  | empty => exact hstay rfl
  | drop => exact hstay (by simp)
  | parked _ _ _ _ hu => exact hstay (hparked hu)
  | asleep _ _ _ _ hu =>
    apply hstay
    rw [get_next_thread_cpu]
    exact hparked hu
  | @worker p q u h0 hroot hm hs hu hi hn =>
    apply hswitch
    · rw [get_next_thread_cpu]
      exact hparked hu
    · refine .worker rfl ⟨h0, hroot, hm, hs⟩ hi ?_
      rw [← hn]
      obtain ⟨_, _, _, rfl, _⟩ := park_ok hu
      symm
      apply get_next_thread_congr <;> simp
  | run h0 hroot hm hr => exact hswitch (by simp) (.run rfl h0 hroot hm hr)

/-- The process on a CPU after a step was there before, or the CPU has switched to it. -/
theorem step_switch (h : step round s a = .ok t) (hp : (t.cpu c).proc = some p) :
    (s.cpu c).proc = some p ∨ Switch s a c p := by
  rcases step_cases h with he | ⟨u, c', x, v, back, he, _, hl, hu⟩
  · by_cases ha : ∃ c', a = .scheduler c'
    · obtain ⟨c', rfl⟩ := ha
      cases he with
      | scheduler hs =>
        obtain ⟨hother, _, hswitch⟩ := scheduler_switch hs
        by_cases hc : c = c'
        · subst hc
          exact .inr (hswitch p hp)
        · rw [hother c hc] at hp
          exact .inl hp
    · have hcpu := enters_cpu he fun c' hc ↦ ha ⟨c', hc⟩
      rw [show t.cpu = s.cpu from hcpu] at hp
      exact .inl hp
  · have hcpu : u.cpu = s.cpu := enters_cpu he (not_scheduler he)
    have ht : t.cpu = v.cpu := by
      rcases hu with ⟨_, rfl⟩ | ⟨_, hu⟩
      · rfl
      · exact (quiet_leave hu).cpu
    rw [ht] at hp
    have hleft : ((swtchScheduler u c').cpu c).proc = some p → (s.cpu c).proc = some p := by
      intro hv
      rw [swtchScheduler_cpu, hcpu] at hv
      by_cases hc : c = c'
      · subst hc
        rw [update_self] at hv
        cases hv
      · rwa [update_of_ne hc] at hv
    cases hl with
    | exhausted =>
      rw [swtchScheduler_cpu] at hp hleft
      exact .inl (hleft hp)
    | plain => exact .inl (hleft hp)
    | idle =>
      rw [swtchScheduler_cpu, get_next_thread_cpu] at hp
      rw [swtchScheduler_cpu] at hleft
      exact .inl (hleft hp)
    | back =>
      rw [get_next_thread_cpu, hcpu] at hp
      exact .inl hp
    | @next m q hm _ hi hn hq =>
      rw [switchTo_cpu, get_next_thread_cpu, hcpu] at hp
      by_cases hc : c = c'
      · subst hc
        rw [update_self] at hp
        cases hp
        right
        rw [sched_master he] at hm
        rw [sched_isthread he] at hi
        refine .next (mayCall he) (cpu_of_sched he) hm hi ?_
        rcases get_next_thread_snd hn with ⟨_, hqm⟩ | ⟨_, hrun, i, hth⟩
        · exact .inl hqm
        · exact .inr ⟨hq, ⟨i, sched_threads he hth⟩, sched_runnable he hq hrun⟩
      · rw [update_of_ne hc] at hp
        exact .inl hp

/-! ### Running processes have a CPU -/

/-- Every `RUNNING` process is on a CPU. -/
def Seated (s : State n) : Prop := ∀ p, (s.proc p).state = .RUNNING → ∃ c, (s.cpu c).proc = some p

private theorem enters_running (h : Enters round s a r) (hp : (r.state.proc p).state = .RUNNING) :
    (s.proc p).state = .RUNNING ∨
      ∃ c t, a = .scheduler c ∧ scheduler s c = .ok t ∧ (t.cpu c).proc = some p := by
  have hmoves := enters_state (q := p) h
  rw [hp] at hmoves
  generalize hx : ProcState.RUNNING = x at hmoves
  cases hmoves with
  | stay => exact .inl rfl
  | self _ hself => rcases hself with rfl | rfl <;> cases hx
  | run hs ht => exact .inr ⟨_, _, rfl, hs, ht⟩
  | _ => cases hx

private theorem leaves_cpu {back : Bool} (h : Leaves u c x v back) (hc : c' ≠ c) :
    v.cpu c' = u.cpu c' := by
  cases h with
  | exhausted => rw [swtchScheduler_cpu, update_of_ne hc, modify_cpu]
  | plain => rw [swtchScheduler_cpu, update_of_ne hc]
  | idle => rw [swtchScheduler_cpu, update_of_ne hc, get_next_thread_cpu]
  | back => rw [get_next_thread_cpu]
  | next => rw [switchTo_cpu, update_of_ne hc, get_next_thread_cpu]

private theorem seated_enters (hs : Seated s) (h : Enters round s a (.done t)) : Seated t := by
  intro p hp
  by_cases ha : ∃ c, a = .scheduler c
  · obtain ⟨c₀, rfl⟩ := ha
    cases h with
    | scheduler hsched =>
      obtain ⟨hother, hnone, _⟩ := scheduler_switch hsched
      have he : Enters round s (.scheduler c₀) (.done t) := .scheduler hsched
      rcases enters_running he hp with hr | ⟨c, _, hc, ht, hpt⟩
      · obtain ⟨c, hc⟩ := hs p hr
        refine ⟨c, ?_⟩
        rw [hother c]
        · exact hc
        · rintro rfl
          rw [hnone] at hc
          cases hc
      · cases hc
        cases hsched.symm.trans ht
        exact ⟨_, hpt⟩
  · rcases enters_running h hp with hr | ⟨c, _, hc, _⟩
    · obtain ⟨c, hc⟩ := hs p hr
      have hcpu : t.cpu = s.cpu := enters_cpu h fun c' hc' ↦ ha ⟨c', hc'⟩
      exact ⟨c, by rw [hcpu, hc]⟩
    · exact absurd ⟨c, hc⟩ ha

theorem seated_step (hs : Seated s) (h : step round s a = .ok t) : Seated t := by
  rcases step_cases h with he | ⟨u, c, x, v, back, he, hx, hl, hu⟩
  · exact seated_enters hs he
  · have hv : Seated v := by
      intro p hp
      rcases leaves_state (q := p) hl with hst | ⟨_, hcpu, _⟩
      · have hup : (u.proc p).state = .RUNNING := hst.symm.trans hp
        rcases enters_running he hup with hr | ⟨c', _, hc', _⟩
        · obtain ⟨c', hc'⟩ := hs p hr
          have hne : c' ≠ c := by
            rintro rfl
            cases hc'.symm.trans (cpu_of_sched he)
            exact hx hup
          refine ⟨c', ?_⟩
          rw [leaves_cpu hl hne, show u.cpu = s.cpu from enters_cpu he (not_scheduler he)]
          exact hc'
        · exact absurd hc' (not_scheduler he c')
      · exact ⟨c, hcpu⟩
    rcases hu with ⟨_, rfl⟩ | ⟨_, hu⟩
    · exact hv
    · intro p hp
      rw [leave_state hu] at hp
      rw [(quiet_leave hu).cpu]
      exact hv p hp

theorem seated_boot : Seated (boot n) := by
  intro p hp
  rw [boot_proc] at hp
  split at hp <;> cases hp

end

end Xv6.Sched
