import Xv6.Sched.RoundRobin
import Xv6.Sched.Switches

/-!
# The states in which processes are dispatched

A process on a CPU is `RUNNING`, and only `RUNNABLE` ones are switched to, as long as
`get_next_thread` counts threads or finds the master `RUNNABLE`, `run_next_thread` does not come back
to its caller, and no call ends or sets up a process that another CPU executes.
-/

namespace Xv6.Sched

open Function Lib

section

variable {n : Nat} (round : Int → Int)

/-- A `RUNNABLE` member of the group of `m` comes before `x` in the search of `get_next_thread`. -/
def Precedes (s : State n) (m x : Slot) : Prop :=
  ∃ i, ready s m i = true ∧ ∀ j, (s.proc m).threads j = some x →
    ahead (s.proc m).t_lastsched i < ahead (s.proc m).t_lastsched j

instance (s : State n) (m x : Slot) : Decidable (Precedes s m x) :=
  inferInstanceAs (Decidable (∃ _, _ ∧ _))

/-- If `sched` goes on to `run_next_thread` when `x` calls it, threads of the group are counted, or
the master is another process and `RUNNABLE`. If `x` is `RUNNABLE` itself, another member comes first,
or there is one CPU. -/
def Finds (s : State n) (x : Slot) : Prop :=
  ∀ m ∈ (s.proc x).master, (s.proc m).isexhausted = false → (s.proc x).isthread = true →
    if (s.proc m).t_cnt = 0 then m ≠ x ∧ (s.proc m).state = .RUNNABLE
    else (s.proc x).state = .RUNNABLE → n = 1 ∨ Precedes s m x

instance (s : State n) (x : Slot) : Decidable (Finds s x) :=
  inferInstanceAs (Decidable (∀ _ ∈ _, _))

/-- If a step comes to a call of `sched`, that call finds a thread to go on with. -/
def Continues : Except Fault (Next n) → Prop
  | .ok (.sched u _ x) => Finds u x
  | _ => True

instance (r : Except Fault (Next n)) : Decidable (Continues r) :=
  match r with
  | .ok (.sched u _ x) => inferInstanceAs (Decidable (Finds u x))
  | .ok (.done _) | .error _ => .isTrue trivial

/-- A call of `sched` finds a thread to go on with, as does `scheduler()` in a group whose master
sleeps. The entry that `fork` or `thread_create` ends with is `EMBRYO`, and neither `kill` nor `exit`
ends a process that another CPU executes. -/
def Fitting (s : State n) (a : Action n) : Prop :=
  Continues (enter round s a) ∧ match a with
  | .scheduler _ => ∀ m, FindsAsleep s (chosen s) m → (s.proc m).isthread = true →
    (s.proc m).t_cnt ≠ 0
  | .forkDone c _ | .threadReady c => ∀ p ∈ (s.cpu c).proc, ∀ w ∈ (s.proc p).np,
    (s.proc w).state = .EMBRYO
  | .kill pid => ∀ p ∈ findPid s pid, ∀ c, ∀ q ∈ (s.cpu c).proc, ¬Doomed s p q
  | .exit c => ∀ x ∈ (s.cpu c).proc, ∀ m ∈ exiting s x, ∀ c', c' ≠ c → ∀ q ∈ (s.cpu c').proc,
    q ≠ m ∧ ¬((s.proc m).isthread = true ∧ IsWorker s m q)
  | _ => True

/-- Every switch was to a `RUNNABLE` process. A process on a CPU is `RUNNING`, or `RUNNABLE` if it is
the only one, and on no other CPU. -/
structure OnlyRunnable (s : State n) : Prop where
  dispatched : ∀ d ∈ s.trace, d.before = .RUNNABLE
  executing : ∀ c p, (s.cpu c).proc = some p →
    (s.proc p).state = .RUNNING ∨ n = 1 ∧ (s.proc p).state = .RUNNABLE
  apart : ∀ c c' p, (s.cpu c).proc = some p → (s.cpu c').proc = some p → c = c'

/-- A process that slept before the step and can run after it has been woken up or killed. -/
def WakesFirst (s : State n) (a : Action n) (t : State n) : Prop :=
  ∀ q, (s.proc q).state = .SLEEPING →
    (t.proc q).state = .RUNNABLE ∨ (t.proc q).state = .RUNNING → Wakes s a q

variable {round : Int → Int} {s t u v : State n} {a : Action n} {r : Next n} {c c' : Fin n}
  {p q m x w : Slot}

/-! ### The next thread of a group -/

/-- What `run_next_thread` goes on with. -/
private theorem Finds.next (h : Finds u x) (hm : (u.proc x).master = some m)
    (he : (u.proc m).isexhausted = false) (hi : (u.proc x).isthread = true)
    (hq : (get_next_thread u m).2 = some q) :
    (u.proc q).state = .RUNNABLE ∧ (q = x → n = 1) := by
  have hfind := h m hm he hi
  split at hfind
  · next h0 =>
    rw [get_next_thread_uncounted h0] at hq
    cases hq
    exact ⟨hfind.2, fun he ↦ absurd he hfind.1⟩
  · next h0 =>
    have hr : (u.proc q).state = .RUNNABLE := by
      rcases get_next_thread_snd hq with ⟨h0', _⟩ | ⟨_, hr, _⟩
      · exact absurd h0' h0
      · exact hr
    refine ⟨hr, ?_⟩
    rintro rfl
    rcases hfind hr with h1 | ⟨i, hi, hfirst⟩
    · exact h1
    · have hsearch := get_next_thread_counted h0
      split at hsearch
      · next j hj =>
        have hjq : (u.proc m).threads j = some q := hsearch.1.symm.trans hq
        have hno := (nextFrom_eq_some.mp hj).2 i (hfirst j hjq)
        cases hi.symm.trans hno
      · rw [hq] at hsearch
        cases hsearch

/-! ### Up to the call of `sched` -/

/-- The calls that may end `q`, or set up its entry. -/
private def Spoils (s : State n) (q : Slot) : Action n → Prop
  | .kill pid => ∃ p ∈ findPid s pid, Doomed s p q
  | .exit c => ∃ x ∈ (s.cpu c).proc, ∃ m ∈ exiting s x,
    q = m ∨ (s.proc m).isthread = true ∧ IsWorker s m q
  | .forkDone c _ | .threadReady c => ∃ p ∈ (s.cpu c).proc, (s.proc p).np = some q
  | _ => False

/-- A process that executes keeps its state, unless it is the caller. -/
private theorem enters_keeps (h : Enters round s a r) (ha : ∀ c, a ≠ .scheduler c)
    (hq : (s.proc q).state = .RUNNING ∨ (s.proc q).state = .RUNNABLE)
    (hx : ∀ u c, r ≠ .sched u c q) (hsafe : ¬Spoils s q a) :
    (r.state.proc q).state = (s.proc q).state := by
  have hne : ∀ w, (s.proc w).state ≠ .RUNNING → (s.proc w).state ≠ .RUNNABLE → q ≠ w := by
    rintro w h₁ h₂ rfl
    exact hq.elim h₁ h₂
  have hwake : ∀ chan, ((wakeup1 s chan).proc q).state = (s.proc q).state := by
    intro chan
    rcases wakeup1_wakes s chan q with hw | ⟨hs, _⟩
    · rw [hw]
    · rcases hq with hq | hq <;> cases hq.symm.trans hs
  have hself : ∀ {u : State n} {c p}, r = .sched u c p → q ≠ p := by
    rintro u c p hr rfl
    exact hx u c hr
  have hcharged : ∀ {m}, ((charged round s m).proc q).state = (s.proc q).state :=
    charged_field (·.state) fun _ _ _ _ ↦ rfl
  have hstrode : ∀ {p}, ((strode round s p).proc q).state = (s.proc q).state := by
    intro p
    dsimp only [strode]
    exact modify_field (·.state) rfl
  cases h with
  | scheduler => exact absurd rfl (ha _)
  | tickIdle => rfl
  | tickYield =>
    dsimp only [yield, Next.state]
    rw [modify_proc_of_ne (hself rfl), modify_field (·.state) rfl, hcharged]
  | tickStay =>
    dsimp only [Next.state]
    rw [boost_field (·.state) (fun _ _ _ ↦ rfl) fun _ _ ↦ rfl, hcharged]
  | tickGroup =>
    dsimp only [yield, Next.state]
    rw [modify_proc_of_ne (hself rfl), check_on_timer_field (·.state) fun _ _ _ _ ↦ rfl,
      modify_field (·.state) rfl, hstrode]
  | tickStride =>
    dsimp only [yield, Next.state]
    rw [modify_proc_of_ne (hself rfl), hstrode]
  | boost =>
    dsimp only [Next.state]
    rw [boost_field (·.state) (fun _ _ _ ↦ rfl) fun _ _ ↦ rfl]
  | yield =>
    dsimp only [yield, Next.state]
    rw [modify_proc_of_ne (hself rfl)]
  | sleep =>
    dsimp only [sleep, Next.state]
    rw [modify_proc_of_ne (hself rfl)]
  | wakeup => exact hwake _
  | kill h =>
    rcases kill_ok h with rfl | ⟨p, hp, _, hw⟩
    · rfl
    · obtain ⟨b, y, hv, hy⟩ := hw q
      dsimp only [Next.state]
      rw [hv]
      rcases hy with rfl | ⟨_, hd⟩ | ⟨hs, _⟩
      · rfl
      · exact absurd ⟨p, hp, hd⟩ hsafe
      · rcases hq with hq | hq <;> cases hq.symm.trans hs
  | @fork c p b hp =>
    dsimp only [Next.state]
    unfold fork
    rcases allocproc_cases s b with ha | ⟨y, hy, _, ha⟩ | ⟨y, hy, _, ha⟩
    · simp [ha]
    · simp [ha]
    · have hqy := hne y (by rw [state_of_findUnused hy]; decide)
        (by rw [state_of_findUnused hy]; decide)
      simp [ha, modify_proc_of_ne hqy]
  | @forkReady c p w hp hnp =>
    have hqw : q ≠ w := by
      rintro rfl
      exact hsafe ⟨p, cpu_of_current hp, hnp⟩
    dsimp only [Next.state, mlfq_enqueue]
    rw [enqueue_proc, modify_proc_of_ne hqw, modify_field (·.state) rfl]
  | @forkFail c p w hp hnp =>
    have hqw : q ≠ w := by
      rintro rfl
      exact hsafe ⟨p, cpu_of_current hp, hnp⟩
    dsimp only [Next.state]
    rw [modify_proc_of_ne hqw, modify_field (·.state) rfl]
  | @exit c p m hp hm =>
    have hqm : q ≠ m := fun he ↦ hsafe ⟨p, cpu_of_caller hp, m, hm, .inl he⟩
    dsimp only [Next.state]
    cases exited_exited (s := s) hqm with
    | stay hs => rw [hs]
    | wake hsl => rcases hq with hq | hq <;> cases hq.symm.trans hsl
    | free hi hw => exact absurd ⟨p, cpu_of_caller hp, m, hm, .inr ⟨hi, hw⟩⟩ hsafe
  | @reap c p y hp hy =>
    unfold zombieChild at hy
    have hz := List.find?_some hy
    simp only [Bool.decide_and, Bool.and_eq_true, decide_eq_true_eq] at hz
    dsimp only [Next.state]
    rw [modify_proc_of_ne (hne y (by rw [hz.2]; decide) (by rw [hz.2]; decide))]
  | childless => rfl
  | wait =>
    dsimp only [sleep, Next.state]
    rw [modify_proc_of_ne (hself rfl)]
  | refused => rfl
  | granted => simp [Next.state, granted, stride_enqueue]
  | @thread_create c p m t y hp hm h =>
    obtain ⟨hf, _, th, i, rfl⟩ := allocthread_ok h
    have hqy := hne y (by rw [state_of_findUnused hf]; decide)
      (by rw [state_of_findUnused hf]; decide)
    simp [Next.state, modify_proc_of_ne hqy]
  | @threadReady c p w m hp hnp hm =>
    have hqw : q ≠ w := by
      rintro rfl
      exact hsafe ⟨p, cpu_of_current hp, hnp⟩
    dsimp only [Next.state]
    rw [modify_proc_of_ne hqw, modify_field (·.state) rfl, modify_proc_of_ne hqw,
      modify_field (·.state) rfl]
  | thread_exit =>
    dsimp only [Next.state]
    rw [modify_field (·.state) rfl, modify_proc_of_ne (hself rfl), hwake]
  | join =>
    dsimp only [sleep, Next.state]
    rw [modify_proc_of_ne (hself rfl)]
  | @joined c p y _ _ _ _ _ hz =>
    dsimp only [Next.state]
    rw [modify_proc_of_ne (hne y (by rw [hz]; decide) (by rw [hz]; decide)),
      modify_field (·.state) rfl]

/-! ### Switches -/

/-- The CPUs, the history and the states after a switch of CPU `c` to `q`, or without one. -/
private inductive Switches (s : State n) (c : Fin n) (t : State n) : Prop
  | none (hcpu : ∀ c', c' ≠ c → t.cpu c' = s.cpu c') (hc : ∀ p, (t.cpu c).proc = some p →
        (s.cpu c).proc = some p) (htrace : t.trace = s.trace)
      (hstate : ∀ p, (t.proc p).state = (s.proc p).state)
  | goes (q : Slot) (hq : (s.proc q).state = .RUNNABLE) (hcpu : ∀ c', c' ≠ c → t.cpu c' = s.cpu c')
      (hc : (t.cpu c).proc = some q) (htrace : t.trace = ⟨c, q, .RUNNABLE⟩ :: s.trace)
      (hstate : ∀ p, (t.proc p).state = if p = q then .RUNNING else (s.proc p).state)

private theorem Switches.of_switchTo (hq : (s.proc q).state = .RUNNABLE) (hcpu : u.cpu = s.cpu)
    (htrace : u.trace = s.trace) (hstate : ∀ p, (u.proc p).state = (s.proc p).state)
    (hc : ∀ c', c' ≠ c → t.cpu c' = u.cpu c') (hto : (t.cpu c).proc = some q)
    (ht : t.trace = (switchTo u c q).trace) (hproc : t.proc = (switchTo u c q).proc) :
    Switches s c t := by
  refine .goes q hq (fun c' hne ↦ by rw [hc c' hne, hcpu]) hto ?_ fun p ↦ ?_
  · rw [ht, switchTo_trace, htrace, hstate, hq]
  · rw [hproc]
    by_cases hp : p = q
    · rw [if_pos hp, hp]
      simp
    · rw [if_neg hp, ← hstate p]
      simp [modify_proc_of_ne hp]

private theorem switches_scheduler (h : scheduler s c = .ok t)
    (hcount : ∀ m, FindsAsleep s (chosen s) m → (s.proc m).isthread = true →
      (s.proc m).t_cnt ≠ 0) : Switches s c t := by
  obtain ⟨_, _, hpick⟩ := picks h
  have hparked : ∀ {k p u}, park (dequeue s k).1 k p = .ok u →
      (enqueue u k p).1.cpu = s.cpu ∧ (enqueue u k p).1.trace = s.trace ∧
        ∀ q, ((enqueue u k p).1.proc q).state = (s.proc q).state := by
    intro k p u hu
    obtain ⟨_, _, _, rfl, _⟩ := park_ok hu
    exact ⟨by simp, by simp, fun q ↦ by simp⟩
  cases hpick with
  | empty => exact .none (fun _ _ ↦ rfl) (fun _ ↦ id) rfl fun _ ↦ rfl
  | drop =>
    exact .none (fun _ _ ↦ by simp) (fun p hp ↦ by simpa using hp) (by simp) fun _ ↦ by simp
  | parked _ _ _ _ hu =>
    obtain ⟨hcpu, htrace, hstate⟩ := hparked hu
    exact .none (fun _ _ ↦ by rw [hcpu]) (fun p hp ↦ by rwa [hcpu] at hp) htrace hstate
  | asleep _ _ _ _ hu =>
    obtain ⟨hcpu, htrace, hstate⟩ := hparked hu
    refine .none (fun _ _ ↦ by rw [get_next_thread_cpu, hcpu]) (fun p hp ↦ ?_) ?_ fun p ↦ ?_
    · rwa [get_next_thread_cpu, hcpu] at hp
    · rw [get_next_thread_trace, htrace]
    · rw [get_next_thread_field (·.state) fun _ _ ↦ rfl, hstate]
  | @worker p q u h0 hroot hm hs hu hi hn =>
    obtain ⟨hcpu, htrace, hstate⟩ := hparked hu
    have hcnt : ((enqueue u (chosen s) p).1.proc p).t_cnt ≠ 0 := by
      obtain ⟨_, _, _, rfl, _⟩ := park_ok hu
      simpa using hcount p ⟨h0, hroot, hm, hs⟩ hi
    have hq : (s.proc q).state = .RUNNABLE := by
      rcases get_next_thread_snd hn with ⟨h0, _⟩ | ⟨_, hr, _⟩
      · exact absurd h0 hcnt
      · rw [← hstate, hr]
    refine .of_switchTo (u := (get_next_thread (enqueue u (chosen s) p).1 p).1) hq ?_ ?_
      (fun x ↦ ?_) (fun c' hc ↦ ?_) ?_ rfl rfl
    · rw [get_next_thread_cpu, hcpu]
    · rw [get_next_thread_trace, htrace]
    · rw [get_next_thread_field (·.state) fun _ _ ↦ rfl, hstate]
    · rw [dispatch_cpu, update_of_ne hc]
    · rw [dispatch_cpu, update_self]
  | @run p h0 hroot hm hr =>
    refine .of_switchTo (u := (dequeue s (chosen s)).1) hr (by simp) (by simp) (fun x ↦ by simp)
      (fun c' hc ↦ ?_) ?_ rfl rfl
    · rw [dispatch_cpu, update_of_ne hc]
    · rw [dispatch_cpu, update_self]

private theorem switches_leaves {back : Bool} (h : Leaves u c x v back) (hfind : Finds u x) :
    Switches u c v ∧ ((v.cpu c).proc = some x → back = true ∧ n = 1 ∧ (u.proc x).state = .RUNNABLE) := by
  have hidle : ∀ {w : State n}, w.cpu = u.cpu → w.trace = u.trace →
      (∀ p, (w.proc p).state = (u.proc p).state) → Switches u c (swtchScheduler w c) ∧
        (((swtchScheduler w c).cpu c).proc = some x →
          false = true ∧ n = 1 ∧ (u.proc x).state = .RUNNABLE) := by
    intro w hcpu htrace hstate
    have hnone : ((swtchScheduler w c).cpu c).proc = none := by
      rw [swtchScheduler_cpu, update_self]
    refine ⟨.none (fun c' hc ↦ ?_) (fun p hp ↦ ?_) ?_ fun p ↦ ?_, fun hp ↦ ?_⟩
    · rw [swtchScheduler_cpu, update_of_ne hc, hcpu]
    · cases hnone.symm.trans hp
    · simpa using htrace
    · simpa using hstate p
    · cases hnone.symm.trans hp
  cases h with
  | exhausted => exact hidle rfl rfl fun p ↦ modify_field (·.state) rfl
  | plain => exact hidle rfl rfl fun _ ↦ rfl
  | idle => exact hidle (by simp) (by simp) fun p ↦ get_next_thread_field (·.state) fun _ _ ↦ rfl
  | back hm he hi hn =>
    obtain ⟨hr, h1⟩ := hfind.next hm he hi hn
    refine ⟨.none (fun _ _ ↦ by simp) (fun p hp ↦ by simpa using hp) (by simp) fun p ↦
      get_next_thread_field (·.state) fun _ _ ↦ rfl, fun _ ↦ ⟨rfl, h1 rfl, hr⟩⟩
  | next hm he hi hn hq =>
    obtain ⟨hr, _⟩ := hfind.next hm he hi hn
    refine ⟨.of_switchTo hr (get_next_thread_cpu ..) (get_next_thread_trace ..)
      (fun p ↦ get_next_thread_field (·.state) fun _ _ ↦ rfl) (fun c' hc ↦ ?_) ?_ rfl rfl,
      fun hp ↦ ?_⟩
    · rw [switchTo_cpu, update_of_ne hc]
    · rw [switchTo_cpu, update_self]
    · rw [switchTo_cpu, update_self] at hp
      exact absurd (Option.some.inj hp) hq

/-! ### Steps -/

private theorem enters_trace (h : Enters round s a r) (ha : ∀ c, a ≠ .scheduler c) :
    r.state.trace = s.trace := by
  rcases enters_quiet h with hq | ⟨c, _, rfl, _⟩ | ⟨_, _, _, _, _, _, rfl⟩ | ⟨_, p, x, rfl, _, _, rfl⟩
  · exact hq.trace
  · exact absurd rfl (ha c)
  · simp [Next.state, mlfq_enqueue]
  · simp [Next.state, granted, stride_enqueue]

namespace OnlyRunnable

/-- No call that fits ends a process that another CPU executes. -/
private theorem not_spoils (h : OnlyRunnable s) (ha : Fitting round s a)
    (hq : (s.cpu c).proc = some q) (hc : a ≠ .exit c) : ¬Spoils s q a := by
  have hsetup : ∀ {p : Slot}, (∀ w ∈ (s.proc p).np, (s.proc w).state = .EMBRYO) →
      (s.proc p).np ≠ some q := by
    intro p hw hnp
    rcases h.executing c q hq with hr | ⟨_, hr⟩ <;> cases hr.symm.trans (hw q hnp)
  have ha := ha.2
  rintro hspoil
  cases a with
  | kill pid =>
    obtain ⟨p, hp, hd⟩ := hspoil
    exact ha p hp c q hq hd
  | exit c₀ =>
    obtain ⟨x, hx, m, hm, hqm⟩ := hspoil
    have hne := ha x hx m hm c (fun he ↦ hc (he ▸ rfl)) q hq
    exact hqm.elim hne.1 hne.2
  | forkDone c₀ b =>
    obtain ⟨p, hp, hnp⟩ := hspoil
    exact hsetup (ha p hp) hnp
  | threadReady c₀ =>
    obtain ⟨p, hp, hnp⟩ := hspoil
    exact hsetup (ha p hp) hnp
  | _ => exact hspoil

/-- A switch to a `RUNNABLE` process, or none, on CPU `c`. -/
private theorem switch (hd : ∀ d ∈ u.trace, d.before = .RUNNABLE)
    (hother : ∀ c' p, c' ≠ c → (u.cpu c').proc = some p →
      (u.proc p).state = .RUNNING ∨ n = 1 ∧ (u.proc p).state = .RUNNABLE)
    (hapart : ∀ c c' p, (u.cpu c).proc = some p → (u.cpu c').proc = some p → c = c')
    (hsw : Switches u c v) (hself : ∀ p, (v.cpu c).proc = some p → (u.cpu c).proc = some p →
      (u.proc p).state = .RUNNING ∨ n = 1 ∧ (u.proc p).state = .RUNNABLE) : OnlyRunnable v := by
  cases hsw with
  | none hcpu hc htrace hstate =>
    have hback : ∀ c' p, (v.cpu c').proc = some p → (u.cpu c').proc = some p := by
      intro c' p hp
      by_cases hcc : c' = c
      · subst hcc
        exact hc p hp
      · rwa [hcpu c' hcc] at hp
    constructor
    · rwa [htrace]
    · intro c' p hp
      rw [hstate]
      by_cases hcc : c' = c
      · subst hcc
        exact hself p hp (hc p hp)
      · exact hother c' p hcc (hback c' p hp)
    · exact fun c₁ c₂ p h₁ h₂ ↦ hapart c₁ c₂ p (hback c₁ p h₁) (hback c₂ p h₂)
  | goes q hq hcpu hc htrace hstate =>
    have helse : ∀ c', c' ≠ c → (v.cpu c').proc ≠ some q := by
      intro c' hcc hp
      rw [hcpu c' hcc] at hp
      rcases hother c' q hcc hp with hr | ⟨rfl, _⟩
      · cases hq.symm.trans hr
      · exact hcc (Subsingleton.elim _ _)
    constructor
    · rw [htrace]
      intro d hdm
      rcases List.mem_cons.mp hdm with rfl | hdm
      · rfl
      · exact hd d hdm
    · intro c' p hp
      rw [hstate]
      by_cases hpq : p = q
      · rw [if_pos hpq]
        exact .inl rfl
      · have hcc : c' ≠ c := by
          rintro rfl
          exact hpq (Option.some.inj (hp.symm.trans hc))
        rw [if_neg hpq]
        rw [hcpu c' hcc] at hp
        exact hother c' p hcc hp
    · intro c₁ c₂ p h₁ h₂
      by_cases h₁c : c₁ = c
      · by_contra hne
        subst h₁c
        cases hc.symm.trans h₁
        exact helse c₂ (fun he ↦ hne he.symm) h₂
      · by_cases h₂c : c₂ = c
        · subst h₂c
          cases hc.symm.trans h₂
          exact absurd h₁ (helse c₁ h₁c)
        · rw [hcpu c₁ h₁c] at h₁
          rw [hcpu c₂ h₂c] at h₂
          exact hapart c₁ c₂ p h₁ h₂

/-- What sleeps before a call of `sched` and does not after it has been woken up. -/
private theorem wakes (h : OnlyRunnable s) (ha : Fitting round s a) (hs : ∀ c, a ≠ .scheduler c)
    (he : Enters round s a r) (hq : (s.proc q).state = .SLEEPING)
    (hr : (r.state.proc q).state = .RUNNABLE ∨ (r.state.proc q).state = .RUNNING) :
    Wakes s a q := by
  have hmoves := enters_state (q := q) he
  generalize (r.state.proc q).state = y at hr hmoves
  cases hmoves with
  | stay =>
    rw [hq] at hr
    rcases hr with hr | hr <;> cases hr
  | self hcur hy =>
    rcases h.executing _ q (cpu_of_current hcur) with hx | ⟨_, hx⟩ <;> cases hq.symm.trans hx
  | wake _ hw => exact hw
  | ready hp hnp hkind =>
    have hw : (s.proc q).state = .EMBRYO := by
      have ha := ha.2
      rcases hkind with rfl | rfl
      · exact ha _ (cpu_of_current hp) _ hnp
      · exact ha _ (cpu_of_current hp) _ hnp
    cases hq.symm.trans hw
  | run => exact absurd rfl (hs _)
  | _ => rcases hr with hr | hr <;> cases hr

/-- A step in which every call finds what it needs. -/
theorem step (h : OnlyRunnable s) (ha : Fitting round s a) (hs : step round s a = .ok t) :
    OnlyRunnable t ∧ WakesFirst s a t := by
  obtain ⟨r, hr, hs⟩ := bind_eq_ok.mp hs
  have he : Enters round s a r := enters hr
  cases r with
  | done t =>
    cases hs
    by_cases hsched : ∃ c, a = .scheduler c
    · obtain ⟨c, rfl⟩ := hsched
      cases he with
      | scheduler hrun =>
        have hsw : Switches s c t := switches_scheduler hrun ha.2
        have hidle : (s.cpu c).proc = none := (picks hrun).1
        refine ⟨switch h.dispatched (fun c' p _ ↦ h.executing c' p) h.apart hsw fun p _ hp ↦ ?_,
          fun q hq hrun ↦ ?_⟩
        · cases hidle.symm.trans hp
        · cases hsw with
          | none _ _ _ hstate =>
            rw [hstate, hq] at hrun
            rcases hrun with hrun | hrun <;> cases hrun
          | goes p hp _ _ _ hstate =>
            rw [hstate] at hrun
            split at hrun
            · next hqp =>
              subst hqp
              cases hq.symm.trans hp
            · rw [hq] at hrun
              rcases hrun with hrun | hrun <;> cases hrun
    · have hother : ∀ c, a ≠ .scheduler c := fun c hc ↦ hsched ⟨c, hc⟩
      have hcpu : t.cpu = s.cpu := enters_cpu he hother
      have htrace : t.trace = s.trace := enters_trace he hother
      refine ⟨⟨by rw [htrace]; exact h.dispatched, fun c p hp ↦ ?_, ?_⟩,
        fun q hq hrun ↦ h.wakes ha hother he hq hrun⟩
      · rw [hcpu] at hp
        have hexit : a ≠ .exit c := by
          rintro rfl
          cases he
        have hkeeps : (t.proc p).state = (s.proc p).state :=
          enters_keeps he hother ((h.executing c p hp).imp_right And.right) (fun _ _ ↦ nofun)
            (h.not_spoils ha hp hexit)
        rw [hkeeps]
        exact h.executing c p hp
      · rw [hcpu]
        exact h.apart
  | sched u c x =>
    have hother : ∀ c, a ≠ .scheduler c := by
      rintro c rfl
      cases he
    have hcpu : u.cpu = s.cpu := enters_cpu he hother
    have htrace : u.trace = s.trace := enters_trace he hother
    have hx := cpu_of_sched he
    have hfind : Finds u x := by
      have hfind := ha.1
      rwa [hr] at hfind
    obtain ⟨⟨v, back⟩, hv, hs⟩ := bind_eq_ok.mp hs
    obtain ⟨_, hl⟩ := leaves hv
    obtain ⟨hsw, hback⟩ := switches_leaves hl hfind
    have hgood : OnlyRunnable v := by
      refine switch (htrace ▸ h.dispatched) (fun c' p hcc hp ↦ ?_) (hcpu ▸ h.apart) hsw
        fun p hvp hp ↦ ?_
      · rw [hcpu] at hp
        have hpx : p ≠ x := by
          rintro rfl
          exact hcc (h.apart c' c p hp hx)
        have hexit : a ≠ .exit c' := by
          rintro rfl
          cases he
          exact hcc rfl
        have hkeeps : (u.proc p).state = (s.proc p).state :=
          enters_keeps he hother ((h.executing c' p hp).imp_right And.right)
            (fun _ _ hr ↦ hpx (by cases hr; rfl)) (h.not_spoils ha hp hexit)
        rw [hkeeps]
        exact h.executing c' p hp
      · cases hp.symm.trans (hcpu ▸ hx)
        exact .inr (hback hvp).2
    have hwakes : WakesFirst s a v := by
      intro q hq hrun
      apply h.wakes ha hother he hq
      cases hsw with
      | none _ _ _ hstate => rwa [hstate] at hrun
      | goes p hp _ _ _ hstate =>
        rw [hstate] at hrun
        split at hrun
        · next hqp => exact .inl (hqp ▸ hp)
        · exact hrun
    cases back with
    | false =>
      cases hs
      exact ⟨hgood, hwakes⟩
    | true =>
      have hquiet := quiet_leave hs
      refine ⟨⟨by rw [hquiet.trace]; exact hgood.dispatched, fun c p hp ↦ ?_, ?_⟩, fun q hq hrun ↦ ?_⟩
      · rw [hquiet.cpu] at hp
        rw [leave_state hs]
        exact hgood.executing c p hp
      · rw [hquiet.cpu]
        exact hgood.apart
      · rw [leave_state hs] at hrun
        exact hwakes q hq hrun

end OnlyRunnable

/-! ### Runs -/

private theorem OnlyRunnable.boot : OnlyRunnable (boot n) := by
  constructor
  · rw [boot_trace]
    exact fun d hd ↦ absurd hd List.not_mem_nil
  · rw [boot_cpu]
    intro c p hp
    cases hp
  · rw [boot_cpu]
    intro c c' p hp
    cases hp

/-- As long as every call finds what it needs, only `RUNNABLE` processes are dispatched, and no
process that sleeps goes on before it is woken up or killed. -/
theorem only_runnable {as : List (Action n)} (hc : Along (step round) (Fitting round) (boot n) as) :
    Each (step round) WakesFirst (boot n) as ∧
      ∀ t, exec (step round) (boot n) as = .ok t → OnlyRunnable t :=
  ⟨hc.each (fun _ _ _ hi ha hs ↦ OnlyRunnable.step hi ha hs) OnlyRunnable.boot,
    fun _ h ↦ hc.invariant (fun _ _ _ hi ha hs ↦ (OnlyRunnable.step hi ha hs).1)
      OnlyRunnable.boot h⟩

/-! ### The first process -/

instance (round : Int → Int) (s : State n) (a : Action n) : Decidable (Fitting round s a) :=
  match a with
  | .scheduler _ | .forkDone _ _ | .threadReady _ | .kill _ | .exit _ | .tick _ | .boost _
  | .yield _ | .sleep _ _ | .wakeup _ | .fork _ _ | .wait _ | .set_cpu_share _ _
  | .thread_create _ | .thread_exit _ | .thread_join _ _ => inferInstanceAs (Decidable (_ ∧ _))

/-- The first process creates a thread, which sleeps, is woken up and ends, and is joined; on another
CPU a child is killed. -/
private def wakesAndJoins : List (Action 2) :=
  [.scheduler 0, .fork 0 true, .forkDone 0 true, .scheduler 1, .thread_create 0, .threadReady 0,
    .yield 0, .sleep 0 (.object 5), .wakeup (.object 5), .yield 0, .thread_exit 0,
    .thread_join 0 1, .kill 2, .exit 1]

theorem only_runnable_wakesAndJoins :
    (exec (step float) (boot 2) wakesAndJoins).isOk = true ∧
      Each (step float) WakesFirst (boot 2) wakesAndJoins ∧
        OnlyRunnable (final (step float) (boot 2) wakesAndJoins) := by
  have hrun : (exec (step float) (boot 2) wakesAndJoins).isOk = true := by decide +kernel
  have hfit : Along (step float) (Fitting float) (boot 2) wakesAndJoins := by decide +kernel
  exact ⟨hrun, (only_runnable hfit).1, (only_runnable hfit).2 _ (exec_final hrun)⟩

/-- The first process sleeps while its thread ends. -/
def masterSleeps : List (Action 1) :=
  [.scheduler 0, .thread_create 0, .threadReady 0, .sleep 0 (.object 5), .thread_exit 0]

/-- The sleeping process is dispatched without being woken up. -/
theorem masterSleeps_dispatched :
    ((final (step float) (boot 1) masterSleeps).trace.map fun d ↦ (d.proc, d.before)) =
      [(0, .SLEEPING), (1, .RUNNABLE), (0, .RUNNABLE)] ∧
      ¬OnlyRunnable (final (step float) (boot 1) masterSleeps) := by
  have htrace : ((final (step float) (boot 1) masterSleeps).trace.map fun d ↦ (d.proc, d.before)) =
      [(0, .SLEEPING), (1, .RUNNABLE), (0, .RUNNABLE)] := by decide +kernel
  refine ⟨htrace, fun h ↦ ?_⟩
  obtain ⟨d, hd, hdb⟩ := List.mem_map.mp (htrace ▸ List.mem_cons_self ..)
  cases (h.dispatched d hd).symm.trans (congrArg Prod.snd hdb)

end

end Xv6.Sched
