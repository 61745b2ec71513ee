import Xv6.Sched.Steps

/-!
# What a step does to each field

For each field that the invariants speak about, the steps that write it and what they write.
-/

namespace Xv6.Sched

open Function Lib

section

variable {n : Nat} {round : Int → Int} {s t u : State n} {a : Action n} {r : Next n} {c : Fin n}
  {p q m : Slot}

/-! ### The calls -/

theorem caller_eq_ok : caller s c = .ok p ↔ current s c = .ok p ∧ (s.proc p).np = none := by
  unfold caller
  rw [bind_eq_ok]
  constructor
  · intro h
    obtain ⟨q, hq, h⟩ := h
    split at h
    · next hnp =>
      cases h
      exact ⟨hq, hnp⟩
    · cases h
  · intro h
    exact ⟨p, h.1, by rw [if_pos h.2]; rfl⟩

theorem current_eq_ok :
    current s c = .ok p ↔ (s.cpu c).proc = some p ∧ (s.proc p).trapped = false := by
  unfold current
  split
  · next h => simp [h]
  · next q h =>
    rw [h]
    split
    · next ht =>
      constructor
      · intro hp
        cases hp
      · intro hp
        obtain ⟨hp, hf⟩ := hp
        cases hp
        rw [ht] at hf
        cases hf
    · next ht =>
      rw [Bool.not_eq_true] at ht
      constructor
      · intro hp
        cases hp
        exact ⟨rfl, ht⟩
      · intro hp
        rw [Option.some.inj hp.1]

theorem cpu_of_current (h : current s c = .ok p) : (s.cpu c).proc = some p :=
  (current_eq_ok.mp h).1

theorem cpu_of_caller (h : caller s c = .ok p) : (s.cpu c).proc = some p :=
  cpu_of_current (caller_eq_ok.mp h).1

/-- A step ends in one of its branches, or goes on with a call of `sched`. -/
theorem step_cases (h : step round s a = .ok u) :
    Enters round s a (.done u) ∨ ∃ t c p v back, Enters round s a (.sched t c p) ∧
      (t.proc p).state ≠ .RUNNING ∧ Leaves t c p v back ∧
        (back = false ∧ u = v ∨ back = true ∧ leave v p a = .ok u) := by
  obtain ⟨r, hr, h⟩ := bind_eq_ok.mp h
  cases r with
  | done t =>
    cases h
    exact .inl (enters hr)
  | sched t c p =>
    right
    obtain ⟨⟨v, back⟩, hv, h⟩ := bind_eq_ok.mp h
    obtain ⟨hrun, hl⟩ := leaves hv
    refine ⟨t, c, p, v, back, enters hr, hrun, hl, ?_⟩
    cases back with
    | false =>
      cases h
      exact .inl ⟨rfl, rfl⟩
    | true => exact .inr ⟨rfl, h⟩

/-- The process that calls `sched` is the one that runs on the CPU. -/
theorem cpu_of_sched (h : Enters round s a (.sched t c p)) : (s.cpu c).proc = some p := by
  cases h with
  | tickYield hp => exact cpu_of_current hp
  | tickGroup hp => exact cpu_of_current hp
  | tickStride hp => exact cpu_of_current hp
  | yield hp => exact cpu_of_caller hp
  | sleep hp => exact cpu_of_caller hp
  | exit hp => exact cpu_of_caller hp
  | wait hp => exact cpu_of_caller hp
  | thread_exit hp => exact cpu_of_caller hp
  | join hp => exact cpu_of_caller hp

/-! ### The heaps and the CPUs -/

/-- The heaps, the CPUs and the trace are the same. -/
structure Quiet (s t : State n) : Prop where
  heap : ∀ k, (t.sched k).toHeap = (s.sched k).toHeap
  cpu : t.cpu = s.cpu
  trace : t.trace = s.trace

theorem Quiet.refl : Quiet s s := ⟨fun _ ↦ rfl, rfl, rfl⟩

theorem Quiet.trans (h : Quiet s t) (h' : Quiet t u) : Quiet s u :=
  ⟨fun k ↦ (h'.heap k).trans (h.heap k), h'.cpu.trans h.cpu, h'.trace.trans h.trace⟩

theorem quiet_modify {f : Proc → Proc} : Quiet s (s.modify p f) := ⟨fun _ ↦ rfl, rfl, rfl⟩

theorem quiet_yield : Quiet s (yield s c p).state := ⟨fun _ ↦ rfl, rfl, rfl⟩

theorem quiet_sleep {chan : Chan} : Quiet s (sleep s c p chan).state := ⟨fun _ ↦ rfl, rfl, rfl⟩

theorem quiet_exited : Quiet s (exited s m) := by
  unfold exited
  constructor
  · intro k
    dsimp only
    split <;> simp
  · dsimp only
    split <;> simp
  · dsimp only
    split <;> simp

theorem quiet_charged : Quiet s (charged round s m) := by
  constructor
  · intro k
    cases k <;> simp [charged, Scheduler.advance]
  · simp [charged]
  · simp [charged]

theorem quiet_strode : Quiet s (strode round s p) := by
  constructor
  · intro k
    cases k <;> simp [strode, Scheduler.advance]
  · rfl
  · rfl

theorem quiet_boost : Quiet s (boost s p) :=
  ⟨fun k ↦ by simp, by simp, by simp⟩

theorem quiet_check_on_timer : Quiet s (check_on_timer s m) :=
  ⟨fun k ↦ by simp, by simp, by simp⟩

theorem quiet_get_next_thread : Quiet s (get_next_thread s m).1 :=
  ⟨fun k ↦ by simp, by simp, by simp⟩

theorem quiet_fork {kalloc : Bool} : Quiet s (fork s p kalloc) := by
  unfold fork
  obtain h | ⟨q, _, _, h⟩ | ⟨q, _, _, h⟩ := allocproc_cases s kalloc
  all_goals
    rw [h]
    exact ⟨fun _ ↦ rfl, rfl, rfl⟩

theorem quiet_allocthread {new : Slot} (h : allocthread s m = .ok (t, new)) : Quiet s t := by
  obtain ⟨_, _, th, i, rfl⟩ := allocthread_ok h
  exact ⟨fun _ ↦ rfl, rfl, rfl⟩

theorem quiet_kill {pid : Nat} (h : kill s pid = .ok t) : Quiet s t := by
  obtain rfl | ⟨p, _, h, _⟩ := kill_ok h
  · exact .refl
  · rw [h]
    exact ⟨fun _ ↦ rfl, rfl, rfl⟩

/-- A grant ends with the call of `stride_enqueue`. -/
theorem granted_eq (round : Int → Int) (s : State n) (p : Slot) (x : Int) :
    ∃ t, Quiet s t ∧ granted round s p x = (enqueue t .stride p).1 := by
  refine ⟨_, ?_, rfl⟩
  constructor
  · intro k
    cases k <;> simp
  · rfl
  · rfl

/-- The steps that touch a heap before they call `sched`. -/
theorem enters_quiet (h : Enters round s a r) : Quiet s r.state ∨
    (∃ c t, a = .scheduler c ∧ r = .done t ∧ scheduler s c = .ok t) ∨
    (∃ c p np, a = .forkDone c true ∧ current s c = .ok p ∧ (s.proc p).np = some np ∧
      r = .done (mlfq_enqueue ((s.modify p fun v ↦ { v with np := none }).modify np fun v ↦
          { v with parent := some p, state := .RUNNABLE }) np).1) ∨
    (∃ c p share, a = .set_cpu_share c share ∧ caller s c = .ok p ∧ Grants s share ∧
      r = .done (granted round s p (ticketsOf share))) := by
  cases h with
  | scheduler h => exact .inr (.inl ⟨_, _, rfl, rfl, h⟩)
  | forkReady hp hnp => exact .inr (.inr (.inl ⟨_, _, _, rfl, hp, hnp, rfl⟩))
  | granted hp hmax => exact .inr (.inr (.inr ⟨_, _, _, rfl, hp, hmax, rfl⟩))
  | tickYield => exact .inl ((quiet_charged.trans quiet_modify).trans quiet_yield)
  | tickStay => exact .inl (quiet_charged.trans quiet_boost)
  | tickGroup =>
    exact .inl (((quiet_strode.trans quiet_modify).trans quiet_check_on_timer).trans quiet_yield)
  | tickStride => exact .inl (quiet_strode.trans quiet_yield)
  | boost => exact .inl quiet_boost
  | kill h => exact .inl (quiet_kill h)
  | fork => exact .inl quiet_fork
  | exit => exact .inl quiet_exited
  | sleep => exact .inl quiet_sleep
  | wait => exact .inl quiet_sleep
  | join => exact .inl quiet_sleep
  | thread_create _ _ h =>
    have hq := quiet_allocthread h
    exact .inl ⟨hq.heap, hq.cpu, hq.trace⟩
  | _ => exact .inl ⟨fun _ ↦ rfl, rfl, rfl⟩

/-- A field that `exit` does not write. -/
theorem exited_field {β : Type*} (g : Proc → β)
    (hs : ∀ v x l, g { v with state := x, qlev := l } = g v)
    (hk : ∀ v x b, g { v with state := x, killed := b } = g v)
    (ht : ∀ v x i, g { v with threads := x, t_cnt := i } = g v)
    (hp : ∀ v x, g { v with parent := x } = g v) :
    g ((exited s m).proc q) = g (s.proc q) := by
  have hend : ∀ v : Proc, g { v with state := .ZOMBIE } = g v := fun v ↦ hs v .ZOMBIE v.qlev
  have hfree : g ((if (s.proc m).isthread = true then freeThreads s m else s).proc q) =
      g (s.proc q) := by
    split
    · exact freeThreads_field g hk ht
    · rfl
  unfold exited
  dsimp only
  rw [modify_field g (hend _), abandonChildren_field g hs hp, wakeup1_field g hs]
  exact hfree

/-! ### Class and group -/

/-- A field that is a function of `tickets` and `master`. -/
def Stable {β : Type*} (g : Proc → β) : Prop :=
  ∀ v v' : Proc, v'.tickets = v.tickets → v'.master = v.master → g v' = g v

theorem stable_tickets : Stable Proc.tickets := fun _ _ h _ ↦ h

theorem stable_master : Stable Proc.master := fun _ _ _ h ↦ h

section

variable {β : Type*} {g : Proc → β} (hg : Stable g)
include hg

theorem Stable.modify {f : Proc → Proc} (ht : ∀ v, (f v).tickets = v.tickets)
    (hm : ∀ v, (f v).master = v.master) : g ((s.modify p f).proc q) = g (s.proc q) :=
  modify_field g (hg _ _ (ht _) (hm _))

theorem Stable.wakeup1 {chan : Option Chan} : g ((wakeup1 s chan).proc q) = g (s.proc q) :=
  wakeup1_field g fun v _ _ ↦ hg v _ rfl rfl

theorem Stable.check_on_timer : g ((check_on_timer s m).proc q) = g (s.proc q) :=
  check_on_timer_field g fun v _ _ _ ↦ hg v _ rfl rfl

theorem Stable.boost : g ((boost s p).proc q) = g (s.proc q) :=
  boost_field g (fun v _ _ ↦ hg v _ rfl rfl) fun v _ ↦ hg v _ rfl rfl

theorem Stable.exited : g ((exited s m).proc q) = g (s.proc q) :=
  exited_field g (fun v _ _ ↦ hg v _ rfl rfl) (fun v _ _ ↦ hg v _ rfl rfl)
    (fun v _ _ ↦ hg v _ rfl rfl) fun v _ ↦ hg v _ rfl rfl

theorem Stable.charged : g ((charged round s m).proc q) = g (s.proc q) := by
  unfold Sched.charged
  dsimp only
  rw [hg.check_on_timer]
  simp [hg.modify]

theorem Stable.strode : g ((strode round s p).proc q) = g (s.proc q) := by
  simp [Sched.strode, hg.modify]

theorem Stable.kill {pid : Nat} (h : kill s pid = .ok t) : g (t.proc q) = g (s.proc q) := by
  obtain rfl | ⟨p, _, _, hw⟩ := kill_ok h
  · rfl
  · obtain ⟨b, x, hv, _⟩ := hw q
    rw [hv]
    exact hg (s.proc q) _ rfl rfl

theorem Stable.scheduler (h : scheduler s c = .ok t) : g (t.proc q) = g (s.proc q) := by
  have hnext : ∀ {s : State n} {m}, g ((get_next_thread s m).1.proc q) = g (s.proc q) :=
    get_next_thread_field g fun v _ ↦ hg v _ rfl rfl
  obtain ⟨_, _, h⟩ := picks h
  cases h with
  | empty => rfl
  | drop => rw [dequeue_proc]
  | parked _ _ _ _ hu =>
    obtain ⟨_, _, _, rfl, _⟩ := park_ok hu
    simp [hg.modify]
  | asleep _ _ _ _ hu =>
    obtain ⟨_, _, _, rfl, _⟩ := park_ok hu
    simp [hnext, hg.modify]
  | worker _ _ _ _ hu =>
    obtain ⟨_, _, _, rfl, _⟩ := park_ok hu
    simp [hnext, hg.modify]
  | run => simp [hg.modify]

theorem Stable.leaves {back : Bool} (h : Leaves s c p t back) : g (t.proc q) = g (s.proc q) := by
  have hnext : ∀ {s : State n} {m}, g ((get_next_thread s m).1.proc q) = g (s.proc q) :=
    get_next_thread_field g fun v _ ↦ hg v _ rfl rfl
  cases h <;> simp [hnext, hg.modify]

theorem Stable.leave (h : leave s p a = .ok t) : g (t.proc q) = g (s.proc q) := by
  unfold Sched.leave at h
  split at h
  · cases h
  · cases h
  · split at h
    · cases h
      exact hg.boost
    · cases h
      rfl
  all_goals
    cases h
    simp [hg.modify]

/-- The steps that write `tickets` or `master`. -/
theorem Stable.enters (h : Enters round s a r) : g (r.state.proc q) = g (s.proc q) ∨
    (∃ c b, a = .fork c b) ∨ (∃ c, a = .thread_create c) ∨ (∃ c, a = .threadReady c) ∨
      ∃ c x, a = .set_cpu_share c x := by
  cases h with
  | scheduler h => exact .inl (hg.scheduler h)
  | fork => exact .inr (.inl ⟨_, _, rfl⟩)
  | thread_create => exact .inr (.inr (.inl ⟨_, rfl⟩))
  | threadReady => exact .inr (.inr (.inr (.inl ⟨_, rfl⟩)))
  | refused => exact .inr (.inr (.inr (.inr ⟨_, _, rfl⟩)))
  | granted => exact .inr (.inr (.inr (.inr ⟨_, _, rfl⟩)))
  | kill h => exact .inl (hg.kill h)
  | _ =>
    left
    simp [Next.state, yield, sleep, mlfq_enqueue, hg.modify, hg.wakeup1, hg.check_on_timer,
      hg.boost, hg.exited, hg.charged, hg.strode]

end

/-- The step makes a new process or thread of entry `q`. -/
def Allocates (s : State n) (q : Slot) : Action n → Prop
  | .fork _ true | .thread_create _ => findUnused s = some q
  | _ => False

instance (s : State n) (q : Slot) (a : Action n) : Decidable (Allocates s q a) :=
  match a with
  | .fork _ true | .thread_create _ => inferInstanceAs (Decidable (_ = _))
  | .fork _ false | .scheduler _ | .tick _ | .boost _ | .yield _ | .sleep _ _ | .wakeup _ | .kill _
  | .forkDone _ _ | .exit _ | .wait _ | .set_cpu_share _ _ | .threadReady _ | .thread_exit _
  | .thread_join _ _ => inferInstanceAs (Decidable False)

theorem Allocates.findUnused (h : Allocates s q a) : findUnused s = some q := by
  unfold Allocates at h
  split at h
  · exact h
  · exact h
  · exact h.elim

theorem fork_tickets {b : Bool} (h : ((fork s p b).proc q).tickets ≠ (s.proc q).tickets) :
    Allocates s q (.fork c b) ∧ ((fork s p b).proc q).tickets = 0 := by
  unfold fork at h ⊢
  obtain ha | ⟨x, hx, _, ha⟩ | ⟨x, hx, rfl, ha⟩ := allocproc_cases s b
  · simp [ha] at h
  · simp [ha] at h
  · by_cases hq : q = x
    · subst hq
      simp [ha, hx, Proc.fresh, Allocates]
    · simp [ha, modify_proc_of_ne hq] at h

theorem fork_master {b : Bool} (h : ((fork s p b).proc q).master ≠ (s.proc q).master) :
    Allocates s q (.fork c b) ∧ ((fork s p b).proc q).master = some q := by
  unfold fork at h ⊢
  obtain ha | ⟨x, hx, _, ha⟩ | ⟨x, hx, rfl, ha⟩ := allocproc_cases s b
  · simp [ha] at h
  · simp [ha] at h
  · by_cases hq : q = x
    · subst hq
      simp [ha, hx, Proc.fresh, Allocates]
    · simp [ha, modify_proc_of_ne hq] at h

/-- `tickets` is set when an entry is allocated and when a share is granted. -/
theorem enters_tickets (h : Enters round s a r) : (r.state.proc q).tickets = (s.proc q).tickets ∨
    (Allocates s q a ∧ (r.state.proc q).tickets = 0) ∨
    ∃ c x, a = .set_cpu_share c x ∧ caller s c = .ok q ∧ ticketsOf x ≠ 0 ∧
      (r.state.proc q).tickets = ticketsOf x := by
  rcases stable_tickets.enters (q := q) h with hq | ⟨c, b, rfl⟩ | ⟨c, rfl⟩ | ⟨c, rfl⟩ | ⟨c, x, rfl⟩
  · exact .inl hq
  · cases h with
    | fork => exact or_iff_not_imp_left.mpr fun hne ↦ .inl (fork_tickets hne)
  · cases h with
    | @thread_create _ _ _ _ new _ _ h =>
      obtain ⟨hf, _, th, i, rfl⟩ := allocthread_ok h
      by_cases hq : q = new
      · subst hq
        simp [Next.state, hf, Allocates]
      · left
        simp [Next.state, modify_proc_of_ne hq]
  · cases h
    simp [Next.state]
  · cases h with
    | refused => exact .inl rfl
    | @granted _ p _ hp _ _ _ h0 =>
      by_cases hq : q = p
      · subst hq
        right
        right
        refine ⟨c, x, rfl, hp, h0, ?_⟩
        simp [Next.state, granted, stride_enqueue]
      · left
        simp [Next.state, granted, stride_enqueue, modify_proc_of_ne hq]

/-- `master` is set when an entry is allocated by `fork` and when a thread is made ready. -/
theorem enters_master (h : Enters round s a r) : (r.state.proc q).master = (s.proc q).master ∨
    (Allocates s q a ∧ (r.state.proc q).master = some q) ∨
    ∃ c p, a = .threadReady c ∧ current s c = .ok p ∧ (s.proc p).np = some q ∧
      (r.state.proc q).master = (s.proc p).master := by
  rcases stable_master.enters (q := q) h with hq | ⟨c, b, rfl⟩ | ⟨c, rfl⟩ | ⟨c, rfl⟩ | ⟨c, x, rfl⟩
  · exact .inl hq
  · cases h with
    | fork => exact or_iff_not_imp_left.mpr fun hne ↦ .inl (fork_master hne)
  · cases h with
    | thread_create _ _ h =>
      obtain ⟨hf, _, th, i, rfl⟩ := allocthread_ok h
      left
      simp [Next.state]
  · cases h with
    | @threadReady _ p new m hp hnp hm =>
      by_cases hq : q = new
      · subst hq
        right
        right
        exact ⟨c, p, rfl, hp, hnp, by simp [Next.state, hm]⟩
      · left
        simp [Next.state, modify_proc_of_ne hq]
  · cases h with
    | refused => exact .inl rfl
    | granted =>
      left
      simp [Next.state, granted, stride_enqueue]

/-! ### States -/

/-- The sleeping process `q` waits for the parent of `m`, or for the first process, which gets a
child of `m` that has ended. -/
def ExitWakes (s : State n) (m q : Slot) : Prop :=
  (s.proc q).chan = (s.proc m).parent.map .proc ∨ (s.proc q).chan = s.initproc.map .proc ∧
    ∃ x, (s.proc x).parent = some m ∧ (s.proc x).state = .ZOMBIE

instance (s : State n) (m q : Slot) : Decidable (ExitWakes s m q) :=
  inferInstanceAs (Decidable (_ ∨ _))

/-- The calls that make the sleeping process `q` `RUNNABLE`. -/
inductive Wakes (s : State n) : Action n → Slot → Prop
  | wakeup {chan : Chan} {q : Slot} (hc : (s.proc q).chan = some chan) : Wakes s (.wakeup chan) q
  | exit {c : Fin n} {p m q : Slot} (hp : caller s c = .ok p) (hm : exiting s p = some m)
      (hc : ExitWakes s m q) : Wakes s (.exit c) q
  | thread_exit {c : Fin n} {p m q : Slot} (hp : caller s c = .ok p)
      (hm : (s.proc p).master = some m) (hc : (s.proc q).chan = some (.proc m)) :
      Wakes s (.thread_exit c) q
  | kill {pid : Nat} {q : Slot} (h : findPid s pid = some q) : Wakes s (.kill pid) q

/-- The state that a step up to its call of `sched` may give to the process `q`. -/
inductive Moves (s : State n) : Action n → Slot → ProcState → Prop
  | stay {a : Action n} {q : Slot} : Moves s a q (s.proc q).state
  | self {a : Action n} {c : Fin n} {q : Slot} {x : ProcState} (hq : current s c = .ok q) (hx : x = .RUNNABLE ∨ x = .SLEEPING) : Moves s a q x
  | wake {a : Action n} {q : Slot} (hs : (s.proc q).state = .SLEEPING) (ha : Wakes s a q) : Moves s a q .RUNNABLE
  | alloc {a : Action n} {q : Slot} (hf : findUnused s = some q) : Moves s a q .EMBRYO
  | ready {a : Action n} {c : Fin n} {p q : Slot} (hp : current s c = .ok p) (hnp : (s.proc p).np = some q)
      (ha : a = .forkDone c true ∨ a = .threadReady c) : Moves s a q .RUNNABLE
  | fail {c : Fin n} {p q : Slot} (hp : current s c = .ok p) (hnp : (s.proc p).np = some q) :
      Moves s (.forkDone c false) q .UNUSED
  | reap {a : Action n} {q : Slot} (hz : (s.proc q).state = .ZOMBIE) : Moves s a q .UNUSED
  | kill {pid : Nat} {p q : Slot} (hp : findPid s pid = some p) (hq : Doomed s p q) : Moves s (.kill pid) q .ZOMBIE
  | free {c : Fin n} {p m q : Slot} (hp : caller s c = .ok p) (hm : exiting s p = some m)
      (hi : (s.proc m).isthread = true) (hq : IsWorker s m q) : Moves s (.exit c) q .UNUSED
  | zombie {c : Fin n} {p m : Slot} (hp : caller s c = .ok p) (hm : exiting s p = some m) :
      Moves s (.exit c) m .ZOMBIE
  | thread_exit {c : Fin n} {p : Slot} (hp : caller s c = .ok p) : Moves s (.thread_exit c) p .ZOMBIE
  | run {c : Fin n} {p : Slot} {t : State n} (h : scheduler s c = .ok t) (hp : (t.cpu c).proc = some p) :
      Moves s (.scheduler c) p .RUNNING

/-- `wakeup1` wakes a process up, or leaves it alone. -/
theorem wakeup1_wakes (s : State n) (chan : Option Chan) (q : Slot) :
    (wakeup1 s chan).proc q = s.proc q ∨ (s.proc q).state = .SLEEPING ∧ (s.proc q).chan = chan ∧
      (wakeup1 s chan).proc q = { s.proc q with state := .RUNNABLE, qlev := 0 } := by
  unfold wakeup1
  dsimp only
  split
  · next h => exact .inr ⟨h.1, h.2, rfl⟩
  · exact .inl rfl

/-- What `exit` does to a process other than the one it ends: it is a worker and freed, it is
woken up, or neither. -/
inductive Exited (s : State n) (m q : Slot) (v : Proc) : Prop
  | stay (hs : v.state = (s.proc q).state) (hl : v.qlev = (s.proc q).qlev)
  | wake (hq : (s.proc q).state = .SLEEPING) (hc : ExitWakes s m q) (hs : v.state = .RUNNABLE)
      (hl : v.qlev = 0)
  | free (hi : (s.proc m).isthread = true) (hw : IsWorker s m q) (hs : v.state = .UNUSED)
      (hl : v.qlev = (s.proc q).qlev)

private theorem freeThreads_worker (hq : q ≠ m) :
    (freeThreads s m).proc q =
      if IsWorker s m q then { s.proc q with state := .UNUSED, killed := false } else s.proc q := by
  unfold freeThreads
  dsimp only
  rw [modify_proc_of_ne hq]

/-- The states and levels after `abandonChildren`. -/
private theorem abandonChildren_wakes :
    (((abandonChildren s m).proc q).state = (s.proc q).state ∧
      ((abandonChildren s m).proc q).qlev = (s.proc q).qlev) ∨
    ((s.proc q).state = .SLEEPING ∧ (s.proc q).chan = s.initproc.map .proc ∧
      (∃ x, (s.proc x).parent = some m ∧ (s.proc x).state = .ZOMBIE) ∧
      ((abandonChildren s m).proc q).state = .RUNNABLE ∧
      ((abandonChildren s m).proc q).qlev = 0) := by
  have hp : ∀ v : Proc, (if v.parent = some m then { v with parent := s.initproc } else v).state =
      v.state ∧ (if v.parent = some m then { v with parent := s.initproc } else v).qlev = v.qlev ∧
      (if v.parent = some m then { v with parent := s.initproc } else v).chan = v.chan := by
    intro v
    split <;> exact ⟨rfl, rfl, rfl⟩
  unfold abandonChildren
  dsimp only
  split
  · next hz =>
    rcases wakeup1_wakes { s with
      proc := fun q ↦ if (s.proc q).parent = some m then
        { s.proc q with parent := s.initproc } else s.proc q } (s.initproc.map .proc) q
      with h | ⟨hs, hc, h⟩
    · rw [h]
      exact .inl ⟨(hp _).1, (hp _).2.1⟩
    · rw [h]
      dsimp only at hs hc
      rw [(hp _).1] at hs
      rw [(hp _).2.2] at hc
      exact .inr ⟨hs, hc, hz, rfl, rfl⟩
  · exact .inl ⟨(hp _).1, (hp _).2.1⟩

/-- The two calls of `wakeup1` in `exit`, after the threads are freed. -/
private theorem wakes_of_free (hpar : ∀ x, (u.proc x).parent = (s.proc x).parent)
    (hz : ∀ x, (u.proc x).state = .ZOMBIE → (s.proc x).state = .ZOMBIE)
    (hinit : u.initproc = s.initproc) (hchan : (u.proc q).chan = (s.proc q).chan) {w : State n}
    (hw : abandonChildren (wakeup1 u ((u.proc m).parent.map .proc)) m = w) :
    ((w.proc q).state = (u.proc q).state ∧ (w.proc q).qlev = (u.proc q).qlev) ∨
      ((u.proc q).state = .SLEEPING ∧ ExitWakes s m q ∧ (w.proc q).state = .RUNNABLE ∧
        (w.proc q).qlev = 0) := by
  have hv := wakeup1_wakes u ((u.proc m).parent.map .proc) q
  have habandon := abandonChildren_wakes (m := m) (q := q)
    (s := wakeup1 u ((u.proc m).parent.map .proc))
  rw [hw] at habandon
  rcases habandon with ⟨hst, hlev⟩ | ⟨hs, hc, ⟨x, hx, hxz⟩, hst, hlev⟩
  · rcases hv with hv | ⟨hs, hc, hv⟩
    · rw [hv] at hst hlev
      exact .inl ⟨hst, hlev⟩
    · rw [hv] at hst hlev
      rw [hchan, hpar] at hc
      exact .inr ⟨hs, .inl hc, hst, hlev⟩
  · rcases hv with hv | ⟨_, _, hv⟩
    · rw [hv] at hs hc
      rw [wakeup1_initproc, hinit, hchan] at hc
      rw [wakeup1_field (·.parent) fun _ _ _ ↦ rfl, hpar] at hx
      refine .inr ⟨hs, .inr ⟨hc, x, hx, hz x ?_⟩, hst, hlev⟩
      rcases wakeup1_wakes u ((u.proc m).parent.map .proc) x with h | ⟨_, _, h⟩
      · rwa [h] at hxz
      · rw [h] at hxz
        cases hxz
    · rw [hv] at hs
      cases hs

private theorem freeThreads_state : ((freeThreads s m).proc q).state =
    if IsWorker s m q then .UNUSED else (s.proc q).state := by
  unfold freeThreads
  simp only [modify_state, implies_true]
  split <;> rfl

/-- What the loop over the threads leaves for the rest of `exit`. -/
private theorem wakes_of_exit {u w : State n}
    (hu : (if (s.proc m).isthread = true then freeThreads s m else s) = u)
    (hw : abandonChildren (wakeup1 u ((u.proc m).parent.map .proc)) m = w) :
    ((w.proc q).state = (u.proc q).state ∧ (w.proc q).qlev = (u.proc q).qlev) ∨
      ((u.proc q).state = .SLEEPING ∧ ExitWakes s m q ∧ (w.proc q).state = .RUNNABLE ∧
        (w.proc q).qlev = 0) := by
  split at hu
  · subst hu
    apply wakes_of_free _ _ freeThreads_initproc _ hw
    · exact fun x ↦ freeThreads_field (·.parent) (fun _ _ _ ↦ rfl) fun _ _ _ ↦ rfl
    · intro x hx
      rw [freeThreads_state] at hx
      split at hx
      · cases hx
      · exact hx
    · exact freeThreads_field (·.chan) (fun _ _ _ ↦ rfl) fun _ _ _ ↦ rfl
  · subst hu
    exact wakes_of_free (fun _ ↦ rfl) (fun _ h ↦ h) rfl rfl hw

theorem exited_exited (hq : q ≠ m) : Exited s m q ((exited s m).proc q) := by
  unfold exited
  dsimp only
  rw [modify_proc_of_ne hq]
  generalize hu : (if (s.proc m).isthread = true then freeThreads s m else s) = u
  generalize hw : abandonChildren (wakeup1 u ((u.proc m).parent.map .proc)) m = w
  have hwakes := wakes_of_exit (q := q) hu hw
  by_cases hfree : (s.proc m).isthread = true ∧ IsWorker s m q
  · have huq : u.proc q = { s.proc q with state := .UNUSED, killed := false } := by
      rw [← hu, if_pos hfree.1, freeThreads_worker hq, if_pos hfree.2]
    rw [huq] at hwakes
    rcases hwakes with ⟨hst, hlev⟩ | ⟨hs, _⟩
    · exact .free hfree.1 hfree.2 hst hlev
    · cases hs
  · have huq : u.proc q = s.proc q := by
      rw [← hu]
      split
      · next hi => rw [freeThreads_worker hq, if_neg fun h ↦ hfree ⟨hi, h⟩]
      · rfl
    rw [huq] at hwakes
    rcases hwakes with ⟨hst, hlev⟩ | ⟨hs, hc, hst, hlev⟩
    · exact .stay hst hlev
    · exact .wake hs hc hst hlev

/-- `exit` raises the level of the processes it wakes up only. -/
theorem exited_qlev : ((exited s m).proc q).qlev = (s.proc q).qlev ∨
    (s.proc q).state = .SLEEPING ∧ ExitWakes s m q ∧ ((exited s m).proc q).qlev = 0 := by
  unfold exited
  simp only [modify_qlev, implies_true]
  generalize hu : (if (s.proc m).isthread = true then freeThreads s m else s) = u
  generalize hw : abandonChildren (wakeup1 u ((u.proc m).parent.map .proc)) m = w
  have hlev : (u.proc q).qlev = (s.proc q).qlev := by
    rw [← hu]
    split
    · exact freeThreads_field (·.qlev) (fun _ _ _ ↦ rfl) fun _ _ _ ↦ rfl
    · rfl
  have hst : (u.proc q).state = .SLEEPING → (s.proc q).state = .SLEEPING := by
    intro h
    rw [← hu] at h
    split at h
    · rw [freeThreads_state] at h
      split at h
      · cases h
      · exact h
    · exact h
  rcases wakes_of_exit (q := q) hu hw with ⟨_, h⟩ | ⟨hs, hc, _, h⟩
  · exact .inl (h.trans hlev)
  · exact .inr ⟨hst hs, hc, h⟩

theorem exited_state_self : ((exited s m).proc m).state = .ZOMBIE := by
  simp [exited]

private theorem moves_scheduler (h : scheduler s c = .ok t) :
    Moves s (.scheduler c) q (t.proc q).state := by
  obtain ⟨_, _, hpick⟩ := picks h
  have hrun : ∀ {u : State n} {k p}, t = dispatch u c k p →
      (∀ q, (u.proc q).state = (s.proc q).state) → Moves s (.scheduler c) q (t.proc q).state := by
    intro u k p ht hu
    by_cases hq : q = p
    · subst hq
      have hst : (t.proc q).state = .RUNNING := by simp [ht]
      have hcpu : (t.cpu c).proc = some q := by simp [ht, dispatch_cpu]
      rw [hst]
      exact .run h hcpu
    · have hst : (t.proc q).state = (s.proc q).state := by
        rw [ht, dispatch_proc, modify_proc_of_ne hq]
        exact hu q
      rw [hst]
      exact .stay
  cases hpick with
  | empty => exact .stay
  | drop =>
    rw [dequeue_proc]
    exact .stay
  | parked _ _ _ _ hu =>
    obtain ⟨_, _, _, rfl, _⟩ := park_ok hu
    simpa using Moves.stay
  | asleep _ _ _ _ hu =>
    obtain ⟨_, _, _, rfl, _⟩ := park_ok hu
    simpa using Moves.stay
  | worker _ _ _ _ hu =>
    obtain ⟨_, _, _, rfl, _⟩ := park_ok hu
    apply hrun rfl
    intro q
    simp
  | run =>
    apply hrun rfl
    intro q
    rw [dequeue_proc]

private theorem moves_kill {pid : Nat} (h : kill s pid = .ok t) :
    Moves s (.kill pid) q (t.proc q).state := by
  obtain rfl | ⟨p, hp, _, hw⟩ := kill_ok h
  · exact .stay
  · obtain ⟨b, x, hv, hx⟩ := hw q
    rw [hv]
    rcases hx with rfl | ⟨rfl, hd⟩ | ⟨hs, rfl, rfl⟩
    · exact .stay
    · exact .kill hp hd
    · exact .wake hs (.kill hp)

private theorem moves_fork {b : Bool} : Moves s (.fork c b) q ((fork s p b).proc q).state := by
  unfold fork
  obtain ha | ⟨x, hx, _, ha⟩ | ⟨x, hx, _, ha⟩ := allocproc_cases s b
  · simpa [ha] using Moves.stay
  · simpa [ha] using Moves.stay
  · by_cases hq : q = x
    · subst hq
      simpa [ha, Proc.fresh] using Moves.alloc hx
    · simpa [ha, modify_proc_of_ne hq] using Moves.stay

private theorem moves_of_modify {f : Proc → Proc} (ht : ∀ q, (t.proc q).state = (s.proc q).state)
    (hf : Moves s a p (f (t.proc p)).state) : Moves s a q ((t.modify p f).proc q).state := by
  by_cases hq : q = p
  · subst hq
    rw [modify_proc_self]
    exact hf
  · rw [modify_proc_of_ne hq, ht]
    exact .stay

private theorem moves_yield (hp : current s c = .ok p)
    (ht : ∀ q, (t.proc q).state = (s.proc q).state) :
    Moves s a q ((yield t c p).state.proc q).state := by
  dsimp only [yield, Next.state]
  exact moves_of_modify ht (.self hp (.inl rfl))

private theorem moves_sleep {chan : Chan} (hp : caller s c = .ok p) :
    Moves s a q ((sleep s c p chan).state.proc q).state := by
  dsimp only [sleep, Next.state]
  exact moves_of_modify (fun _ ↦ rfl) (.self (caller_eq_ok.mp hp).1 (.inr rfl))

theorem enters_state (h : Enters round s a r) : Moves s a q (r.state.proc q).state := by
  have hcharged : ∀ {m} q, ((charged round s m).proc q).state = (s.proc q).state := by
    intro m q
    unfold charged
    rw [check_on_timer_field (·.state) fun _ _ _ _ ↦ rfl]
    simp
  have hstrode : ∀ {p} q, ((strode round s p).proc q).state = (s.proc q).state := by
    intro p q
    simp [strode]
  cases h with
  | scheduler h => exact moves_scheduler h
  | tickIdle => exact .stay
  | tickYield hp =>
    apply moves_yield hp
    intro q
    rw [modify_field (·.state) rfl]
    exact hcharged q
  | tickStay =>
    dsimp only [Next.state]
    rw [boost_field (·.state) (fun _ _ _ ↦ rfl) fun _ _ ↦ rfl, hcharged]
    exact .stay
  | tickGroup hp =>
    apply moves_yield hp
    intro q
    rw [check_on_timer_field (·.state) fun _ _ _ _ ↦ rfl, modify_field (·.state) rfl]
    exact hstrode q
  | tickStride hp => exact moves_yield hp hstrode
  | boost =>
    dsimp only [Next.state]
    rw [boost_field (·.state) (fun _ _ _ ↦ rfl) fun _ _ ↦ rfl]
    exact .stay
  | yield hp => exact moves_yield (caller_eq_ok.mp hp).1 fun _ ↦ rfl
  | sleep hp => exact moves_sleep hp
  | wait hp => exact moves_sleep hp
  | join hp => exact moves_sleep hp
  | @wakeup chan =>
    dsimp only [Next.state]
    rcases wakeup1_wakes s (some chan) q with h | ⟨hs, hc, h⟩
    · rw [h]
      exact .stay
    · rw [h]
      exact .wake hs (.wakeup hc)
  | kill h => exact moves_kill h
  | fork => exact moves_fork
  | forkReady hp hnp =>
    dsimp only [Next.state, mlfq_enqueue]
    rw [enqueue_proc]
    exact moves_of_modify (fun q ↦ by simp) (.ready hp hnp (.inl rfl))
  | forkFail hp hnp =>
    dsimp only [Next.state]
    exact moves_of_modify (fun q ↦ by simp) (.fail hp hnp)
  | @exit _ p m hp hm =>
    dsimp only [Next.state]
    by_cases hq : q = m
    · subst hq
      rw [exited_state_self]
      exact .zombie hp hm
    · cases exited_exited (s := s) hq with
      | stay hs =>
        rw [hs]
        exact .stay
      | wake hsl hc hs =>
        rw [hs]
        exact .wake hsl (.exit hp hm hc)
      | free hi hw hs =>
        rw [hs]
        exact .free hp hm hi hw
  | reap hp hq =>
    dsimp only [Next.state]
    apply moves_of_modify fun _ ↦ rfl
    unfold zombieChild at hq
    have hz := List.find?_some hq
    simp only [Bool.decide_and, Bool.and_eq_true, decide_eq_true_eq] at hz
    exact .reap hz.2
  | childless => exact .stay
  | refused => exact .stay
  | granted =>
    simpa [Next.state, granted, stride_enqueue] using Moves.stay
  | @thread_create _ p m t new hp hm h =>
    obtain ⟨hf, _, th, i, rfl⟩ := allocthread_ok h
    by_cases hq : q = new
    · subst hq
      simpa [Next.state] using Moves.alloc hf
    · simpa [Next.state, modify_proc_of_ne hq] using Moves.stay
  | threadReady hp hnp =>
    dsimp only [Next.state]
    exact moves_of_modify (fun q ↦ by simp) (.ready hp hnp (.inr rfl))
  | @thread_exit _ p m hp hm =>
    dsimp only [Next.state]
    rw [modify_field (·.state) rfl]
    by_cases hq : q = p
    · subst hq
      rw [modify_proc_self]
      exact .thread_exit hp
    · rw [modify_proc_of_ne hq]
      rcases wakeup1_wakes s (some (.proc m)) q with h | ⟨hs, hc, h⟩
      · rw [h]
        exact .stay
      · rw [h]
        exact .wake hs (.thread_exit hp hm hc)
  | joined hp _ _ hz =>
    dsimp only [Next.state]
    apply moves_of_modify _ (.reap hz)
    intro q
    simp

/-- A call of `sched` changes no state but that of a thread it switches to. -/
theorem leaves_state {back : Bool} (h : Leaves s c p t back) :
    (t.proc q).state = (s.proc q).state ∨
      (t.proc q).state = .RUNNING ∧ (t.cpu c).proc = some q ∧ q ≠ p ∧ back = false := by
  cases h with
  | exhausted => exact .inl (by simp)
  | plain => exact .inl (by simp)
  | idle => exact .inl (by simp)
  | back => exact .inl (by simp)
  | @next m x hm he hi hn hx =>
    by_cases hq : q = x
    · subst hq
      exact .inr ⟨by simp, by simp [switchTo_cpu], hx, rfl⟩
    · exact .inl (by simp [modify_proc_of_ne hq])

theorem leave_state (h : leave s p a = .ok t) : (t.proc q).state = (s.proc q).state := by
  unfold leave at h
  split at h
  · cases h
  · cases h
  · split at h
    · cases h
      rw [boost_field (·.state) (fun _ _ _ ↦ rfl) fun _ _ ↦ rfl]
    · cases h
      rfl
  all_goals
    cases h
    simp

/-! ### Rates -/

theorem scheduler_rates (h : scheduler s c = .ok t) (k : Class) :
    (t.sched k).tickets = (s.sched k).tickets ∧ (t.sched k).stride = (s.sched k).stride ∧
      (t.sched k).pass = (s.sched k).pass := by
  obtain ⟨_, _, h⟩ := picks h
  cases h with
  | empty => exact ⟨rfl, rfl, rfl⟩
  | drop => simp
  | parked _ _ _ _ hu =>
    obtain ⟨_, _, _, rfl, _⟩ := park_ok hu
    simp
  | asleep _ _ _ _ hu =>
    obtain ⟨_, _, _, rfl, _⟩ := park_ok hu
    simp
  | worker _ _ _ _ hu =>
    obtain ⟨_, _, _, rfl, _⟩ := park_ok hu
    simp
  | run => simp

/-- The steps that change what a scheduler is owed. -/
theorem enters_rates (h : Enters round s a r) :
    (∀ k, (r.state.sched k).tickets = (s.sched k).tickets ∧
      (r.state.sched k).stride = (s.sched k).stride) ∨
    ∃ c p x, a = .set_cpu_share c x ∧ caller s c = .ok p ∧
      Grants s x ∧
      r = .done (granted round s p (ticketsOf x)) := by
  have hcharged : ∀ {m} k, ((charged round s m).sched k).tickets = (s.sched k).tickets ∧
      ((charged round s m).sched k).stride = (s.sched k).stride := by
    intro m k
    cases k <;> simp [charged, Scheduler.advance]
  have hstrode : ∀ {p} k, ((strode round s p).sched k).tickets = (s.sched k).tickets ∧
      ((strode round s p).sched k).stride = (s.sched k).stride := by
    intro p k
    cases k <;> simp [strode, Scheduler.advance]
  cases h with
  | granted hp hmax => exact .inr ⟨_, _, _, rfl, hp, hmax, rfl⟩
  | scheduler h =>
    left
    intro k
    obtain ⟨ht, hs, _⟩ := scheduler_rates h k
    exact ⟨ht, hs⟩
  | kill h =>
    left
    intro k
    obtain rfl | ⟨p, _, h, _⟩ := kill_ok h
    · exact ⟨rfl, rfl⟩
    · rw [Next.state, h]
      exact ⟨rfl, rfl⟩
  | fork =>
    left
    intro k
    unfold fork
    obtain h | ⟨q, _, _, h⟩ | ⟨q, _, _, h⟩ := allocproc_cases _ _
    all_goals
      rw [h]
      exact ⟨rfl, rfl⟩
  | thread_create _ _ h =>
    left
    intro k
    obtain ⟨_, _, th, i, rfl⟩ := allocthread_ok h
    exact ⟨rfl, rfl⟩
  | exit =>
    left
    intro k
    dsimp only [Next.state, exited]
    split <;> simp
  | tickYield => exact .inl hcharged
  | tickStay =>
    left
    intro k
    dsimp only [Next.state]
    rw [boost_sched]
    exact hcharged k
  | tickGroup =>
    left
    intro k
    dsimp only [Next.state, yield]
    rw [modify_sched, check_on_timer_sched]
    exact hstrode k
  | tickStride => exact .inl hstrode
  | boost =>
    left
    intro k
    dsimp only [Next.state]
    rw [boost_sched]
    exact ⟨rfl, rfl⟩
  | forkReady =>
    left
    intro k
    simp [Next.state, mlfq_enqueue]
  | _ => exact .inl fun _ ↦ ⟨rfl, rfl⟩

/-- A step grants a share, or it leaves the tickets of the schedulers alone and those of the
processes but for an entry it allocates. -/
theorem enters_grant (h : Enters round s a r) :
    (∃ c p x, a = .set_cpu_share c x ∧ caller s c = .ok p ∧
      Grants s x ∧
      r = .done (granted round s p (ticketsOf x))) ∨
    (∀ k, (r.state.sched k).tickets = (s.sched k).tickets ∧
      (r.state.sched k).stride = (s.sched k).stride) ∧
    ∀ q, (r.state.proc q).tickets = (s.proc q).tickets ∨
      Allocates s q a ∧ (r.state.proc q).tickets = 0 := by
  by_cases ha : ∃ c x, a = .set_cpu_share c x
  · obtain ⟨c, x, rfl⟩ := ha
    cases h with
    | refused => exact .inr ⟨fun _ ↦ ⟨rfl, rfl⟩, fun _ ↦ .inl rfl⟩
    | granted hp hmax => exact .inl ⟨_, _, _, rfl, hp, hmax, rfl⟩
  · right
    constructor
    · rcases enters_rates h with hk | ⟨c, _, x, rfl, _⟩
      · exact hk
      · exact absurd ⟨c, x, rfl⟩ ha
    · intro q
      rcases enters_tickets (q := q) h with hq | hq | ⟨c, x, rfl, _⟩
      · exact .inl hq
      · exact .inr hq
      · exact absurd ⟨c, x, rfl⟩ ha

/-! ### Whole steps -/

/-- What a call of `sched` and the return from it change in the fields above. -/
structure After (t u : State n) : Prop where
  state : ∀ q, (u.proc q).state = (t.proc q).state ∨
    (u.proc q).state = .RUNNING ∧ ∃ c, (u.cpu c).proc = some q
  tickets : ∀ q, (u.proc q).tickets = (t.proc q).tickets
  master : ∀ q, (u.proc q).master = (t.proc q).master
  rates : ∀ k, (u.sched k).tickets = (t.sched k).tickets ∧
    (u.sched k).stride = (t.sched k).stride ∧ (u.sched k).pass = (t.sched k).pass

theorem leave_sched (h : leave s p a = .ok t) : t.sched = s.sched := by
  unfold leave at h
  split at h
  · cases h
  · cases h
  · split at h
    · cases h
      simp
    · cases h
      rfl
  all_goals
    cases h
    rfl

/-- A step is one of the branches of `enter`, and what comes after. -/
theorem step_enters (h : step round s a = .ok u) :
    ∃ r, Enters round s a r ∧ After r.state u := by
  rcases step_cases h with h | ⟨t, c, p, v, back, h, _, hl, hu⟩
  · exact ⟨_, h, fun _ ↦ .inl rfl, fun _ ↦ rfl, fun _ ↦ rfl, fun _ ↦ ⟨rfl, rfl, rfl⟩⟩
  · refine ⟨_, h, ?_, ?_, ?_, ?_⟩
    · intro q
      rcases hu with ⟨_, rfl⟩ | ⟨rfl, hu⟩
      · rcases leaves_state (q := q) hl with hq | ⟨hq, hc, _⟩
        · exact .inl hq
        · exact .inr ⟨hq, c, hc⟩
      · rcases leaves_state (q := q) hl with hq | ⟨_, _, _, hb⟩
        · exact .inl ((leave_state hu).trans hq)
        · cases hb
    · intro q
      rcases hu with ⟨_, rfl⟩ | ⟨_, hu⟩
      · exact stable_tickets.leaves hl
      · exact (stable_tickets.leave hu).trans (stable_tickets.leaves hl)
    · intro q
      rcases hu with ⟨_, rfl⟩ | ⟨_, hu⟩
      · exact stable_master.leaves hl
      · exact (stable_master.leave hu).trans (stable_master.leaves hl)
    · intro k
      have hv : (v.sched k).tickets = (t.sched k).tickets ∧ (v.sched k).stride = (t.sched k).stride ∧
          (v.sched k).pass = (t.sched k).pass := by
        cases hl <;> simp
      rcases hu with ⟨_, rfl⟩ | ⟨_, hu⟩
      · exact hv
      · rw [leave_sched hu]
        exact hv

end

/-! ### The start -/

section

variable {n : Nat} {q : Slot}

/-- The entry of the first process when the CPUs enter `scheduler()`. -/
def firstProc : Proc := { Proc.fresh 0 1 Proc.zero with state := .RUNNABLE }

private theorem allocproc_reset : allocproc (reset n) true =
    ({ (reset n).modify 0 (Proc.fresh 0 1) with nextpid := 2 }, some 0) := by
  have h : findUnused (reset n) = some 0 := rfl
  unfold allocproc
  rw [h]
  rfl

theorem boot_proc : (boot n).proc q = if q = 0 then firstProc else Proc.zero := by
  unfold boot userinit
  rw [allocproc_reset]
  simp only [mlfq_enqueue, enqueue_proc, modify_proc]
  split <;> rfl

theorem boot_rates : ((boot n).sched .mlfq).tickets = TOTALTICKETS ∧
    ((boot n).sched .stride).tickets = 0 ∧ ((boot n).sched .stride).stride = 0 := ⟨rfl, rfl, rfl⟩

theorem boot_entries_mlfq : ((boot n).sched .mlfq).entries = {some 0} := rfl

theorem boot_entries_stride : ((boot n).sched .stride).entries = 0 := rfl

theorem boot_cpu : (boot n).cpu = fun _ ↦ ⟨none, none⟩ := rfl

theorem boot_trace : (boot n).trace = [] := rfl

end

end Xv6.Sched
