import Xv6.Sched.Links

/-!
# Who goes on sleeping

Only the caller of a step goes to sleep in it, and the channel of a process that sleeps is not
written.
-/

namespace Xv6.Sched

open Function Lib

section

variable {n : Nat} {round : Int → Int} {s t u : State n} {a : Action n} {r : Next n} {c : Fin n}
  {p q m w : Slot} {k : Class}

/-- If `q` sleeps in `t`, it has slept since `s`. -/
def Sleeper (s t : State n) (q : Slot) : Prop :=
  (t.proc q).state = .SLEEPING →
    (s.proc q).state = .SLEEPING ∧ (t.proc q).chan = (s.proc q).chan

theorem Sleeper.trans (h : Sleeper s t q) (h' : Sleeper t u q) : Sleeper s u q := by
  intro hu
  obtain ⟨ht, hc'⟩ := h' hu
  obtain ⟨hs, hc⟩ := h ht
  exact ⟨hs, hc'.trans hc⟩

/-- The state and the channel. -/
private def Proc.waiting (v : Proc) : ProcState × Option Chan := (v.state, v.chan)

private theorem sleeper_of_waiting (h : (t.proc q).waiting = (s.proc q).waiting) :
    Sleeper s t q := by
  obtain ⟨hs, hc⟩ := Prod.mk.inj h
  exact fun hq ↦ ⟨hs.symm.trans hq, hc⟩

private theorem sleeper_modify {f : Proc → Proc}
    (h : (f (s.proc p)).state = .SLEEPING →
      (s.proc p).state = .SLEEPING ∧ (f (s.proc p)).chan = (s.proc p).chan) :
    Sleeper s (s.modify p f) q := by
  unfold Sleeper
  rw [modify_proc]
  split
  · next hq =>
    rw [hq]
    exact h
  · exact fun hs ↦ ⟨hs, rfl⟩

private theorem sleeper_proc (h : t.proc q = s.proc q) : Sleeper s t q := by
  unfold Sleeper
  rw [h]
  exact fun hs ↦ ⟨hs, rfl⟩

private theorem sleeper_wakeup1 {chan : Option Chan} : Sleeper s (wakeup1 s chan) q := by
  unfold Sleeper
  rcases wakeup1_wakes s chan q with h | ⟨_, _, h⟩
  · rw [h]
    exact fun hs ↦ ⟨hs, rfl⟩
  · rw [h]
    intro hs
    cases hs

private theorem sleeper_charged : Sleeper s (charged round s m) q := by
  apply sleeper_of_waiting
  unfold charged
  rw [check_on_timer_field Proc.waiting fun _ _ _ _ ↦ rfl]
  dsimp only
  exact modify_field Proc.waiting rfl

private theorem sleeper_strode : Sleeper s (strode round s p) q := by
  apply sleeper_of_waiting
  dsimp only [strode]
  exact modify_field Proc.waiting rfl

private theorem sleeper_check_on_timer : Sleeper s (check_on_timer s m) q :=
  sleeper_of_waiting (check_on_timer_field Proc.waiting fun _ _ _ _ ↦ rfl)

private theorem sleeper_boost : Sleeper s (boost s p) q :=
  sleeper_of_waiting (boost_field Proc.waiting (fun _ _ _ ↦ rfl) fun _ _ ↦ rfl)

private theorem sleeper_get_next_thread : Sleeper s (get_next_thread s m).1 q :=
  sleeper_of_waiting (get_next_thread_field Proc.waiting fun _ _ ↦ rfl)

private theorem sleeper_switchTo {x : Slot} : Sleeper s (switchTo s c x) q := by
  unfold Sleeper
  rw [switchTo_proc, modify_proc]
  split
  · intro hs
    cases hs
  · exact fun hs ↦ ⟨hs, rfl⟩

private theorem sleeper_park (hu : park (dequeue s k).1 k p = .ok u) :
    Sleeper s (enqueue u k p).1 q := by
  obtain ⟨_, _, _, rfl, _⟩ := park_ok hu
  apply sleeper_of_waiting
  rw [enqueue_proc, modify_field Proc.waiting rfl, dequeue_proc]

private theorem sleeper_scheduler (h : scheduler s c = .ok t) : Sleeper s t q := by
  obtain ⟨_, _, h⟩ := picks h
  cases h with
  | empty => exact sleeper_proc rfl
  | drop => exact sleeper_proc (by rw [dequeue_proc])
  | parked _ _ _ _ hu => exact sleeper_park hu
  | asleep _ _ _ _ hu => exact (sleeper_park hu).trans sleeper_get_next_thread
  | worker _ _ _ _ hu =>
    exact ((sleeper_park hu).trans sleeper_get_next_thread).trans (sleeper_switchTo (c := c))
  | run =>
    have hdeq : Sleeper s (dequeue s (chosen s)).1 q := sleeper_proc (by rw [dequeue_proc])
    exact hdeq.trans (sleeper_switchTo (c := c))

private theorem sleeper_kill {pid : Nat} (h : kill s pid = .ok t) : Sleeper s t q := by
  intro hs
  obtain rfl | ⟨p, _, _, hw⟩ := kill_ok h
  · exact ⟨hs, rfl⟩
  · obtain ⟨b, x, hv, hx⟩ := hw q
    rw [hv] at hs ⊢
    rcases hx with rfl | ⟨rfl, _⟩ | ⟨_, rfl, _⟩
    · exact ⟨hs, rfl⟩
    · cases hs
    · cases hs

private theorem sleeper_fork {b : Bool} : Sleeper s (fork s p b) q := by
  unfold fork
  obtain h | ⟨x, _, _, h⟩ | ⟨x, _, _, h⟩ := allocproc_cases s b
  · rw [h]
    exact sleeper_of_waiting (modify_field Proc.waiting rfl)
  · rw [h]
    apply sleeper_of_waiting
    rw [modify_field Proc.waiting rfl]
    dsimp only
    exact modify_field Proc.waiting rfl
  · rw [h]
    have hfresh : Sleeper s (s.modify x (Proc.fresh x s.nextpid)) q := by
      apply sleeper_modify
      intro hs
      cases hs
    exact hfresh.trans (sleeper_of_waiting (modify_field Proc.waiting rfl))

private theorem sleeper_exited : Sleeper s (exited s m) q := by
  intro hs
  by_cases hq : q = m
  · rw [hq, exited_state_self] at hs
    cases hs
  · refine ⟨?_, exited_field (·.chan) (fun _ _ _ ↦ rfl) (fun _ _ _ ↦ rfl) (fun _ _ _ ↦ rfl)
      fun _ _ ↦ rfl⟩
    cases exited_exited (s := s) hq with
    | stay hst => exact hst.symm.trans hs
    | wake hsl => exact hsl
    | free _ _ hst =>
      rw [hst] at hs
      cases hs

/-- An assignment to other fields. -/
private theorem sleeper_write {f : Proc → Proc}
    (h : (f (s.proc p)).waiting = (s.proc p).waiting) : Sleeper s (s.modify p f) q :=
  sleeper_of_waiting (modify_field Proc.waiting h)

/-- An assignment of a state other than `SLEEPING`. -/
private theorem sleeper_set {f : Proc → Proc} (h : (f (s.proc p)).state ≠ .SLEEPING) :
    Sleeper s (s.modify p f) q := sleeper_modify fun hs ↦ absurd hs h

private theorem sleeper_allocthread {new : Slot} (h : allocthread s m = .ok (t, new)) :
    Sleeper s t q := by
  obtain ⟨_, _, th, i, rfl⟩ := allocthread_ok h
  have htake : Sleeper s (s.modify new fun v ↦ { v with
      state := .EMBRYO, pid := s.nextpid, qlev := 0, qticks := 0, tickets := 0, pass := 0,
      np := none, trapped := false }) q := sleeper_set ProcState.noConfusion
  apply htake.trans
  apply sleeper_of_waiting
  rw [modify_field Proc.waiting rfl, modify_field Proc.waiting rfl, modify_field Proc.waiting rfl,
    modify_field Proc.waiting rfl]

private theorem sleeper_granted {x : Int} : Sleeper s (granted round s p x) q := by
  apply sleeper_of_waiting
  unfold granted
  dsimp only [stride_enqueue]
  rw [enqueue_proc]
  exact modify_field Proc.waiting rfl

/-- A process that sleeps has slept before, or is the one that makes the call. -/
private theorem sleeper_enters (h : Enters round s a r)
    (hq : ∀ c ∈ a.call, (s.cpu c).proc ≠ some q) : Sleeper s r.state q := by
  have hself : ∀ {c p}, caller s c = .ok p → c ∈ a.call → q ≠ p := by
    rintro c p hp hc rfl
    exact hq c hc (cpu_of_caller hp)
  have hsleep : ∀ {c p chan}, caller s c = .ok p → c ∈ a.call →
      Sleeper s (sleep s c p chan).state q := by
    intro c p chan hp hc
    apply sleeper_proc
    dsimp only [sleep, Next.state]
    rw [modify_proc_of_ne (hself hp hc)]
  have hyield : ∀ {t : State n} {c p}, Sleeper t (yield t c p).state q := by
    intro t c p
    dsimp only [yield, Next.state]
    apply sleeper_modify
    intro hs
    cases hs
  cases h with
  | scheduler h => exact sleeper_scheduler h
  | tickIdle => exact sleeper_proc rfl
  | tickYield =>
    exact (sleeper_charged.trans (sleeper_of_waiting (modify_field Proc.waiting rfl))).trans hyield
  | tickStay => exact sleeper_charged.trans sleeper_boost
  | tickGroup =>
    exact ((sleeper_strode.trans (sleeper_of_waiting (modify_field Proc.waiting rfl))).trans
      sleeper_check_on_timer).trans hyield
  | tickStride => exact sleeper_strode.trans hyield
  | boost => exact sleeper_boost
  | yield => exact hyield
  | sleep hp => exact hsleep hp rfl
  | wakeup => exact sleeper_wakeup1
  | kill h => exact sleeper_kill h
  | fork => exact sleeper_fork
  | @forkReady c p np =>
    have hready : Sleeper s ((s.modify p fun v ↦ { v with np := none }).modify np fun v ↦
        { v with parent := some p, state := .RUNNABLE }) q :=
      (sleeper_write rfl).trans (sleeper_set ProcState.noConfusion)
    exact hready.trans (sleeper_proc (by dsimp only [Next.state, mlfq_enqueue]; rw [enqueue_proc]))
  | forkFail =>
    dsimp only [Next.state]
    exact (sleeper_write rfl).trans (sleeper_set ProcState.noConfusion)
  | exit => exact sleeper_exited
  | reap =>
    dsimp only [Next.state]
    exact sleeper_set ProcState.noConfusion
  | childless => exact sleeper_proc rfl
  | wait hp => exact hsleep hp rfl
  | refused => exact sleeper_proc rfl
  | granted => exact sleeper_granted
  | thread_create _ _ h =>
    dsimp only [Next.state]
    exact (sleeper_allocthread h).trans (sleeper_write rfl)
  | threadReady =>
    dsimp only [Next.state]
    exact (((sleeper_write rfl).trans (sleeper_write rfl)).trans (sleeper_write rfl)).trans
      (sleeper_set ProcState.noConfusion)
  | thread_exit =>
    dsimp only [Next.state]
    exact (sleeper_wakeup1.trans (sleeper_set ProcState.noConfusion)).trans (sleeper_write rfl)
  | join hp => exact hsleep hp rfl
  | joined =>
    dsimp only [Next.state]
    exact (sleeper_write rfl).trans (sleeper_set ProcState.noConfusion)

private theorem sleeper_leaves {back : Bool} (h : Leaves s c p t back) : Sleeper s t q := by
  have hswtch : ∀ {s : State n}, Sleeper s (swtchScheduler s c) q :=
    fun {s} ↦ sleeper_proc (by rw [swtchScheduler_proc])
  cases h with
  | exhausted => exact (sleeper_write rfl).trans hswtch
  | plain => exact hswtch
  | idle => exact sleeper_get_next_thread.trans hswtch
  | back => exact sleeper_get_next_thread
  | next => exact sleeper_get_next_thread.trans (sleeper_switchTo (c := c))

private theorem sleeper_leave (h : leave s p a = .ok t) (hq : ∀ c ∈ a.call, q ≠ p) :
    Sleeper s t q := by
  unfold leave at h
  split at h
  · cases h
  · cases h
  · split at h
    · cases h
      exact sleeper_boost
    · cases h
      exact sleeper_proc rfl
  · cases h
    exact sleeper_proc (modify_proc_of_ne (hq _ rfl))
  · cases h
    exact sleeper_proc (modify_proc_of_ne (hq _ rfl))
  · cases h
    exact sleeper_proc (modify_proc_of_ne (hq _ rfl))
  · cases h
    exact sleeper_proc rfl

/-- A process that sleeps after a step in which it has not made a call has slept since before. -/
theorem step_sleeper (h : step round s a = .ok u) (hq : ∀ c ∈ a.call, (s.cpu c).proc ≠ some q) :
    Sleeper s u q := by
  rcases step_cases h with h | ⟨t, c, p, v, back, h, _, hl, hu⟩
  · exact sleeper_enters h hq
  · have hv : Sleeper s v q := (sleeper_enters h hq).trans (sleeper_leaves hl)
    rcases hu with ⟨_, rfl⟩ | ⟨_, hu⟩
    · exact hv
    · apply hv.trans (sleeper_leave hu _)
      rintro c' hc' rfl
      apply hq c' hc'
      rw [cpu_of_call h hc']
      exact cpu_of_sched h

/-- Who sleeps on the master does not go on sleeping when a thread exits. -/
theorem thread_exit_wakes (h : step round s (.thread_exit c) = .ok u) (hp : (s.cpu c).proc = some p)
    (hm : (s.proc p).master = some m) (hq : (s.proc q).chan = some (.proc m)) :
    (u.proc q).state ≠ .SLEEPING := by
  intro hs
  obtain ⟨r, he, hafter⟩ := step_enters h
  have hr : (r.state.proc q).state = .SLEEPING := by
    rcases hafter.state q with hst | ⟨hst, _⟩
    · rw [← hst, hs]
    · rw [hs] at hst
      cases hst
  cases he with
  | @thread_exit _ p' m' hp' hm' =>
    cases hp.symm.trans (cpu_of_caller hp')
    cases hm.symm.trans hm'
    dsimp only [Next.state] at hr
    rw [modify_field (·.state) rfl] at hr
    by_cases hqp : q = p
    · rw [hqp, modify_proc_self] at hr
      cases hr
    · rw [modify_proc_of_ne hqp] at hr
      unfold wakeup1 at hr
      dsimp only at hr
      split at hr
      · cases hr
      · next hno => exact hno ⟨hr, hq⟩

/-- The caller of `thread_join` sleeps on itself, if its group has a thread left. -/
theorem thread_join_sleeps {thread : Nat} (h : step round s (.thread_join c thread) = .ok u)
    (hp : (s.cpu c).proc = some p)
    (hz : ∀ (i : Fin (MAXTHREAD + 1)) t, (i : Nat) = thread → (s.proc p).threads i = some t →
      (s.proc t).state ≠ .ZOMBIE)
    (hcnt : ∀ m, (s.proc p).master = some m → (s.proc m).t_cnt ≠ 0)
    (hs : (u.proc p).state = .SLEEPING) : (u.proc p).chan = some (.proc p) := by
  rcases step_cases h with he | ⟨t, c', p', v, back, he, _, hl, hu⟩
  · cases he with
    | @joined _ x t thread i hx hi ht hzombie =>
      cases hp.symm.trans (cpu_of_caller hx)
      exact absurd hzombie (hz i t (congrArg Fin.val hi) ht)
  · cases he with
    | join hx =>
      cases hp.symm.trans (cpu_of_caller hx)
      rcases hu with ⟨_, rfl⟩ | ⟨rfl, _⟩
      · rw [(sleeper_leaves hl hs).2, modify_proc_self]
      · -- the call would return at once only to a process that is ready, or in a group without threads
        exfalso
        cases hl with
        | back hm _ _ hn =>
          rcases get_next_thread_snd hn with ⟨h0, _⟩ | ⟨_, hr, _⟩
          · rw [modify_field (·.t_cnt) rfl] at h0
            rw [modify_field (·.master) rfl] at hm
            exact hcnt _ hm h0
          · rw [modify_proc_self] at hr
            cases hr

end

end Xv6.Sched
