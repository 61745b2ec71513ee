import Xv6.Sched.Passes

/-!
# The levels of MLFQ

`qlev` and `qticks` are written by the timer, by the boost, by the poll of a sleeping entry, by
`wakeup1` and by the allocation of an entry, and not always together. `Relevel` lists what a step
up to its call of `sched` makes of the two.
-/

namespace Xv6.Sched

open Function Lib

section

variable {n : Nat}

/-- The level of a process in MLFQ and the ticks it has used. -/
def Proc.level (v : Proc) : Int × Nat := (v.qlev, v.qticks)

/-- The process that the timer charges with one more tick. -/
def Proc.ticked (v : Proc) : Proc := { v with qticks := v.qticks + 1 }

/-- The clock of MLFQ is at the end of a period. -/
def PeriodEnds (s : State n) : Prop := 0 < s.mlfqticks ∧ s.mlfqticks % PRIORITYBOOST = 0

instance (s : State n) : Decidable (PeriodEnds s) := inferInstanceAs (Decidable (_ ∧ _))

/-- The step from `s` to `t` ends in a boost: the process whose tick was charged to MLFQ has gone
on in `trap`, at the end of a period. -/
def Boosts (s : State n) (a : Action n) (t : State n) : Prop :=
  match a with
  | .tick c => payer s (.tick c) ≠ none ∧ PeriodEnds t ∧
      ∀ p ∈ (s.cpu c).proc, (t.proc p).trapped = false
  | .boost _ => PeriodEnds t
  | _ => False

instance (s : State n) (a : Action n) (t : State n) : Decidable (Boosts s a t) :=
  match a with
  | .tick _ | .boost _ => inferInstanceAs (Decidable (_ ∧ _))
  | .scheduler _ | .yield _ | .sleep _ _ | .wakeup _ | .kill _ | .fork _ _ | .forkDone _ _ | .exit _
  | .wait _ | .set_cpu_share _ _ | .thread_create _ | .threadReady _ | .thread_exit _
  | .thread_join _ _ => inferInstanceAs (Decidable False)

/-- The step calls `wakeup1` with what `p` sleeps on. -/
def Signals (s : State n) (p : Slot) : Action n → Prop
  | .wakeup chan => (s.proc p).chan = some chan
  | .exit c => ∃ q m, caller s c = .ok q ∧ exiting s q = some m ∧ ExitWakes s m p
  | .thread_exit c => ∃ q m, caller s c = .ok q ∧ (s.proc q).master = some m ∧
      (s.proc p).chan = some (.proc m)
  | _ => False

instance (s : State n) (p : Slot) (a : Action n) : Decidable (Signals s p a) :=
  match a with
  | .wakeup _ => inferInstanceAs (Decidable (_ = _))
  | .exit _ | .thread_exit _ => inferInstanceAs (Decidable (∃ _, _))
  | .scheduler _ | .tick _ | .boost _ | .yield _ | .sleep _ _ | .kill _ | .fork _ _ | .forkDone _ _
  | .wait _ | .set_cpu_share _ _ | .thread_create _ | .threadReady _ | .thread_join _ _ =>
    inferInstanceAs (Decidable False)

/-- What a step may make of the level of `q`, apart from a boost. -/
inductive Relevel (s : State n) (q : Slot) : Action n → Int × Nat → Prop
  | stay {a} : Relevel s q a (s.proc q).level
  | wake {a} (hs : (s.proc q).state = .SLEEPING) (hw : Signals s q a) :
      Relevel s q a (0, (s.proc q).qticks)
  | alloc {a} (hf : Allocates s q a) : Relevel s q a (0, 0)
  | park {c} (h0 : 0 < (s.sched .mlfq).count) (hp : (s.sched .mlfq).heap 1 = some q)
      (hm : ¬Misplaced .mlfq (s.proc q))
      (hs : (s.proc q).state = .SLEEPING) (hc : chosen s = .mlfq) :
      Relevel s q (.scheduler c) (3, 0)
  | granted {c x} (hp : caller s c = .ok q) (hx : Grants s x) :
      Relevel s q (.set_cpu_share c x) (0, 0)
  | paid {c} (hp : payer s (.tick c) = some q) :
      Relevel s q (.tick c) (s.proc q).ticked.onTimer.level
  | group {c p} (hp : strider s (.tick c) = some p) (hm : (s.proc p).master = some q) :
      Relevel s q (.tick c) (s.proc q).ticked.level

variable {round : Int → Int} {s t u v : State n} {a : Action n} {r : Next n} {c : Fin n}
  {p q m : Slot} {k : Class}

/-! ### The functions of the kernel -/

private theorem level_modify {f : Proc → Proc} (h : (f (s.proc p)).level = (s.proc p).level) :
    ((s.modify p f).proc q).level = (s.proc q).level := modify_field Proc.level h

theorem level_get_next_thread : ((get_next_thread s m).1.proc q).level = (s.proc q).level :=
  get_next_thread_field Proc.level fun _ _ ↦ rfl

theorem level_leaves {back : Bool} (h : Leaves s c p t back) :
    (t.proc q).level = (s.proc q).level := by
  cases h with
  | exhausted => rw [swtchScheduler_proc, level_modify rfl]
  | plain => rw [swtchScheduler_proc]
  | idle => rw [swtchScheduler_proc, level_get_next_thread]
  | back => exact level_get_next_thread
  | next => rw [switchTo_proc, level_modify rfl, level_get_next_thread]

private theorem relevel_park {c : Fin n} (h0 : 0 < (s.sched k).count)
    (hp : (s.sched k).heap 1 = some p) (hm : ¬Misplaced k (s.proc p))
    (hs : (s.proc p).state = .SLEEPING) (hu : park (dequeue s k).1 k p = .ok u)
    (hc : chosen s = k) : Relevel s q (.scheduler c) ((enqueue u k p).1.proc q).level := by
  rw [enqueue_proc]
  by_cases hq : q = p
  · subst hq
    cases k with
    | mlfq =>
      cases hu
      rw [modify_proc_self]
      exact .park h0 hp hm hs hc
    | stride =>
      obtain ⟨l, i, x, rfl, _, hkeep⟩ := park_ok hu
      obtain ⟨rfl, rfl⟩ := hkeep rfl
      rw [modify_proc_self, dequeue_proc]
      exact .stay
  · obtain ⟨l, i, x, rfl, _⟩ := park_ok hu
    rw [modify_proc_of_ne hq, dequeue_proc]
    exact .stay

private theorem relevel_scheduler (h : scheduler s c = .ok t) :
    Relevel s q (.scheduler c) (t.proc q).level := by
  obtain ⟨_, _, hpick⟩ := picks h
  have hsame : ∀ {v : State n}, v.proc = s.proc → Relevel s q (.scheduler c) (v.proc q).level := by
    intro v hv
    rw [hv]
    exact .stay
  cases hpick with
  | empty => exact .stay
  | drop => exact hsame (by rw [dequeue_proc])
  | parked h0 hp hm hs hu => exact relevel_park h0 hp hm hs hu rfl
  | asleep h0 hp hm hs hu =>
    rw [level_get_next_thread]
    exact relevel_park h0 hp hm hs hu rfl
  | worker h0 hp hm hs hu =>
    rw [dispatch_proc, level_modify rfl, level_get_next_thread]
    exact relevel_park h0 hp hm hs hu rfl
  | run =>
    rw [dispatch_proc, level_modify rfl]
    exact hsame (by rw [dequeue_proc])

private theorem relevel_fork {b : Bool} :
    Relevel s q (.fork c b) ((fork s p b).proc q).level := by
  unfold fork
  rcases allocproc_cases s b with h | ⟨x, _, _, h⟩ | ⟨x, hx, rfl, h⟩
  · rw [h, level_modify rfl]
    exact .stay
  · rw [h, level_modify rfl]
    have hid : ((s.modify x fun v ↦ { v with pid := s.nextpid }).proc q).level =
        (s.proc q).level := level_modify rfl
    rw [hid]
    exact .stay
  · rw [h, level_modify rfl]
    by_cases hq : q = x
    · subst hq
      dsimp only
      rw [modify_proc_self]
      exact .alloc hx
    · dsimp only
      rw [modify_proc_of_ne hq]
      exact .stay

private theorem relevel_wakeup1 {chan : Option Chan}
    (hw : (s.proc q).state = .SLEEPING → (s.proc q).chan = chan → Signals s q a) :
    Relevel s q a ((wakeup1 s chan).proc q).level := by
  rcases wakeup1_wakes s chan q with h | ⟨hs, hc, h⟩
  · rw [h]
    exact .stay
  · rw [h]
    exact .wake hs (hw hs hc)

private theorem relevel_kill {pid : Nat} (h : kill s pid = .ok t) :
    Relevel s q (.kill pid) (t.proc q).level := by
  rcases kill_ok h with rfl | ⟨_, _, _, hw⟩
  · exact .stay
  · obtain ⟨_, _, hv, _⟩ := hw q
    rw [hv]
    exact .stay

private theorem relevel_exited (hp : caller s c = .ok p) (hm : exiting s p = some m) :
    Relevel s q (.exit c) ((exited s m).proc q).level := by
  have hticks : ((exited s m).proc q).qticks = (s.proc q).qticks :=
    exited_field (·.qticks) (fun _ _ _ ↦ rfl) (fun _ _ _ ↦ rfl) (fun _ _ _ ↦ rfl) fun _ _ ↦ rfl
  rcases exited_qlev (s := s) (m := m) (q := q) with h | ⟨hs, hw, h⟩
  · have hsame : ((exited s m).proc q).level = (s.proc q).level := Prod.ext h hticks
    rw [hsame]
    exact .stay
  · have hsame : ((exited s m).proc q).level = (0, (s.proc q).qticks) := Prod.ext h hticks
    rw [hsame]
    exact .wake hs ⟨p, m, hp, hm, hw⟩

private theorem level_charged (hq : q ≠ m) :
    ((charged round s m).proc q).level = (s.proc q).level := by rw [charged_proc_of_ne hq]

private theorem relevel_charged (hp : payer s (.tick c) = some m) :
    Relevel s q (.tick c) ((charged round s m).proc q).level := by
  by_cases hq : q = m
  · subst hq
    rw [charged_proc_self]
    exact .paid hp
  · rw [level_charged hq]
    exact .stay

private theorem relevel_thread_create {new : Slot} (h : allocthread s m = .ok (t, new)) :
    Relevel s q (.thread_create c) (t.proc q).level := by
  obtain ⟨hf, _, th, i, rfl⟩ := allocthread_ok h
  rw [level_modify rfl, level_modify rfl, level_modify rfl, level_modify rfl]
  by_cases hq : q = new
  · subst hq
    dsimp only
    rw [modify_proc_self]
    exact .alloc hf
  · dsimp only
    rw [modify_proc_of_ne hq]
    exact .stay

private theorem relevel_granted {x y : Int} (hp : caller s c = .ok p) (hx : Grants s x) :
    Relevel s q (.set_cpu_share c x) ((granted round s p y).proc q).level := by
  unfold granted
  dsimp only [stride_enqueue]
  rw [enqueue_proc]
  by_cases hq : q = p
  · subst hq
    rw [modify_proc_self]
    exact .granted hp hx
  · rw [modify_proc_of_ne hq]
    exact .stay

private theorem level_strode : ((strode round s p).proc q).level = (s.proc q).level := by
  dsimp only [strode]
  exact level_modify rfl

private theorem relevel_group (hp : strider s (.tick c) = some p)
    (hm : (s.proc p).master = some m) (ht : (s.proc m).tickets ≠ 0) :
    Relevel s q (.tick c) (((check_on_timer ((strode round s p).modify m fun v ↦
      { v with qticks := v.qticks + 1 }) m).proc q).level) := by
  have hstrode : ∀ x, ((strode round s p).proc x).level = (s.proc x).level := fun _ ↦ level_strode
  rw [check_on_timer_modify]
  by_cases hq : q = m
  · subst hq
    rw [modify_proc_self, modify_proc_self]
    have hst : (({ (strode round s p).proc q with
        qticks := ((strode round s p).proc q).qticks + 1 } : Proc).onTimer).level =
        (s.proc q).ticked.level := by
      obtain ⟨hl, hq⟩ := Prod.mk.inj (hstrode q)
      have hne : ((strode round s p).proc q).tickets ≠ 0 := by
        simpa [strode] using ht
      unfold Proc.onTimer
      rw [if_neg hne]
      split <;> exact Prod.ext hl (congrArg (· + 1) hq)
    rw [hst]
    exact .group hp hm
  · rw [modify_proc_of_ne hq, modify_proc_of_ne hq, hstrode]
    exact .stay

/-- What a boost makes of the level of `q`. -/
theorem boost_level : ((boost s p).proc q).level =
    if PeriodEnds s ∧ InArray s q then (0, 0) else (s.proc q).level := by
  split
  · next h =>
    obtain ⟨hl, ht⟩ := boost_boosted h.1.1 h.1.2 h.2
    exact Prod.ext hl ht
  · next h =>
    by_cases hq : InArray s q
    · have hend : ¬PeriodEnds s := fun hend ↦ h ⟨hend, hq⟩
      have hno : boost s p = s.modify p fun v ↦ { v with trapped := false } := if_neg hend
      rw [hno]
      exact level_modify rfl
    · obtain ⟨hl, ht⟩ := boost_of_notMem (p := p) hq
      exact Prod.ext hl ht

private theorem inArray_quiet (h : Quiet s t) : InArray t q ↔ InArray s q := by
  unfold InArray
  rw [h.heap]

/-- A step up to its call of `sched` that cannot end in a boost. -/
private theorem relevel_enters (h : Enters round s a r) (ha : ∀ c, a ≠ .boost c)
    (hpay : ∀ c, a = .tick c → payer s (.tick c) = none) :
    Relevel s q a (r.state.proc q).level := by
  have hset : ∀ {t : State n} {p : Slot} {f : Proc → Proc},
      (f (t.proc p)).level = (t.proc p).level → (∀ q, (t.proc q).level = (s.proc q).level) →
        Relevel s q a ((t.modify p f).proc q).level := by
    intro t p f hf ht
    rw [level_modify hf, ht]
    exact .stay
  cases h with
  | scheduler h => exact relevel_scheduler h
  | tickIdle => exact .stay
  | tickYield hp hr hm ht =>
    have hnone := hpay _ rfl
    rw [payer_tick hp hr hm ht] at hnone
    cases hnone
  | tickStay hp hr hm ht =>
    have hnone := hpay _ rfl
    rw [payer_tick hp hr hm ht] at hnone
    cases hnone
  | tickGroup hp hr hm ht =>
    dsimp only [Next.state, Sched.yield]
    rw [level_modify rfl]
    exact relevel_group (strider_tick hp hr hm ht) hm ht
  | tickStride =>
    dsimp only [Next.state, Sched.yield]
    exact hset rfl fun _ ↦ level_strode
  | boost => exact absurd rfl (ha _)
  | yield =>
    dsimp only [Next.state, Sched.yield]
    exact hset rfl fun _ ↦ rfl
  | sleep =>
    dsimp only [Next.state, Sched.sleep]
    exact hset rfl fun _ ↦ rfl
  | wakeup => exact relevel_wakeup1 fun _ hc ↦ hc
  | kill h => exact relevel_kill h
  | fork => exact relevel_fork
  | forkReady =>
    dsimp only [Next.state, mlfq_enqueue]
    rw [enqueue_proc]
    exact hset rfl fun _ ↦ level_modify rfl
  | forkFail =>
    dsimp only [Next.state]
    exact hset rfl fun _ ↦ level_modify rfl
  | exit hp hm => exact relevel_exited hp hm
  | reap =>
    dsimp only [Next.state]
    exact hset rfl fun _ ↦ rfl
  | childless => exact .stay
  | wait =>
    dsimp only [Next.state, Sched.sleep]
    exact hset rfl fun _ ↦ rfl
  | refused => exact .stay
  | granted hp hx => exact relevel_granted hp hx
  | thread_create _ _ h =>
    dsimp only [Next.state]
    rw [level_modify rfl]
    exact relevel_thread_create h
  | threadReady =>
    dsimp only [Next.state]
    apply hset rfl
    intro x
    rw [level_modify rfl, level_modify rfl, level_modify rfl]
  | thread_exit hp hm =>
    dsimp only [Next.state]
    rw [level_modify rfl, level_modify rfl]
    exact relevel_wakeup1 fun _ hc ↦ ⟨_, _, hp, hm, hc⟩
  | join =>
    dsimp only [Next.state, Sched.sleep]
    exact hset rfl fun _ ↦ rfl
  | joined =>
    dsimp only [Next.state]
    exact hset rfl fun _ ↦ level_modify rfl

private theorem level_leave (h : leave s p a = .ok t)
    (ha : ∀ c, a = .tick c → (s.proc p).trapped = false) :
    (t.proc q).level = (s.proc q).level := by
  unfold leave at h
  split at h
  · cases h
  · cases h
  · rw [if_neg (by simp [ha _ rfl])] at h
    cases h
    rfl
  all_goals
    cases h
    first | rfl | exact level_modify rfl

theorem trapped_leaves {back : Bool} (h : Leaves s c p t back) :
    (t.proc q).trapped = (s.proc q).trapped := by
  cases h with
  | exhausted => rw [swtchScheduler_proc, modify_field (·.trapped) rfl]
  | plain => rw [swtchScheduler_proc]
  | idle => rw [swtchScheduler_proc, get_next_thread_trapped]
  | back => exact get_next_thread_trapped
  | next => rw [switchTo_proc, modify_field (·.trapped) rfl, get_next_thread_trapped]

private theorem not_boosts (ha : ∀ c, a ≠ .boost c)
    (hpay : ∀ c, a = .tick c → payer s (.tick c) = none) : ¬Boosts s a t := by
  intro h
  cases a with
  | tick c => exact h.1 (hpay c rfl)
  | boost c => exact ha c rfl
  | _ => exact h

/-- The end of a step that is charged to MLFQ and ends in a boost. -/
private theorem boosted_level (ht : t = boost u p) (hp : (s.cpu c).proc = some p)
    (hpay : payer s (.tick c) ≠ none) (hin : InArray u q ↔ InArray s q) :
    Boosts s (.tick c) t ∧ InArray s q ∧ (t.proc q).level = (0, 0) ∨
      ¬(Boosts s (.tick c) t ∧ InArray s q) ∧ (t.proc q).level = (u.proc q).level := by
  have htrap : ∀ x ∈ (s.cpu c).proc, (t.proc x).trapped = false := by
    intro x hx
    cases hp.symm.trans hx
    rw [ht]
    exact boost_trapped
  have hends : PeriodEnds t ↔ PeriodEnds u := by
    unfold PeriodEnds
    rw [ht, boost_mlfqticks]
  have hlevel := boost_level (s := u) (p := p) (q := q)
  rw [← ht] at hlevel
  by_cases hboost : PeriodEnds u ∧ InArray u q
  · rw [if_pos hboost] at hlevel
    exact .inl ⟨⟨hpay, hends.mpr hboost.1, htrap⟩, hin.mp hboost.2, hlevel⟩
  · rw [if_neg hboost] at hlevel
    exact .inr ⟨fun h ↦ hboost ⟨hends.mp h.1.2.1, hin.mpr h.2⟩, hlevel⟩

/-- A tick that is charged to MLFQ ends in a boost, or leaves the levels that the timer has set. -/
theorem tick_level (h : step round s (.tick c) = .ok t) (hpay : payer s (.tick c) = some m) :
    Boosts s (.tick c) t ∧ InArray s q ∧ (t.proc q).level = (0, 0) ∨
      ¬(Boosts s (.tick c) t ∧ InArray s q) ∧
        (t.proc q).level = ((charged round s m).proc q).level := by
  have hne : payer s (.tick c) ≠ none := by simp [hpay]
  obtain ⟨p, hp, hr, hm, ht⟩ := payer_eq_some hpay
  rcases step_cases h with he | ⟨u, c', p', v, back, he, _, hl, hu⟩
  · cases he with
    | tickIdle hp' hr' =>
      cases hp.symm.trans hp'
      exact absurd hr hr'
    | tickStay hp' _ hm' =>
      cases hp.symm.trans hp'
      cases hm.symm.trans hm'
      exact boosted_level rfl (cpu_of_current hp) hne (inArray_quiet quiet_charged)
  · cases he with
    | tickGroup hp' _ hm' ht' =>
      cases hp.symm.trans hp'
      cases hm.symm.trans hm'
      exact absurd ht ht'
    | tickStride hp' _ hm' ht' =>
      cases hp.symm.trans hp'
      cases hm.symm.trans hm'
      exact absurd ht ht'
    | tickYield hp' _ hm' =>
      cases hp.symm.trans hp'
      cases hm.symm.trans hm'
      have hv : (v.proc q).level = ((charged round s m).proc q).level := by
        rw [level_leaves hl, level_modify rfl, level_modify rfl]
      have htrap : (v.proc p).trapped = true := by
        rw [trapped_leaves hl, modify_field (·.trapped) rfl, modify_proc_self]
      rcases hu with ⟨_, rfl⟩ | ⟨rfl, hu⟩
      · refine .inr ⟨fun hb ↦ ?_, hv⟩
        rw [hb.1.2.2 p (cpu_of_current hp)] at htrap
        cases htrap
      · have hboost : t = boost v p := by
          unfold leave at hu
          dsimp only at hu
          rw [if_pos htrap] at hu
          exact (Except.ok.inj hu).symm
        rw [← hv]
        refine boosted_level hboost (cpu_of_current hp) hne ?_
        cases hl with
        | back =>
          apply inArray_quiet
          exact ((quiet_charged.trans quiet_modify).trans quiet_modify).trans quiet_get_next_thread

/-- A step that is neither the end of a period nor a tick charged to MLFQ. -/
private theorem relevel_other (h : step round s a = .ok t) (ha : ∀ c, a ≠ .boost c)
    (hpay : ∀ c, a = .tick c → payer s (.tick c) = none) :
    Relevel s q a (t.proc q).level := by
  rcases step_cases h with he | ⟨u, c, p, v, back, he, _, hl, hu⟩
  · exact relevel_enters he ha hpay
  · have hrel : Relevel s q a (v.proc q).level := by
      rw [level_leaves hl]
      exact relevel_enters he ha hpay
    rcases hu with ⟨_, rfl⟩ | ⟨_, hu⟩
    · exact hrel
    · rw [level_leave hu]
      · exact hrel
      · rintro c' rfl
        have hp : current s c' = .ok p → (v.proc p).trapped = (s.proc p).trapped →
            (v.proc p).trapped = false := by
          intro hp hv
          rw [hv]
          exact (current_eq_ok.mp hp).2
        cases he with
        | tickYield hp' hr hm ht =>
          have hnone := hpay _ rfl
          rw [payer_tick hp' hr hm ht] at hnone
          cases hnone
        | tickGroup hp' =>
          apply hp hp'
          rw [trapped_leaves hl, modify_field (·.trapped) rfl,
            check_on_timer_field (·.trapped) fun _ _ _ _ ↦ rfl, modify_field (·.trapped) rfl]
          dsimp only [strode]
          rw [modify_field (·.trapped) rfl]
        | tickStride hp' =>
          apply hp hp'
          rw [trapped_leaves hl, modify_field (·.trapped) rfl]
          dsimp only [strode]
          rw [modify_field (·.trapped) rfl]

/-- The level of `q` after a step: a boost sets it if `q` is in the array. -/
theorem step_relevel (h : step round s a = .ok t) :
    Boosts s a t ∧ InArray s q ∧ (t.proc q).level = (0, 0) ∨
      ¬(Boosts s a t ∧ InArray s q) ∧ Relevel s q a (t.proc q).level := by
  have hother : (∀ c, a ≠ .boost c) → (∀ c, a = .tick c → payer s (.tick c) = none) →
      ¬(Boosts s a t ∧ InArray s q) ∧ Relevel s q a (t.proc q).level :=
    fun ha hpay ↦ ⟨fun hb ↦ not_boosts ha hpay hb.1, relevel_other h ha hpay⟩
  cases a with
  | tick c =>
    cases hpay : payer s (.tick c) with
    | none => exact .inr (hother (fun _ ha ↦ by cases ha) fun _ ha ↦ by cases ha; exact hpay)
    | some m =>
      rcases tick_level (q := q) h hpay with hboost | ⟨hno, hlevel⟩
      · exact .inl hboost
      · right
        refine ⟨hno, ?_⟩
        rw [hlevel]
        exact relevel_charged hpay
  | boost c =>
    rcases step_cases h with he | ⟨_, _, _, _, _, he, _⟩
    · cases he with
      | @boost c p hp ht =>
        have hlevel := boost_level (s := s) (p := p) (q := q)
        have hends : PeriodEnds (Sched.boost s p) ↔ PeriodEnds s := by
          unfold PeriodEnds
          rw [boost_mlfqticks]
        by_cases hboost : PeriodEnds s ∧ InArray s q
        · rw [if_pos hboost] at hlevel
          exact .inl ⟨hends.mpr hboost.1, hboost.2, hlevel⟩
        · rw [if_neg hboost] at hlevel
          right
          refine ⟨fun h ↦ hboost ⟨hends.mp h.1, h.2⟩, ?_⟩
          rw [hlevel]
          exact .stay
    · cases he
  | _ => exact .inr (hother (fun _ ha ↦ by cases ha) fun _ ha ↦ by cases ha)

/-- The timer either demotes the process or counts the tick. -/
theorem onTimer_level {v : Proc} (ht : v.tickets = 0) : v.ticked.onTimer.level =
    if v.qlev < 2 ∧ (v.qticks + 1) % allotment v = 0 then (v.qlev + 1, 0)
    else (v.qlev, v.qticks + 1) := by
  unfold Proc.onTimer
  rw [if_pos (show v.ticked.tickets = 0 from ht)]
  have hall : allotment v.ticked = allotment v := rfl
  have hlev : v.ticked.qlev = v.qlev := rfl
  have hticks : v.ticked.qticks = v.qticks + 1 := rfl
  rw [hall, hlev, hticks]
  split
  · rfl
  · split <;> rfl

/-! ### New processes -/

/-- A new process is at the highest level. -/
theorem allocates_level (h : step round s a = .ok t) (ha : Allocates s p a) :
    (t.proc p).level = (0, 0) := by
  cases a with
  | fork c kalloc =>
    cases kalloc with
    | false => exact ha.elim
    | true =>
      rcases step_cases h with he | ⟨_, _, _, _, _, he, _⟩
      · cases he with
        | fork =>
          obtain ⟨hl, ht⟩ := fork_boosted ha rfl
          exact Prod.ext hl ht
      · cases he
  | thread_create c =>
    rcases step_cases h with he | ⟨_, _, _, _, _, he, _⟩
    · cases he with
      | thread_create _ _ halloc =>
        obtain ⟨hf, _, th, i, rfl⟩ := allocthread_ok halloc
        cases hf.symm.trans ha
        rw [modify_field Proc.level rfl, modify_field Proc.level rfl, modify_field Proc.level rfl,
          modify_field Proc.level rfl, modify_field Proc.level rfl]
        dsimp only
        rw [modify_proc_self]
        rfl
    · cases he
  | _ => exact ha.elim

/-- A process without tickets that is not new had none before. -/
theorem tickets_before (h : step round s a = .ok t) (ha : ¬Allocates s p a)
    (ht : (t.proc p).tickets = 0) : (s.proc p).tickets = 0 := by
  obtain ⟨r, hr, hafter⟩ := step_enters h
  rw [hafter.tickets] at ht
  rcases enters_tickets (q := p) hr with hq | ⟨hq, _⟩ | ⟨_, x, _, _, hx, hq⟩
  · rw [← hq, ht]
  · exact absurd hq ha
  · exact absurd (hq.symm.trans ht) hx

/-- A process that is granted a share has tickets. -/
theorem tickets_granted {x : Int} (h : step round s (.set_cpu_share c x) = .ok t)
    (hp : caller s c = .ok p) (hx : Grants s x) : (t.proc p).tickets ≠ 0 := by
  rcases step_cases h with h | ⟨_, _, _, _, _, h, _⟩
  · cases h with
    | refused _ hmax => exact absurd hx hmax
    | granted hp' _ _ _ h0 =>
      cases hp.symm.trans hp'
      rw [granted_proc_tickets, if_pos rfl]
      exact h0
  · cases h

/-! ### The processes that a boost reaches -/

/-- An entry of the heap of MLFQ, up to `count`. -/
def InQueue (s : State n) (p : Slot) : Prop :=
  ∃ i : Fin NPROC, i < (s.sched .mlfq).count ∧ (s.sched .mlfq).heap (i + 1) = some p

instance (s : State n) (p : Slot) : Decidable (InQueue s p) := inferInstanceAs (Decidable (∃ _, _))

/-- `priority_boost` resets the queued processes, leaves the others alone and follows no null
pointer. -/
structure BoostsQueue (s : State n) : Prop where
  queued : ∀ p, InQueue s p →
    (priority_boost s).proc p = { s.proc p with qlev := 0, qticks := 0 }
  others : ∀ p, ¬InQueue s p → (priority_boost s).proc p = s.proc p
  occupied : ∀ i : Fin NPROC, (s.sched .mlfq).heap (i + 1) ≠ none

private theorem boosted_proc (h : InArray s p) :
    (priority_boost s).proc p = { s.proc p with qlev := 0, qticks := 0 } := if_pos h

private theorem unboosted_proc (h : ¬InArray s p) : (priority_boost s).proc p = s.proc p := if_neg h

theorem InQueue.inArray (h : InQueue s p) : InArray s p := by
  obtain ⟨i, _, hi⟩ := h
  exact ⟨i, hi⟩

/-- A boost reaches the queue and nothing else if and only if every slot of the array holds a
process that is queued or would not be changed. -/
theorem boosts_queue_iff (s : State n) : BoostsQueue s ↔ ∀ i : Fin NPROC, ∃ p,
    (s.sched .mlfq).heap (i + 1) = some p ∧ (InQueue s p ∨ Boosted s p) := by
  constructor
  · intro h i
    obtain ⟨p, hp⟩ := Option.ne_none_iff_exists'.mp (h.occupied i)
    refine ⟨p, hp, ?_⟩
    by_cases hq : InQueue s p
    · exact .inl hq
    · have hsame := h.others p hq
      rw [boosted_proc ⟨i, hp⟩] at hsame
      exact .inr ⟨(congrArg Proc.qlev hsame).symm, (congrArg Proc.qticks hsame).symm⟩
  · intro h
    refine ⟨fun p hp ↦ boosted_proc hp.inArray, fun p hp ↦ ?_, fun i ↦ ?_⟩
    · by_cases hin : InArray s p
      · obtain ⟨i, hi⟩ := hin
        obtain ⟨q, hq, hcase⟩ := h i
        cases hi.symm.trans hq
        rcases hcase with hqueue | ⟨hl, ht⟩
        · exact absurd hqueue hp
        · rw [boosted_proc ⟨i, hi⟩, ← hl, ← ht]
      · exact unboosted_proc hin
    · obtain ⟨q, hq, _⟩ := h i
      rw [hq]
      exact Option.some_ne_none q

end

section

/-- With one process, all slots past the first are null. -/
theorem boost_dispatched_null : (exec (step float) (boot 1) [.scheduler cpu0]).isOk = true ∧
    ¬BoostsQueue (final (step float) (boot 1) [.scheduler cpu0]) := by
  have hok : (exec (step float) (boot 1) [.scheduler cpu0]).isOk = true := by decide +kernel
  have hnull : ((final (step float) (boot 1) [.scheduler cpu0]).sched .mlfq).heap
      ((1 : Fin NPROC) + 1) = none := by decide +kernel
  exact ⟨hok, fun h ↦ h.occupied 1 hnull⟩

end

end Xv6.Sched
