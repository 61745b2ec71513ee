import Xv6.Sched.Drive
import Xv6.Sched.Switches

/-!
# The share of MLFQ

`scheduler()` takes the stride branch only while the pass of MLFQ is ahead, and a visit of that
branch lasts one tick, or five when a group of threads runs. So the stride scheduler gets at most
four ticks for each one of MLFQ, but for what it is behind when the count begins, as long as its
stride is at least a fourth of that of MLFQ. The integer quotients break this when the stride
scheduler has all the tickets it may get: the strides are then 5 and 1.
-/

namespace Xv6.Sched

open Function Lib

/-- How far the pass of MLFQ is ahead of that of the stride scheduler. -/
def lead {n : Nat} (s : State n) : Int := (s.sched .mlfq).pass - (s.sched .stride).pass

section

/-- The process on the CPU was dispatched by the stride branch, or none was dispatched since `s`. -/
def Visit (s u : State 1) : Prop :=
  (∃ q, (u.cpu cpu0).dispatched = some (.stride, q)) ∨ u.trace.length = s.trace.length

instance (s u : State 1) : Decidable (Visit s u) := inferInstanceAs (Decidable (_ ∨ _))

/-- The threads of the running group have its master as theirs, and no boost resets the ticks of
the group while it runs with tickets. -/
def KeepsGroup (u : State 1) (a : Action 1) : Prop :=
  ∀ p m, (u.cpu cpu0).proc = some p → (u.proc p).master = some m →
    ((u.proc m).master = some m ∧ ∀ i q, (u.proc m).threads i = some q →
      (u.proc q).state = .RUNNABLE ∨ (u.proc q).state = .SLEEPING → (u.proc q).master = some m) ∧
    (a = .boost cpu0 → (u.proc m).tickets ≠ 0 → u.mlfqticks % PRIORITYBOOST = 0 → ¬InArray u m)

/-- No share is granted, ticks are charged to the stride scheduler in its own visits, and `w` is the
length of a visit: one tick where no threads run, or the quantum of a group. -/
structure Steady (s : State 1) (w : Int) (u : State 1) (a : Action 1) : Prop where
  grants : GrantsNone u a
  visit : strider u a ≠ none → Visit s u
  length : w = 1 ∧ (∀ p, strider u a = some p → (u.proc p).isthread = false) ∨
    w = TQSTRIDE ∧ KeepsGroup u a

/-- `p` has made no tick in its visit yet, or its group has made as many as its `qticks` say. -/
def OnPace (s : State 1) (w : Int) (u : State 1) (p : Slot) : Prop :=
  min (lead s) 1 ≤ lead u ∨ w = TQSTRIDE ∧ ∀ m, (u.proc p).master = some m →
    (u.proc m).tickets ≠ 0 →
      min (lead s) 1 - ((u.proc m).qticks % TQSTRIDE : Nat) * (s.sched .stride).stride ≤ lead u

/-- What holds in the states of such a run from `s`. -/
structure Paced (s : State 1) (w : Int) (u : State 1) : Prop where
  stride : ∀ k, (u.sched k).stride = (s.sched k).stride
  trace : s.trace.length ≤ u.trace.length
  behind : min (lead s) 1 - w * (s.sched .stride).stride ≤ lead u
  visit : ∀ p, (u.cpu cpu0).proc = some p → Visit s u → OnPace s w u p

variable {s t u v : State 1} {a : Action 1} {r : Next 1} {c : Fin 1} {p q m : Slot} {w : Int}

/-! ### The group of the process on the CPU -/

/-- If the group of `p` has tickets after, it had them before and has used as many ticks. -/
def SameGroup (u t : State 1) (p : Slot) : Prop :=
  ∀ m, (t.proc p).master = some m → (t.proc m).tickets ≠ 0 →
    (u.proc p).master = some m ∧ (u.proc m).tickets ≠ 0 ∧ (t.proc m).qticks = (u.proc m).qticks

theorem SameGroup.trans (h : SameGroup s t p) (h' : SameGroup t u p) : SameGroup s u p := by
  intro m hm ht
  obtain ⟨hm', ht', hq'⟩ := h' m hm ht
  obtain ⟨hm'', ht'', hq''⟩ := h m hm' ht'
  exact ⟨hm'', ht'', hq'.trans hq''⟩

theorem SameGroup.of_eq (h : ∀ q, (t.proc q).master = (u.proc q).master ∧
    (t.proc q).tickets = (u.proc q).tickets ∧ (t.proc q).qticks = (u.proc q).qticks) :
    SameGroup u t p := by
  intro m hm ht
  rw [(h p).1] at hm
  rw [(h m).2.1] at ht
  exact ⟨hm, ht, (h m).2.2⟩

/-- A group without tickets has none after either. -/
theorem SameGroup.of_mlfq (hmaster : (t.proc p).master = some m) (ht : (t.proc m).tickets = 0) :
    SameGroup u t p := by
  intro x hx hxt
  rw [hmaster] at hx
  cases hx
  exact absurd ht hxt

private theorem sameGroup_modify {f : Proc → Proc} (h : ∀ v, (f v).master = v.master ∧
    (f v).tickets = v.tickets ∧ (f v).qticks = v.qticks) : SameGroup u (u.modify q f) p := by
  apply SameGroup.of_eq
  intro x
  exact ⟨modify_master fun v ↦ (h v).1, modify_tickets fun v ↦ (h v).2.1,
    modify_qticks fun v ↦ (h v).2.2⟩

private theorem wakeup1_qticks {chan : Option Chan} :
    ((wakeup1 u chan).proc q).qticks = (u.proc q).qticks :=
  wakeup1_field (·.qticks) fun _ _ _ ↦ rfl

private theorem sameGroup_wakeup1 {chan : Option Chan} : SameGroup u (wakeup1 u chan) p := by
  apply SameGroup.of_eq
  intro x
  exact ⟨stable_master.wakeup1, stable_tickets.wakeup1, wakeup1_qticks⟩

private theorem exited_qticks : ((exited s m).proc q).qticks = (s.proc q).qticks := by
  unfold exited
  simp only [modify_qticks, implies_true]
  rw [abandonChildren_field (·.qticks) (fun _ _ _ ↦ rfl) fun _ _ ↦ rfl, wakeup1_qticks]
  split
  · exact freeThreads_field (·.qticks) (fun _ _ _ ↦ rfl) fun _ _ _ ↦ rfl
  · rfl

private theorem sameGroup_exited : SameGroup u (exited u m) p :=
  SameGroup.of_eq fun _ ↦ ⟨stable_master.exited, stable_tickets.exited, exited_qticks⟩

private theorem sameGroup_kill {pid : Nat} (h : kill u pid = .ok t) : SameGroup u t p := by
  apply SameGroup.of_eq
  intro q
  refine ⟨stable_master.kill h, stable_tickets.kill h, ?_⟩
  rcases kill_ok h with rfl | ⟨x, _, _, hw⟩
  · rfl
  · obtain ⟨b, y, hv, _⟩ := hw q
    rw [hv]

private theorem sameGroup_fork {b : Bool} : SameGroup u (fork u q b) p := by
  have hnp : ∀ {x : State 1} {np}, SameGroup x (x.modify q fun v ↦ { v with np }) p :=
    sameGroup_modify fun _ ↦ ⟨rfl, rfl, rfl⟩
  unfold fork
  rcases allocproc_cases u b with h | ⟨x, _, _, h⟩ | ⟨x, _, _, h⟩
  · rw [h]
    exact hnp
  · rw [h]
    exact SameGroup.trans (t := { u.modify x fun v ↦ { v with pid := u.nextpid } with
      nextpid := u.nextpid + 1 }) (SameGroup.of_eq fun y ↦ ⟨by simp, by simp, by simp⟩) hnp
  · rw [h]
    refine SameGroup.trans (t := { u.modify x (Proc.fresh x u.nextpid) with
      nextpid := u.nextpid + 1 }) ?_ hnp
    intro m hm ht
    dsimp only at hm ht
    have hmx : m ≠ x := by
      intro hmx
      subst hmx
      simp [Proc.fresh] at ht
    have hpx : p ≠ x := by
      intro hpx
      subst hpx
      simp [Proc.fresh] at hm
      exact hmx hm.symm
    rw [modify_proc_of_ne hmx] at ht
    rw [modify_proc_of_ne hpx] at hm
    exact ⟨hm, ht, by rw [modify_proc_of_ne hmx]⟩

private theorem sameGroup_allocthread {new : Slot} (h : allocthread u m = .ok (t, new)) :
    SameGroup u t p := by
  obtain ⟨_, _, th, i, rfl⟩ := allocthread_ok h
  intro x hx ht
  have hxn : x ≠ new := by
    intro hxn
    subst hxn
    simp at ht
  refine ⟨by simpa using hx, ?_, ?_⟩
  · simpa [modify_proc_of_ne hxn] using ht
  · simp [modify_proc_of_ne hxn]

/-- A process that makes a thread ready stays in its group. -/
private theorem sameGroup_ready {new : Slot} (hm : (u.proc p).master = some m) :
    SameGroup u ((((u.modify p fun v ↦ { v with np := none }).modify new fun v ↦
      { v with master := some m }).modify m fun v ↦ { v with isthread := true }).modify new
        fun v ↦ { v with state := .RUNNABLE }) p := by
  intro x hx ht
  have hxm : x = m := by
    by_cases hp : p = new
    · subst hp
      simpa using hx.symm
    · simp [modify_proc_of_ne hp, hm] at hx
      exact hx.symm
  subst hxm
  exact ⟨hm, by simpa using ht, by simp⟩

private theorem sameGroup_boost (h : ∀ m, (u.proc p).master = some m → (u.proc m).tickets ≠ 0 →
    u.mlfqticks % PRIORITYBOOST = 0 → ¬InArray u m) : SameGroup u (boost u p) p := by
  intro m hm ht
  rw [stable_master.boost] at hm
  rw [stable_tickets.boost] at ht
  refine ⟨hm, ht, ?_⟩
  by_cases hk : u.mlfqticks % PRIORITYBOOST = 0
  · exact (boost_of_notMem (h m hm ht hk)).2
  · unfold boost
    rw [if_neg fun hb ↦ hk hb.2]
    simp

/-- Steps other than ticks of the stride scheduler and dispatches. -/
private theorem sameGroup_enters (h : Enters id u a r) (hp : (u.cpu cpu0).proc = some p)
    (ha : GrantsNone u a) (hstr : strider u a = none) (hboost : KeepsGroup u a) :
    (∃ c, a = .scheduler c) ∨ SameGroup u r.state p := by
  have hrunning : ∀ {c q}, current u c = .ok q → q = p := by
    intro c q hq
    have hcpu := cpu_of_current hq
    rw [Subsingleton.elim c cpu0, hp] at hcpu
    exact (Option.some.inj hcpu).symm
  have hmlfq : ∀ {c q m t}, current u c = .ok q → (u.proc q).master = some m →
      (u.proc m).tickets = 0 → (∀ x, (t.proc x).master = (u.proc x).master) →
      (∀ x, (t.proc x).tickets = (u.proc x).tickets) → SameGroup u t p := by
    intro c q m t hq hm ht hmaster htickets
    have hqp := hrunning hq
    subst hqp
    exact SameGroup.of_mlfq (m := m) (by rw [hmaster, hm]) (by rw [htickets, ht])
  cases h with
  | scheduler => exact .inl ⟨_, rfl⟩
  | granted hq hmax => exact absurd hmax (ha _ hq)
  | tickGroup hq hr hm ht =>
    rw [strider_tick hq hr hm ht] at hstr
    cases hstr
  | tickStride hq hr hm ht =>
    rw [strider_tick hq hr hm ht] at hstr
    cases hstr
  | tickYield hq _ hm ht =>
    right
    apply hmlfq hq hm ht
    · intro x
      simp [Next.state, yield, stable_master.charged]
    · intro x
      simp [Next.state, yield, stable_tickets.charged]
  | tickStay hq _ hm ht =>
    right
    apply hmlfq hq hm ht
    · intro x
      exact stable_master.boost.trans stable_master.charged
    · intro x
      exact stable_tickets.boost.trans stable_tickets.charged
  | @boost c q hq =>
    right
    rw [Subsingleton.elim c cpu0, hp] at hq
    cases hq
    exact sameGroup_boost fun m hm ht hk ↦
      (hboost p m hp hm).2 (by rw [Subsingleton.elim c cpu0]) ht hk
  | kill h => exact .inr (sameGroup_kill h)
  | fork => exact .inr sameGroup_fork
  | exit => exact .inr sameGroup_exited
  | wakeup => exact .inr sameGroup_wakeup1
  | thread_create _ _ h =>
    right
    apply (sameGroup_allocthread h).trans
    dsimp only [Next.state]
    apply sameGroup_modify
    exact fun _ ↦ ⟨rfl, rfl, rfl⟩
  | threadReady hq _ hm =>
    right
    have hqp := hrunning hq
    subst hqp
    exact sameGroup_ready hm
  | thread_exit =>
    right
    apply SameGroup.of_eq
    intro x
    simp [Next.state, stable_master.wakeup1, stable_tickets.wakeup1, wakeup1_qticks]
  | _ =>
    right
    apply SameGroup.of_eq
    intro x
    simp [Next.state, yield, sleep, mlfq_enqueue]

/-! ### A visit -/

/-- A step adds the stride of MLFQ to the lead, or takes that of the stride scheduler from it. -/
theorem enters_lead (h : Enters id u a r) (ha : GrantsNone u a) : lead r.state = lead u +
    ((if Charges u .mlfq a then (u.sched .mlfq).stride else 0) -
      if Charges u .stride a then (u.sched .stride).stride else 0) := by
  have hm := enters_pass h ha .mlfq
  have hs := enters_pass h ha .stride
  unfold lead
  rw [hm, hs]
  simp only [passAfter, id]
  split_ifs <;> ring

private theorem lead_mono (h : Enters id u a r) (ha : GrantsNone u a)
    (hx : 0 ≤ (u.sched .mlfq).stride) (hstr : strider u a = none) : lead u ≤ lead r.state := by
  rw [enters_lead h ha, if_neg (c := Charges u .stride a) (not_not.mpr hstr)]
  split_ifs <;> omega

private theorem OnPace.mono (h : OnPace s w u p) (hlead : lead u ≤ lead t)
    (hgroup : w = TQSTRIDE → SameGroup u t p) : OnPace s w t p := by
  rcases h with h | ⟨hw, h⟩
  · exact .inl (h.trans hlead)
  · refine .inr ⟨hw, fun m hm ht ↦ ?_⟩
    obtain ⟨hm', ht', hq⟩ := hgroup hw m hm ht
    rw [hq]
    exact (h m hm' ht').trans hlead

private theorem enters_places (h : Enters id u a r) (ha : GrantsNone u a) :
    (r.state.cpu = u.cpu ∧ r.state.trace = u.trace) ∨
      ∃ c t, a = .scheduler c ∧ r = .done t ∧ scheduler u c = .ok t := by
  rcases enters_quiet h with hq | hs | ⟨_, _, _, _, _, _, rfl⟩ | ⟨_, _, _, rfl, hp, hmax, _⟩
  · exact .inl ⟨hq.cpu, hq.trace⟩
  · exact .inr hs
  · exact .inl ⟨by simp [Next.state, mlfq_enqueue], by simp [Next.state, mlfq_enqueue]⟩
  · exact absurd hmax (ha _ hp)

/-- A process that comes from the stride branch starts its visit with MLFQ ahead. -/
private theorem onPace_scheduler (h : scheduler u c = .ok t) (htrace : s.trace.length ≤ u.trace.length)
    (hp : (t.cpu cpu0).proc = some p) (hv : Visit s t) : OnPace s w t p := by
  have hlead : lead t = lead u := by
    unfold lead
    rw [(scheduler_rates h .mlfq).2.2, (scheduler_rates h .stride).2.2]
  have hc : c = cpu0 := Subsingleton.elim c cpu0
  subst hc
  obtain ⟨hidle, _, hpick⟩ := picks h
  have hrun : ∀ {x : State 1} {q}, t = dispatch x cpu0 (chosen u) q → x.trace = u.trace →
      OnPace s w t p := by
    intro x q ht hx
    left
    rcases hv with ⟨y, hy⟩ | hlen
    · rw [ht, dispatch_cpu, update_self] at hy
      have hstride : chosen u = .stride := congrArg Prod.fst (Option.some.inj hy)
      have hnot : ¬((u.sched .mlfq).pass ≤ (u.sched .stride).pass ∨ (u.sched .stride).count = 0) := by
        intro hor
        rw [chosen, if_pos hor] at hstride
        cases hstride
      rw [hlead]
      unfold lead
      omega
    · rw [ht, dispatch_trace, List.length_cons, hx] at hlen
      omega
  have hsame : t.cpu = u.cpu → OnPace s w t p := by
    intro hcpu
    rw [hcpu, hidle] at hp
    cases hp
  cases hpick with
  | empty => exact hsame rfl
  | drop => exact hsame dequeue_cpu
  | parked _ _ _ _ hu =>
    obtain ⟨_, _, _, rfl, _⟩ := park_ok hu
    exact hsame (by simp)
  | asleep _ _ _ _ hu =>
    obtain ⟨_, _, _, rfl, _⟩ := park_ok hu
    exact hsame (by simp)
  | worker _ _ _ _ hu =>
    obtain ⟨_, _, _, rfl, _⟩ := park_ok hu
    exact hrun rfl (by simp)
  | run => exact hrun rfl dequeue_trace

/-- A tick of a group with tickets counts, and the fifth uses up its quantum. -/
private theorem group_timer {round : Int → Int} (ht : (u.proc m).tickets ≠ 0)
    (h : t = check_on_timer ((strode round u p).modify m fun v ↦ { v with qticks := v.qticks + 1 }) m) :
    (t.proc m).qticks = (u.proc m).qticks + 1 ∧
      ((t.proc m).isexhausted = false → ¬((u.proc m).qticks + 1) % TQSTRIDE = 0) := by
  have hq : ((strode round u p).proc m).qticks = (u.proc m).qticks := by simp [strode]
  have htm : ((strode round u p).proc m).tickets ≠ 0 := by
    rw [stable_tickets.strode]
    exact ht
  rw [h, check_on_timer_modify, modify_proc_self, modify_proc_self]
  unfold Proc.onTimer
  rw [if_neg htm]
  dsimp only
  rw [hq]
  split
  · exact ⟨rfl, fun he ↦ Bool.noConfusion he⟩
  · next hnot => exact ⟨rfl, fun _ hz ↦ hnot ⟨Nat.succ_pos _, hz⟩⟩

/-- A tick of a group that does not use up its quantum leaves it one more tick behind. -/
private theorem onPace_group (hon : OnPace s TQSTRIDE u p) (hm : (u.proc p).master = some m)
    (ht : (u.proc m).tickets ≠ 0) (hlead : lead t = lead u - (s.sched .stride).stride)
    (hmaster : (t.proc p).master = some m) (hq : (t.proc m).qticks = (u.proc m).qticks + 1)
    (he : ¬((u.proc m).qticks + 1) % TQSTRIDE = 0) (hy : 0 ≤ (s.sched .stride).stride) :
    OnPace s TQSTRIDE t p := by
  refine .inr ⟨rfl, fun x hx _ ↦ ?_⟩
  rw [hmaster] at hx
  cases hx
  have hmod : ((u.proc m).qticks + 1) % TQSTRIDE = (u.proc m).qticks % TQSTRIDE + 1 := by
    change ¬((u.proc m).qticks + 1) % 5 = 0 at he
    change ((u.proc m).qticks + 1) % 5 = (u.proc m).qticks % 5 + 1
    omega
  rw [hq, hmod, hlead]
  push_cast
  rw [add_mul, one_mul]
  rcases hon with hon | ⟨_, hon⟩
  · have hnonneg : 0 ≤ (((u.proc m).qticks % TQSTRIDE : Nat) : Int) * (s.sched .stride).stride :=
      mul_nonneg (Int.natCast_nonneg _) hy
    push_cast at hnonneg
    omega
  · have hon' := hon m hm ht
    push_cast at hon'
    omega

/-- What the process on the CPU takes into a call of `sched` that does not end its visit. -/
private theorem onPace_sched (h : Enters id u a (.sched t c p)) (hs : Paced s w u)
    (hr : ∀ k, 0 ≤ (u.sched k).stride) (ha : Steady s w u a) (hv : Visit s u)
    (hm : (t.proc p).master = some m) (he : (t.proc m).isexhausted = false)
    (hi : (t.proc p).isthread = true) : OnPace s w t p := by
  have hcpu : (u.cpu cpu0).proc = some p := Subsingleton.elim c cpu0 ▸ cpu_of_sched h
  have hon := hs.visit p hcpu hv
  have hlead := enters_lead h ha.grants
  by_cases hstr : strider u a = none
  · apply hon.mono (lead_mono h ha.grants (hr .mlfq) hstr)
    intro hw
    have hgroup : KeepsGroup u a := by
      rcases ha.length with ⟨hw1, _⟩ | ⟨_, hg⟩
      · rw [hw] at hw1
        cases hw1
      · exact hg
    rcases sameGroup_enters h hcpu ha.grants hstr hgroup with ⟨c', rfl⟩ | hsame
    · cases h
    · exact hsame
  · have hpay : payer u a = none ∧ (∃ c, a = .tick c) := by
      cases a with
      | tick c =>
        obtain ⟨x, hx⟩ := Option.ne_none_iff_exists'.mp hstr
        obtain ⟨hx, _, y, hy, hyt⟩ := strider_eq_some hx
        exact ⟨payer_of_stride hx hy hyt, c, rfl⟩
      | _ => exact absurd rfl hstr
    have hlead' : lead t = lead u - (s.sched .stride).stride := by
      rw [← hs.stride, show lead t = lead (Next.sched t c p).state from rfl, hlead,
        if_neg (c := Charges u .mlfq a) (not_not.mpr hpay.1),
        if_pos (c := Charges u .stride a) hstr]
      ring
    obtain ⟨_, c', rfl⟩ := hpay
    cases h with
    | tickYield hq _ hmq ht => exact absurd (strider_of_mlfq hq hmq ht) hstr
    | tickStride hq _ _ _ hiq =>
      simp [strode, hiq] at hi
    | @tickGroup _ _ m' hq hrun hmq ht hiq =>
      have hw : w = TQSTRIDE := by
        rcases ha.length with ⟨_, hsingle⟩ | ⟨hw, _⟩
        · have hnot := hsingle p (strider_tick hq hrun hmq ht)
          rw [hiq] at hnot
          cases hnot
        · exact hw
      subst hw
      have hmaster : ∀ x, ((((check_on_timer ((strode id u p).modify m' fun v ↦
          { v with qticks := v.qticks + 1 }) m').modify p fun v ↦
            { v with state := .RUNNABLE }).proc x).master) = (u.proc x).master := by
        intro x
        simp [stable_master.check_on_timer, stable_master.strode]
      have hmm : m' = m := by
        rw [hmaster, hmq] at hm
        exact Option.some.inj hm
      subst hmm
      obtain ⟨hqt, hne⟩ := @group_timer _ _ p _ id ht rfl
      simp only [modify_isexhausted, implies_true] at he
      apply onPace_group hon hmq ht hlead' hm _ (hne he)
      · rw [← hs.stride]
        exact hr .stride
      · simp only [modify_qticks, implies_true]
        exact hqt

/-- The thread that a call of `sched` switches to is of the same group. -/
private theorem master_next (h : Enters id u a (.sched t c p)) (hgroup : KeepsGroup u a)
    (hm : (t.proc p).master = some m) (hn : (get_next_thread t m).2 = some q) (hq : q ≠ p) :
    (t.proc q).master = some m := by
  have hcpu : (u.cpu cpu0).proc = some p := Subsingleton.elim c cpu0 ▸ cpu_of_sched h
  rw [sched_master h] at hm ⊢
  obtain ⟨hself, hmem⟩ := (hgroup p m hcpu hm).1
  rcases get_next_thread_snd hn with ⟨_, rfl⟩ | ⟨_, hrun, i, hi⟩
  · exact hself
  · apply hmem i q (sched_threads h hi)
    have hmoves : Moves u a q (t.proc q).state := enters_state h
    obtain ⟨x, hx⟩ : ∃ x, x = (t.proc q).state := ⟨_, rfl⟩
    rw [← hx] at hmoves hrun
    cases hmoves with
    | stay => exact .inl hrun
    | @self _ c' _ _ hcur =>
      have hqp := cpu_of_current hcur
      rw [Subsingleton.elim c' cpu0, hcpu] at hqp
      exact absurd (Option.some.inj hqp).symm hq
    | wake hsl => exact .inr hsl
    | ready _ _ ha =>
      rcases ha with rfl | rfl
      all_goals cases h
    | _ => cases hrun

/-! ### Steps -/

private theorem sameGroup_leaves {m : Slot} : SameGroup t (get_next_thread t m).1 p :=
  SameGroup.of_eq fun _ ↦ ⟨get_next_thread_master, get_next_thread_tickets, get_next_thread_qticks⟩

/-- The rest of a step that goes on after its call of `sched` returned at once. -/
private theorem sameGroup_leave (h : Enters id u a (.sched t c p)) {x : State 1}
    (hmaster : (x.proc p).master = (t.proc p).master)
    (htickets : ∀ q, (x.proc q).tickets = (t.proc q).tickets)
    (htrapped : (x.proc p).trapped = (t.proc p).trapped) (hv : leave x p a = .ok v) :
    SameGroup x v p := by
  cases h with
  | @tickYield _ _ m _ _ hm ht =>
    simp only [leave] at hv
    split at hv
    all_goals cases hv
    · apply SameGroup.of_mlfq (m := m)
      · rw [stable_master.boost, hmaster]
        simpa [stable_master.charged] using hm
      · rw [stable_tickets.boost, htickets]
        simpa [stable_tickets.charged] using ht
    · exact SameGroup.of_eq fun _ ↦ ⟨rfl, rfl, rfl⟩
  | tickGroup hq =>
    have hnot : ¬(x.proc p).trapped = true := by
      rw [htrapped]
      simp only [modify_trapped, implies_true]
      rw [check_on_timer_field (·.trapped) fun _ _ _ _ ↦ rfl]
      simp [strode, (current_eq_ok.mp hq).2]
    simp only [leave, if_neg hnot] at hv
    cases hv
    exact SameGroup.of_eq fun _ ↦ ⟨rfl, rfl, rfl⟩
  | tickStride hq =>
    have hnot : ¬(x.proc p).trapped = true := by
      rw [htrapped]
      simp [strode, (current_eq_ok.mp hq).2]
    simp only [leave, if_neg hnot] at hv
    cases hv
    exact SameGroup.of_eq fun _ ↦ ⟨rfl, rfl, rfl⟩
  | exit => cases hv
  | thread_exit => cases hv
  | yield =>
    cases hv
    exact SameGroup.of_eq fun _ ↦ ⟨rfl, rfl, rfl⟩
  | _ =>
    cases hv
    apply sameGroup_modify
    exact fun _ ↦ ⟨rfl, rfl, rfl⟩

private theorem leave_places {x : State 1} (h : leave x p a = .ok v) :
    v.cpu = x.cpu ∧ v.trace = x.trace := by
  unfold leave at h
  split at h
  · cases h
  · cases h
  · split at h
    · cases h
      exact ⟨boost_cpu, boost_trace⟩
    · cases h
      exact ⟨rfl, rfl⟩
  all_goals
    cases h
    exact ⟨rfl, rfl⟩

private theorem visit_congr (hcpu : t.cpu = u.cpu) (htrace : t.trace = u.trace) :
    Visit s t ↔ Visit s u := by
  unfold Visit
  rw [hcpu, htrace]

private theorem lead_after (h : After t u) : lead u = lead t := by
  unfold lead
  rw [(h.rates .mlfq).2.2, (h.rates .stride).2.2]

/-- The process that is on the CPU after a call of `sched` is on pace. -/
private theorem onPace_leaves {x : State 1} {back : Bool} (h : Enters id u a (.sched t c p))
    (hs : Paced s w u) (hr : ∀ k, 0 ≤ (u.sched k).stride) (ha : Steady s w u a)
    (hl : Leaves t c p x back) (hv : back = false ∧ v = x ∨ back = true ∧ leave x p a = .ok v)
    (hq : (v.cpu cpu0).proc = some q) (hvisit : Visit s v) : OnPace s w v q := by
  have hc : c = cpu0 := Subsingleton.elim c cpu0
  subst hc
  obtain ⟨hcpu, htrace⟩ | ⟨_, _, rfl, _, _⟩ := enters_places h ha.grants
  swap
  · cases h
  have hcpu' : t.cpu = u.cpu := hcpu
  have htrace' : t.trace = u.trace := htrace
  have hgone : ∀ {y : State 1}, v = swtchScheduler y cpu0 → OnPace s w v q := by
    intro y hy
    rw [hy, swtchScheduler_cpu, update_self] at hq
    cases hq
  cases hl with
  | exhausted =>
    rcases hv with ⟨_, rfl⟩ | ⟨hb, _⟩
    · exact hgone rfl
    · cases hb
  | plain =>
    rcases hv with ⟨_, rfl⟩ | ⟨hb, _⟩
    · exact hgone rfl
    · cases hb
  | idle =>
    rcases hv with ⟨_, rfl⟩ | ⟨hb, _⟩
    · exact hgone rfl
    · cases hb
  | @back m hm he hi hn =>
    obtain ⟨hb, _⟩ | ⟨_, hv⟩ := hv
    · cases hb
    obtain ⟨hvc, hvt⟩ := leave_places hv
    have hqp : q = p := by
      rw [hvc, get_next_thread_cpu, hcpu', cpu_of_sched h] at hq
      exact (Option.some.inj hq).symm
    subst hqp
    have hu : Visit s u := by
      rwa [visit_congr (hvc.trans (get_next_thread_cpu.trans hcpu'))
        (hvt.trans (get_next_thread_trace.trans htrace'))] at hvisit
    have hlead : lead v = lead t := by
      unfold lead
      rw [leave_sched hv, get_next_thread_sched]
    apply (onPace_sched h hs hr ha hu hm he hi).mono hlead.ge
    intro _
    exact sameGroup_leaves.trans (sameGroup_leave h get_next_thread_master
      (fun _ ↦ get_next_thread_tickets) get_next_thread_trapped hv)
  | @next m q' hm he hi hn hne =>
    obtain ⟨_, rfl⟩ | ⟨hb, _⟩ := hv
    swap
    · cases hb
    have hqq : q = q' := by
      rw [switchTo_cpu, update_self] at hq
      exact (Option.some.inj hq).symm
    subst hqq
    have hu : Visit s u := by
      rcases hvisit with ⟨y, hy⟩ | hlen
      · left
        refine ⟨y, ?_⟩
        rw [switchTo_cpu, update_self] at hy
        rw [← hcpu']
        simpa using hy
      · rw [switchTo_trace, List.length_cons, get_next_thread_trace, htrace'] at hlen
        have hle := hs.trace
        omega
    rcases onPace_sched h hs hr ha hu hm he hi with hon | ⟨hw, hon⟩
    · exact .inl (by simpa [lead] using hon)
    · right
      refine ⟨hw, fun y hy hty ↦ ?_⟩
      have hgroup : KeepsGroup u a := by
        rcases ha.length with ⟨hw1, _⟩ | ⟨_, hg⟩
        · rw [hw] at hw1
          cases hw1
        · exact hg
      have hmaster := master_next h hgroup hm hn hne
      have hym : y = m := by
        have hy' : (t.proc q).master = some y := by simpa using hy
        rw [hmaster] at hy'
        exact (Option.some.inj hy').symm
      subst hym
      have hty' : (t.proc y).tickets ≠ 0 := by simpa using hty
      have hle := hon y hm hty'
      simpa [lead] using hle

/-- The process that is on the CPU after a step without a call of `sched` is on pace. -/
private theorem onPace_done (h : Enters id u a (.done v)) (hs : Paced s w u)
    (hr : ∀ k, 0 ≤ (u.sched k).stride) (ha : Steady s w u a) (hp : (v.cpu cpu0).proc = some p)
    (hvisit : Visit s v) : OnPace s w v p := by
  rcases enters_places h ha.grants with ⟨hcpu, htrace⟩ | ⟨c, t, rfl, ht, hsched⟩
  · have hcpu' : v.cpu = u.cpu := hcpu
    have hpu : (u.cpu cpu0).proc = some p := hcpu' ▸ hp
    have hon := hs.visit p hpu ((visit_congr hcpu htrace).mp hvisit)
    have hstr : strider u a = none := by
      cases h with
      | tickIdle hq hrun =>
        simp only [strider, hq, hrun, false_and, if_false]
        split <;> rfl
      | tickStay hq _ hm ht => exact strider_of_mlfq hq hm ht
      | _ => rfl
    apply hon.mono (lead_mono h ha.grants (hr .mlfq) hstr)
    intro hw
    have hgroup : KeepsGroup u a := by
      rcases ha.length with ⟨hw1, _⟩ | ⟨_, hg⟩
      · rw [hw] at hw1
        cases hw1
      · exact hg
    rcases sameGroup_enters h hpu ha.grants hstr hgroup with ⟨c, rfl⟩ | hsame
    · cases h with
      | scheduler hsched =>
        rw [Subsingleton.elim c cpu0] at hsched
        rw [(picks hsched).1] at hpu
        cases hpu
    · exact hsame
  · cases ht
    exact onPace_scheduler hsched hs.trace hp hvisit

private theorem trace_leaves {back : Bool} (h : Leaves t c p v back) :
    t.trace.length ≤ v.trace.length := by
  cases h with
  | next => simp [switchTo_trace]
  | _ => simp

private theorem trace_scheduler (h : scheduler u c = .ok t) : u.trace.length ≤ t.trace.length := by
  obtain ⟨_, _, hpick⟩ := picks h
  cases hpick with
  | parked _ _ _ _ hu =>
    obtain ⟨_, _, _, rfl, _⟩ := park_ok hu
    simp
  | asleep _ _ _ _ hu =>
    obtain ⟨_, _, _, rfl, _⟩ := park_ok hu
    simp
  | worker _ _ _ _ hu =>
    obtain ⟨_, _, _, rfl, _⟩ := park_ok hu
    simp [dispatch_trace]
  | run => simp [dispatch_trace]
  | _ => simp

/-- The history of the switches only grows. -/
private theorem trace_step (h : step id u a = .ok v) (ha : GrantsNone u a) :
    u.trace.length ≤ v.trace.length := by
  have henters : ∀ {r}, Enters id u a r → u.trace.length ≤ r.state.trace.length := by
    intro r hr
    rcases enters_places hr ha with ⟨_, htrace⟩ | ⟨c, t, _, rfl, ht⟩
    · rw [htrace]
    · exact trace_scheduler ht
  rcases step_cases h with h | ⟨t, c, p, x, back, h, _, hl, hv⟩
  · exact henters h
  · have hx : t.trace.length ≤ x.trace.length := trace_leaves hl
    have ht : u.trace.length ≤ t.trace.length := henters h
    rcases hv with ⟨_, rfl⟩ | ⟨_, hv⟩
    · exact ht.trans hx
    · rw [(leave_places hv).2]
      exact ht.trans hx

/-- A tick of the stride scheduler takes its stride from the lead, at most `w` times in a visit. -/
private theorem behind_tick (hs : Paced s w u) (ha : Steady s w u a)
    (hy : 0 ≤ (s.sched .stride).stride) (hstr : strider u a ≠ none) :
    min (lead s) 1 - w * (s.sched .stride).stride ≤ lead u - (s.sched .stride).stride := by
  obtain ⟨c, rfl⟩ : ∃ c, a = .tick c := by
    cases a with
    | tick c => exact ⟨c, rfl⟩
    | _ => exact absurd rfl hstr
  obtain ⟨p, hp⟩ := Option.ne_none_iff_exists'.mp hstr
  obtain ⟨hcur, _, m, hm, ht⟩ := strider_eq_some hp
  have hcpu : (u.cpu cpu0).proc = some p := Subsingleton.elim c cpu0 ▸ cpu_of_current hcur
  have hw : 1 ≤ w := by
    rcases ha.length with ⟨rfl, _⟩ | ⟨rfl, _⟩ <;> decide
  have hwy : 1 * (s.sched .stride).stride ≤ w * (s.sched .stride).stride :=
    mul_le_mul_of_nonneg_right hw hy
  rcases hs.visit p hcpu (ha.visit hstr) with hon | ⟨rfl, hon⟩
  · omega
  · have hle := hon m hm ht
    have hlt : (((u.proc m).qticks % TQSTRIDE : Nat) : Int) ≤ 4 := by
      change (((u.proc m).qticks % 5 : Nat) : Int) ≤ 4
      omega
    have hmul := mul_le_mul_of_nonneg_right hlt hy
    change min (lead s) 1 - 5 * _ ≤ _
    omega

/-- A step keeps the pace, and moves the lead by the stride of the scheduler it is charged to. -/
private theorem paced_step (hs : Paced s w u) (hr : ∀ k, 0 ≤ (s.sched k).stride)
    (ha : Steady s w u a) (h : step id u a = .ok v) : Paced s w v ∧ lead v = lead u +
      ((if Charges u .mlfq a then (s.sched .mlfq).stride else 0) -
        if Charges u .stride a then (s.sched .stride).stride else 0) := by
  obtain ⟨r, henter, hafter⟩ := step_enters h
  have hru : ∀ k, 0 ≤ (u.sched k).stride := fun k ↦ (hs.stride k).symm ▸ hr k
  have hlead := (lead_after hafter).trans (enters_lead henter ha.grants)
  rw [hs.stride, hs.stride] at hlead
  refine ⟨⟨fun k ↦ ?_, hs.trace.trans (trace_step h ha.grants), ?_, fun p hp hvisit ↦ ?_⟩, hlead⟩
  · rw [(step_rates h ha.grants k).2, hs.stride]
  · by_cases hstr : strider u a = none
    · rw [lead_after hafter]
      exact hs.behind.trans (lead_mono henter ha.grants (hru .mlfq) hstr)
    · have htick := behind_tick hs ha (hr .stride) hstr
      have hx := hr .mlfq
      rw [hlead, if_pos (c := Charges u .stride a) hstr]
      split_ifs <;> omega
  · rcases step_cases h with h | ⟨t, c, x, y, back, h, _, hl, hv⟩
    · exact onPace_done h hs hru ha hp hvisit
    · exact onPace_leaves h hs hru ha hl hv hp hvisit

private theorem paced_start (hr : ∀ k, 0 ≤ (s.sched k).stride) (hw : 1 ≤ w) : Paced s w s := by
  have hmul : 0 ≤ w * (s.sched .stride).stride := mul_nonneg (by omega) (hr .stride)
  exact ⟨fun _ ↦ rfl, le_refl _, by omega, fun _ _ _ ↦ .inl (by omega)⟩

end

/-! ### Long runs -/

/-- Two children of the first process stay in MLFQ, the first process and another child get `x` and
`y` percent of the CPU, and the CPU is idle. -/
def shared (x y : Int) : List (Action 1) :=
  [.scheduler cpu0, .fork cpu0 true, .forkDone cpu0 true, .fork cpu0 true, .forkDone cpu0 true,
    .fork cpu0 true, .forkDone cpu0 true, .set_cpu_share cpu0 x, .yield cpu0, .scheduler cpu0,
    .set_cpu_share cpu0 y, .yield cpu0, .scheduler cpu0, .yield cpu0, .scheduler cpu0,
    .scheduler cpu0]

private theorem zero_lt_nproc : 0 < NPROC := by decide

private theorem one_lt_nproc : 1 < NPROC := by decide

private theorem two_lt_nproc : 2 < NPROC := by decide

private theorem three_lt_nproc : 3 < NPROC := by decide

/-- The processes of the two schedulers there. -/
def quarters : Class → Finset Slot
  | .mlfq => {⟨2, two_lt_nproc⟩, ⟨3, three_lt_nproc⟩}
  | .stride => {⟨0, zero_lt_nproc⟩, ⟨1, one_lt_nproc⟩}

/-- A run between two idle states, with the strides `x` of MLFQ and `y` of the stride scheduler, in
which they get `M` and `S` ticks and both always have a ready process waiting. -/
structure Spell (x y : Int) (s t : State 1) (as : List (Action 1)) (M S : Nat) : Prop where
  exec : exec (step id) s as = .ok t
  idle : Idle t quarters
  mlfq : (t.sched .mlfq).stride = x
  stride : (t.sched .stride).stride = y
  lead : lead t = lead s + (x * M - y * S)
  ticks_mlfq : ticks id .mlfq s as = M
  ticks_stride : ticks id .stride s as = S
  waiting : Along (step id) (fun u _ ↦ ∀ k, Waiting u k) s as
  threadless : Along (step id) Threadless s as

section

variable {x y : Int} {s t u : State 1} {as bs : List (Action 1)} {M S M' S' : Nat}

private theorem Spell.trans (h : Spell x y s t as M S) (h' : Spell x y t u bs M' S') :
    Spell x y s u (as ++ bs) (M + M') (S + S') := by
  refine ⟨exec_append_eq_ok.mpr ⟨t, h.exec, h'.exec⟩, h'.idle, h'.mlfq, h'.stride, ?_, ?_, ?_,
    h.waiting.append h.exec h'.waiting, h.threadless.append h.exec h'.threadless⟩
  · rw [h'.lead, h.lead]
    push_cast
    ring
  · rw [← h.ticks_mlfq, ← h'.ticks_mlfq]
    exact tally_append h.exec
  · rw [← h.ticks_stride, ← h'.ticks_stride]
    exact tally_append h.exec

private theorem Spell.refl (hi : Idle s quarters) (hm : (s.sched .mlfq).stride = x)
    (hs : (s.sched .stride).stride = y) : Spell x y s s [] 0 0 :=
  ⟨rfl, hi, hm, hs, by simp, rfl, rfl, trivial, trivial⟩

private theorem quarters_nontrivial (k : Class) : (quarters k).Nontrivial := by
  cases k with
  | mlfq => exact ⟨2, by decide, 3, by decide, by decide⟩
  | stride => exact ⟨0, by decide, 1, by decide, by decide⟩

private theorem quarters_erase (k k' : Class) (p : Slot) :
    (update quarters k ((quarters k).erase p) k').Nonempty := by
  by_cases hk : k' = k
  · subst hk
    rw [update_self]
    exact (quarters_nontrivial k').erase_nonempty
  · rw [update_of_ne hk]
    exact (quarters_nontrivial k').nonempty

/-- A turn of the scheduler that `scheduler()` chooses. -/
private theorem spell_turn (hi : Idle s quarters) (hm : (s.sched .mlfq).stride = x)
    (hs : (s.sched .stride).stride = y) : ∃ as t, Spell x y s t as
      (if chosen s = .mlfq then 1 else 0) (if chosen s = .stride then 1 else 0) := by
  obtain ⟨p, as, t, _, hturn, hidle⟩ := @Idle.turn id _ _ hi (quarters_nontrivial (chosen s)).nonempty
  generalize chosen s = k at hturn ⊢
  refine ⟨as, t, hturn.exec, hidle, ?_, ?_, ?_, ?_, ?_, ?_, hturn.threadless⟩
  · rw [hturn.stride, hm]
  · rw [hturn.stride, hs]
  · unfold lead
    rw [hturn.pass, hturn.pass, hm, hs]
    cases k with
    | mlfq => simp; ring
    | stride => simp; ring
  · rw [hturn.ticks]
    cases k <;> rfl
  · rw [hturn.ticks]
    cases k <;> rfl
  · exact hturn.waiting.mono fun u a hw k' ↦ hw k' (quarters_erase k k' p)

private theorem quarters_chosen (hi : Idle s quarters) :
    chosen s = if lead s ≤ 0 then .mlfq else .stride := by
  have hcount : (s.sched .stride).count ≠ 0 := by
    have hc := congrArg Multiset.card (hi.entries .stride)
    simp only [entries, Lib.Heap.entries, Lib.Heap.card_contents, Multiset.card_map,
      Finset.card_val] at hc
    rw [hc]
    exact Finset.card_ne_zero_of_mem (Finset.mem_insert_self 0 {1})
  have hle : (s.sched .mlfq).pass ≤ (s.sched .stride).pass ↔ lead s ≤ 0 := by
    unfold lead
    omega
  unfold chosen
  simp only [hcount, or_false, hle]

/-- A run of `n` turns: the lead stays between the two strides. -/
private theorem spell_run (n : Nat) (hi : Idle s quarters) (hm : (s.sched .mlfq).stride = x)
    (hs : (s.sched .stride).stride = y) (hx : 0 ≤ x) (hy : 0 ≤ y)
    (hlead : -y ≤ lead s ∧ lead s ≤ x) :
    ∃ as t M S, Spell x y s t as M S ∧ M + S = n ∧ -y ≤ lead t ∧ lead t ≤ x := by
  induction n generalizing s with
  | zero => exact ⟨_, _, _, _, Spell.refl hi hm hs, rfl, hlead⟩
  | succ n ih =>
    obtain ⟨as, t, hturn⟩ := spell_turn hi hm hs
    have hone : (if chosen s = .mlfq then 1 else 0) +
        (if chosen s = .stride then 1 else 0) = 1 := by
      cases chosen s <;> rfl
    have hnext : -y ≤ lead t ∧ lead t ≤ x := by
      rw [hturn.lead]
      by_cases h0 : lead s ≤ 0
      · simp [quarters_chosen hi, h0]
        omega
      · simp [quarters_chosen hi, h0]
        omega
    obtain ⟨bs, u, M, S, hrest, hsum, hlast⟩ := ih hturn.idle hturn.mlfq hturn.stride hnext
    exact ⟨_, _, _, _, hturn.trans hrest, by omega, hlast⟩

end

/-- The fields of a process of one of the two schedulers. -/
private def Fields (v : Proc) (p : Slot) (tickets : Int) : Prop :=
  v.isthread = false ∧ v.master = some p ∧ v.np = none ∧ v.trapped = false ∧
    v.tickets = tickets ∧ v.state = .RUNNABLE

private instance (v : Proc) (p : Slot) (tickets : Int) : Decidable (Fields v p tickets) :=
  inferInstanceAs (Decidable (_ ∧ _))

/-- The state that `shared` leaves, where its two processes have `a` and `b` tickets. -/
private def Ready (s : State 1) (x y a b : Int) : Prop :=
  ((s.sched .mlfq).stride = x ∧ (s.sched .stride).stride = y ∧ lead s = 0) ∧
  ((∀ c, (s.cpu c).proc = none ∧ (s.cpu c).dispatched = none) ∧
    entries s .mlfq = {some 2, some 3} ∧ entries s .stride = {some 0, some 1}) ∧
  Fields (s.proc 0) 0 a ∧ Fields (s.proc 1) 1 b ∧ Fields (s.proc 2) 2 0 ∧ Fields (s.proc 3) 3 0

private instance (s : State 1) (x y a b : Int) : Decidable (Ready s x y a b) :=
  inferInstanceAs (Decidable (_ ∧ _))

private theorem Ready.idle {s : State 1} {x y a b : Int} (h : Ready s x y a b) (ha : 0 < a)
    (hb : 0 < b) : Idle s quarters := by
  obtain ⟨-, ⟨hcpu, hm, hs⟩, h0, h1, h2, h3⟩ := h
  have hmember : ∀ k, ∀ p ∈ quarters k,
      ∃ x, Fields (s.proc p) p x ∧ (k = .mlfq → x = 0) ∧ (k = .stride → 0 < x) := by
    intro k p hp
    cases k with
    | mlfq =>
      rcases Finset.mem_insert.mp hp with rfl | hp
      · exact ⟨0, h2, by simp⟩
      · rw [Finset.mem_singleton.mp hp]
        exact ⟨0, h3, by simp⟩
    | stride =>
      rcases Finset.mem_insert.mp hp with rfl | hp
      · exact ⟨a, h0, by simpa using ha⟩
      · rw [Finset.mem_singleton.mp hp]
        exact ⟨b, h1, by simpa using hb⟩
  refine ⟨fun c ↦ ?_, fun k ↦ ?_, fun k p hp ↦ ?_, fun k p hp ↦ ?_⟩
  · obtain ⟨hp, hd⟩ := hcpu c
    rw [← hp, ← hd]
  · cases k with
    | mlfq => exact hm
    | stride => exact hs
  · obtain ⟨x, ⟨hi, hself, hnp, ht, htk, _⟩, hx, hy⟩ := hmember k p hp
    exact ⟨hi, hself, hnp, fun hk ↦ htk.trans (hx hk), fun hk ↦ ⟨htk.symm ▸ hy hk, ht⟩⟩
  · obtain ⟨_, ⟨_, _, _, _, _, hr⟩, _⟩ := hmember k p hp
    exact hr

private theorem Ready.run {s : State 1} {x y a b : Int} (n : Nat) (h : Ready s x y a b)
    (ha : 0 < a ∧ 0 < b) (hx : 0 ≤ x ∧ 0 ≤ y) :
    ∃ as t M S, Spell x y s t as M S ∧ M + S = n ∧ -y ≤ lead t ∧ lead t ≤ x := by
  obtain ⟨hm, hs, hlead⟩ := h.1
  exact spell_run n (h.idle ha.1 ha.2) hm hs hx.1 hx.2 (by rw [hlead]; omega)

/-! ### Runs -/

section

variable {s t : State 1} {w : Int}

private theorem rates_stride (h : Rates s) (k : Class) : 0 ≤ (s.sched k).stride := by
  cases k with
  | mlfq =>
    have hx := h.mlfq_range
    omega
  | stride =>
    by_cases h0 : (s.sched .stride).tickets = 0
    · rw [h.stride, h0]
      decide
    · have hy := h.stride_pos h0
      omega

/-- The lead after a run, by the ticks that the schedulers got. -/
private theorem lead_run {as : List (Action 1)} (hr : ∀ k, 0 ≤ (s.sched k).stride) (hw : 1 ≤ w)
    (has : Along (step id) (Steady s w) s as) (hrun : exec (step id) s as = .ok t) :
    lead t = lead s + ((s.sched .mlfq).stride * ticks id .mlfq s as -
      (s.sched .stride).stride * ticks id .stride s as) ∧
    min (lead s) 1 - w * (s.sched .stride).stride ≤ lead t := by
  have hstep : ∀ u a v, Paced s w u → Steady s w u a → step id u a = .ok v → Paced s w v ∧
      lead v = lead u + ((if Charges u .mlfq a then (s.sched .mlfq).stride else 0) +
        if Charges u .stride a then -(s.sched .stride).stride else 0) := by
    intro u a v hs ha h
    obtain ⟨hpaced, hlead⟩ := paced_step hs hr ha h
    refine ⟨hpaced, ?_⟩
    rw [hlead]
    split_ifs <;> ring
  have htally := Along.tally hstep (paced_start hr hw) has hrun
  have hpaced := has.invariant (fun u a v hu ha h ↦ (hstep u a v hu ha h).1) (paced_start hr hw) hrun
  have hticks : ∀ (x : Int) (k : Class), x * ticks id k s as =
      tally (step id) (fun u a ↦ if Charges u k a then x else 0) s as := by
    intro x k
    have hmap := @map_tally _ _ _ (step id) s as _ _ (fun u a ↦ if Charges u k a then 1 else 0) _ _
      ((AddMonoidHom.mulLeft x).comp (Nat.castAddMonoidHom Int))
    simp only [AddMonoidHom.comp_apply, AddMonoidHom.coe_mulLeft, Nat.coe_castAddMonoidHom,
      Nat.cast_ite, Nat.cast_one, Nat.cast_zero, mul_ite, mul_one, mul_zero] at hmap
    exact hmap
  refine ⟨?_, hpaced.behind⟩
  rw [htally, tally_add, ← hticks, ← hticks]
  ring

/-- Without tickets the stride scheduler gets no ticks. -/
private theorem ticks_stride_eq_zero {as : List (Action 1)} (hr : Rates s)
    (h0 : (s.sched .stride).tickets = 0) (has : Along (step id) (Steady s w) s as)
    (hrun : exec (step id) s as = .ok t) : ticks id .stride s as = 0 := by
  have htally := Along.tally (I := fun u ↦ Rates u ∧ (u.sched .stride).tickets = 0)
    (V := fun _ ↦ (0 : Nat)) (f := fun u a ↦ if Charges u .stride a then 1 else 0)
    (fun u a v hu ha h ↦ ⟨⟨rates_step keepsStrides_id hu.1 ha.grants.asksShare h,
      (step_rates h ha.grants .stride).1.trans hu.2⟩, ?_⟩) ⟨hr, h0⟩ has hrun
  · simpa [ticks] using htally.symm
  · have hstr : strider u a = none := by
      cases a with
      | tick c =>
        by_contra hne
        obtain ⟨p, hp⟩ := Option.ne_none_iff_exists'.mp hne
        obtain ⟨_, _, m, _, ht⟩ := strider_eq_some hp
        exact ht (hu.1.none hu.2 m)
      | _ => rfl
    rw [if_neg (c := Charges u .stride a) (not_not.mpr hstr)]

/-- On one CPU, in a state that a run with shares of at least one percent reaches, where the stride
scheduler does not have all the tickets it may get and MLFQ is not far ahead: of `n` ticks that
follow MLFQ gets at least `n / 5 - 100`. -/
theorem mlfq_share {as : List (Action 1)} (hs : ReachesVia (step id) AsksShare (boot 1) s)
    (hmax : (s.sched .stride).tickets ≠ TOTALTICKETS * MAXSHARE / 100)
    (hlead : lead s ≤ (500 - w) * (s.sched .stride).stride + 1)
    (has : Along (step id) (Steady s w) s as) (hrun : exec (step id) s as = .ok t) :
    ticks id .mlfq s as + ticks id .stride s as ≤ 5 * (ticks id .mlfq s as + 100) := by
  have hrates := rates_reached keepsStrides_id hs
  by_cases h0 : (s.sched .stride).tickets = 0
  · rw [ticks_stride_eq_zero hrates h0 has hrun]
    omega
  · have hx := hrates.mlfq_le h0 hmax
    have hy := hrates.stride_pos h0
    cases as with
    | nil => simp [ticks]
    | cons a as =>
      have hw : w = 1 ∨ w = 5 := has.1.length.imp And.left And.left
      obtain ⟨hrun, hbehind⟩ := lead_run (rates_stride hrates) (by omega) has hrun
      have hmul : (s.sched .mlfq).stride * (ticks id .mlfq s (a :: as) : Int) ≤
          4 * (s.sched .stride).stride * ticks id .mlfq s (a :: as) :=
        mul_le_mul_of_nonneg_right hx (Int.natCast_nonneg _)
      have hbound : (s.sched .stride).stride * (ticks id .stride s (a :: as) : Int) ≤
          (s.sched .stride).stride * (4 * ticks id .mlfq s (a :: as) + 500) := by
        have hpos : 0 ≤ (500 - w) * (s.sched .stride).stride := mul_nonneg (by omega) (by omega)
        have hmin : lead s - min (lead s) 1 ≤ (500 - w) * (s.sched .stride).stride := by omega
        have hsub : (500 - w) * (s.sched .stride).stride =
            500 * (s.sched .stride).stride - w * (s.sched .stride).stride := by ring
        rw [hsub] at hmin
        have hring : (s.sched .stride).stride * (4 * (ticks id .mlfq s (a :: as) : Int) + 500) =
            4 * (s.sched .stride).stride * ticks id .mlfq s (a :: as) +
              500 * (s.sched .stride).stride := by ring
        rw [hring]
        linarith
      have hle := le_of_mul_le_mul_left hbound (by omega)
      omega

end

/-- Where two processes have seven tenths of the CPU, MLFQ gets at least 500 of 3000 ticks, and the
stride scheduler gets some. -/
theorem mlfq_share_tenths : ∃ s t as, ReachesVia (step id) AsksShare (boot 1) s ∧
    exec (step id) s as = .ok t ∧ ticks id .mlfq s as + ticks id .stride s as = 3000 ∧
    500 ≤ ticks id .mlfq s as ∧ 0 < ticks id .stride s as := by
  have hready : Ready (final (step id) (boot 1) (shared 40 30)) 3 1 4000 3000 := by
    decide +kernel
  obtain ⟨as, t, M, S, h, hsum, hlead⟩ := hready.run 3000 (by decide) (by decide)
  have hreach : ReachesVia (step id) AsksShare (boot 1)
      (final (step id) (boot 1) (shared 40 30)) :=
    ⟨_, by decide +kernel, exec_final (by decide +kernel)⟩
  have hsteady : Along (step id) (Steady (final (step id) (boot 1) (shared 40 30)) 1)
      (final (step id) (boot 1) (shared 40 30)) as := by
    apply h.threadless.mono
    intro u a ha
    refine ⟨ha.1, fun hstr ↦ ?_, .inl ⟨rfl, fun p hp ↦ (ha.2 p hp).2⟩⟩
    obtain ⟨p, hp⟩ := Option.ne_none_iff_exists'.mp hstr
    exact .inl ⟨p, (ha.2 p hp).1⟩
  have hshare := mlfq_share hreach (by decide +kernel) (by decide +kernel) hsteady h.exec
  refine ⟨_, t, as, hreach, h.exec, ?_, ?_, ?_⟩
  · rw [h.ticks_mlfq, h.ticks_stride, hsum]
  · rw [h.ticks_mlfq, h.ticks_stride, hsum] at hshare
    rw [h.ticks_mlfq]
    omega
  · have hend := h.lead
    rw [hready.1.2.2] at hend
    rw [h.ticks_stride]
    omega

/-- Where the two shares add up to the largest, MLFQ gets a sixth of the CPU. -/
theorem mlfq_share_fails : ∃ s t as, ReachesVia (step id) AsksShare (boot 1) s ∧
    exec (step id) s as = .ok t ∧ Along (step id) (fun u _ ↦ ∀ k, Waiting u k) s as ∧
    ¬ticks id .mlfq s as + ticks id .stride s as ≤ 5 * (ticks id .mlfq s as + 100) := by
  have hready : Ready (final (step id) (boot 1) (shared 40 40)) 5 1 4000 4000 := by
    decide +kernel
  obtain ⟨as, t, M, S, h, hsum, hlead⟩ := hready.run 3030 (by decide) (by decide)
  refine ⟨_, t, as, ⟨_, by decide +kernel, exec_final (by decide +kernel)⟩, h.exec, h.waiting, ?_⟩
  have hend := h.lead
  rw [hready.1.2.2] at hend
  rw [h.ticks_mlfq, h.ticks_stride]
  omega

end Xv6.Sched
