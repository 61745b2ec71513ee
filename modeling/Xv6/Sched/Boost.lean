import Xv6.Sched.Fields

/-!
# Priority boosting

`priority_boost` goes over the slots of the MLFQ array, and `trap` tests for it after a `yield`
that may come in between. A process that is in no slot when the test is made, as the running one
is, is not boosted; and if the tick that completes a period yields to a process that is not in
`trap`, no test is made in the period at all.
-/

namespace Xv6.Sched

open Function Lib

section

variable {n : Nat}

/-- The master of the group that a tick is charged to as MLFQ time. -/
def payer (s : State n) : Action n → Ptr
  | .tick c =>
    match current s c with
    | .ok p =>
      match (s.proc p).master with
      | some m => if (s.proc p).state = .RUNNING ∧ (s.proc m).tickets = 0 then some m else none
      | none => none
    | .error _ => none
  | _ => none

/-- `p` is a process of MLFQ, whether queued, sleeping or running. -/
def OfMlfq (s : State n) (p : Slot) : Prop :=
  (s.proc p).tickets = 0 ∧ (s.proc p).master = some p ∧
    ((s.proc p).state = .SLEEPING ∨ (s.proc p).state = .RUNNABLE ∨ (s.proc p).state = .RUNNING)

instance (s : State n) (p : Slot) : Decidable (OfMlfq s p) :=
  inferInstanceAs (Decidable (_ ∧ _ ∧ _))

/-- `p` is at the highest level and has used no tick there. -/
def Boosted (s : State n) (p : Slot) : Prop := (s.proc p).qlev = 0 ∧ (s.proc p).qticks = 0

instance (s : State n) (p : Slot) : Decidable (Boosted s p) := inferInstanceAs (Decidable (_ ∧ _))

/-- The next tick uses up the allotment of the level or the quantum. -/
def UsesUp (v : Proc) : Prop :=
  v.qlev < 2 ∧ (v.qticks + 1) % allotment v = 0 ∨ (v.qticks + 1) % quantum v = 0

instance (v : Proc) : Decidable (UsesUp v) := inferInstanceAs (Decidable (_ ∨ _))

/-- `p` is in a slot of the MLFQ array. -/
def InArray (s : State n) (p : Slot) : Prop := ∃ i : Fin NPROC, (s.sched .mlfq).heap (i + 1) = some p

instance (s : State n) (p : Slot) : Decidable (InArray s p) := inferInstanceAs (Decidable (∃ _, _))

/-- The step makes the test for a boost: a process goes on in `trap`, or a tick of a process
without threads does not yield. -/
def TestsBoost (s : State n) : Action n → Prop
  | .boost _ => True
  | .tick c => ∃ p, payer s (.tick c) = some p ∧ current s c = .ok p ∧
      (s.proc p).isthread = false ∧ ¬UsesUp (s.proc p)
  | _ => False

instance (s : State n) (a : Action n) : Decidable (TestsBoost s a) :=
  match a with
  | .boost _ => inferInstanceAs (Decidable True)
  | .tick _ => inferInstanceAs (Decidable (∃ _, _))
  | .scheduler _ | .yield _ | .sleep _ _ | .wakeup _ | .kill _ | .fork _ _ | .forkDone _ _ | .exit _
  | .wait _ | .set_cpu_share _ _ | .thread_create _ | .threadReady _ | .thread_exit _
  | .thread_join _ _ => inferInstanceAs (Decidable False)

/-- The step makes a new process of entry `p`. -/
def Creates (s : State n) (p : Slot) : Action n → Prop
  | .fork _ kalloc => kalloc = true ∧ findUnused s = some p
  | _ => False

instance (s : State n) (p : Slot) (a : Action n) : Decidable (Creates s p a) :=
  match a with
  | .fork _ _ => inferInstanceAs (Decidable (_ ∧ _))
  | .scheduler _ | .tick _ | .boost _ | .yield _ | .sleep _ _ | .wakeup _ | .kill _ | .forkDone _ _
  | .exit _ | .wait _ | .set_cpu_share _ _ | .thread_create _ | .threadReady _ | .thread_exit _
  | .thread_join _ _ => inferInstanceAs (Decidable False)

/-- The step makes the test for a boost while `p` is in the array, or creates `p`. -/
def Serves (s : State n) (p : Slot) (a : Action n) : Prop :=
  TestsBoost s a ∧ InArray s p ∨ Creates s p a

instance (s : State n) (p : Slot) (a : Action n) : Decidable (Serves s p a) :=
  inferInstanceAs (Decidable (_ ∨ _))

variable {round : Int → Int} {s t u : State n} {a : Action n} {r : Next n} {c : Fin n}
  {p q m : Slot}

/-! ### The clock of MLFQ -/

theorem payer_tick (hp : current s c = .ok p) (hr : (s.proc p).state = .RUNNING)
    (hm : (s.proc p).master = some m) (ht : (s.proc m).tickets = 0) :
    payer s (.tick c) = some m := by
  simp [payer, hp, hr, hm, ht]

theorem payer_eq_some (h : payer s (.tick c) = some m) : ∃ p, current s c = .ok p ∧
    (s.proc p).state = .RUNNING ∧ (s.proc p).master = some m ∧ (s.proc m).tickets = 0 := by
  unfold payer at h
  dsimp only at h
  split at h
  · next p hp =>
    split at h
    · next m' hm =>
      split at h
      · next hr =>
        cases h
        exact ⟨p, hp, hr.1, hm, hr.2⟩
      · cases h
    · cases h
  · cases h

private theorem exited_mlfqticks : (exited s m).mlfqticks = s.mlfqticks := by
  unfold exited abandonChildren
  dsimp only
  split <;> split <;> rfl

private theorem scheduler_mlfqticks (h : scheduler s c = .ok t) : t.mlfqticks = s.mlfqticks := by
  obtain ⟨_, _, h⟩ := picks h
  cases h with
  | parked _ _ _ _ hu =>
    obtain ⟨_, _, _, rfl, _⟩ := park_ok hu
    simp
  | asleep _ _ _ _ hu =>
    obtain ⟨_, _, _, rfl, _⟩ := park_ok hu
    simp
  | worker _ _ _ _ hu =>
    obtain ⟨_, _, _, rfl, _⟩ := park_ok hu
    simp
  | _ => simp

private theorem fork_mlfqticks {b : Bool} : (fork s p b).mlfqticks = s.mlfqticks := by
  unfold fork
  rcases allocproc_cases s b with h | ⟨_, _, _, h⟩ | ⟨_, _, _, h⟩
  all_goals
    rw [h]
    rfl

private theorem kill_mlfqticks {pid : Nat} (h : kill s pid = .ok t) :
    t.mlfqticks = s.mlfqticks := by
  rcases kill_ok h with rfl | ⟨_, _, ht, _⟩
  · rfl
  · rw [ht]

private theorem allocthread_mlfqticks (h : allocthread s m = .ok (t, q)) :
    t.mlfqticks = s.mlfqticks := by
  obtain ⟨_, _, _, _, rfl⟩ := allocthread_ok h
  rfl

theorem payer_of_stride (hp : current s c = .ok p) (hm : (s.proc p).master = some m)
    (ht : (s.proc m).tickets ≠ 0) : payer s (.tick c) = none := by
  simp [payer, hp, hm, ht]

/-- Only a tick that is charged to MLFQ moves its clock. -/
private theorem enters_mlfqticks (h : Enters round s a r) : r.state.mlfqticks =
    if payer s a = none then s.mlfqticks else (s.mlfqticks + 1) % 2 ^ 32 := by
  cases h with
  | scheduler h => exact scheduler_mlfqticks h
  | @tickIdle c p hp hr =>
    have hpay : payer s (.tick c) = none := by
      simp only [payer, hp, hr, false_and, if_false]
      split <;> rfl
    rw [if_pos hpay]
    rfl
  | tickYield hp hr hm ht =>
    rw [payer_tick hp hr hm ht]
    simp [Next.state, yield, charged]
  | tickStay hp hr hm ht =>
    rw [payer_tick hp hr hm ht]
    simp [Next.state, charged]
  | tickGroup hp hr hm ht =>
    rw [payer_of_stride hp hm ht]
    simp [Next.state, yield, strode]
  | tickStride hp hr hm ht =>
    rw [payer_of_stride hp hm ht]
    simp [Next.state, yield, strode]
  | kill h => exact kill_mlfqticks h
  | fork => exact fork_mlfqticks
  | exit => exact exited_mlfqticks
  | thread_create _ _ h =>
    have ht := allocthread_mlfqticks h
    exact ht
  | granted => simp [Next.state, granted, stride_enqueue, payer]
  | _ => simp [Next.state, yield, sleep, mlfq_enqueue, payer, wakeup1]

private theorem leave_mlfqticks (h : leave s p a = .ok t) : t.mlfqticks = s.mlfqticks := by
  unfold leave at h
  split at h
  · cases h
  · cases h
  · split at h
    · cases h
      exact boost_mlfqticks
    · cases h
      rfl
  all_goals
    cases h
    rfl

theorem step_mlfqticks (h : step round s a = .ok t) : t.mlfqticks =
    if payer s a = none then s.mlfqticks else (s.mlfqticks + 1) % 2 ^ 32 := by
  rcases step_cases h with h | ⟨u, c, p, v, back, h, _, hl, hu⟩
  · exact enters_mlfqticks h
  · have hv : v.mlfqticks = u.mlfqticks := by cases hl <;> simp
    rcases hu with ⟨_, rfl⟩ | ⟨_, hu⟩
    · exact hv.trans (enters_mlfqticks h)
    · exact (leave_mlfqticks hu).trans (hv.trans (enters_mlfqticks h))

/-! ### The boost -/

/-- A process keeps its level and ticks, or is boosted. -/
def KeptOrBoosted (s t : State n) (q : Slot) : Prop :=
  (t.proc q).qlev = (s.proc q).qlev ∧ (t.proc q).qticks = (s.proc q).qticks ∨ Boosted t q

theorem KeptOrBoosted.boosted (h : KeptOrBoosted s t q) (hs : Boosted s q) : Boosted t q := by
  rcases h with ⟨hl, ht⟩ | h
  · exact ⟨hl.trans hs.1, ht.trans hs.2⟩
  · exact h

private theorem priority_boost_proc : (priority_boost s).proc q =
    if InArray s q then { s.proc q with qlev := 0, qticks := 0 } else s.proc q := by
  by_cases h : InArray s q
  · rw [if_pos h]
    exact if_pos h
  · rw [if_neg h]
    exact if_neg h

theorem boost_keeps : KeptOrBoosted s (boost s p) q := by
  have hmod : KeptOrBoosted s (s.modify p fun v ↦ { v with trapped := false }) q :=
    .inl ⟨by simp, by simp⟩
  unfold boost
  dsimp only
  split
  · unfold KeptOrBoosted Boosted
    rw [priority_boost_proc]
    split
    · exact .inr ⟨rfl, rfl⟩
    · exact hmod
  · exact hmod

theorem boost_trapped : ((boost s p).proc p).trapped = false := by
  unfold boost
  dsimp only
  split
  · rw [priority_boost_field (·.trapped) fun _ _ _ ↦ rfl, modify_proc_self]
  · rw [modify_proc_self]

theorem boost_of_notMem (hq : ¬InArray s q) : ((boost s p).proc q).qlev = (s.proc q).qlev ∧
    ((boost s p).proc q).qticks = (s.proc q).qticks := by
  have hq' : ¬InArray (s.modify p fun v ↦ { v with trapped := false }) q := hq
  unfold boost
  dsimp only
  split
  · rw [priority_boost_proc, if_neg hq']
    simp
  · simp

/-- At the end of a period the test for a boost reaches every process in the array. -/
theorem boost_boosted (h0 : 0 < s.mlfqticks) (hmul : s.mlfqticks % PRIORITYBOOST = 0)
    (hq : InArray s q) : Boosted (boost s p) q := by
  have hq' : InArray (s.modify p fun v ↦ { v with trapped := false }) q := hq
  unfold boost Boosted
  simp only [modify_mlfqticks, h0, hmul, and_self, if_true]
  rw [priority_boost_proc, if_pos hq']
  exact ⟨rfl, rfl⟩

theorem charged_proc_of_ne (h : q ≠ m) : (charged round s m).proc q = s.proc q := by
  simp [charged, check_on_timer_modify, modify_proc_of_ne h]

theorem charged_proc_self : (charged round s m).proc m =
    ({ s.proc m with qticks := (s.proc m).qticks + 1 } : Proc).onTimer := by
  simp [charged, check_on_timer_modify]

theorem charged_proc_eq : ∃ l t e, (charged round s m).proc m =
    { s.proc m with qlev := l, qticks := t, isexhausted := e } := by
  rw [charged_proc_self]
  unfold Proc.onTimer
  split_ifs <;> exact ⟨_, _, _, rfl⟩

/-- A tick that uses up neither allotment nor quantum leaves the process its CPU. -/
private theorem not_exhausted (h : ¬UsesUp (s.proc m)) (ht : (s.proc m).tickets = 0) :
    ((charged round s m).proc m).isexhausted = false := by
  unfold UsesUp at h
  rw [not_or] at h
  rw [charged_proc_self]
  unfold Proc.onTimer
  split
  · split
    · next hup => exact absurd hup h.1
    · split
      · next hup => exact absurd hup.2 h.2
      · rfl
  · next hup => exact absurd ht hup

private theorem leaves_keeps {back : Bool} (h : Leaves s c p t back) : KeptOrBoosted s t q := by
  left
  cases h <;> simp

private theorem leave_keeps (h : leave s p a = .ok t) : KeptOrBoosted s t q := by
  unfold leave at h
  split at h
  · cases h
  · cases h
  · split at h
    · cases h
      exact boost_keeps
    · cases h
      exact .inl ⟨rfl, rfl⟩
  all_goals
    cases h
    left
    simp

/-- A process that the tick is not charged to stays boosted. -/
theorem tick_boosted (h : step round s (.tick c) = .ok t) (hpay : payer s (.tick c) = some m)
    (hq : q ≠ m) (hs : Boosted s q) : Boosted t q := by
  have hcharged : ∀ {m' p'}, current s c = .ok p' → (s.proc p').state = .RUNNING →
      (s.proc p').master = some m' → (s.proc m').tickets = 0 → Boosted (charged round s m') q := by
    intro m' p' hp hr hm ht
    rw [payer_tick hp hr hm ht] at hpay
    cases hpay
    unfold Boosted
    rw [charged_proc_of_ne hq]
    exact hs
  rcases step_cases h with h | ⟨u, c', p, v, back, h, _, hl, hu⟩
  · cases h with
    | tickIdle => exact hs
    | tickStay hp hr hm ht => exact boost_keeps.boosted (hcharged hp hr hm ht)
  · have hb : Boosted u q := by
      cases h with
      | tickYield hp hr hm ht =>
        have hc := hcharged hp hr hm ht
        simpa [Boosted] using hc
      | tickGroup hp hr hm ht =>
        rw [payer_of_stride hp hm ht] at hpay
        cases hpay
      | tickStride hp hr hm ht =>
        rw [payer_of_stride hp hm ht] at hpay
        cases hpay
    have hv : Boosted v q := (leaves_keeps hl).boosted hb
    rcases hu with ⟨_, rfl⟩ | ⟨_, hu⟩
    · exact hv
    · exact (leave_keeps hu).boosted hv

/-- A tick that keeps its process on the CPU makes the test for a boost. -/
private theorem tick_tests (h : step round s (.tick c) = .ok t) (htest : TestsBoost s (.tick c)) :
    ∃ p, t = boost (charged round s p) p := by
  obtain ⟨p, hpay, hp, hi, hup⟩ := htest
  obtain ⟨p', hp', hr, hm, ht⟩ := payer_eq_some hpay
  have hpp : p' = p := by
    rw [hp] at hp'
    cases hp'
    rfl
  subst hpp
  have hstay : ¬(((charged round s p').proc p').isthread = true ∨
      ((charged round s p').proc p').isexhausted = true) := by
    rw [not_exhausted hup ht, charged_proc_self]
    unfold Proc.onTimer
    split_ifs <;> simp [hi]
  have hmaster : ∀ {m}, (s.proc p').master = some m → m = p' := by
    intro m hm'
    rw [hm] at hm'
    cases hm'
    rfl
  rcases step_cases h with h | ⟨u, c', x, v, back, h, _⟩
  · cases h with
    | tickIdle hx hrun =>
      rw [hp] at hx
      cases hx
      exact absurd hr hrun
    | @tickStay _ x m hx _ hm' =>
      rw [hp] at hx
      cases hx
      exact ⟨p', by rw [hmaster hm']⟩
  · exfalso
    cases h with
    | @tickYield _ x m hx _ hm' _ hy =>
      rw [hp] at hx
      cases hx
      rw [hmaster hm'] at hy
      exact hstay hy
    | tickGroup hx _ hm' ht' =>
      rw [payer_of_stride hx hm' ht'] at hpay
      cases hpay
    | tickStride hx _ hm' ht' =>
      rw [payer_of_stride hx hm' ht'] at hpay
      cases hpay

/-- A process that `fork` allocates is at the highest level. -/
theorem fork_boosted {b : Bool} (hf : findUnused s = some q) (hb : b = true) :
    Boosted (fork s p b) q := by
  unfold fork
  rcases allocproc_cases s b with h | ⟨_, _, hfalse, _⟩ | ⟨x, hx, _, h⟩
  · exfalso
    unfold allocproc at h
    rw [hf] at h
    simp [hb] at h
  · rw [hb] at hfalse
    cases hfalse
  · rw [hf] at hx
    cases hx
    rw [h]
    simp [Boosted, Proc.fresh]

/-- A step that serves a process at the end of a period boosts it. -/
theorem serves_boosted (h : step round s a = .ok t) (hmul : PRIORITYBOOST ∣ t.mlfqticks)
    (h0 : 0 < t.mlfqticks) (hq : Serves s q a) : Boosted t q := by
  have hmul' := Nat.mod_eq_zero_of_dvd hmul
  rcases hq with ⟨htest, hin⟩ | hnew
  · cases a with
    | boost c =>
      rcases step_cases h with h | ⟨_, _, _, _, _, h, _⟩
      · cases h with
        | boost => exact boost_boosted (by simpa using h0) (by simpa using hmul') hin
      · cases h
    | tick c =>
      obtain ⟨p, rfl⟩ := tick_tests h htest
      have hin' : InArray (charged round s p) q := by
        unfold InArray
        rw [quiet_charged.heap]
        exact hin
      exact boost_boosted (by simpa using h0) (by simpa using hmul') hin'
    | _ => exact absurd htest id
  · cases a with
    | fork c b =>
      obtain ⟨hb, hf⟩ := hnew
      rcases step_cases h with h | ⟨_, _, _, _, _, h, _⟩
      · cases h with
        | fork => exact fork_boosted hf hb
      · cases h
    | _ => exact absurd hnew id

/-! ### Periods -/

/-- A period ends with a tick that brings the clock of MLFQ to a multiple of `PRIORITYBOOST`, and
`as` is what happens before the next tick is charged to MLFQ. A process of MLFQ is boosted by then,
if it was boosted already and the tick is not charged to it, or if a step serves it. -/
theorem period_boosts {v : State n} {as : List (Action n)} (hpay : payer s a = some m)
    (hmul : PRIORITYBOOST ∣ s.mlfqticks + 1) (hwrap : s.mlfqticks + 1 < 2 ^ 32)
    (hrun : exec (step round) s (a :: as) = .ok v)
    (hnext : ∀ t, step round s a = .ok t → Along (step round) (fun s a ↦ payer s a = none) t as)
    (hserved : ∀ p, OfMlfq v p → Boosted s p ∧ p ≠ m ∨
      Takes (step round) (fun s a _ ↦ Serves s p a) s (a :: as)) :
    ∀ p, OfMlfq v p → Takes (step round) (fun _ _ t ↦ Boosted t p) s (a :: as) := by
  intro p hp
  obtain ⟨t, ht, _⟩ := exec_cons_eq_ok.mp hrun
  have hclock : t.mlfqticks = s.mlfqticks + 1 := by
    rw [step_mlfqticks ht, hpay, if_neg (Option.some_ne_none m), Nat.mod_eq_of_lt hwrap]
  have hmul' : PRIORITYBOOST ∣ t.mlfqticks := hclock ▸ hmul
  have h0 : 0 < t.mlfqticks := by omega
  refine ⟨t, ht, ?_⟩
  rcases hserved p hp with ⟨hb, hpm⟩ | ⟨t', ht', h⟩
  · left
    cases a with
    | tick c => exact tick_boosted ht hpay hpm hb
    | _ => cases hpay
  · rw [ht] at ht'
    cases ht'
    rcases h with h | h
    · exact .inl (serves_boosted ht hmul' h0 h)
    · right
      -- the clock stands while no tick is charged to MLFQ
      have hstand : ∀ (x : State n) b u, x.mlfqticks = t.mlfqticks → payer x b = none →
          step round x b = .ok u → u.mlfqticks = t.mlfqticks := by
        intro x b u hx hb hu
        rw [step_mlfqticks hu, if_pos hb, hx]
      apply h.mono hstand (fun x b u hx hb hu hserve ↦ ?_) rfl (hnext t ht)
      have hclock := hstand x b u hx hb hu
      exact serves_boosted hu (hclock ▸ hmul') (hclock ▸ h0) hserve

end

/-- The first process runs for one tick, sleeps, is woken up and runs again. -/
def napping : List (Action 1) :=
  [.scheduler cpu0, .tick cpu0, .sleep cpu0 (.object 0), .scheduler cpu0, .wakeup (.object 0),
    .scheduler cpu0]

/-- The first process, which is still in the first slot of the array, completes a period. -/
theorem period_boosts_first : Takes (step float) (fun _ _ t ↦ Boosted t 0)
    { final (step float) (boot 1) napping with mlfqticks := 199 } [.tick cpu0] := by
  apply period_boosts (m := 0) (v := final (step float)
    { final (step float) (boot 1) napping with mlfqticks := 199 } [.tick cpu0])
  · decide +kernel
  · decide +kernel
  · decide +kernel
  · exact exec_final (by decide +kernel)
  · exact fun _ _ ↦ trivial
  · decide +kernel
  · decide +kernel

/-! ### A process that runs alone -/

/-- The first process is a process of MLFQ without threads, and it runs. -/
structure Runs (s : State 1) : Prop where
  cpu : ∀ c, s.cpu c = ⟨some 0, some (.mlfq, 0)⟩
  state : (s.proc 0).state = .RUNNING
  tickets : (s.proc 0).tickets = 0
  isthread : (s.proc 0).isthread = false
  master : (s.proc 0).master = some 0
  trapped : (s.proc 0).trapped = false

/-- The first process is the only one, and it is a process of MLFQ without threads. The clock of
MLFQ is at `k`, and `v` is the level of the process with the ticks it has used there. -/
structure Lone (s : State 1) (k : Nat) (v : Int × Nat) : Prop where
  level : ((s.proc 0).qlev, (s.proc 0).qticks) = v
  tickets : (s.proc 0).tickets = 0
  isthread : (s.proc 0).isthread = false
  master : (s.proc 0).master = some 0
  np : (s.proc 0).np = none
  others : ∀ q, q ≠ 0 → (s.proc q).state = .UNUSED
  stride : (s.sched .stride).count = 0
  array : ∀ i : Fin NPROC, (i : Nat) ≠ 0 → (s.sched .mlfq).heap (i + 1) = none
  clock : s.mlfqticks = k

/-- The process runs. -/
structure Alone (s : State 1) (k : Nat) (v : Int × Nat) : Prop extends Lone s k v where
  cpu : ∀ c, s.cpu c = ⟨some 0, some (.mlfq, 0)⟩
  state : (s.proc 0).state = .RUNNING
  trapped : (s.proc 0).trapped = false
  count : (s.sched .mlfq).count = 0

/-- The process waits in the heap to go on in `trap`. -/
structure Queued (s : State 1) (k : Nat) (v : Int × Nat) : Prop extends Lone s k v where
  cpu : ∀ c, s.cpu c = ⟨none, none⟩
  state : (s.proc 0).state = .RUNNABLE
  trapped : (s.proc 0).trapped = true
  count : (s.sched .mlfq).count = 1
  root : (s.sched .mlfq).heap 1 = some 0

/-- The level and the ticks used there after one more tick. -/
def nextLevel (v : Int × Nat) : Int × Nat :=
  if v.1 < 2 ∧ (v.2 + 1) % (if v.1 = 1 then TAMIDDLE else TAHIGH) = 0 then (v.1 + 1, 0)
  else (v.1, v.2 + 1)

section

variable {s : State 1} {k : Nat} {v : Int × Nat}

theorem Alone.runs (h : Alone s k v) : Runs s :=
  ⟨h.cpu, h.state, h.tickets, h.isthread, h.master, h.trapped⟩

private theorem runs_current (h : Runs s) : current s cpu0 = .ok 0 := by
  simp [current, h.cpu, h.trapped]

private theorem runs_isthread (h : Runs s) :
    ((charged float s 0).proc 0).isthread = false := by
  obtain ⟨_, _, _, hself⟩ := @charged_proc_eq _ float s 0
  rw [hself]
  exact h.isthread

private theorem runs_stay (h : Runs s)
    (he : ((charged float s 0).proc 0).isexhausted = false) :
    step float s (.tick cpu0) = .ok (boost (charged float s 0) 0) := by
  have htick : tick float s cpu0 0 = .ok (.done (boost (charged float s 0) 0)) := by
    unfold tick
    rw [if_neg (not_not.mpr h.state), h.master]
    dsimp only
    rw [if_pos h.tickets]
    apply if_neg
    change ¬(((charged float s 0).proc 0).isthread = true ∨
      ((charged float s 0).proc 0).isexhausted = true)
    simp [runs_isthread h, he]
  unfold step enter
  simp only [runs_current h, bind, Except.bind, htick, pure, Except.pure]

/-- The state when the process has used up its quantum and entered the scheduler. -/
private def putBack (s : State 1) (p : Slot) : State 1 :=
  swtchScheduler ((((charged float s p).modify p fun v ↦ { v with trapped := true }).modify p fun v ↦
    { v with state := .RUNNABLE }).modify p fun v ↦ { v with isexhausted := false }) cpu0

private theorem runs_yield (h : Runs s)
    (he : ((charged float s 0).proc 0).isexhausted = true) :
    step float s (.tick cpu0) = .ok (putBack s 0) := by
  have htick : tick float s cpu0 0 = .ok (yield
      ((charged float s 0).modify 0 fun v ↦ { v with trapped := true }) cpu0 0) := by
    unfold tick
    rw [if_neg (not_not.mpr h.state), h.master]
    dsimp only
    rw [if_pos h.tickets]
    apply if_pos
    exact .inr he
  have hm : ((charged float s 0).proc 0).master = some 0 := by
    rw [stable_master.charged]
    exact h.master
  unfold step enter
  simp only [runs_current h, bind, Except.bind, htick, yield, sched]
  simp [hm, he, putBack, pure, Except.pure]

private theorem charged_level (ht : (s.proc 0).tickets = 0) :
    (((charged float s 0).proc 0).qlev, ((charged float s 0).proc 0).qticks) =
      nextLevel ((s.proc 0).qlev, (s.proc 0).qticks) := by
  rw [charged_proc_self]
  unfold Proc.onTimer
  rw [if_pos ht]
  unfold nextLevel
  split
  · next hup => exact (if_pos hup).symm
  · next hup => split <;> exact (if_neg hup).symm

private theorem lone_charged (h : Lone s k v) (hk : k + 1 < 2 ^ 32) :
    Lone (charged float s 0) (k + 1) (nextLevel v) := by
  obtain ⟨_, _, _, hself⟩ := @charged_proc_eq _ float s 0
  refine ⟨?_, ?_, ?_, ?_, ?_, fun q hq ↦ ?_, ?_, fun i hi ↦ ?_, ?_⟩
  · rw [← h.level]
    exact charged_level h.tickets
  · rw [stable_tickets.charged]
    exact h.tickets
  · rw [hself]
    exact h.isthread
  · rw [stable_master.charged]
    exact h.master
  · rw [hself]
    exact h.np
  · rw [charged_proc_of_ne hq]
    exact h.others q hq
  · have hheap := (@quiet_charged _ float s 0).heap .stride
    rw [hheap]
    exact h.stride
  · rw [quiet_charged.heap]
    exact h.array i hi
  · simpa [charged, h.clock] using hk

private theorem lone_modify {f : Proc → Proc} (h : Lone s k v)
    (hl : ∀ v, (f v).qlev = v.qlev ∧ (f v).qticks = v.qticks ∧ (f v).tickets = v.tickets ∧
      (f v).isthread = v.isthread ∧ (f v).master = v.master ∧ (f v).np = v.np) :
    Lone (s.modify 0 f) k v := by
  refine ⟨?_, ?_, ?_, ?_, ?_, fun q hq ↦ ?_, h.stride, h.array, h.clock⟩
  · rw [modify_proc_self, (hl _).1, (hl _).2.1]
    exact h.level
  · rw [modify_proc_self, (hl _).2.2.1]
    exact h.tickets
  · rw [modify_proc_self, (hl _).2.2.2.1]
    exact h.isthread
  · rw [modify_proc_self, (hl _).2.2.2.2.1]
    exact h.master
  · rw [modify_proc_self, (hl _).2.2.2.2.2]
    exact h.np
  · rw [modify_proc_of_ne hq]
    exact h.others q hq

/-- Before the end of the period the test for a boost does nothing. -/
private theorem boost_early (hk : s.mlfqticks % PRIORITYBOOST ≠ 0) :
    boost s 0 = s.modify 0 fun v ↦ { v with trapped := false } := by
  unfold boost
  exact if_neg fun hb ↦ hk hb.2

/-- A tick that leaves the process its CPU. -/
private theorem alone_tick (h : Alone s k v) (hk : k + 1 < 2 ^ 32)
    (hb : (k + 1) % PRIORITYBOOST ≠ 0) :
    Alone (boost (charged float s 0) 0) (k + 1) (nextLevel v) := by
  have hc := lone_charged h.toLone hk
  have hq := @quiet_charged _ float s 0
  rw [boost_early (by rw [hc.clock]; exact hb)]
  refine ⟨lone_modify hc fun _ ↦ ⟨rfl, rfl, rfl, rfl, rfl, rfl⟩, fun c ↦ ?_, ?_, ?_, ?_⟩
  · rw [modify_cpu, hq.cpu]
    exact h.cpu c
  · obtain ⟨_, _, _, hself⟩ := @charged_proc_eq _ float s 0
    rw [modify_proc_self, hself]
    exact h.state
  · rw [modify_proc_self]
  · rw [modify_sched, hq.heap]
    exact h.count

private theorem enqueue_empty {p : Slot} (h0 : (s.sched .mlfq).count = 0) :
    ((enqueue s .mlfq p).1.sched .mlfq).toHeap =
      ⟨update (s.sched .mlfq).heap 1 (some p), 1⟩ := by
  rw [enqueue_toHeap (by rw [h0]; decide)]
  simp [Heap.enqueue, Heap.siftUp, h0]

/-- A tick that takes the CPU from the process. -/
private theorem alone_putBack (h : Alone s k v) (hk : k + 1 < 2 ^ 32) :
    Queued (putBack s 0) (k + 1) (nextLevel v) := by
  have hc := lone_charged h.toLone hk
  have hq := @quiet_charged _ float s 0
  unfold putBack
  generalize hw : (((charged float s 0).modify 0 fun v ↦ { v with trapped := true }).modify 0
    fun v ↦ { v with state := .RUNNABLE }).modify 0 (fun v ↦ { v with isexhausted := false }) = w
  have hl : Lone w (k + 1) (nextLevel v) := by
    subst hw
    apply lone_modify
    · apply lone_modify
      · apply lone_modify hc
        exact fun _ ↦ ⟨rfl, rfl, rfl, rfl, rfl, rfl⟩
      · exact fun _ ↦ ⟨rfl, rfl, rfl, rfl, rfl, rfl⟩
    · exact fun _ ↦ ⟨rfl, rfl, rfl, rfl, rfl, rfl⟩
  have hcpu : (w.cpu cpu0).dispatched = some (.mlfq, 0) := by
    subst hw
    rw [modify_cpu, modify_cpu, modify_cpu, hq.cpu, h.cpu]
  have h0 : (w.sched .mlfq).count = 0 := by
    subst hw
    rw [modify_sched, modify_sched, modify_sched, hq.heap]
    exact h.count
  have hheap := enqueue_empty (p := 0) h0
  have hself : (w.proc 0).state = .RUNNABLE ∧ (w.proc 0).trapped = true := by
    subst hw
    simp
  have hsw : swtchScheduler w cpu0 = { (enqueue w .mlfq 0).1 with
      cpu := update (enqueue w .mlfq 0).1.cpu cpu0 ⟨none, none⟩ } := by
    unfold swtchScheduler
    rw [hcpu]
  rw [hsw]
  refine ⟨⟨?_, ?_, ?_, ?_, ?_, fun q hq ↦ ?_, ?_, fun i hi ↦ ?_, ?_⟩, fun c ↦ ?_, ?_, ?_, ?_, ?_⟩
  · simpa using hl.level
  · simpa using hl.tickets
  · simpa using hl.isthread
  · simpa using hl.master
  · simpa using hl.np
  · simpa using hl.others q hq
  · rw [enqueue_sched_of_ne (by decide)]
    exact hl.stride
  · rw [hheap]
    simpa [hi] using hl.array i hi
  · simpa using hl.clock
  · have hc0 : c = cpu0 := Subsingleton.elim c cpu0
    rw [hc0]
    simp
  · simpa using hself.1
  · simpa using hself.2
  · rw [hheap]
  · rw [hheap]
    simp

/-- `scheduler()` finds the process again, and it goes on in `trap`. -/
private theorem queued_resume (h : Queued s k v) (hb : k % PRIORITYBOOST ≠ 0) :
    ∃ t, exec (step float) s [.scheduler cpu0, .boost cpu0] = .ok t ∧ Alone t k v := by
  have hpos : 0 < (s.sched .mlfq).count := by rw [h.count]; exact Nat.one_pos
  have hchosen : chosen s = .mlfq := if_pos (.inr h.stride)
  have hsnd : (dequeue s .mlfq).2 = some 0 := (dequeue_snd hpos).trans h.root
  have hmis : ¬Misplaced .mlfq (s.proc 0) := by
    rw [show Misplaced .mlfq (s.proc 0) ↔ (s.proc 0).tickets > 0 from Iff.rfl, h.tickets]
    exact lt_irrefl 0
  have hheap : ((dequeue s .mlfq).1.sched .mlfq).toHeap = ⟨(s.sched .mlfq).heap, 0⟩ := by
    rw [dequeue_toHeap hpos]
    simp [Heap.dequeue, h.count]
  generalize hd : (dequeue s .mlfq).1 = d at hheap
  have hproc : d.proc = s.proc := hd ▸ dequeue_proc
  have hstep : step float s (.scheduler cpu0) = .ok (dispatch d cpu0 .mlfq 0) := by
    have hbranch : branch s cpu0 .mlfq = .ok (dispatch d cpu0 .mlfq 0) := by
      unfold branch
      rw [show dequeue s .mlfq = (d, some 0) from Prod.ext hd hsnd]
      simp [hproc, hmis, h.state]
    have hsched : scheduler s cpu0 = .ok (dispatch d cpu0 .mlfq 0) := by
      unfold scheduler
      rw [if_neg (by simp [h.cpu]), hchosen, hbranch]
    simp only [step, enter, hsched, pure, Except.pure, bind, Except.bind]
  have hboost : step float (dispatch d cpu0 .mlfq 0) (.boost cpu0) =
      .ok (boost (dispatch d cpu0 .mlfq 0) 0) := by
    unfold step enter
    simp [dispatch_cpu, hproc, h.trapped, pure, Except.pure, bind, Except.bind]
  have hl : Lone (dispatch d cpu0 .mlfq 0) k v := by
    refine ⟨?_, ?_, ?_, ?_, ?_, fun q hq ↦ ?_, ?_, fun i hi ↦ ?_, ?_⟩
    · simpa [hproc] using h.level
    · simpa [hproc] using h.tickets
    · simpa [hproc] using h.isthread
    · simpa [hproc] using h.master
    · simpa [hproc] using h.np
    · rw [dispatch_proc, modify_proc_of_ne hq, hproc]
      exact h.others q hq
    · rw [dispatch_sched, ← hd, dequeue_sched_of_ne (by decide)]
      exact h.stride
    · rw [dispatch_sched, hheap]
      exact h.array i hi
    · rw [dispatch_mlfqticks, ← hd, dequeue_mlfqticks]
      exact h.clock
  refine ⟨_, by rw [exec_cons_ok hstep, exec_cons_ok hboost, exec_nil], ?_⟩
  rw [boost_early (by rw [hl.clock]; exact hb)]
  refine ⟨lone_modify hl fun _ ↦ ⟨rfl, rfl, rfl, rfl, rfl, rfl⟩, fun c ↦ ?_, ?_, ?_, ?_⟩
  · have hc0 : c = cpu0 := Subsingleton.elim c cpu0
    rw [hc0, modify_cpu, dispatch_cpu, update_self]
  · simp
  · rw [modify_proc_self]
  · rw [modify_sched, dispatch_sched, hheap]

/-- One more tick of a process that runs alone, before the end of the period. -/
theorem alone_next (h : Alone s k v) (hk : k + 1 < 2 ^ 32) (hb : (k + 1) % PRIORITYBOOST ≠ 0) :
    ∃ t, Reaches (step float) s t ∧ Alone t (k + 1) (nextLevel v) := by
  cases he : ((charged float s 0).proc 0).isexhausted with
  | false =>
    exact ⟨_, ⟨[.tick cpu0], by rw [exec_cons_ok (runs_stay h.runs he), exec_nil]⟩, alone_tick h hk hb⟩
  | true =>
    obtain ⟨t, ht, hat⟩ := queued_resume (alone_putBack h hk) hb
    exact ⟨t, ⟨_ :: _, (exec_cons_ok (runs_yield h.runs he)).trans ht⟩, hat⟩

/-- A process that runs alone from the first tick of a period to the last but one. -/
theorem alone_run (h : Alone s 1 v) (j : Nat) (hj : j + 1 < PRIORITYBOOST) :
    ∃ t, Reaches (step float) s t ∧ Alone t (j + 1) (nextLevel^[j] v) := by
  induction j with
  | zero => exact ⟨s, Reaches.refl s, h⟩
  | succ j ih =>
    have hsmall : PRIORITYBOOST < 2 ^ 32 := by decide
    obtain ⟨t, ht, hat⟩ := ih (by omega)
    obtain ⟨u, hu, hau⟩ := alone_next hat (by omega) (by rw [Nat.mod_eq_of_lt hj]; omega)
    refine ⟨u, ht.trans hu, ?_⟩
    rw [iterate_succ_apply']
    exact hau

/-- The process forks while it runs. It keeps the CPU, and the child takes its slot in the array. -/
private theorem alone_fork (h : Alone s k v) :
    ∃ t, exec (step float) s [.fork cpu0 true, .forkDone cpu0 true] = .ok t ∧ Runs t ∧
      ((t.proc 0).qlev, (t.proc 0).qticks) = v ∧ t.mlfqticks = k ∧ ¬InArray t 0 := by
  have hcaller : caller s cpu0 = .ok 0 := by
    rw [caller_eq_ok]
    exact ⟨runs_current h.runs, h.np⟩
  have hfind : findUnused s = some 1 := by
    have hlist : List.finRange NPROC = 0 :: 1 :: (List.finRange NPROC).drop 2 := by decide
    unfold findUnused
    rw [hlist, List.find?_cons_of_neg (by simp [h.state]),
      List.find?_cons_of_pos (by simp [h.others 1 (by decide)])]
  have hfork : fork s 0 true = { (s.modify 1 (Proc.fresh 1 s.nextpid)) with
      nextpid := s.nextpid + 1 }.modify 0 fun v ↦ { v with np := some 1 } := by
    unfold fork
    rcases allocproc_cases s true with ha | ⟨_, _, hf, _⟩ | ⟨x, hx, _, ha⟩
    · unfold allocproc at ha
      rw [hfind] at ha
      simp at ha
    · cases hf
    · rw [hfind] at hx
      cases hx
      rw [ha]
  generalize hf : fork s 0 true = f at hfork
  have hstep : step float s (.fork cpu0 true) = .ok f := by
    unfold step enter
    simp only [hcaller, bind, Except.bind, hf, pure, Except.pure]
  have hself : f.proc 0 = { s.proc 0 with np := some 1 } := by
    rw [hfork, modify_proc_self]
    simp [modify_proc_of_ne]
  have hcur : current f cpu0 = .ok 0 := by
    rw [current_eq_ok, hself, hfork]
    exact ⟨by rw [modify_cpu]; exact congrArg Cpu.proc (h.cpu cpu0), h.trapped⟩
  generalize hg : (f.modify 0 fun v ↦ { v with np := none }).modify 1 (fun v ↦
    { v with parent := some 0, state := .RUNNABLE }) = g
  have hdone : step float f (.forkDone cpu0 true) = .ok (mlfq_enqueue g 1).1 := by
    unfold step enter forkDone
    simp only [hcur, bind, Except.bind, hself, pure, Except.pure, if_true, hg]
  have hgself : g.proc 0 = { s.proc 0 with np := none } := by
    rw [← hg, modify_proc_of_ne (by decide), modify_proc_self, hself]
  have hgsched : g.sched = s.sched := by
    rw [← hg, modify_sched, modify_sched, hfork, modify_sched]
    rfl
  have hgclock : g.mlfqticks = s.mlfqticks := by
    rw [← hg, modify_mlfqticks, modify_mlfqticks, hfork, modify_mlfqticks]
    rfl
  have hgcpu : g.cpu = s.cpu := by
    rw [← hg, modify_cpu, modify_cpu, hfork, modify_cpu]
    rfl
  have hheap : ((mlfq_enqueue g 1).1.sched .mlfq).toHeap =
      ⟨update (s.sched .mlfq).heap 1 (some 1), 1⟩ := by
    rw [← hgsched]
    exact enqueue_empty (by rw [hgsched]; exact h.count)
  have hproc : (mlfq_enqueue g 1).1.proc 0 = { s.proc 0 with np := none } := by
    rw [mlfq_enqueue, enqueue_proc, hgself]
  refine ⟨_, by rw [exec_cons_ok hstep, exec_cons_ok hdone, exec_nil], ⟨fun c ↦ ?_, ?_, ?_, ?_,
    ?_, ?_⟩, ?_, ?_, ?_⟩
  · rw [mlfq_enqueue, enqueue_cpu, hgcpu]
    exact h.cpu c
  · rw [hproc]
    exact h.state
  · rw [hproc]
    exact h.tickets
  · rw [hproc]
    exact h.isthread
  · rw [hproc]
    exact h.master
  · rw [hproc]
    exact h.trapped
  · rw [hproc]
    exact h.level
  · rw [mlfq_enqueue, enqueue_mlfqticks, hgclock]
    exact h.clock
  · rintro ⟨i, hi⟩
    rw [hheap] at hi
    by_cases h0 : (i : Nat) = 0
    · simp [h0] at hi
    · simp [h0, h.array i h0] at hi

end

private theorem alone_napping : Alone (final (step float) (boot 1) napping) 1 (0, 0) := by
  have hcpu : ∀ c, ((final (step float) (boot 1) napping).cpu c).proc = some 0 ∧
      ((final (step float) (boot 1) napping).cpu c).dispatched = some (.mlfq, 0) := by
    decide +kernel
  refine ⟨?_, fun c ↦ ?_, ?_, ?_, ?_⟩
  · constructor <;> decide +kernel
  · obtain ⟨hp, hd⟩ := hcpu c
    rw [← hp, ← hd]
  all_goals decide +kernel

/-- The process still runs after a tick that leaves it the CPU. -/
private theorem runs_boost {s : State 1} (h : Runs s) : Runs (boost (charged float s 0) 0) := by
  obtain ⟨_, _, _, hself⟩ := @charged_proc_eq _ float s 0
  have hfield : ∀ {β : Type} (g : Proc → β), (∀ v l t, g { v with qlev := l, qticks := t } = g v) →
      (∀ v b, g { v with trapped := b } = g v) →
      (∀ v l t e, g { v with qlev := l, qticks := t, isexhausted := e } = g v) →
      g ((boost (charged float s 0) 0).proc 0) = g (s.proc 0) := by
    intro β g hl ht he
    rw [boost_field g hl ht, hself]
    exact he (s.proc 0) _ _ _
  refine ⟨fun c ↦ ?_, ?_, ?_, ?_, ?_, ?_⟩
  · rw [boost_cpu, quiet_charged.cpu]
    exact h.cpu c
  · rw [hfield (·.state) (fun _ _ _ ↦ rfl) (fun _ _ ↦ rfl) fun _ _ _ _ ↦ rfl]
    exact h.state
  · rw [hfield (·.tickets) (fun _ _ _ ↦ rfl) (fun _ _ ↦ rfl) fun _ _ _ _ ↦ rfl]
    exact h.tickets
  · rw [hfield (·.isthread) (fun _ _ _ ↦ rfl) (fun _ _ ↦ rfl) fun _ _ _ _ ↦ rfl]
    exact h.isthread
  · rw [hfield (·.master) (fun _ _ _ ↦ rfl) (fun _ _ ↦ rfl) fun _ _ _ _ ↦ rfl]
    exact h.master
  · exact boost_trapped

private theorem runs_payer {s : State 1} (h : Runs s) : payer s (.tick cpu0) = some 0 :=
  payer_tick (runs_current h) h.state h.master h.tickets

/-- The 200th tick charged to MLFQ leaves the first process the CPU, while its child is the only
process in the array: it is not boosted, and the next tick is charged to it again. -/
theorem period_misses : ∃ u v, Reaches (step float) (boot 1) u ∧
    payer u (.tick cpu0) = some 0 ∧ u.mlfqticks + 1 = PRIORITYBOOST ∧
    exec (step float) u [.tick cpu0] = .ok v ∧ payer v (.tick cpu0) = some 0 ∧ OfMlfq v 0 ∧
    ¬Takes (step float) (fun _ _ t ↦ Boosted t 0) u [.tick cpu0] := by
  have hstart : Reaches (step float) (boot 1) (final (step float) (boot 1) napping) :=
    ⟨napping, exec_final (by decide +kernel)⟩
  obtain ⟨t, ht, hat⟩ := alone_run alone_napping 198 (by decide)
  have hlevel : nextLevel^[198] (0, 0) = (2, 138) := by decide +kernel
  rw [hlevel] at hat
  obtain ⟨u, hu, hru, hl, hclock, harr⟩ := alone_fork hat
  have hqlev : (u.proc 0).qlev = 2 := congrArg Prod.fst hl
  have hqticks : (u.proc 0).qticks = 138 := congrArg Prod.snd hl
  have hup : ¬UsesUp (u.proc 0) := by
    unfold UsesUp allotment quantum
    rw [hqlev, hqticks]
    decide
  have hstep := runs_stay hru (not_exhausted hup hru.tickets)
  have hrv := runs_boost hru
  have hmiss : ¬Boosted (boost (charged float u 0) 0) 0 := by
    have hin : ¬InArray (charged float u 0) 0 := by
      unfold InArray
      rw [quiet_charged.heap]
      exact harr
    have hcharged := charged_level hru.tickets
    rw [hl] at hcharged
    have hlev : ((charged float u 0).proc 0).qlev = 2 := congrArg Prod.fst hcharged
    unfold Boosted
    rw [(boost_of_notMem hin).1, hlev]
    exact fun hb ↦ absurd hb.1 (by decide)
  refine ⟨u, _, (hstart.trans ht).trans ⟨_, hu⟩, runs_payer hru, by rw [hclock],
    by rw [exec_cons_ok hstep, exec_nil], runs_payer hrv,
    ⟨hrv.tickets, hrv.master, .inr (.inr hrv.state)⟩, ?_⟩
  rintro ⟨w, hw, hb | hb⟩
  · rw [hstep] at hw
    cases hw
    exact hmiss hb
  · exact hb

end Xv6.Sched
