import Xv6.Sched.Levels
import Xv6.Sched.Switches

/-!
# How long a group keeps the CPU

From one return to `scheduler()` to the next, a group of MLFQ is charged the ticks that remain of
the quantum of its level, and those of another quantum of the highest level if there is a boost in
between.
-/

namespace Xv6.Sched

open Function Lib

section

variable {n : Nat}

/-- The ticks that are left of the quantum. -/
def remaining (v : Proc) : Nat := quantum v - v.qticks % quantum v

/-- The ticks of a run that are charged to the group of `m` as MLFQ time. -/
def charges (round : Int → Int) (m : Slot) (s : State n) (as : List (Action n)) : Nat :=
  tally (step round) (fun s a ↦ if payer s a = some m then 1 else 0) s as

/-- The step does not go through `scheduler()`, leaves the entry of `m` to its process, and if it is
a tick, it is one of the group of `m`: of `m` itself, or of a process marked as a thread. -/
def Occupies (m : Slot) (s : State n) (a : Action n) : Prop :=
  match a with
  | .scheduler _ => False
  | .tick c => ∀ p ∈ (s.cpu c).proc,
      (s.proc p).master = some m ∧ ((s.proc p).isthread = true ∨ p = m)
  | a => ¬Allocates s m a

instance (m : Slot) (s : State n) (a : Action n) : Decidable (Occupies m s a) :=
  match a with
  | .scheduler _ => inferInstanceAs (Decidable False)
  | .tick _ => inferInstanceAs (Decidable (∀ _, _))
  | .boost c => inferInstanceAs (Decidable (¬Allocates s m (.boost c)))
  | .yield c => inferInstanceAs (Decidable (¬Allocates s m (.yield c)))
  | .sleep c chan => inferInstanceAs (Decidable (¬Allocates s m (.sleep c chan)))
  | .wakeup chan => inferInstanceAs (Decidable (¬Allocates s m (.wakeup chan)))
  | .kill pid => inferInstanceAs (Decidable (¬Allocates s m (.kill pid)))
  | .fork c b => inferInstanceAs (Decidable (¬Allocates s m (.fork c b)))
  | .forkDone c b => inferInstanceAs (Decidable (¬Allocates s m (.forkDone c b)))
  | .exit c => inferInstanceAs (Decidable (¬Allocates s m (.exit c)))
  | .wait c => inferInstanceAs (Decidable (¬Allocates s m (.wait c)))
  | .set_cpu_share c x => inferInstanceAs (Decidable (¬Allocates s m (.set_cpu_share c x)))
  | .thread_create c => inferInstanceAs (Decidable (¬Allocates s m (.thread_create c)))
  | .threadReady c => inferInstanceAs (Decidable (¬Allocates s m (.threadReady c)))
  | .thread_exit c => inferInstanceAs (Decidable (¬Allocates s m (.thread_exit c)))
  | .thread_join c i => inferInstanceAs (Decidable (¬Allocates s m (.thread_join c i)))

variable {round : Int → Int}

/-! ### The quantum -/

private theorem quantum_cases (v : Proc) : quantum v = 5 ∨ quantum v = 10 ∨ quantum v = 20 := by
  unfold quantum
  split
  · exact .inr (.inl rfl)
  · split
    · exact .inr (.inr rfl)
    · exact .inl rfl

private theorem remaining_range (v : Proc) : 1 ≤ remaining v ∧ remaining v ≤ quantum v ∧
    quantum v ≤ 20 := by
  unfold remaining
  have hmod : v.qticks % quantum v < quantum v := by
    apply Nat.mod_lt
    rcases quantum_cases v with h | h | h <;> omega
  rcases quantum_cases v with h | h | h <;> omega

private theorem remaining_congr {v w : Proc} (h : w.level = v.level) : remaining w = remaining v := by
  obtain ⟨hl, ht⟩ := Prod.mk.inj h
  unfold remaining quantum
  rw [show w.qlev = v.qlev from hl, show w.qticks = v.qticks from ht]

private theorem remaining_top {v : Proc} (h : v.level = (0, 0)) : remaining v = 5 := by
  obtain ⟨hl, ht⟩ := Prod.mk.inj h
  unfold remaining quantum
  rw [show v.qlev = 0 from hl, show v.qticks = 0 from ht]
  rfl

/-- The quantum of the highest level divides the others, so a wakeup does not prolong it. -/
private theorem remaining_woken {v w : Proc} (h : w.level = (0, v.qticks)) :
    remaining w ≤ remaining v := by
  obtain ⟨hl, ht⟩ := Prod.mk.inj h
  have hw : remaining w = 5 - v.qticks % 5 := by
    unfold remaining quantum
    rw [show w.qlev = 0 from hl, show w.qticks = v.qticks from ht]
    rfl
  rw [hw]
  unfold remaining
  rcases quantum_cases v with h | h | h <;> rw [h] <;> omega

/-- The last tick of the quantum marks the process as exhausted; another tick uses up one. -/
private theorem onTimer_remaining {v : Proc} (ht : v.tickets = 0) :
    remaining v = 1 ∧ v.ticked.onTimer.isexhausted = true ∨
      remaining v = remaining v.ticked.onTimer + 1 := by
  have hmul : v.qlev < 2 → (v.qticks + 1) % allotment v = 0 → (v.qticks + 1) % quantum v = 0 := by
    unfold allotment quantum
    intro hlow h
    split at h
    · rw [if_pos ‹_›]
      have h40 : (v.qticks + 1) % 40 = 0 := h
      show (v.qticks + 1) % 10 = 0
      omega
    · rw [if_neg ‹_›, if_neg (by omega)]
      have h20 : (v.qticks + 1) % 20 = 0 := h
      show (v.qticks + 1) % 5 = 0
      omega
  have hlast : (v.qticks + 1) % quantum v = 0 → remaining v = 1 := by
    unfold remaining
    rcases quantum_cases v with h | h | h <;> rw [h] <;> omega
  have hmore : (v.qticks + 1) % quantum v ≠ 0 →
      remaining v = quantum v - (v.qticks + 1) % quantum v + 1 := by
    unfold remaining
    rcases quantum_cases v with h | h | h <;> rw [h] <;> omega
  unfold Proc.onTimer
  rw [if_pos (show v.ticked.tickets = 0 from ht)]
  split
  · next h => exact .inl ⟨hlast (hmul h.1 h.2), rfl⟩
  · split
    · next h => exact .inl ⟨hlast h.2, rfl⟩
    · next h => exact .inr (hmore fun hz ↦ h ⟨Nat.succ_pos _, hz⟩)

end

section

variable {round : Int → Int} {s t : State 1} {a : Action 1} {as : List (Action 1)} {c : Fin 1}
  {m p : Slot}

/-! ### One step -/

/-- With the tick that exhausts the group control returns to `scheduler()`. -/
private theorem exhausted_returns (h : step round s (.tick c) = .ok t)
    (hocc : Occupies m s (.tick c)) (hpay : payer s (.tick c) = some m)
    (hex : (s.proc m).ticked.onTimer.isexhausted = true) : (t.cpu c).proc = none := by
  obtain ⟨p, hp, hr, hm, ht⟩ := payer_eq_some hpay
  have hmex : ((charged round s m).proc m).isexhausted = true := by
    rw [charged_proc_self]
    exact hex
  rcases step_cases h with he | ⟨u, c', x, v, back, he, _, hl, hu⟩
  · cases he with
    | tickIdle hp' hr' =>
      cases hp.symm.trans hp'
      exact absurd hr hr'
    | tickStay hp' _ hm' _ hi he' =>
      cases hp.symm.trans hp'
      cases hm.symm.trans hm'
      exfalso
      rcases (hocc p (cpu_of_current hp)).2 with hthread | rfl
      · have hkeep : ((charged round s m).proc p).isthread = (s.proc p).isthread :=
          charged_field (·.isthread) fun _ _ _ _ ↦ rfl
        rw [hkeep, hthread] at hi
        cases hi
      · rw [hmex] at he'
        cases he'
  · cases he with
    | tickGroup hp' _ hm' ht' =>
      cases hp.symm.trans hp'
      cases hm.symm.trans hm'
      exact absurd ht ht'
    | tickStride hp' _ hm' ht' =>
      cases hp.symm.trans hp'
      cases hm.symm.trans hm'
      exact absurd ht ht'
    | tickYield hp' _ hm' =>
      cases hp.symm.trans hp'
      cases hm.symm.trans hm'
      have hgroup : ∀ {m'}, ((((charged round s m).modify p fun v ↦ { v with trapped := true }).modify
          p fun v ↦ { v with state := .RUNNABLE }).proc p).master = some m' →
          ((((charged round s m).modify p fun v ↦ { v with trapped := true }).modify
            p fun v ↦ { v with state := .RUNNABLE }).proc m').isexhausted = false → False := by
        intro m' hm' he'
        rw [modify_field (·.master) rfl, modify_field (·.master) rfl, stable_master.charged, hm] at hm'
        cases hm'
        rw [modify_field (·.isexhausted) rfl, modify_field (·.isexhausted) rfl, hmex] at he'
        cases he'
      cases hl with
      | exhausted =>
        rcases hu with ⟨_, rfl⟩ | ⟨hback, _⟩
        · rw [swtchScheduler_cpu, update_self]
        · cases hback
      | plain hm' he' => exact (hgroup hm' he').elim
      | idle hm' he' => exact (hgroup hm' he').elim
      | back hm' he' => exact (hgroup hm' he').elim
      | next hm' he' => exact (hgroup hm' he').elim

/-- A tick that is charged to the group of `m` is the last one of the quantum, leads to a boost, or
uses up one tick. -/
private theorem paid_step (h : step round s (.tick c) = .ok t) (hocc : Occupies m s (.tick c))
    (hpay : payer s (.tick c) = some m) :
    (t.cpu cpu0).proc = none ∨ 2 ≤ remaining (s.proc m) ∧
      (Boosts s (.tick c) t ∧ remaining (t.proc m) = 5 ∨
        remaining (s.proc m) = remaining (t.proc m) + 1) := by
  have hc : c = cpu0 := Subsingleton.elim c cpu0
  subst hc
  obtain ⟨_, _, _, _, ht⟩ := payer_eq_some hpay
  rcases onTimer_remaining ht with ⟨_, hex⟩ | hone
  · exact .inl (exhausted_returns h hocc hpay hex)
  · right
    have hpos := (remaining_range (s.proc m).ticked.onTimer).1
    refine ⟨by omega, ?_⟩
    rcases tick_level (q := m) h hpay with ⟨hb, _, hl⟩ | ⟨_, hl⟩
    · exact .inl ⟨hb, remaining_top hl⟩
    · right
      rw [charged_proc_self] at hl
      rw [hone, remaining_congr hl]
      rfl

private theorem Occupies.not_allocates (h : Occupies m s a) : ¬Allocates s m a := by
  cases a with
  | scheduler => exact h.elim
  | tick => exact id
  | _ => exact h

/-- Any other step leads to a boost, or does not prolong the quantum. -/
private theorem unpaid_step (h : step round s a = .ok t) (hocc : Occupies m s a)
    (hpay : payer s a ≠ some m) (ht : (t.proc m).tickets = 0) :
    Boosts s a t ∧ remaining (t.proc m) = 5 ∨ remaining (t.proc m) ≤ remaining (s.proc m) := by
  have halloc := hocc.not_allocates
  have h0 := tickets_before h halloc ht
  rcases step_relevel (q := m) h with ⟨hb, _, hl⟩ | ⟨_, hrel⟩
  · exact .inl ⟨hb, remaining_top hl⟩
  · right
    generalize hl : (t.proc m).level = l at hrel
    cases hrel with
    | stay => exact (remaining_congr hl).le
    | wake => exact remaining_woken hl
    | alloc hf => exact absurd hf halloc
    | park => exact hocc.elim
    | granted hp hx => exact absurd ht (tickets_granted h hp hx)
    | paid hp => exact absurd hp hpay
    | group hp hm =>
      obtain ⟨_, m', _, hm', ht'⟩ := strider_eq_some hp
      cases hm.symm.trans hm'
      exact absurd h0 ht'

/-! ### The clock -/

/-- There is no end of a period within the five ticks that follow one. -/
private theorem clock_between {k j : Nat} (hk : k < 2 ^ 32) (hmul : k % PRIORITYBOOST = 0)
    (hj : j ≤ 5) (hends : (k + j) % 2 ^ 32 % PRIORITYBOOST = 0) : j = 0 := by
  have hmul : k % 200 = 0 := hmul
  have hends : (k + j) % 2 ^ 32 % 200 = 0 := hends
  by_cases hwrap : k + j < 2 ^ 32
  · rw [Nat.mod_eq_of_lt hwrap] at hends
    omega
  · omega

private theorem mlfqticks_lt (h : Reaches (step round) (boot 1) t) : t.mlfqticks < 2 ^ 32 := by
  refine h.invariant (I := fun s ↦ s.mlfqticks < 2 ^ 32) (fun s a u hs hu ↦ ?_) (by decide)
  rw [step_mlfqticks hu]
  split
  · exact hs
  · exact Nat.mod_lt _ (by decide)

/-- The ticks that a step charges to the group of `m`. -/
private def levied (m : Slot) (s : State 1) (a : Action 1) : Nat :=
  if payer s a = some m then 1 else 0

private theorem levied_le : levied m s a ≤ 1 := by
  unfold levied
  split <;> omega

private theorem clock_step (h : step round s a = .ok t) (hocc : Occupies m s a)
    (hs : s.mlfqticks < 2 ^ 32) : t.mlfqticks = (s.mlfqticks + levied m s a) % 2 ^ 32 := by
  rw [step_mlfqticks h]
  unfold levied
  by_cases hpay : payer s a = none
  · rw [if_pos hpay, if_neg (by rw [hpay]; exact nofun)]
    exact (Nat.mod_eq_of_lt hs).symm
  · obtain ⟨m', hm'⟩ := Option.ne_none_iff_exists'.mp hpay
    cases a with
    | tick c =>
      obtain ⟨p, hp, _, hm, _⟩ := payer_eq_some hm'
      cases (hocc p (cpu_of_current hp)).1.symm.trans hm
      rw [if_neg hpay, if_pos hm']
    | _ => exact absurd rfl hpay

private theorem boosts_ends (h : Boosts s a t) : PeriodEnds t := by
  cases a with
  | tick => exact h.2.1
  | boost => exact h
  | _ => exact h.elim

/-! ### Runs -/

private theorem charges_cons (h : step round s a = .ok t) :
    charges round m s (a :: as) = levied m s a + charges round m t as :=
  tally_cons_ok h

private theorem charges_refused {e : Fault} (h : step round s a = .error e) :
    charges round m s (a :: as) = 0 := by
  simp only [charges, tally, h]

/-- When control has returned to `scheduler()` no more ticks are charged. -/
private theorem charges_vacant (hocc : Along (step round) (Occupies m) s as)
    (hs : (s.cpu cpu0).proc = none) : charges round m s as = 0 := by
  induction as generalizing s with
  | nil => rfl
  | cons a as ih =>
    cases h : step round s a with
    | error e => exact charges_refused h
    | ok t =>
      have ht : (t.cpu cpu0).proc = none := by
        refine Option.eq_none_iff_forall_not_mem.mpr fun p hp ↦ ?_
        rcases step_switch h hp with hp | hp
        · exact nomatch hs.symm.trans hp
        · cases hp with
          | run ha => subst ha; exact hocc.1
          | worker ha => subst ha; exact hocc.1
          | next _ hx => exact nomatch hs.symm.trans hx
      have hpay : payer s a ≠ some m := by
        intro hpay
        cases a with
        | tick c =>
          obtain ⟨p, hp, _⟩ := payer_eq_some hpay
          rw [Subsingleton.elim c cpu0] at hp
          exact nomatch hs.symm.trans (cpu_of_current hp)
        | _ => cases hpay
      rw [charges_cons h, ih (hocc.2 t h) ht, levied, if_neg hpay]

/-- A group with a share is charged no time of MLFQ. -/
private theorem charges_granted (hocc : Along (step round) (Occupies m) s as)
    (hs : (s.proc m).tickets ≠ 0) : charges round m s as = 0 := by
  induction as generalizing s with
  | nil => rfl
  | cons a as ih =>
    cases h : step round s a with
    | error e => exact charges_refused h
    | ok t =>
      have ht : (t.proc m).tickets ≠ 0 := fun ht ↦ hs (tickets_before h hocc.1.not_allocates ht)
      have hpay : payer s a ≠ some m := by
        intro hpay
        cases a with
        | tick c =>
          obtain ⟨_, _, _, _, h0⟩ := payer_eq_some hpay
          exact hs h0
        | _ => cases hpay
      rw [charges_cons h, ih (hocc.2 t h) ht, levied, if_neg hpay]

/-- What a step does to the ticks that are left. -/
private theorem occupies_step (h : step round s a = .ok t) (hocc : Occupies m s a)
    (hrest : Along (step round) (Occupies m) t as) : charges round m t as = 0 ∨
      Boosts s a t ∧ levied m s a + 1 ≤ remaining (s.proc m) ∧ remaining (t.proc m) = 5 ∨
        levied m s a + remaining (t.proc m) ≤ remaining (s.proc m) := by
  by_cases hpay : payer s a = some m
  · have hone : levied m s a = 1 := if_pos hpay
    cases a with
    | tick c =>
      rcases paid_step h hocc hpay with hv | ⟨htwo, ⟨hb, h5⟩ | hrem⟩
      · exact .inl (charges_vacant hrest hv)
      · exact .inr (.inl ⟨hb, by omega, h5⟩)
      · exact .inr (.inr (by omega))
    | _ => cases hpay
  · have hzero : levied m s a = 0 := if_neg hpay
    by_cases ht : (t.proc m).tickets = 0
    · have hpos := (remaining_range (s.proc m)).1
      rcases unpaid_step h hocc hpay ht with ⟨hb, h5⟩ | hrem
      · exact .inr (.inl ⟨hb, by omega, h5⟩)
      · exact .inr (.inr (by omega))
    · exact .inl (charges_granted hrest ht)

/-- Without a boost the ticks that are charged are among those that are left. -/
private theorem charges_calm (hocc : Along (step round) (Occupies m) s as)
    (hcalm : Each (step round) (fun s a t ↦ ¬Boosts s a t) s as) :
    charges round m s as ≤ remaining (s.proc m) := by
  induction as generalizing s with
  | nil => exact Nat.zero_le _
  | cons a as ih =>
    cases h : step round s a with
    | error e =>
      rw [charges_refused h]
      exact Nat.zero_le _
    | ok t =>
      obtain ⟨hb, hcalm⟩ := hcalm t h
      have ht := ih (hocc.2 t h) hcalm
      have hpos := (remaining_range (s.proc m)).1
      have hle := levied_le (m := m) (s := s) (a := a)
      rw [charges_cons h]
      rcases occupies_step h hocc.1 (hocc.2 t h) with hz | ⟨hb', _⟩ | hrem
      · omega
      · exact absurd hb' hb
      · omega

/-- After a boost the group gets what is left of a quantum of the highest level: the next boost is
too far away. -/
private theorem charges_late {k j : Nat} (hocc : Along (step round) (Occupies m) s as)
    (hk : k < 2 ^ 32) (hmul : k % PRIORITYBOOST = 0) (hs : s.mlfqticks = (k + j) % 2 ^ 32)
    (hj : j + remaining (s.proc m) ≤ 5) : charges round m s as ≤ 5 - j := by
  induction as generalizing s j with
  | nil => exact Nat.zero_le _
  | cons a as ih =>
    cases h : step round s a with
    | error e =>
      rw [charges_refused h]
      exact Nat.zero_le _
    | ok t =>
      have hrest := hocc.2 t h
      have hpos := (remaining_range (s.proc m)).1
      have hle := levied_le (m := m) (s := s) (a := a)
      have hclock : t.mlfqticks = (k + (j + levied m s a)) % 2 ^ 32 := by
        rw [clock_step h hocc.1 (by rw [hs]; exact Nat.mod_lt _ (by decide)), hs, Nat.mod_add_mod,
          Nat.add_assoc]
      rw [charges_cons h]
      rcases occupies_step h hocc.1 hrest with hz | ⟨hb, hlt, h5⟩ | hrem
      · omega
      · obtain ⟨_, hends⟩ := boosts_ends hb
        rw [hclock] at hends
        have hzero := clock_between hk hmul (by omega) hends
        rw [hzero] at hclock
        have ht := ih hrest hclock (by omega)
        omega
      · have ht := ih hrest hclock (by omega)
        omega

/-- Up to a boost the group gets less than what is left of its quantum. -/
private theorem charges_early (hocc : Along (step round) (Occupies m) s as)
    (hs : s.mlfqticks < 2 ^ 32) : charges round m s as ≤ remaining (s.proc m) + 4 := by
  induction as generalizing s with
  | nil => exact Nat.zero_le _
  | cons a as ih =>
    cases h : step round s a with
    | error e =>
      rw [charges_refused h]
      exact Nat.zero_le _
    | ok t =>
      have hrest := hocc.2 t h
      have hpos := (remaining_range (s.proc m)).1
      have hle := levied_le (m := m) (s := s) (a := a)
      have hclock : t.mlfqticks < 2 ^ 32 := by
        rw [clock_step h hocc.1 hs]
        exact Nat.mod_lt _ (by decide)
      rw [charges_cons h]
      rcases occupies_step h hocc.1 hrest with hz | ⟨hb, hlt, h5⟩ | hrem
      · omega
      · have ht := charges_late (j := 0) hrest hclock (boosts_ends hb).2
          (by rw [Nat.add_zero, Nat.mod_eq_of_lt hclock]) (by omega)
        omega
      · have ht := ih hrest hclock
        omega

/-- While a group occupies the CPU it is charged at most the ticks of a quantum of the lowest level
and of one of the highest, and without a boost at most those of the quantum of its level. -/
theorem occupation_bounded (hreach : Reaches (step round) (boot 1) t)
    (hocc : Along (step round) (Occupies m) t as) : charges round m t as ≤ TQLOW + TQHIGH ∧
      (Each (step round) (fun s a u ↦ ¬Boosts s a u) t as →
        charges round m t as ≤ quantum (t.proc m)) := by
  obtain ⟨_, hquantum, htop⟩ := remaining_range (t.proc m)
  constructor
  · have hearly := charges_early hocc (mlfqticks_lt hreach)
    show _ ≤ 20 + 5
    omega
  · intro hcalm
    have hcalm := charges_calm hocc hcalm
    omega

/-- A process without threads gets one quantum of the highest level. -/
theorem occupation_bounded_first :
    charges float 0 (final (step float) (boot 1) [.scheduler cpu0])
        (List.replicate 10 (.tick cpu0)) ≤ TQLOW + TQHIGH ∧
      (Each (step float) (fun s a u ↦ ¬Boosts s a u)
          (final (step float) (boot 1) [.scheduler cpu0]) (List.replicate 10 (.tick cpu0)) →
        charges float 0 (final (step float) (boot 1) [.scheduler cpu0])
          (List.replicate 10 (.tick cpu0)) ≤
        quantum ((final (step float) (boot 1) [.scheduler cpu0]).proc 0)) :=
  occupation_bounded ⟨[.scheduler cpu0], exec_final (by decide +kernel)⟩ (by decide +kernel)

example : charges float 0 (final (step float) (boot 1) [.scheduler cpu0])
    (List.replicate 10 (.tick cpu0)) = 5 := by
  decide +kernel

/-- Entry 1 is a process that leaves its worker in entry 3 unjoined, and then a worker of process 0.
The pointer to entry 3 is still in its `threads`, and joining it unmarks entry 1 as a thread. -/
def unmarked : List (Action 1) :=
  [.scheduler cpu0, .fork cpu0 true, .forkDone cpu0 true, .wait cpu0, .scheduler cpu0,
    .thread_create cpu0, .threadReady cpu0, .thread_create cpu0, .threadReady cpu0, .yield cpu0,
    .thread_exit cpu0, .thread_exit cpu0, .thread_join cpu0 1, .exit cpu0, .scheduler cpu0,
    .wait cpu0, .thread_create cpu0, .threadReady cpu0, .yield cpu0, .thread_join cpu0 2,
    .sleep cpu0 (.object 0), .scheduler cpu0, .wakeup (.object 0)]

/-- No tick makes a worker yield that is not marked as a thread: the flag that the group is
exhausted is set for its master. -/
theorem occupation_unbounded :
    (exec (step float) (boot 1) (unmarked ++ [.scheduler cpu0])).isOk = true ∧
      ((final (step float) (boot 1) unmarked).cpu cpu0).proc = none ∧
      ((final (step float) (boot 1) (unmarked ++ [.scheduler cpu0])).cpu cpu0).dispatched =
        some (.mlfq, 0) ∧
      Along (step float) (fun s _ ↦ (s.cpu cpu0).proc ≠ none)
        (final (step float) (boot 1) (unmarked ++ [.scheduler cpu0]))
        (.yield cpu0 :: .yield cpu0 :: List.replicate 26 (.tick cpu0)) ∧
      TQLOW + TQHIGH < charges float 0
        (final (step float) (boot 1) (unmarked ++ [.scheduler cpu0]))
        (.yield cpu0 :: .yield cpu0 :: List.replicate 26 (.tick cpu0)) := by
  decide +kernel

end

end Xv6.Sched
