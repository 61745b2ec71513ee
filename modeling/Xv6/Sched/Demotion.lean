import Xv6.Sched.Levels

/-!
# Demotion at the allotment

The timer demotes a process when `qticks` is a multiple of the allotment of its level. `qticks`
agrees with the ticks charged at the level as long as `wakeup1`, which sets `qlev` alone, does not
carry the ticks of one level over to another.
-/

namespace Xv6.Sched

open Function Lib

section

variable {n : Nat}

/-- The step from `s` to `t` puts `p` at a level anew: at another one, by a boost, or because it
is a new process. -/
def EntersLevel (p : Slot) (s : State n) (a : Action n) (t : State n) : Prop :=
  (t.proc p).qlev ≠ (s.proc p).qlev ∨ Boosts s a t ∧ InArray s p ∨ Allocates s p a

instance (p : Slot) (s : State n) (a : Action n) (t : State n) : Decidable (EntersLevel p s a t) :=
  inferInstanceAs (Decidable (_ ∨ _))

/-- The ticks that `p` has been charged since it last entered its level, after one more step. -/
def charge (p : Slot) (s : State n) (a : Action n) (t : State n) (k : Nat) : Nat :=
  if EntersLevel p s a t then 0 else if payer s a = some p then k + 1 else k

/-- The ticks that `p` has been charged in a run since it last entered its level. -/
def chargedSince (round : Int → Int) (p : Slot) (as : List (Action n)) : Nat :=
  history (step round) (charge p) (boot n) 0 as

/-- If `p` is woken up at a level below the highest, it has used a multiple of the highest level's
allotment there. -/
def WakesFresh (p : Slot) (s : State n) (a : Action n) : Prop :=
  Signals s p a → (s.proc p).state = .SLEEPING → (s.proc p).qlev ≠ 0 →
    (s.proc p).qticks % TAHIGH = 0

instance (p : Slot) (s : State n) (a : Action n) : Decidable (WakesFresh p s a) :=
  inferInstanceAs (Decidable (_ → _))

/-- A tick that is charged to `p` is a tick of `p` itself. -/
def PaysAlone (p : Slot) (s : State n) (a : Action n) : Prop :=
  match a with
  | .tick c => payer s (.tick c) = some p → (s.cpu c).proc = some p
  | _ => True

/-- At the two upper levels, `qticks` agrees with the ticks charged. -/
private def Agrees (p : Slot) (s : State n) (k : Nat) : Prop :=
  (s.proc p).tickets = 0 → (s.proc p).qlev = 0 ∨ (s.proc p).qlev = 1 →
    k < allotment (s.proc p) ∧ (s.proc p).qticks % allotment (s.proc p) = k

variable {round : Int → Int} {s t : State n} {a : Action n} {r : Next n} {c : Fin n}
  {p q m : Slot} {k : Nat} {as : List (Action n)}

/-! ### One step -/

private theorem payer_tick_only (h : payer s a = some p) : ∃ c, a = .tick c := by
  cases a with
  | tick c => exact ⟨c, rfl⟩
  | _ => cases h

private theorem onTimer_demotes {v : Proc} (ht : v.tickets = 0) (hlow : v.qlev < 2)
    (hmul : (v.qticks + 1) % allotment v = 0) : v.ticked.onTimer.isexhausted = true := by
  unfold Proc.onTimer
  rw [if_pos (show v.ticked.tickets = 0 from ht)]
  rw [if_pos (show v.ticked.qlev < 2 ∧ v.ticked.qticks % allotment v.ticked = 0 from ⟨hlow, hmul⟩)]

private theorem paid_level (h : step round s (.tick c) = .ok t) (hpay : payer s (.tick c) = some p)
    (hno : ¬(Boosts s (.tick c) t ∧ InArray s p)) : (t.proc p).level =
      if (s.proc p).qlev < 2 ∧ ((s.proc p).qticks + 1) % allotment (s.proc p) = 0 then
        ((s.proc p).qlev + 1, 0)
      else ((s.proc p).qlev, (s.proc p).qticks + 1) := by
  obtain ⟨_, _, _, _, ht⟩ := payer_eq_some hpay
  rcases tick_level (q := p) h hpay with ⟨hb, hin, _⟩ | ⟨_, hlevel⟩
  · exact absurd ⟨hb, hin⟩ hno
  · rw [hlevel, charged_proc_self]
    exact onTimer_level ht

/-- The level of a process of MLFQ after a step that is neither a boost of it nor a tick charged to
it, if that is one of the two upper ones and the process is not new. -/
private theorem unpaid_level (h : step round s a = .ok t) (ha : ¬Allocates s p a)
    (hpay : payer s a ≠ some p) (hno : ¬(Boosts s a t ∧ InArray s p))
    (ht : (t.proc p).tickets = 0) (hlow : (t.proc p).qlev = 0 ∨ (t.proc p).qlev = 1) :
    (t.proc p).level = (s.proc p).level ∨
      Signals s p a ∧ (s.proc p).state = .SLEEPING ∧
        (t.proc p).level = (0, (s.proc p).qticks) := by
  have h0 := tickets_before h ha ht
  rcases step_relevel (q := p) h with ⟨hb, hin, _⟩ | ⟨_, hrel⟩
  · exact absurd ⟨hb, hin⟩ hno
  · generalize hl : (t.proc p).level = l at hrel
    cases hrel with
    | stay => exact .inl rfl
    | wake hs hw => exact .inr ⟨hw, hs, rfl⟩
    | alloc hf => exact absurd hf ha
    | park =>
      have hq : (t.proc p).qlev = 3 := (Prod.mk.inj hl).1
      omega
    | granted hp hx => exact absurd ht (tickets_granted h hp hx)
    | paid hp => exact absurd hp hpay
    | group hp hm =>
      obtain ⟨_, m', _, hm', ht'⟩ := strider_eq_some hp
      cases hm.symm.trans hm'
      exact absurd h0 ht'

private theorem allotment_pos (v : Proc) : 0 < allotment v := by
  unfold allotment
  split <;> decide

/-- The count of a multiple goes up with the number. -/
private theorem succ_mod {x k n : Nat} (hlt : k < n) (hk : x % n = k) :
    (x + 1) % n = 0 ∧ k + 1 = n ∨ (x + 1) % n = k + 1 ∧ k + 1 < n := by
  have hmod : (x + 1) % n = (k + 1) % n := by rw [← hk, Nat.mod_add_mod]
  rw [hmod]
  rcases Nat.lt_or_ge (k + 1) n with hlt' | hge
  · exact .inr ⟨Nat.mod_eq_of_lt hlt', hlt'⟩
  · have heq : k + 1 = n := by omega
    rw [heq]
    exact .inl ⟨Nat.mod_self n, rfl⟩

private theorem agrees_step (hs : Agrees p s k) (hw : WakesFresh p s a)
    (h : step round s a = .ok t) : Agrees p t (charge p s a t k) := by
  intro ht hlow
  have hpos := allotment_pos (t.proc p)
  -- A process that enters its level anew does so with a multiple of the allotment.
  have hanew : ∀ {x}, EntersLevel p s a t → (t.proc p).qticks = x → x % allotment (t.proc p) = 0 →
      charge p s a t k < allotment (t.proc p) ∧
        (t.proc p).qticks % allotment (t.proc p) = charge p s a t k := by
    intro x hent hx h0
    unfold charge
    rw [if_pos hent, hx]
    exact ⟨hpos, h0⟩
  by_cases ha : Allocates s p a
  · exact hanew (.inr (.inr ha)) (Prod.mk.inj (allocates_level h ha)).2 (Nat.zero_mod _)
  by_cases hb : Boosts s a t ∧ InArray s p
  · rcases step_relevel (q := p) h with ⟨_, _, hl⟩ | ⟨hno, _⟩
    · exact hanew (.inr (.inl hb)) (Prod.mk.inj hl).2 (Nat.zero_mod _)
    · exact absurd hb hno
  have h0 := tickets_before h ha ht
  have hstay : (t.proc p).qlev = (s.proc p).qlev → ¬EntersLevel p s a t := by
    rintro hq (hne | hboost | halloc)
    · exact hne hq
    · exact hb hboost
    · exact ha halloc
  have hsame : (t.proc p).qlev = (s.proc p).qlev → allotment (t.proc p) = allotment (s.proc p) := by
    intro hq
    unfold allotment
    rw [hq]
  by_cases hpay : payer s a = some p
  · obtain ⟨c, rfl⟩ := payer_tick_only hpay
    have hl := paid_level h hpay hb
    split at hl
    · obtain ⟨hq, hx⟩ := Prod.mk.inj hl
      have hne : (t.proc p).qlev ≠ (s.proc p).qlev := by omega
      exact hanew (.inl hne) hx (Nat.zero_mod _)
    · next hnot =>
      obtain ⟨hq, hx⟩ := Prod.mk.inj hl
      have hq : (t.proc p).qlev = (s.proc p).qlev := hq
      have hx : (t.proc p).qticks = (s.proc p).qticks + 1 := hx
      rw [hq] at hlow
      obtain ⟨hlt, hk⟩ := hs h0 hlow
      unfold charge
      rw [if_neg (hstay hq), if_pos hpay, hsame hq, hx]
      rcases succ_mod hlt hk with ⟨hz, _⟩ | ⟨hz, hlt'⟩
      · exact absurd ⟨by omega, hz⟩ hnot
      · exact ⟨hlt', hz⟩
  · have hkeep : ∀ (hq : (t.proc p).qlev = (s.proc p).qlev)
        (hx : (t.proc p).qticks = (s.proc p).qticks), charge p s a t k < allotment (t.proc p) ∧
          (t.proc p).qticks % allotment (t.proc p) = charge p s a t k := by
      intro hq hx
      rw [hq] at hlow
      obtain ⟨hlt, hk⟩ := hs h0 hlow
      unfold charge
      rw [if_neg (hstay hq), if_neg hpay, hsame hq, hx]
      exact ⟨hlt, hk⟩
    rcases unpaid_level h ha hpay hb ht hlow with hl | ⟨hsig, hsleep, hl⟩
    · obtain ⟨hq, hx⟩ := Prod.mk.inj hl
      exact hkeep hq hx
    · obtain ⟨hq, hx⟩ := Prod.mk.inj hl
      by_cases hz : (s.proc p).qlev = 0
      · exact hkeep (hq.trans hz.symm) hx
      · have hne : (t.proc p).qlev ≠ (s.proc p).qlev := fun h ↦ hz (h.symm.trans hq)
        have hall : allotment (t.proc p) = TAHIGH := by
          unfold allotment
          rw [show (t.proc p).qlev = 0 from hq]
          rfl
        apply hanew (.inl hne) hx
        rw [hall]
        exact hw hsig hsleep hz

private theorem agrees_boot : Agrees p (boot n) 0 := by
  intro _ _
  have hx : ((boot n).proc p).qticks = 0 := by
    rw [boot_proc]
    split <;> rfl
  rw [hx]
  exact ⟨allotment_pos _, Nat.zero_mod _⟩

/-! ### Runs -/

/-- A tick of a process that is demoted leads to no boost. -/
private theorem not_boosted (h : step round s (.tick c) = .ok t)
    (hpay : payer s (.tick c) = some p) (hp : (s.cpu c).proc = some p)
    (hlow : (s.proc p).qlev < 2) (hmul : ((s.proc p).qticks + 1) % allotment (s.proc p) = 0) :
    ¬Boosts s (.tick c) t := by
  obtain ⟨x, hx, hr, hm, ht⟩ := payer_eq_some hpay
  cases hp.symm.trans (cpu_of_current hx)
  have hex : ((charged round s p).proc p).isexhausted = true := by
    rw [charged_proc_self]
    exact onTimer_demotes ht hlow hmul
  intro hb
  rcases step_cases h with he | ⟨u, _, _, v, back, he, _, hl, hu⟩
  · cases he with
    | tickIdle hx' hr' =>
      cases hx.symm.trans hx'
      exact hr' hr
    | tickStay hx' _ hm' _ _ he' =>
      cases hx.symm.trans hx'
      cases hm.symm.trans hm'
      rw [hex] at he'
      cases he'
  · cases he with
    | tickGroup hx' _ hm' ht' =>
      cases hx.symm.trans hx'
      cases hm.symm.trans hm'
      exact ht' ht
    | tickStride hx' _ hm' ht' =>
      cases hx.symm.trans hx'
      cases hm.symm.trans hm'
      exact ht' ht
    | tickYield hx' _ hm' =>
      cases hx.symm.trans hx'
      cases hm.symm.trans hm'
      rcases hu with ⟨_, rfl⟩ | ⟨rfl, _⟩
      · have htrap := hb.2.2 p hp
        rw [trapped_leaves hl, modify_field (·.trapped) rfl, modify_proc_self] at htrap
        cases htrap
      · cases hl with
        | back hm' he' =>
          rw [modify_field (·.master) rfl, modify_field (·.master) rfl,
            stable_master.charged, hm] at hm'
          cases hm'
          rw [modify_field (·.isexhausted) rfl, modify_field (·.isexhausted) rfl, hex] at he'
          cases he'

/-- In a run whose wakeups leave no ticks of a lower level behind, a process of MLFQ without threads
goes from level 0 to 1 and from 1 to 2 at the tick with which it has been charged the allotment of
the level since it entered it, and at no other step. -/
theorem demoted_iff (h : exec (step round) (boot n) as = .ok s)
    (hw : Along (step round) (WakesFresh p) (boot n) as) (hst : step round s a = .ok t)
    (halone : PaysAlone p s a) (hlow : (s.proc p).qlev = 0 ∨ (s.proc p).qlev = 1) :
    (t.proc p).qlev = (s.proc p).qlev + 1 ↔
      payer s a = some p ∧ chargedSince round p as + 1 = allotment (s.proc p) := by
  have hs : Agrees p s (chargedSince round p as) :=
    hw.history (I := Agrees p) (fun _ _ _ _ hs ha ht ↦ agrees_step hs ha ht) agrees_boot h
  constructor
  · intro hup
    rcases step_relevel (q := p) hst with ⟨_, _, hl⟩ | ⟨hno, hrel⟩
    · have hq : (t.proc p).qlev = 0 := (Prod.mk.inj hl).1
      omega
    · by_cases hpay : payer s a = some p
      · obtain ⟨c, rfl⟩ := payer_tick_only hpay
        obtain ⟨_, _, _, _, h0⟩ := payer_eq_some hpay
        refine ⟨hpay, ?_⟩
        obtain ⟨hlt, hk⟩ := hs h0 hlow
        have hl := paid_level hst hpay hno
        split at hl
        · next hdem =>
          rcases succ_mod hlt hk with ⟨_, hz⟩ | ⟨hz, _⟩
          · exact hz
          · omega
        · have hq : (t.proc p).qlev = (s.proc p).qlev := (Prod.mk.inj hl).1
          omega
      · generalize hl : (t.proc p).level = l at hrel
        have hq : (t.proc p).qlev = l.1 := congrArg Prod.fst hl
        have hsame : l = (s.proc p).level → (t.proc p).qlev = (s.proc p).qlev := by
          rintro rfl
          exact hq
        have hzero : l.1 ≠ 0 := by omega
        cases hrel with
        | stay => exact absurd (hsame rfl) (by omega)
        | wake => exact absurd rfl hzero
        | alloc => exact absurd rfl hzero
        | park =>
          have h3 : (t.proc p).qlev = 3 := hq
          omega
        | granted => exact absurd rfl hzero
        | paid hp => exact absurd hp hpay
        | group =>
          have hq : (t.proc p).qlev = (s.proc p).qlev := hq
          omega
  · rintro ⟨hpay, hk⟩
    obtain ⟨c, rfl⟩ := payer_tick_only hpay
    obtain ⟨_, _, _, _, h0⟩ := payer_eq_some hpay
    obtain ⟨hlt, hmod⟩ := hs h0 hlow
    have hz : ((s.proc p).qticks + 1) % allotment (s.proc p) = 0 := by
      rcases succ_mod hlt hmod with ⟨hz, _⟩ | ⟨_, hne⟩
      · exact hz
      · omega
    have hlt2 : (s.proc p).qlev < 2 := by omega
    have hno := not_boosted hst hpay (halone hpay) hlt2 hz
    have hl := paid_level hst hpay fun hb ↦ hno hb.1
    rw [if_pos ⟨hlt2, hz⟩] at hl
    exact (Prod.mk.inj hl).1

end

section

/-- The first process is dispatched and runs for some ticks. -/
def runsFor (k : Nat) : List (Action 1) := .scheduler cpu0 :: List.replicate k (.tick cpu0)

/-- It goes on in `trap`, where its last tick ended, and runs for some ticks. -/
def resumesFor (k : Nat) : List (Action 1) :=
  .scheduler cpu0 :: .boost cpu0 :: List.replicate k (.tick cpu0)

/-- The first process has been charged all but one tick of its allotment. -/
def nineteenTicks : List (Action 1) := runsFor 5 ++ resumesFor 5 ++ resumesFor 5 ++ resumesFor 4

private theorem nineteenTicks_run : (exec (step float) (boot 1) nineteenTicks).isOk = true ∧
    Along (step float) (WakesFresh 0) (boot 1) nineteenTicks := by
  decide +kernel

private theorem nineteenTicks_final :
    ((final (step float) (boot 1) nineteenTicks).proc 0).qlev = 0 ∧
      ((final (step float) (boot 1) nineteenTicks).cpu cpu0).proc = some 0 ∧
      payer (final (step float) (boot 1) nineteenTicks) (.tick cpu0) = some 0 ∧
      chargedSince float 0 nineteenTicks = 19 ∧
      allotment ((final (step float) (boot 1) nineteenTicks).proc 0) = 20 ∧
      (step float (final (step float) (boot 1) nineteenTicks) (.tick cpu0)).isOk = true := by
  decide +kernel

theorem demoted_iff_nineteenTicks : ∃ t,
    step float (final (step float) (boot 1) nineteenTicks) (.tick cpu0) = .ok t ∧
      (t.proc 0).qlev = ((final (step float) (boot 1) nineteenTicks).proc 0).qlev + 1 := by
  obtain ⟨hok, hw⟩ := nineteenTicks_run
  obtain ⟨hlow, hcpu, hpay, hsince, hall, hstep⟩ := nineteenTicks_final
  have hexec := exec_final hok
  generalize final (step float) (boot 1) nineteenTicks = s at hlow hcpu hpay hall hstep hexec ⊢
  cases hst : step float s (.tick cpu0) with
  | error e =>
    rw [hst] at hstep
    exact absurd hstep Bool.false_ne_true
  | ok t =>
    refine ⟨t, rfl, (demoted_iff hexec hw hst (fun _ ↦ hcpu) (.inl hlow)).mpr ?_⟩
    rw [hsince, hall]
    exact ⟨hpay, rfl⟩

/-- The first process is demoted, sleeps after one more tick, is woken up and charged 18 ticks. -/
def wakesWithTick : List (Action 1) :=
  runsFor 5 ++ resumesFor 5 ++ resumesFor 5 ++ resumesFor 5 ++ resumesFor 1 ++
    [.sleep cpu0 (.object 0), .wakeup (.object 0)] ++ runsFor 4 ++ resumesFor 5 ++ resumesFor 5 ++
    resumesFor 4

example : nineteenTicks.length = 26 := by decide +kernel

/-- The next tick, its nineteenth at level 0, demotes it. -/
theorem wakesWithTick_early :
    (exec (step float) (boot 1) (wakesWithTick ++ [.tick cpu0])).isOk = true ∧
    chargedSince float 0 wakesWithTick + 1 = 19 ∧
    allotment ((final (step float) (boot 1) wakesWithTick).proc 0) = 20 ∧
    ((final (step float) (boot 1) wakesWithTick).proc 0).qlev = 0 ∧
    ((final (step float) (boot 1) (wakesWithTick ++ [.tick cpu0])).proc 0).qlev = 1 := by
  decide +kernel

end

end Xv6.Sched
