import Xv6.Sched.Boost

/-!
# Strides and passes of the two schedulers

The rates that `set_cpu_share` leaves when every share it grants is at least one percent, and the
ticks that advance each of the two passes.
-/

namespace Xv6.Sched

open Function Lib

section

variable {n : Nat}

/-- The process whose tick is charged to the stride scheduler. -/
def strider (s : State n) : Action n → Ptr
  | .tick c =>
    match current s c with
    | .ok p =>
      match (s.proc p).master with
      | some m => if (s.proc p).state = .RUNNING ∧ (s.proc m).tickets ≠ 0 then some p else none
      | none => none
    | .error _ => none
  | _ => none

/-- A tick that is charged to scheduler `k`. -/
def Charges (s : State n) (k : Class) (a : Action n) : Prop :=
  match k with
  | .mlfq => payer s a ≠ none
  | .stride => strider s a ≠ none

instance (s : State n) (k : Class) (a : Action n) : Decidable (Charges s k a) :=
  match k with
  | .mlfq => inferInstanceAs (Decidable (_ ≠ _))
  | .stride => inferInstanceAs (Decidable (_ ≠ _))

/-- The ticks of a run that are charged to scheduler `k`. -/
def ticks (round : Int → Int) (k : Class) (s : State n) (as : List (Action n)) : Nat :=
  tally (step round) (fun s a ↦ if Charges s k a then 1 else 0) s as

/-- A share that is granted is from one percent to the largest. -/
def AsksShare (s : State n) : Action n → Prop
  | .set_cpu_share c share => ∀ p, caller s c = .ok p → Grants s share → 1 ≤ share ∧ share ≤ MAXSHARE
  | _ => True

instance (s : State n) (a : Action n) : Decidable (AsksShare s a) :=
  match a with
  | .set_cpu_share _ _ => inferInstanceAs (Decidable (∀ _, _))
  | .exit _ | .thread_exit _ | .kill _ | .forkDone _ _ | .scheduler _ | .tick _ | .boost _
  | .yield _ | .sleep _ _ | .wakeup _ | .fork _ _ | .wait _ | .thread_create _ | .threadReady _
  | .thread_join _ _ => inferInstanceAs (Decidable True)

/-- The step grants no share. -/
def GrantsNone (s : State n) : Action n → Prop
  | .set_cpu_share c share => ∀ p, caller s c = .ok p → ¬Grants s share
  | _ => True

instance (s : State n) (a : Action n) : Decidable (GrantsNone s a) :=
  match a with
  | .set_cpu_share _ _ => inferInstanceAs (Decidable (∀ _, _))
  | .exit _ | .thread_exit _ | .kill _ | .forkDone _ _ | .scheduler _ | .tick _ | .boost _
  | .yield _ | .sleep _ _ | .wakeup _ | .fork _ _ | .wait _ | .thread_create _ | .threadReady _
  | .thread_join _ _ => inferInstanceAs (Decidable True)

theorem GrantsNone.asksShare {s : State n} {a : Action n} (h : GrantsNone s a) : AsksShare s a := by
  cases a with
  | set_cpu_share c x => exact fun p hp hmax ↦ absurd hmax (h p hp)
  | _ => exact trivial

/-- The rounding leaves the strides of the schedulers alone. -/
def KeepsStrides (round : Int → Int) : Prop := ∀ x, 0 ≤ x → x ≤ TOTALTICKETS → round x = x

/-- The tickets and strides that shares of at least one percent leave. -/
structure Rates (s : State n) : Prop where
  total : (s.sched .mlfq).tickets + (s.sched .stride).tickets = TOTALTICKETS
  nonneg : 0 ≤ (s.sched .stride).tickets
  max : (s.sched .stride).tickets ≤ TOTALTICKETS * MAXSHARE / 100
  mlfq : (s.sched .mlfq).stride = TOTALTICKETS.tdiv (s.sched .mlfq).tickets
  stride : (s.sched .stride).stride = TOTALTICKETS.tdiv (s.sched .stride).tickets
  tickets : ∀ q, 0 ≤ (s.proc q).tickets
  none : (s.sched .stride).tickets = 0 → ∀ q, (s.proc q).tickets = 0

variable {round : Int → Int} {s t : State n} {a : Action n} {r : Next n} {c : Fin n} {p m : Slot}

/-! ### Strides -/

private theorem totaltickets_eq : TOTALTICKETS = 10000 := rfl

private theorem maxtickets_eq : TOTALTICKETS * MAXSHARE / 100 = 8000 := rfl

theorem keepsStrides_id : KeepsStrides id := fun _ _ _ ↦ rfl

theorem float_of_small {x : Int} (h : x.natAbs < 2 ^ 24) : float x = x := if_pos h

theorem keepsStrides_float : KeepsStrides float := by
  intro x h0 h1
  apply float_of_small
  have htotal := totaltickets_eq
  omega

/-- A share of at least one percent stands for one hundred tickets per percent. -/
theorem ticketsOf_share {x : Int} (h1 : 1 ≤ x) (hmax : x ≤ MAXSHARE) : ticketsOf x = 100 * x := by
  have hle : x ≤ 80 := hmax
  have hsmall : int32 (TOTALTICKETS * x) = 100 * x * 100 := by
    unfold int32
    rw [totaltickets_eq, show (10000 : Int) * x = 100 * x * 100 by ring]
    apply Int.bmod_eq_of_le <;> omega
  unfold ticketsOf
  rw [hsmall]
  exact Int.mul_tdiv_cancel _ (by decide)

private theorem int32_of_small {x : Int} (h0 : 0 ≤ x) (h1 : x ≤ 20000) : int32 x = x := by
  unfold int32
  apply Int.bmod_eq_of_le <;> omega

theorem granted_proc_tickets {x : Int} {q : Slot} : ((granted round s p x).proc q).tickets =
    if q = p then x else (s.proc q).tickets := by
  by_cases hq : q = p
  · subst hq
    simp [granted, stride_enqueue]
  · simp [granted, stride_enqueue, modify_proc_of_ne hq, hq]

/-- What a grant does to the rates. -/
theorem granted_rates {x : Int} :
    ((granted round s p x).sched .mlfq).tickets = int32 ((s.sched .mlfq).tickets - x) ∧
    ((granted round s p x).sched .stride).tickets = int32 ((s.sched .stride).tickets + x) ∧
    ((granted round s p x).sched .mlfq).stride =
      round (TOTALTICKETS.tdiv (int32 ((s.sched .mlfq).tickets - x))) ∧
    ((granted round s p x).sched .stride).stride =
      round (TOTALTICKETS.tdiv (int32 ((s.sched .stride).tickets + x))) ∧
    ((granted round s p x).sched .mlfq).pass = (s.sched .mlfq).pass ∧
    ((granted round s p x).sched .stride).pass =
      if (s.sched .stride).stride = 0 then (s.sched .mlfq).pass else (s.sched .stride).pass := by
  simp [granted, stride_enqueue]

private theorem stride_range {x : Int} (h0 : 0 < x) :
    0 ≤ TOTALTICKETS.tdiv x ∧ TOTALTICKETS.tdiv x ≤ TOTALTICKETS := by
  have hpos : 0 ≤ TOTALTICKETS := by decide
  exact ⟨Int.tdiv_nonneg hpos h0.le, Int.tdiv_le_self x hpos⟩

/-- A grant of at least one percent keeps the rates. -/
theorem rates_granted (hround : KeepsStrides round) (hs : Rates s) {x : Int} (h1 : 1 ≤ x)
    (hx : x ≤ MAXSHARE) (hmax : Grants s x) : Rates (granted round s p (ticketsOf x)) := by
  have htotal := hs.total
  have hle := hs.max
  have h0 := hs.nonneg
  have hx80 : x ≤ 80 := hx
  rw [totaltickets_eq] at htotal
  rw [maxtickets_eq] at hle
  rw [ticketsOf_share h1 hx]
  have hstride := int32_of_small (x := (s.sched .stride).tickets + 100 * x) (by omega) (by omega)
  unfold Grants at hmax
  rw [ticketsOf_share h1 hx, hstride, maxtickets_eq] at hmax
  have hmlfq := int32_of_small (x := (s.sched .mlfq).tickets - 100 * x) (by omega) (by omega)
  obtain ⟨htm, hts, hsm, hss, _, _⟩ := @granted_rates _ round s p (100 * x)
  rw [hmlfq] at htm hsm
  rw [hstride] at hts hss
  have hrm := stride_range (x := (s.sched .mlfq).tickets - 100 * x) (by omega)
  have hrs := stride_range (x := (s.sched .stride).tickets + 100 * x) (by omega)
  refine ⟨?_, ?_, ?_, ?_, ?_, fun q ↦ ?_, fun hz ↦ ?_⟩
  · rw [htm, hts, totaltickets_eq]
    omega
  · rw [hts]
    omega
  · rw [hts, maxtickets_eq]
    exact hmax
  · rw [hsm, htm, hround _ hrm.1 hrm.2]
  · rw [hss, hts, hround _ hrs.1 hrs.2]
  · rw [granted_proc_tickets]
    split
    · omega
    · exact hs.tickets q
  · rw [hts] at hz
    omega

private theorem rates_enters (hround : KeepsStrides round) (hs : Rates s) (ha : AsksShare s a)
    (h : Enters round s a r) : Rates r.state := by
  rcases enters_grant h with ⟨c, p, x, rfl, hp, hmax, rfl⟩ | ⟨hrates, hq⟩
  · obtain ⟨h1, hx⟩ := ha p hp hmax
    exact rates_granted hround hs h1 hx hmax
  · refine ⟨?_, ?_, ?_, ?_, ?_, fun q ↦ ?_, fun hz q ↦ ?_⟩
    · rw [(hrates .mlfq).1, (hrates .stride).1, hs.total]
    · rw [(hrates .stride).1]
      exact hs.nonneg
    · rw [(hrates .stride).1]
      exact hs.max
    · rw [(hrates .mlfq).1, (hrates .mlfq).2, hs.mlfq]
    · rw [(hrates .stride).1, (hrates .stride).2, hs.stride]
    · rcases hq q with hq | ⟨_, hq⟩
      · rw [hq]
        exact hs.tickets q
      · rw [hq]
    · rw [(hrates .stride).1] at hz
      rcases hq q with hq | ⟨_, hq⟩
      · rw [hq]
        exact hs.none hz q
      · exact hq

private theorem rates_after (hs : Rates s) (h : After s t) : Rates t := by
  refine ⟨?_, ?_, ?_, ?_, ?_, fun q ↦ ?_, fun hz q ↦ ?_⟩
  · rw [(h.rates .mlfq).1, (h.rates .stride).1, hs.total]
  · rw [(h.rates .stride).1]
    exact hs.nonneg
  · rw [(h.rates .stride).1]
    exact hs.max
  · rw [(h.rates .mlfq).1, (h.rates .mlfq).2.1, hs.mlfq]
  · rw [(h.rates .stride).1, (h.rates .stride).2.1, hs.stride]
  · rw [h.tickets]
    exact hs.tickets q
  · rw [(h.rates .stride).1] at hz
    rw [h.tickets]
    exact hs.none hz q

theorem rates_step (hround : KeepsStrides round) (hs : Rates s) (ha : AsksShare s a)
    (h : step round s a = .ok t) : Rates t := by
  obtain ⟨r, hr, hafter⟩ := step_enters h
  exact rates_after (rates_enters hround hs ha hr) hafter

theorem rates_boot : Rates (boot n) := by
  have htickets : ∀ q, ((boot n).proc q).tickets = 0 := by
    intro q
    rw [boot_proc]
    split <;> rfl
  have hmax : (0 : Int) ≤ TOTALTICKETS * MAXSHARE / 100 := by decide
  exact ⟨rfl, le_refl _, hmax, rfl, rfl, fun q ↦ (htickets q).ge, fun _ ↦ htickets⟩

/-- The rates in every state that a run of such shares reaches. -/
theorem rates_reached (hround : KeepsStrides round)
    (h : ReachesVia (step round) AsksShare (boot n) s) : Rates s :=
  h.invariant (fun _ _ _ hs ha hst ↦ rates_step hround hs ha hst) rates_boot

private theorem tdiv_le {x y : Int} (h0 : 0 < x) (h : 10000 < x * (y + 1)) : TOTALTICKETS.tdiv x ≤ y := by
  rw [totaltickets_eq, Int.tdiv_eq_ediv_of_nonneg (by decide)]
  have hlt : (10000 : Int) / x < y + 1 := Int.ediv_lt_of_lt_mul h0 (by rw [mul_comm]; exact h)
  omega

private theorem le_tdiv {x y : Int} (h0 : 0 < x) (h : y * x ≤ 10000) : y ≤ TOTALTICKETS.tdiv x := by
  rw [totaltickets_eq, Int.tdiv_eq_ediv_of_nonneg (by decide)]
  exact (Int.le_ediv_iff_mul_le h0).mpr h

/-- The stride of MLFQ is from 1 to 5. -/
theorem Rates.mlfq_range (h : Rates s) : 1 ≤ (s.sched .mlfq).stride ∧ (s.sched .mlfq).stride ≤ 5 := by
  have htotal := h.total
  have hle := h.max
  have h0 := h.nonneg
  rw [totaltickets_eq] at htotal
  rw [maxtickets_eq] at hle
  rw [h.mlfq]
  exact ⟨le_tdiv (by omega) (by omega), tdiv_le (by omega) (by omega)⟩

/-- Unless the stride scheduler has all the tickets it may get, its stride is at least a fourth of
that of MLFQ. -/
theorem Rates.mlfq_le (h : Rates s) (h0 : (s.sched .stride).tickets ≠ 0)
    (hmax : (s.sched .stride).tickets ≠ TOTALTICKETS * MAXSHARE / 100) :
    (s.sched .mlfq).stride ≤ 4 * (s.sched .stride).stride := by
  have htotal := h.total
  have hle := h.max
  have hpos := h.nonneg
  rw [totaltickets_eq] at htotal
  rw [maxtickets_eq] at hle hmax
  have hm : (s.sched .mlfq).stride ≤ 4 := by
    rw [h.mlfq]
    exact tdiv_le (by omega) (by omega)
  have hs : 1 ≤ (s.sched .stride).stride := by
    rw [h.stride]
    exact le_tdiv (by omega) (by omega)
  omega

/-- The stride of the stride scheduler is positive once it has tickets. -/
theorem Rates.stride_pos (h : Rates s) (h0 : (s.sched .stride).tickets ≠ 0) :
    1 ≤ (s.sched .stride).stride := by
  have hle := h.max
  have hpos := h.nonneg
  rw [maxtickets_eq] at hle
  rw [h.stride]
  exact le_tdiv (by omega) (by omega)

/-! ### Passes -/

theorem strider_tick (hp : current s c = .ok p) (hr : (s.proc p).state = .RUNNING)
    (hm : (s.proc p).master = some m) (ht : (s.proc m).tickets ≠ 0) :
    strider s (.tick c) = some p := by
  simp [strider, hp, hr, hm, ht]

theorem strider_eq_some (h : strider s (.tick c) = some p) : current s c = .ok p ∧
    (s.proc p).state = .RUNNING ∧ ∃ m, (s.proc p).master = some m ∧ (s.proc m).tickets ≠ 0 := by
  unfold strider at h
  dsimp only at h
  split at h
  · next q hq =>
    split at h
    · next m hm =>
      split at h
      · next hr =>
        cases h
        exact ⟨hq, hr.1, m, hm, hr.2⟩
      · cases h
    · cases h
  · cases h

theorem strider_of_mlfq (hp : current s c = .ok p) (hm : (s.proc p).master = some m)
    (ht : (s.proc m).tickets = 0) : strider s (.tick c) = none := by
  simp [strider, hp, hm, ht]

private theorem idle_tick (hp : current s c = .ok p) (hr : (s.proc p).state ≠ .RUNNING) :
    payer s (.tick c) = none ∧ strider s (.tick c) = none := by
  simp only [payer, strider, hp, hr, false_and, if_false]
  constructor <;> split <;> rfl

private theorem charged_passes : ((charged round s m).sched .mlfq).pass =
      round ((s.sched .mlfq).pass + (s.sched .mlfq).stride) ∧
    ((charged round s m).sched .stride).pass = (s.sched .stride).pass := by
  simp [charged, Scheduler.advance]

private theorem strode_passes : ((strode round s p).sched .mlfq).pass = (s.sched .mlfq).pass ∧
    ((strode round s p).sched .stride).pass =
      round ((s.sched .stride).pass + (s.sched .stride).stride) := by
  simp [strode, Scheduler.advance]

/-- The pass of scheduler `k` after the step, if the step grants no share. -/
def passAfter (round : Int → Int) (s : State n) (a : Action n) (k : Class) : Int :=
  if Charges s k a then round ((s.sched k).pass + (s.sched k).stride) else (s.sched k).pass

private theorem passAfter_charged (k : Class) (hp : payer s a = some m) (hq : strider s a = none) :
    ((charged round s m).sched k).pass = passAfter round s a k := by
  obtain ⟨hm, hs⟩ := @charged_passes _ round s m
  cases k with
  | mlfq => rw [hm, passAfter, if_pos (by simp [Charges, hp])]
  | stride => rw [hs, passAfter, if_neg (by simp [Charges, hq])]

private theorem passAfter_strode (k : Class) (hp : payer s a = none) (hq : strider s a = some p) :
    ((strode round s p).sched k).pass = passAfter round s a k := by
  obtain ⟨hm, hs⟩ := @strode_passes _ round s p
  cases k with
  | mlfq => rw [hm, passAfter, if_neg (by simp [Charges, hp])]
  | stride => rw [hs, passAfter, if_pos (by simp [Charges, hq])]

private theorem passAfter_none (k : Class) (hp : payer s a = none) (hq : strider s a = none) :
    passAfter round s a k = (s.sched k).pass := by
  cases k with
  | mlfq => exact if_neg (by simp [Charges, hp])
  | stride => exact if_neg (by simp [Charges, hq])

/-- Only ticks and grants move the passes. -/
theorem enters_pass (h : Enters round s a r) (ha : GrantsNone s a) (k : Class) :
    (r.state.sched k).pass = passAfter round s a k := by
  cases h with
  | granted hp hmax => exact absurd hmax (ha _ hp)
  | tickIdle hp hr =>
    obtain ⟨hpay, hstr⟩ := idle_tick hp hr
    exact (passAfter_none k hpay hstr).symm
  | tickYield hp hr hm ht =>
    exact passAfter_charged k (payer_tick hp hr hm ht) (strider_of_mlfq hp hm ht)
  | tickStay hp hr hm ht =>
    dsimp only [Next.state]
    rw [boost_sched]
    exact passAfter_charged k (payer_tick hp hr hm ht) (strider_of_mlfq hp hm ht)
  | tickGroup hp hr hm ht =>
    dsimp only [Next.state, yield]
    rw [modify_sched, check_on_timer_sched]
    exact passAfter_strode k (payer_of_stride hp hm ht) (strider_tick hp hr hm ht)
  | tickStride hp hr hm ht =>
    exact passAfter_strode k (payer_of_stride hp hm ht) (strider_tick hp hr hm ht)
  | scheduler h =>
    rw [passAfter_none k rfl rfl]
    exact (scheduler_rates h k).2.2
  | kill h =>
    rw [passAfter_none k rfl rfl]
    rcases kill_ok h with rfl | ⟨_, _, ht, _⟩
    · rfl
    · rw [Next.state, ht]
  | fork =>
    rw [passAfter_none k rfl rfl]
    unfold fork
    rcases allocproc_cases _ _ with h | ⟨_, _, _, h⟩ | ⟨_, _, _, h⟩
    all_goals
      rw [Next.state, h]
      rfl
  | thread_create _ _ h =>
    rw [passAfter_none k rfl rfl]
    obtain ⟨_, _, _, _, rfl⟩ := allocthread_ok h
    rfl
  | exit =>
    rw [passAfter_none k rfl rfl]
    dsimp only [Next.state, exited]
    split <;> simp
  | boost =>
    rw [passAfter_none k rfl rfl, Next.state, boost_sched]
  | forkReady =>
    rw [passAfter_none k rfl rfl]
    simp [Next.state, mlfq_enqueue]
  | _ =>
    rw [passAfter_none k rfl rfl]
    rfl

theorem step_pass (h : step round s a = .ok t) (ha : GrantsNone s a) (k : Class) :
    (t.sched k).pass = passAfter round s a k := by
  obtain ⟨r, hr, hafter⟩ := step_enters h
  rw [(hafter.rates k).2.2]
  exact enters_pass hr ha k

/-- The tickets and strides stay when no share is granted. -/
theorem step_rates (h : step round s a = .ok t) (ha : GrantsNone s a) (k : Class) :
    (t.sched k).tickets = (s.sched k).tickets ∧ (t.sched k).stride = (s.sched k).stride := by
  obtain ⟨r, hr, hafter⟩ := step_enters h
  rw [(hafter.rates k).1, (hafter.rates k).2.1]
  rcases enters_rates hr with hk | ⟨c, p, x, rfl, hp, hmax, _⟩
  · exact hk k
  · exact absurd hmax (ha p hp)

end

end Xv6.Sched
