import Mathlib

/-!
# Executions of a fallible step function

A system is a function `step : σ → α → Except ε σ` that either refuses an action
or moves to one next state. `exec` runs a list of actions; `Along` says that a
condition on the state before a step holds at every step of a run. The rules here
turn what one step preserves into what every run preserves.
-/

namespace Xv6.Lib

variable {σ α ε : Type*}

/-- A system with one actor names it by a literal. -/
instance neZero_one : NeZero 1 := ⟨Nat.one_ne_zero⟩

/-- A system with two actors names them by literals. -/
instance neZero_two : NeZero 2 := ⟨two_ne_zero⟩

/-- Run a list of actions, stopping at the first refusal. -/
def exec (step : σ → α → Except ε σ) (s : σ) : List α → Except ε σ
  | [] => .ok s
  | a :: as =>
    match step s a with
    | .ok t => exec step t as
    | .error e => .error e

/-- Every step of the run of `as` from `s` is taken in a state and by an action that
satisfy `p`; steps after a refusal are not taken. -/
def Along (step : σ → α → Except ε σ) (p : σ → α → Prop) (s : σ) : List α → Prop
  | [] => True
  | a :: as => p s a ∧ ∀ t, step s a = .ok t → Along step p t as

/-- The run of `as` from `s` takes a step that satisfies `p`; `p` is about the states before and
after it. -/
def Takes (step : σ → α → Except ε σ) (p : σ → α → σ → Prop) (s : σ) : List α → Prop
  | [] => False
  | a :: as => ∃ t, step s a = .ok t ∧ (p s a t ∨ Takes step p t as)

/-- Every step of the run of `as` from `s` satisfies `p`; `p` is about the states before and after
it. -/
def Each (step : σ → α → Except ε σ) (p : σ → α → σ → Prop) (s : σ) : List α → Prop
  | [] => True
  | a :: as => ∀ t, step s a = .ok t → p s a t ∧ Each step p t as

/-- The sum of `f` over the steps of the run of `as` from `s`; `f` is about the state before a
step. -/
def tally {M : Type*} [AddCommMonoid M] (step : σ → α → Except ε σ) (f : σ → α → M) (s : σ) :
    List α → M
  | [] => 0
  | a :: as =>
    match step s a with
    | .ok t => f s a + tally step f t as
    | .error _ => 0

/-- The value of a history variable after the run of `as` from `s`, where it starts as `x`; after a
step from `s` to `t` it is `f s a t x`. -/
def history {β : Type*} (step : σ → α → Except ε σ) (f : σ → α → σ → β → β) (s : σ) (x : β) :
    List α → β
  | [] => x
  | a :: as =>
    match step s a with
    | .ok t => history step f t (f s a t x) as
    | .error _ => x

/-- `t` is reached from `s` by some run whose steps all satisfy `p`. -/
def ReachesVia (step : σ → α → Except ε σ) (p : σ → α → Prop) (s t : σ) : Prop :=
  ∃ as, Along step p s as ∧ exec step s as = .ok t

/-- `t` is reached from `s` by some run. -/
def Reaches (step : σ → α → Except ε σ) (s t : σ) : Prop :=
  ∃ as, exec step s as = .ok t

/-- The state that a run ends in, or the start if a step is refused. -/
def final (step : σ → α → Except ε σ) (s : σ) (as : List α) : σ :=
  match exec step s as with
  | .ok t => t
  | .error _ => s

instance decidableEqError {β : Type*} [DecidableEq ε] (x : Except ε β) (e : ε) :
    Decidable (x = .error e) :=
  match x with
  | .ok _ => .isFalse (by simp)
  | .error e' => decidable_of_iff (e' = e) (by simp)

instance decidableEqOk {β : Type*} [DecidableEq β] (x : Except ε β) (b : β) :
    Decidable (x = .ok b) :=
  match x with
  | .ok b' => decidable_of_iff (b' = b) (by simp)
  | .error _ => .isFalse (by simp)

/-- On a given run, `Along` can be tested. -/
instance Along.decidable (step : σ → α → Except ε σ) (p : σ → α → Prop)
    [∀ s a, Decidable (p s a)] (s : σ) (as : List α) : Decidable (Along step p s as) :=
  match as with
  | [] => .isTrue trivial
  | a :: as =>
    match h : step s a with
    | .ok t =>
      have := Along.decidable step p t as
      decidable_of_iff (p s a ∧ Along step p t as) (by simp [Along, h])
    | .error _ => decidable_of_iff (p s a) (by simp [Along, h])

/-- On a given run, `Takes` can be tested. -/
instance Takes.decidable (step : σ → α → Except ε σ) (p : σ → α → σ → Prop)
    [∀ s a t, Decidable (p s a t)] (s : σ) (as : List α) : Decidable (Takes step p s as) :=
  match as with
  | [] => .isFalse id
  | a :: as =>
    match h : step s a with
    | .ok t =>
      have := Takes.decidable step p t as
      decidable_of_iff (p s a t ∨ Takes step p t as) (by simp [Takes, h])
    | .error _ => .isFalse (by simp [Takes, h])

/-- On a given run, `Each` can be tested. -/
instance Each.decidable (step : σ → α → Except ε σ) (p : σ → α → σ → Prop)
    [∀ s a t, Decidable (p s a t)] (s : σ) (as : List α) : Decidable (Each step p s as) :=
  match as with
  | [] => .isTrue trivial
  | a :: as =>
    match h : step s a with
    | .ok t =>
      have := Each.decidable step p t as
      decidable_of_iff (p s a t ∧ Each step p t as) (by simp [Each, h])
    | .error _ => .isTrue (by simp [Each, h])

section Rules

variable {step : σ → α → Except ε σ} {p q : σ → α → Prop} {s t u : σ} {a : α} {as bs : List α}

@[simp] theorem exec_nil : exec step s [] = .ok s := rfl

theorem exec_final (h : (exec step s as).isOk = true) : exec step s as = .ok (final step s as) := by
  unfold final
  cases hs : exec step s as with
  | ok t => rfl
  | error e =>
    rw [hs] at h
    cases h

theorem exec_cons_ok (h : step s a = .ok t) : exec step s (a :: as) = exec step t as := by
  simp only [exec, h]

/-- A run of `a :: as` that succeeds starts with a step that succeeds. -/
theorem exec_cons_eq_ok :
    exec step s (a :: as) = .ok u ↔ ∃ t, step s a = .ok t ∧ exec step t as = .ok u := by
  cases h : step s a with
  | error e => simp [exec, h]
  | ok t => simp [exec, h]

/-- A run of two lists succeeds exactly when the first run reaches a state from
which the second succeeds. -/
theorem exec_append_eq_ok :
    exec step s (as ++ bs) = .ok u ↔ ∃ t, exec step s as = .ok t ∧ exec step t bs = .ok u := by
  induction as generalizing s with
  | nil => simp
  | cons a as ih =>
    simp only [List.cons_append, exec_cons_eq_ok, ih]
    constructor
    · rintro ⟨t, ht, v, hv, hu⟩
      exact ⟨v, ⟨t, ht, hv⟩, hu⟩
    · rintro ⟨v, ⟨t, ht, hv⟩, hu⟩
      exact ⟨t, ht, v, hv, hu⟩

/-- Appending one successful step to a successful run. -/
theorem exec_snoc (h : exec step s as = .ok t) (ha : step t a = .ok u) :
    exec step s (as ++ [a]) = .ok u :=
  exec_append_eq_ok.mpr ⟨t, h, by simp [exec, ha]⟩

theorem Reaches.refl (s : σ) : Reaches step s s := ⟨[], rfl⟩

theorem Reaches.trans (h : Reaches step s t) (h' : Reaches step t u) : Reaches step s u := by
  obtain ⟨as, has⟩ := h
  obtain ⟨bs, hbs⟩ := h'
  exact ⟨as ++ bs, exec_append_eq_ok.mpr ⟨t, has, hbs⟩⟩

theorem Reaches.tail (h : Reaches step s t) (ha : step t a = .ok u) : Reaches step s u := by
  obtain ⟨as, has⟩ := h
  exact ⟨as ++ [a], exec_snoc has ha⟩

theorem Along.mono (hpq : ∀ s a, p s a → q s a) (h : Along step p s as) :
    Along step q s as := by
  induction as generalizing s with
  | nil => trivial
  | cons a as ih => exact ⟨hpq s a h.1, fun t ht ↦ ih (h.2 t ht)⟩

theorem Along.of_forall (h : ∀ s a, p s a) : Along step p s as := by
  induction as generalizing s with
  | nil => trivial
  | cons a as ih => exact ⟨h s a, fun t _ ↦ ih⟩

theorem Along.append (h : Along step p s as) (hrun : exec step s as = .ok t)
    (h' : Along step p t bs) : Along step p s (as ++ bs) := by
  induction as generalizing s with
  | nil =>
    cases hrun
    exact h'
  | cons a as ih =>
    refine ⟨h.1, fun v hv ↦ ih (h.2 v hv) ?_⟩
    rwa [exec_cons_ok hv] at hrun

/-- What a step satisfies under an invariant of the run, a step of the run satisfies. -/
theorem Takes.mono {P Q : σ → α → σ → Prop} {I : σ → Prop} {as : List α}
    (hI : ∀ s a t, I s → p s a → step s a = .ok t → I t)
    (hPQ : ∀ s a t, I s → p s a → step s a = .ok t → P s a t → Q s a t) (hs : I s)
    (hp : Along step p s as) (h : Takes step P s as) : Takes step Q s as := by
  induction as generalizing s with
  | nil => exact h
  | cons a as ih =>
    obtain ⟨t, ht, h⟩ := h
    refine ⟨t, ht, ?_⟩
    rcases h with h | h
    · exact .inl (hPQ s a t hs hp.1 ht h)
    · exact .inr (ih (hI s a t hs hp.1 ht) (hp.2 t ht) h)

/-- The invariant rule: what every permitted step preserves, every run whose steps
are permitted preserves. -/
theorem Along.invariant {I : σ → Prop} (hI : ∀ s a t, I s → p s a → step s a = .ok t → I t)
    (hs : I s) (hp : Along step p s as) (h : exec step s as = .ok t) : I t := by
  induction as generalizing s with
  | nil => cases h; exact hs
  | cons a as ih =>
    obtain ⟨v, hv, hrest⟩ := exec_cons_eq_ok.mp h
    exact ih (hI s a v hs hp.1 hv) (hp.2 v hv) hrest

theorem ReachesVia.invariant {I : σ → Prop}
    (hI : ∀ s a t, I s → p s a → step s a = .ok t → I t)
    (hs : I s) (h : ReachesVia step p s t) : I t := by
  obtain ⟨as, hp, has⟩ := h
  exact Along.invariant hI hs hp has

/-- The invariant rule for unrestricted runs. -/
theorem Reaches.invariant {I : σ → Prop} (hI : ∀ s a t, I s → step s a = .ok t → I t)
    (hs : I s) (h : Reaches step s t) : I t := by
  obtain ⟨as, has⟩ := h
  exact Along.invariant (p := fun _ _ ↦ True) (fun s a t hi _ hst ↦ hI s a t hi hst) hs
    (Along.of_forall fun _ _ ↦ trivial) has

/-- The invariant rule with a history variable. -/
theorem Along.history {β : Type*} {I : σ → β → Prop} {f : σ → α → σ → β → β} {x : β}
    (hI : ∀ s a t x, I s x → p s a → step s a = .ok t → I t (f s a t x)) (hs : I s x)
    (hp : Along step p s as) (h : exec step s as = .ok t) : I t (history step f s x as) := by
  induction as generalizing s x with
  | nil => cases h; exact hs
  | cons a as ih =>
    obtain ⟨v, hv, hrest⟩ := exec_cons_eq_ok.mp h
    unfold Lib.history
    rw [hv]
    exact ih (hI s a v x hs hp.1 hv) (hp.2 v hv) hrest

theorem Each.mono {P Q : σ → α → σ → Prop} (hPQ : ∀ s a t, P s a t → Q s a t)
    (h : Each step P s as) : Each step Q s as := by
  induction as generalizing s with
  | nil => trivial
  | cons a as ih =>
    intro t ht
    obtain ⟨hp, hrest⟩ := h t ht
    exact ⟨hPQ s a t hp, ih hrest⟩

/-- The invariant rule with a history variable, where steps are permitted by the states before and
after them. -/
theorem Each.history {β : Type*} {P : σ → α → σ → Prop} {I : σ → β → Prop}
    {f : σ → α → σ → β → β} {x : β}
    (hI : ∀ s a t x, I s x → P s a t → step s a = .ok t → I t (f s a t x)) (hs : I s x)
    (hp : Each step P s as) (h : exec step s as = .ok t) : I t (history step f s x as) := by
  induction as generalizing s x with
  | nil => cases h; exact hs
  | cons a as ih =>
    obtain ⟨v, hv, hrest⟩ := exec_cons_eq_ok.mp h
    obtain ⟨hpv, hp⟩ := hp v hv
    unfold Lib.history
    rw [hv]
    exact ih (hI s a v x hs hpv hv) hp hrest

/-- Every permitted step that keeps the invariant of the run satisfies `P`. -/
theorem Along.each {I : σ → Prop} {P : σ → α → σ → Prop}
    (hI : ∀ s a t, I s → p s a → step s a = .ok t → I t ∧ P s a t) (hs : I s)
    (hp : Along step p s as) : Each step P s as := by
  induction as generalizing s with
  | nil => trivial
  | cons a as ih =>
    intro t ht
    obtain ⟨hi, hpt⟩ := hI s a t hs hp.1 ht
    exact ⟨hpt, ih hi (hp.2 t ht)⟩

/-- A condition on single steps carries over to runs. -/
theorem each_iff_along {P : σ → α → σ → Prop} (hP : ∀ s a t, step s a = .ok t → (P s a t ↔ p s a))
    (h : exec step s as = .ok u) : Each step P s as ↔ Along step p s as := by
  induction as generalizing s with
  | nil => exact Iff.rfl
  | cons a as ih =>
    obtain ⟨t, ht, hrest⟩ := exec_cons_eq_ok.mp h
    constructor
    · intro hall
      obtain ⟨hpt, hall⟩ := hall t ht
      refine ⟨(hP s a t ht).mp hpt, fun v hv ↦ ?_⟩
      cases ht.symm.trans hv
      exact (ih hrest).mp hall
    · intro hall v hv
      cases ht.symm.trans hv
      exact ⟨(hP s a t ht).mpr hall.1, (ih hrest).mpr (hall.2 t ht)⟩

section Tally

variable {M : Type*} [AddCommMonoid M] {f : σ → α → M}

@[simp] theorem tally_nil : tally step f s [] = 0 := rfl

theorem tally_cons_ok (h : step s a = .ok t) :
    tally step f s (a :: as) = f s a + tally step f t as := by
  simp only [tally, h]

theorem tally_append (h : exec step s as = .ok t) :
    tally step f s (as ++ bs) = tally step f s as + tally step f t bs := by
  induction as generalizing s with
  | nil =>
    cases h
    simp
  | cons a as ih =>
    obtain ⟨v, hv, hrest⟩ := exec_cons_eq_ok.mp h
    rw [List.cons_append, tally_cons_ok hv, tally_cons_ok hv, ih hrest, add_assoc]

theorem tally_add {g : σ → α → M} :
    tally step (fun s a ↦ f s a + g s a) s as = tally step f s as + tally step g s as := by
  induction as generalizing s with
  | nil => simp
  | cons a as ih =>
    cases h : step s a with
    | error e => simp [tally, h]
    | ok t => rw [tally_cons_ok h, tally_cons_ok h, tally_cons_ok h, ih, add_add_add_comm]

theorem map_tally {N : Type*} [AddCommMonoid N] (φ : M →+ N) :
    φ (tally step f s as) = tally step (fun s a ↦ φ (f s a)) s as := by
  induction as generalizing s with
  | nil => simp
  | cons a as ih =>
    cases h : step s a with
    | error e => simp [tally, h]
    | ok t => rw [tally_cons_ok h, tally_cons_ok h, map_add, ih]

/-- The accounting rule: a quantity that each permitted step changes by `f` is changed by the sum
of `f` over a run whose steps are permitted. -/
theorem Along.tally {I : σ → Prop} {V : σ → M}
    (hI : ∀ s a t, I s → p s a → step s a = .ok t → I t ∧ V t = V s + f s a) (hs : I s)
    (hp : Along step p s as) (h : exec step s as = .ok t) : V t = V s + Lib.tally step f s as := by
  induction as generalizing s with
  | nil =>
    cases h
    simp
  | cons a as ih =>
    obtain ⟨v, hv, hrest⟩ := exec_cons_eq_ok.mp h
    obtain ⟨hiv, hV⟩ := hI s a v hs hp.1 hv
    rw [ih hiv (hp.2 v hv) hrest, hV, tally_cons_ok hv, add_assoc]

end Tally

end Rules

/-- A step function `step` refines an abstract relation `next` under `abs` where the
invariant `I` holds: each concrete step is an abstract step or leaves the image unchanged. -/
structure Refines {τ : Type*} (step : σ → α → Except ε σ) (I : σ → Prop) (next : τ → τ → Prop)
    (abs : σ → τ) : Prop where
  inv : ∀ s a t, I s → step s a = .ok t → I t
  sim : ∀ s a t, I s → step s a = .ok t → next (abs s) (abs t) ∨ abs t = abs s

/-- A refinement sends reachable states to reachable abstract states. -/
theorem Refines.reaches {τ : Type*} {step : σ → α → Except ε σ} {I : σ → Prop}
    {next : τ → τ → Prop} {abs : σ → τ} (hr : Refines step I next abs) {s t : σ}
    (hs : I s) (h : Reaches step s t) : Relation.ReflTransGen next (abs s) (abs t) := by
  obtain ⟨as, has⟩ := h
  induction as generalizing s with
  | nil => cases has; exact .refl
  | cons a as ih =>
    obtain ⟨v, hv, hrest⟩ := exec_cons_eq_ok.mp has
    have hv' := ih (hr.inv s a v hs hv) hrest
    rcases hr.sim s a v hs hv with hn | he
    · exact .head hn hv'
    · rwa [he] at hv'

end Xv6.Lib
