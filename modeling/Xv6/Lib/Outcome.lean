import Xv6.Lib.Transition

/-!
# Outcomes of fallible computations

`Ensures x err ok` says what a computation in `Except` does: the value it returns
satisfies `ok`, and an error it raises satisfies `err`. The rules follow the shape of
the program: `bind`, a conditional, and a loop over a list.
-/

namespace Xv6.Lib

universe u

variable {ε γ : Type*} {α β : Type u}

/-- The computation returns a value with `ok`, or raises an error with `err`. -/
def Ensures (x : Except ε α) (err : ε → Prop) (ok : α → Prop) : Prop :=
  match x with
  | .ok a => ok a
  | .error e => err e

/-- What a sequence that returns has returned on the way. -/
theorem bind_eq_ok {x : Except ε α} {f : α → Except ε β} {b : β} :
    x >>= f = .ok b ↔ ∃ a, x = .ok a ∧ f a = .ok b := by
  cases x with
  | ok a =>
    constructor
    · intro h
      exact ⟨a, rfl, h⟩
    · intro h
      obtain ⟨_, h, hb⟩ := h
      cases h
      exact hb
  | error e =>
    constructor
    · intro h
      cases h
    · intro h
      obtain ⟨_, h, _⟩ := h
      cases h

namespace Ensures

variable {x : Except ε α} {err err' : ε → Prop} {ok ok' : α → Prop}

@[simp] theorem ok_iff {a : α} : Ensures (.ok a : Except ε α) err ok ↔ ok a := Iff.rfl

@[simp] theorem error_iff {e : ε} : Ensures (.error e : Except ε α) err ok ↔ err e := Iff.rfl

@[simp] theorem pure_iff {a : α} : Ensures (pure a : Except ε α) err ok ↔ ok a := Iff.rfl

@[simp] theorem mapError_iff {δ : Type*} {f : ε → δ} {err : δ → Prop} :
    Ensures (x.mapError f) err ok ↔ Ensures x (fun e ↦ err (f e)) ok := by
  cases x <;> rfl

@[simp] theorem map_iff {f : α → β} {ok : β → Prop} :
    Ensures (x.map f) err ok ↔ Ensures x err fun a ↦ ok (f a) := by
  cases x <;> rfl

theorem mono (h : Ensures x err ok) (hok : ∀ a, ok a → ok' a) (herr : ∀ e, err e → err' e) :
    Ensures x err' ok' := by
  cases x with
  | ok a => exact hok a h
  | error e => exact herr e h

/-- Only the condition on the returned value is weakened. -/
theorem imp (h : Ensures x err ok) (hok : ∀ a, ok a → ok' a) : Ensures x err ok' :=
  h.mono hok fun _ he ↦ he

/-- The rule of sequential composition. -/
theorem bind {f : α → Except ε β} {ok' : β → Prop} (h : Ensures x err ok)
    (hf : ∀ a, ok a → Ensures (f a) err ok') : Ensures (x >>= f) err ok' := by
  cases x with
  | ok a => exact hf a h
  | error e => exact h

/-- What two specifications say of the returned value. -/
theorem and {ok' : α → Prop} (h : Ensures x err ok) (h' : Ensures x err' ok') :
    Ensures x err fun a ↦ ok a ∧ ok' a := by
  cases x with
  | ok a => exact ⟨h, h'⟩
  | error e => exact h

/-- The value of a computation that returns. -/
theorem of_ok {a : α} (h : Ensures x err ok) (hx : x = .ok a) : ok a := by
  subst hx
  exact h

theorem of_error {e : ε} (h : Ensures x err ok) (hx : x = .error e) : err e := by
  subst hx
  exact h

/-- What must be the case whenever a computation fails. -/
theorem because {P : Prop} (h : Ensures x err ok) (hP : ∀ e, x = .error e → P) :
    Ensures x (fun e ↦ P ∧ err e) ok := by
  cases x with
  | ok a => exact h
  | error e => exact ⟨hP e rfl, h⟩

/-- The loop rule: `I n b` holds when the first `n` elements are done. -/
theorem foldlM {f : β → γ → Except ε β} {I : Nat → β → Prop} {l : List γ} {b : β} (h0 : I 0 b)
    (hstep : ∀ n (hn : n < l.length) b, I n b → Ensures (f b l[n]) err (I (n + 1))) :
    Ensures (l.foldlM f b) err (I l.length) := by
  induction l generalizing b I with
  | nil => exact h0
  | cons c l ih =>
    rw [List.foldlM_cons]
    apply Ensures.bind (hstep 0 (Nat.zero_lt_succ _) b h0)
    intro b' hb'
    apply ih (I := fun n b ↦ I (n + 1) b) hb'
    intro n hn b'' hb''
    exact hstep (n + 1) (Nat.succ_lt_succ hn) b'' hb''

/-- The rule of runs: what every permitted step ensures of the invariant, every run whose
steps are permitted ensures. -/
theorem exec {σ δ : Type*} {step : σ → δ → Except ε σ} {p : σ → δ → Prop} {I : σ → Prop} {s : σ}
    {as : List δ} (hI : ∀ s a, I s → p s a → Ensures (step s a) err I) (hs : I s)
    (hp : Along step p s as) : Ensures (exec step s as) err I := by
  induction as generalizing s with
  | nil => exact hs
  | cons a as ih =>
    have hstep := hI s a hs hp.1
    unfold Lib.exec
    cases ht : step s a with
    | ok t =>
      rw [ht] at hstep
      exact ih hstep (hp.2 t ht)
    | error e =>
      rw [ht] at hstep
      exact hstep

end Ensures

end Xv6.Lib
