import Mathlib

/-!
# Blocks at places

Blocks of one size, at most one at each place, that lie below a limit and do not overlap. A block
is known by its upper end.
-/

namespace Xv6.Lib

open Function

variable {P : Type*} {size limit limit' : Nat} {top top' : P → Option Nat} {p q : P} {a b : Nat}

/-- The numbers of a block. -/
def block (size top : Nat) : Set Nat := Set.Ico (top - size) top

/-- `top p` is the upper end of the block at `p`. -/
structure Blocks (size limit : Nat) (top : P → Option Nat) : Prop where
  fits : ∀ p a, top p = some a → size ≤ a ∧ a ≤ limit
  apart : ∀ p q a b, top p = some a → top q = some b → p ≠ q → a + size ≤ b ∨ b + size ≤ a

namespace Blocks

/-- The limit is moved, but not below a block. -/
theorem resize (h : Blocks size limit top) (hlimit : ∀ p a, top p = some a → a ≤ limit') :
    Blocks size limit' top :=
  ⟨fun p a hp ↦ ⟨(h.fits p a hp).1, hlimit p a hp⟩, h.apart⟩

/-- Each block comes from another place, or is given up. -/
theorem rearrange (h : Blocks size limit top) (f : P → P)
    (hf : ∀ p a, top' p = some a → top (f p) = some a)
    (hinj : ∀ p q a b, top' p = some a → top' q = some b → f p = f q → p = q) :
    Blocks size limit top' := by
  refine ⟨fun p a hp ↦ h.fits (f p) a (hf p a hp), fun p q a b hp hq hpq ↦ ?_⟩
  exact h.apart (f p) (f q) a b (hf p a hp) (hf q b hq) fun he ↦ hpq (hinj p q a b hp hq he)

/-- Blocks are given up. -/
theorem mono (h : Blocks size limit top) (hsub : ∀ p a, top' p = some a → top p = some a) :
    Blocks size limit top' :=
  h.rearrange id hsub fun _ _ _ _ _ _ ↦ id

/-- A block is made above the limit. -/
theorem carve (h : Blocks size limit top) (hnew : top' p = some (limit + size))
    (hold : ∀ q, q ≠ p → top' q = top q) : Blocks size (limit + size) top' := by
  have hcases : ∀ q b, top' q = some b → q = p ∧ b = limit + size ∨ q ≠ p ∧ top q = some b := by
    intro q b hq
    by_cases hqp : q = p
    · subst hqp
      exact .inl ⟨rfl, Option.some.inj (hq.symm.trans hnew)⟩
    · exact .inr ⟨hqp, (hold q hqp).symm.trans hq⟩
  constructor
  · intro q b hq
    rcases hcases q b hq with ⟨_, rfl⟩ | ⟨_, hq⟩
    · omega
    · have hfit := h.fits q b hq
      omega
  · intro q r b c hq hr hqr
    rcases hcases q b hq with ⟨rfl, rfl⟩ | ⟨_, hq⟩ <;> rcases hcases r c hr with ⟨rfl, rfl⟩ | ⟨_, hr⟩
    · exact absurd rfl hqr
    · have hfit := h.fits r c hr
      omega
    · have hfit := h.fits q b hq
      omega
    · exact h.apart q r b c hq hr hqr

/-- The block at `q` is moved to `p`; what was at `p` is given up. -/
theorem move (h : Blocks size limit top) (hnew : ∀ a, top' p = some a → top q = some a)
    (hgone : top' q = none) (hold : ∀ r, r ≠ p → r ≠ q → ∀ a, top' r = some a → top r = some a)
    (hpq : p ≠ q) : Blocks size limit top' := by
  classical
  refine h.rearrange (fun r ↦ if r = p then q else r) ?_ ?_
  · intro r a hr
    split
    · next hrp =>
      subst hrp
      exact hnew a hr
    · next hrp =>
      refine hold r hrp ?_ a hr
      rintro rfl
      cases hgone.symm.trans hr
  · intro r r' a b hr hr' he
    have hne : ∀ x c, top' x = some c → x ≠ q := by
      rintro x c hx rfl
      cases hgone.symm.trans hx
    split at he <;> split at he
    · next hrp hrp' => exact hrp.trans hrp'.symm
    · exact absurd he.symm (hne r' b hr')
    · exact absurd he (hne r a hr)
    · exact he

/-- Two blocks have no number in common. -/
theorem disjoint (h : Blocks size limit top) (hp : top p = some a) (hq : top q = some b)
    (hpq : p ≠ q) : Disjoint (block size a) (block size b) := by
  rw [Set.disjoint_left]
  intro v hv hv'
  have hfit := h.fits p a hp
  have hfit' := h.fits q b hq
  have hv : a - size ≤ v ∧ v < a := Set.mem_Ico.mp hv
  have hv' : b - size ≤ v ∧ v < b := Set.mem_Ico.mp hv'
  have hapart := h.apart p q a b hp hq hpq
  omega

end Blocks

end Xv6.Lib
