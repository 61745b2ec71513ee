import Xv6.Lib.Update

/-!
# Holders of references

A finite family of holders, each of which holds a multiset of things. What all of them hold
together changes as one of them does. A reference count is right when it is the number of times
that the thing is held.
-/

namespace Xv6.Lib

open Function

variable {ι α β : Type*} [Fintype ι] {F : α → Multiset β} {g : ι → α} {i : ι} {a : α}
  {m : Multiset β}

/-- What all holders together hold. -/
def held (F : α → Multiset β) (g : ι → α) : Multiset β := ∑ x, F (g x)

/-- What an optional reference holds. -/
def single : Option β → Multiset β
  | none => 0
  | some b => {b}

theorem mem_single {o : Option β} {b : β} : b ∈ single o ↔ o = some b := by
  cases o with
  | none => simp [single]
  | some c => simp [single, eq_comm]

theorem mem_held {b : β} : b ∈ held F g ↔ ∃ x, b ∈ F (g x) := by
  rw [held, Multiset.mem_sum]
  simp

/-- Nobody holds anything. -/
theorem held_eq_zero (h : ∀ x, F (g x) = 0) : held F g = 0 :=
  Finset.sum_eq_zero fun x _ ↦ h x

variable [DecidableEq ι]

/-- When one holder changes, its old things are exchanged for its new ones. -/
theorem held_update (F : α → Multiset β) (g : ι → α) (i : ι) (a : α) :
    held F (update g i a) + F (g i) = held F g + F a :=
  sum_update_add F g i a

/-- One holder takes something. -/
theorem held_take (h : F a = m + F (g i)) : held F (update g i a) = m + held F g := by
  have hsum := held_update F g i a
  rw [h, ← add_assoc, add_comm (held F g)] at hsum
  exact add_right_cancel hsum

/-- One holder drops something. -/
theorem held_drop (h : F (g i) = m + F a) : held F g = m + held F (update g i a) := by
  have hsum := held_update F g i a
  rw [h, ← add_assoc, add_comm _ m] at hsum
  exact (add_right_cancel hsum).symm

/-- One holder changes without taking or dropping anything. -/
theorem held_keep (h : F a = F (g i)) : held F (update g i a) = held F g := by
  have htake := held_take (m := 0) (h.trans (zero_add _).symm)
  rwa [zero_add] at htake

end Xv6.Lib
