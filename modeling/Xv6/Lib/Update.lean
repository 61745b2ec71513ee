import Mathlib

/-!
# Point updates under sums

How a sum over all processes (or any finite index type) changes when one of them
changes.
-/

namespace Xv6.Lib

open Function

variable {ι β M : Type*} [DecidableEq ι]

/-- A map after a point update is the point update of the map. -/
theorem comp_update_apply {γ : Type*} (f : β → γ) (g : ι → β) (i j : ι) (x : β) :
    f (update g i x j) = update (fun k ↦ f (g k)) i (f x) j := by
  by_cases h : j = i
  · subst h; simp
  · simp [h]

variable [Fintype ι] [AddCommMonoid M]

/-- Replacing one summand: the old summand is exchanged for the new one. -/
theorem sum_update_add (f : β → M) (g : ι → β) (i : ι) (x : β) :
    ∑ j, f (update g i x j) + f (g i) = ∑ j, f (g j) + f x := by
  have hu : ∑ j, f (update g i x j) = f x + ∑ j ∈ Finset.univ \ {i}, f (g j) := by
    simp only [comp_update_apply]
    exact Finset.sum_update_of_mem (Finset.mem_univ i) _ _
  have hg : ∑ j, f (g j) = f (g i) + ∑ j ∈ Finset.univ \ {i}, f (g j) :=
    Finset.sum_eq_add_sum_sdiff_singleton_of_mem (Finset.mem_univ i) _
  rw [hu, hg, add_assoc, add_comm (f x), add_comm _ (f (g i))]

end Xv6.Lib
