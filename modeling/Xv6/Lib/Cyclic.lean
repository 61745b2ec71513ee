import Mathlib

/-!
# Search in a circle

The first index with a property, when the search begins after a given index and ends at it. An
index that keeps the property is found in at most one round of searches, each of which begins
where the one before it ended.
-/

namespace Xv6.Lib

variable {n : Nat}

/-- The indices in the order of a search that begins after `i`. -/
def around (i : Fin (n + 1)) : List (Fin (n + 1)) := (List.finRange (n + 1)).map fun k ↦ i + 1 + k

/-- The place of `j` in a search that begins after `i`. -/
def ahead (i j : Fin (n + 1)) : Fin (n + 1) := j - (i + 1)

/-- The first index after `i` that satisfies `p`; `i` itself comes last. -/
def nextFrom (p : Fin (n + 1) → Bool) (i : Fin (n + 1)) : Option (Fin (n + 1)) :=
  (around i).find? p

variable {p : Fin (n + 1) → Bool} {i j k : Fin (n + 1)}

theorem mem_around : j ∈ around i :=
  List.mem_map.mpr ⟨ahead i j, List.mem_finRange _, add_sub_cancel (i + 1) j⟩

/-- Nothing comes after the index at which the search begins. -/
theorem ahead_le_self (j : Fin (n + 1)) : ahead i j ≤ ahead i i := by
  have hlast : ahead i i = Fin.last n := by
    unfold ahead
    rw [sub_add_cancel_left]
    exact neg_eq_of_add_eq_zero_left (Fin.last_add_one n)
  rw [hlast]
  exact Fin.le_last _

/-- The search ends where it begins. -/
theorem around_eq (i : Fin (n + 1)) :
    around i = ((List.finRange n).map fun k ↦ i + 1 + k.castSucc) ++ [i] := by
  unfold around
  rw [List.finRange_succ_last, List.map_append, List.map_map]
  have hlast : i + 1 + Fin.last n = i := by
    rw [add_assoc, add_comm 1, Fin.last_add_one, add_zero]
  simp [hlast, Function.comp_def]

theorem nextFrom_eq_none : nextFrom p i = none ↔ ∀ j, p j = false := by
  unfold nextFrom
  rw [List.find?_eq_none]
  constructor
  · intro h j
    simpa using h j mem_around
  · intro h j _
    simp [h j]

/-- What is found satisfies `p`, and nothing before it does. -/
theorem nextFrom_eq_some : nextFrom p i = some j ↔
    p j = true ∧ ∀ k, ahead i k < ahead i j → p k = false := by
  have hlen : (around i).length = n + 1 := by simp [around]
  have hget : ∀ (k : Nat) (h : k < (around i).length),
      (around i)[k] = i + 1 + (⟨k, hlen ▸ h⟩ : Fin (n + 1)) := by
    intro k h
    simp [around]
  have hahead : ∀ k : Fin (n + 1), ahead i (i + 1 + k) = k := fun k ↦ add_sub_cancel_left (i + 1) k
  unfold nextFrom
  rw [List.find?_eq_some_iff_getElem]
  constructor
  · rintro ⟨hj, m, hm, hmj, hfirst⟩
    refine ⟨hj, fun k hk ↦ ?_⟩
    rw [hget] at hmj
    rw [← hmj, hahead] at hk
    have hkm : (ahead i k : Nat) < m := hk
    have hno := hfirst (ahead i k) hkm
    rw [hget] at hno
    have hback : i + 1 + ahead i k = k := add_sub_cancel (i + 1) k
    simpa [hback] using hno
  · rintro ⟨hj, hfirst⟩
    have hback : i + 1 + ahead i j = j := add_sub_cancel (i + 1) j
    refine ⟨hj, ahead i j, by rw [hlen]; exact (ahead i j).isLt, ?_, ?_⟩
    · rw [hget]
      exact hback
    · intro m hm
      rw [hget]
      have hno := hfirst (i + 1 + ⟨m, hm.trans (ahead i j).isLt⟩) (by rw [hahead]; exact hm)
      simp [hno]

/-- The next search begins closer to an index that has not been found. -/
theorem ahead_lt (h : nextFrom p i = some j) (hk : p k = true) (hjk : j ≠ k) :
    ahead j k < ahead i k := by
  obtain ⟨_, hfirst⟩ := nextFrom_eq_some.mp h
  have hle : ahead i j ≤ ahead i k := by
    by_contra hlt
    rw [hfirst k (not_le.mp hlt)] at hk
    cases hk
  have hne : ahead i j ≠ ahead i k := fun heq ↦ hjk (sub_left_injective heq)
  have hlt : ahead i j < ahead i k := lt_of_le_of_ne hle hne
  -- what is left from `j` on, without the step to the index after `j`
  have hsub : ahead j k = ahead i k - (ahead i j + 1) := by
    unfold ahead
    abel
  have hle1 : ahead i j + 1 ≤ ahead i k := Fin.add_one_le_of_lt hlt
  have hval : ((ahead i j + 1 : Fin (n + 1)) : Nat) = (ahead i j : Nat) + 1 :=
    Fin.val_add_one_of_lt (lt_of_lt_of_le hlt (Fin.le_last _))
  rw [hsub, Fin.lt_def, Fin.sub_val_of_le hle1, hval]
  rw [Fin.lt_def] at hlt
  omega

/-- An index that satisfies `p` in every search is found by one of the next `n + 1`. -/
theorem nextFrom_within {p : Nat → Fin (n + 1) → Bool} {σ : Nat → Fin (n + 1)}
    (h : ∀ t, nextFrom (p t) (σ t) = some (σ (t + 1))) (hk : ∀ t, p t k = true) :
    ∃ t ≤ n, σ (t + 1) = k := by
  by_contra hno
  push Not at hno
  have hdist : ∀ t, t ≤ n + 1 → (ahead (σ t) k : Nat) + t ≤ n := by
    intro t
    induction t with
    | zero => exact fun _ ↦ Nat.le_of_lt_succ (ahead (σ 0) k).isLt
    | succ t ih =>
      intro ht
      have hlt := ahead_lt (h t) (hk t) (hno t (by omega))
      have hle := ih (by omega)
      rw [Fin.lt_def] at hlt
      omega
  have hend := hdist (n + 1) le_rfl
  omega

end Xv6.Lib
