import Mathlib

/-!
# Ring buffers with free-running indices

A ring of `cap` places is read and written at two indices that only count up. What it holds
is the window between them. A machine that keeps the indices modulo `2 ^ 32` computes the
same places and the same fill, since `cap` divides that and the indices stay close.
-/

namespace Xv6.Lib

open Function

variable {α : Type*} {cap r w e : Nat} {data : Nat → α} {a : α}

/-- The entries between two indices, oldest first. -/
def window (cap : Nat) (data : Nat → α) (r w : Nat) : List α :=
  (List.range' r (w - r)).map fun k ↦ data (k % cap)

@[simp] theorem length_window : (window cap data r w).length = w - r := by
  simp [window]

@[simp] theorem window_self : window cap data r r = [] := by
  simp [window]

/-- Two windows side by side. -/
theorem window_append (hrw : r ≤ w) (hwe : w ≤ e) :
    window cap data r w ++ window cap data w e = window cap data r e := by
  have hsplit : e - r = w - r + (e - w) := by omega
  have hstart : r + 1 * (w - r) = w := by omega
  unfold window
  rw [hsplit, ← List.range'_append, List.map_append, hstart]

/-- The oldest entry is at the read index. -/
theorem window_pop (h : r < w) :
    window cap data r w = data (r % cap) :: window cap data (r + 1) w := by
  have hfirst : window cap data r (r + 1) = [data (r % cap)] := by
    simp [window]
  rw [← window_append (Nat.le_succ r) h, hfirst]
  rfl

/-- The newest entry is before the write index. -/
theorem window_succ (h : r ≤ w) :
    window cap data r (w + 1) = window cap data r w ++ [data (w % cap)] := by
  have hlast : window cap data w (w + 1) = [data (w % cap)] := by
    simp [window]
  rw [← window_append h (Nat.le_succ w), hlast]

/-- Indices less than `cap` apart are different places. -/
theorem mod_ne_of_lt {i j : Nat} (hij : i < j) (hj : j < i + cap) : i % cap ≠ j % cap := by
  intro h
  have hdvd : cap ∣ j - i := (Nat.modEq_iff_dvd' hij.le).mp h
  have hle := Nat.le_of_dvd (Nat.sub_pos_of_lt hij) hdvd
  omega

/-- A write at the write index leaves what the ring holds alone. -/
theorem window_update (hfit : w < r + cap) :
    window cap (update data (w % cap) a) r w = window cap data r w := by
  apply List.map_congr_left
  intro k hk
  rw [List.mem_range'_1] at hk
  apply update_of_ne
  exact mod_ne_of_lt (by omega) (by omega)

/-- Writing one more entry. -/
theorem window_push (hrw : r ≤ w) (hfit : w < r + cap) :
    window cap (update data (w % cap) a) r (w + 1) = window cap data r w ++ [a] := by
  rw [window_succ hrw, window_update hfit, update_self]

/-! ### Indices modulo `2 ^ 32` -/

theorem toNat_ofNat_mod (h : cap ∣ 2 ^ 32) (hlt : cap < 2 ^ 32) (k : Nat) :
    (UInt32.ofNat k % UInt32.ofNat cap).toNat = k % cap := by
  have hcap : (UInt32.ofNat cap).toNat = cap := UInt32.toNat_ofNat_of_lt' hlt
  rw [UInt32.toNat_mod, hcap, UInt32.toNat_ofNat', Nat.mod_mod_of_dvd k h]

/-- The distance of two indices that are close. -/
theorem toNat_ofNat_sub (hrw : r ≤ w) (h : w < r + 2 ^ 32) :
    (UInt32.ofNat w - UInt32.ofNat r).toNat = w - r := by
  rw [UInt32.toNat_sub, UInt32.toNat_ofNat', UInt32.toNat_ofNat']
  omega

theorem ofNat_eq_iff (hrw : r ≤ w) (h : w < r + 2 ^ 32) :
    UInt32.ofNat w = UInt32.ofNat r ↔ w = r := by
  constructor
  · intro he
    have hsub := toNat_ofNat_sub hrw h
    rw [he, UInt32.sub_self, UInt32.toNat_zero] at hsub
    omega
  · intro he
    rw [he]

theorem ofNat_succ (k : Nat) : UInt32.ofNat k + 1 = UInt32.ofNat (k + 1) := by
  rw [UInt32.ofNat_add]
  rfl

/-- The ring is full when the write index is `cap` after the read index. -/
theorem ofNat_eq_add_iff (hrw : r ≤ w) (hfit : w ≤ r + cap) (hlt : cap < 2 ^ 32) :
    UInt32.ofNat w = UInt32.ofNat r + UInt32.ofNat cap ↔ w = r + cap := by
  rw [← UInt32.ofNat_add, eq_comm, ofNat_eq_iff hfit (by omega), eq_comm]

end Xv6.Lib
