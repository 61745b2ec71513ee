import Mathlib

/-!
# Numbered items at places

An allocator that makes new items and uses old ones again: the items are numbered in the order in
which they were made, each is at one place and a place holds at most one. Items move between places
and are never lost.
-/

namespace Xv6.Lib

open Function

variable {P : Type*}

/-- The items `0`, …, `next - 1`, each at exactly one place. -/
structure Recycler (P : Type*) where
  next : Nat
  item : P → Option Nat
  inj : ∀ p q k, item p = some k → item q = some k → p = q
  made : ∀ k, k < next ↔ ∃ p, item p = some k

namespace Recycler

/-- No items yet. -/
def empty : Recycler P where
  next := 0
  item := fun _ ↦ none
  inj _ _ _ h := nomatch h
  made k := by simp

theorem item_lt (r : Recycler P) {p : P} {k : Nat} (h : r.item p = some k) : k < r.next :=
  (r.made k).mpr ⟨p, h⟩

section

variable [DecidableEq P]

/-- A new item is put at an empty place. -/
def carve (r : Recycler P) (p : P) (hp : r.item p = none) : Recycler P where
  next := r.next + 1
  item := update r.item p (some r.next)
  inj := by
    have hnew : ∀ q, q ≠ p → update r.item p (some r.next) q ≠ some r.next := by
      intro q hq h
      rw [update_of_ne hq] at h
      exact (r.item_lt h).false
    intro q q' k h h'
    by_cases hq : q = p
    · subst hq
      rw [update_self] at h
      cases h
      exact (not_not.mp fun hne ↦ hnew q' hne h').symm
    · by_cases hq' : q' = p
      · subst hq'
        rw [update_self] at h'
        cases h'
        exact absurd h (hnew q hq)
      · rw [update_of_ne hq] at h
        rw [update_of_ne hq'] at h'
        exact r.inj q q' k h h'
  made k := by
    constructor
    · intro hk
      rcases Nat.lt_succ_iff_lt_or_eq.mp hk with hk | rfl
      · obtain ⟨q, hq⟩ := (r.made k).mp hk
        have hne : q ≠ p := by
          rintro rfl
          cases hp.symm.trans hq
        exact ⟨q, by rw [update_of_ne hne, hq]⟩
      · exact ⟨p, update_self ..⟩
    · rintro ⟨q, hq⟩
      by_cases hqp : q = p
      · subst hqp
        rw [update_self] at hq
        cases hq
        exact Nat.lt_succ_self _
      · rw [update_of_ne hqp] at hq
        exact Nat.lt_succ_of_lt (r.item_lt hq)

/-- What is at `p` is moved to the empty place `q`. -/
def move (r : Recycler P) (p q : P) (hq : r.item q = none) : Recycler P where
  next := r.next
  item := fun x ↦ if x = q then r.item p else if x = p then none else r.item x
  inj x y k hx hy := by
    by_cases hxq : x = q <;> by_cases hyq : y = q
    · exact hxq.trans hyq.symm
    · rw [if_pos hxq] at hx
      rw [if_neg hyq] at hy
      split at hy
      · cases hy
      · next hyp => exact absurd (r.inj y p k hy hx) hyp
    · rw [if_neg hxq] at hx
      rw [if_pos hyq] at hy
      split at hx
      · cases hx
      · next hxp => exact absurd (r.inj x p k hx hy) hxp
    · rw [if_neg hxq] at hx
      rw [if_neg hyq] at hy
      split at hx
      · cases hx
      · split at hy
        · cases hy
        · exact r.inj x y k hx hy
  made k := by
    rw [r.made]
    constructor
    · rintro ⟨x, hx⟩
      by_cases hxp : x = p
      · subst hxp
        exact ⟨q, by rw [if_pos rfl, hx]⟩
      · have hxq : x ≠ q := by
          rintro rfl
          cases hq.symm.trans hx
        exact ⟨x, by rw [if_neg hxq, if_neg hxp, hx]⟩
    · rintro ⟨x, hx⟩
      split at hx
      · exact ⟨p, hx⟩
      · split at hx
        · cases hx
        · exact ⟨x, hx⟩

end

/-! ### Room -/

/-- The places that hold an item. -/
private def holding [Fintype P] (r : Recycler P) : Finset P :=
  Finset.univ.filter fun p ↦ (r.item p).isSome = true

private theorem mem_holding [Fintype P] {r : Recycler P} {p : P} :
    p ∈ r.holding ↔ ∃ k, r.item p = some k := by
  simp [holding, Option.isSome_iff_exists]

/-- There are as many items as places that hold one. -/
private theorem card_holding [Fintype P] (r : Recycler P) : r.holding.card = r.next := by
  rw [← Finset.card_range r.next]
  refine Finset.card_bij (fun p _ ↦ (r.item p).getD 0) ?_ ?_ ?_
  · intro p hp
    obtain ⟨k, hk⟩ := mem_holding.mp hp
    simpa [hk] using r.item_lt hk
  · intro p hp q hq h
    obtain ⟨k, hk⟩ := mem_holding.mp hp
    obtain ⟨l, hl⟩ := mem_holding.mp hq
    rw [hk, hl] at h
    cases h
    exact r.inj p q k hk hl
  · intro k hk
    obtain ⟨p, hp⟩ := (r.made k).mp (Finset.mem_range.mp hk)
    exact ⟨p, mem_holding.mpr ⟨k, hp⟩, by simp [hp]⟩

/-- While all items are in `s` and a place of `s` is empty, there are fewer items than places. -/
theorem next_lt [Fintype P] (r : Recycler P) {s : Finset P} {p : P}
    (hs : ∀ q, q ∉ s → r.item q = none) (hp : p ∈ s) (hn : r.item p = none) : r.next < s.card := by
  rw [← r.card_holding]
  refine Finset.card_lt_card ⟨fun q hq ↦ ?_, fun hsub ↦ ?_⟩
  · obtain ⟨k, hk⟩ := mem_holding.mp hq
    by_contra hout
    cases (hs q hout).symm.trans hk
  · obtain ⟨k, hk⟩ := mem_holding.mp (hsub hp)
    cases hn.symm.trans hk

/-- If there are at most as many items as places in `s` and one is elsewhere, a place of `s` is
empty. -/
theorem exists_vacant [Fintype P] (r : Recycler P) {s : Finset P} {p : P} {k : Nat}
    (hle : r.next ≤ s.card) (hp : p ∉ s) (hk : r.item p = some k) : ∃ q ∈ s, r.item q = none := by
  by_contra hnone
  push Not at hnone
  have hsub : s ⊂ r.holding := by
    refine ⟨fun q hq ↦ ?_, fun hsub ↦ hp (hsub (mem_holding.mpr ⟨k, hk⟩))⟩
    exact mem_holding.mpr (Option.ne_none_iff_exists'.mp (hnone q hq))
  have hlt := Finset.card_lt_card hsub
  rw [r.card_holding] at hlt
  omega

end Recycler

end Xv6.Lib
