import Xv6.Lib.MinHeap

/-!
# Heaps of equal keys

Where all keys are equal, `dequeue` moves the hole to the right child whenever there is one and
`enqueue` leaves the new entry last. Taking out the root and putting it back therefore turns
over the entries of one path, whatever the keys are, and no other entry ever moves.
-/

namespace Xv6.Lib.Heap

open Function

/-- The child to which the hole at slot `i` moves among `n` entries of equal keys. -/
def right (n i : Nat) : Nat := if 2 * i < n then 2 * i + 1 else 2 * i

/-- The slot whose entry comes to slot `i` when the root of `m` entries of equal keys is taken
out and put back, for the slots on the path of the hole. -/
def source (m i : Nat) : Nat := if i = m then 1 else if 2 * i < m then right (m - 1) i else m

/-- The slots whose entries come to the root of a heap of `m` entries of equal keys: `1`, `3`,
`7` and so on, the last one, and the last but one where it is an only child on this path. -/
def Turning (m i : Nat) : Prop :=
  1 ≤ i ∧ i ≤ m ∧ ((i + 1).isPowerOfTwo ∨ i = m ∨ i + 1 = m ∧ (i + 2).isPowerOfTwo)

/-! ### The path -/

section

variable {m n i t : Nat}

theorem lt_right (h : 1 ≤ i) : i < right n i := by
  unfold right
  split <;> omega

theorem le_right_iterate (h : 1 ≤ i) (t : Nat) : i ≤ (right n)^[t] i := by
  induction t generalizing i with
  | zero => exact le_refl i
  | succ t ih =>
    rw [iterate_succ_apply]
    have hlt : i < right n i := lt_right h
    exact hlt.le.trans (ih (by omega))

theorem source_last (m : Nat) : source m m = 1 := by
  simp [source]

theorem source_range (h1 : 1 ≤ i) (h : i < m) : i < source m i ∧ source m i ≤ m := by
  unfold source right
  split
  · omega
  · split
    · split <;> omega
    · omega

theorem source_eq_right (h : source m i < m) (hi : i ≠ m) : source m i = right (m - 1) i := by
  unfold source at h ⊢
  rw [if_neg hi] at h ⊢
  split at h
  · next h2 => rw [if_pos h2]
  · omega

theorem source_iterate (hm : 1 ≤ m) (t : Nat) :
    1 ≤ (source m)^[t] 1 ∧ (source m)^[t] 1 ≤ m := by
  induction t with
  | zero => exact ⟨le_refl 1, hm⟩
  | succ t ih =>
    rw [iterate_succ_apply']
    by_cases hlast : (source m)^[t] 1 = m
    · rw [hlast, source_last]
      exact ⟨le_refl 1, hm⟩
    · obtain ⟨hlt, hle⟩ := source_range ih.1 (lt_of_le_of_ne ih.2 hlast)
      exact ⟨by omega, hle⟩

/-- The path leads to the last slot. -/
private theorem source_reaches (d : Nat) {i : Nat} (h1 : 1 ≤ i) (h : i ≤ m) (hd : m - i ≤ d) :
    ∃ u, u ≤ m - i ∧ (source m)^[u] i = m := by
  induction d generalizing i with
  | zero => exact ⟨0, Nat.zero_le _, by simp; omega⟩
  | succ d ih =>
    by_cases hi : i = m
    · exact ⟨0, Nat.zero_le _, hi⟩
    · obtain ⟨hlt, hle⟩ := source_range h1 (lt_of_le_of_ne h hi)
      obtain ⟨u, hu, hlast⟩ := ih (by omega) hle (by omega)
      exact ⟨u + 1, by omega, by rwa [iterate_succ_apply]⟩

/-- The path comes back to the root after at most `m` steps. -/
theorem source_periodic (hm : 1 ≤ m) : ∃ d, 1 ≤ d ∧ d ≤ m ∧ IsPeriodicPt (source m) d 1 := by
  obtain ⟨u, hu, hlast⟩ := source_reaches (m - 1) (le_refl 1) hm (le_refl _)
  refine ⟨u + 1, by omega, by omega, ?_⟩
  show (source m)^[u + 1] 1 = 1
  rw [iterate_succ_apply', hlast, source_last]

/-- A point that comes back within `m` steps meets its whole orbit in every window of `m`. -/
theorem exists_in_window {α : Type*} {f : α → α} {x : α} {d : Nat} (h : IsPeriodicPt f d x)
    (h1 : 1 ≤ d) (hm : d ≤ m) (t u : Nat) : ∃ i, i < m ∧ f^[t + i] x = f^[u] x := by
  refine ⟨(u + t * (d - 1)) % d, (Nat.mod_lt _ h1).trans_le hm, ?_⟩
  have hsum : t + (u + t * (d - 1)) = u + t * d := by
    obtain ⟨e, rfl⟩ : ∃ e, d = e + 1 := ⟨d - 1, by omega⟩
    rw [Nat.add_sub_cancel]
    ring
  have hmod : (t + (u + t * (d - 1)) % d) % d = u % d := by
    rw [Nat.add_mod, Nat.mod_mod, ← Nat.add_mod, hsum, Nat.add_mul_mod_self_right]
  rw [← h.iterate_mod_apply, hmod, h.iterate_mod_apply]

/-- A slot of the path before the last is one the hole passes. -/
theorem path_of_lt (hm : 1 ≤ m) (h : (source m)^[t] 1 < m) :
    ∃ u, (right (m - 1))^[u] 1 = (source m)^[t] 1 := by
  induction t with
  | zero => exact ⟨0, rfl⟩
  | succ t ih =>
    rw [iterate_succ_apply'] at h ⊢
    by_cases hlast : (source m)^[t] 1 = m
    · rw [hlast, source_last]
      exact ⟨0, rfl⟩
    · obtain ⟨u, hu⟩ := ih (lt_of_le_of_ne (source_iterate hm t).2 hlast)
      refine ⟨u + 1, ?_⟩
      rw [iterate_succ_apply', hu, source_eq_right h hlast]

private theorem turning_source (h : Turning m i) : Turning m (source m i) := by
  obtain ⟨h1, hle, hi⟩ := h
  by_cases hlast : i = m
  · rw [hlast, source_last]
    exact ⟨le_refl 1, by omega, .inl ⟨1, rfl⟩⟩
  · obtain ⟨hlt, hsle⟩ := source_range h1 (lt_of_le_of_ne hle hlast)
    refine ⟨by omega, hsle, ?_⟩
    unfold source right
    rw [if_neg hlast]
    by_cases h2 : 2 * i < m
    · have hpow : (i + 1).isPowerOfTwo := by
        rcases hi with hi | hi | ⟨hi, -⟩
        · exact hi
        · exact absurd hi hlast
        · omega
      have hdouble : (2 * i + 2).isPowerOfTwo := by
        have hmul := Nat.isPowerOfTwo_mul_two_of_isPowerOfTwo hpow
        rwa [Nat.mul_comm] at hmul
      rw [if_pos h2]
      split
      · exact .inl hdouble
      · exact .inr (.inr ⟨by omega, hdouble⟩)
    · rw [if_neg h2]
      exact .inr (.inl rfl)

/-- The right spine, down to the last entry, is on the path. -/
private theorem spine_on_path (hm : 1 ≤ m) (k : Nat) {i : Nat} (h1 : 1 ≤ i) (hi : i + 1 = 2 ^ k)
    (hle : i ≤ m) : ∃ t, (source m)^[t] 1 = i := by
  induction k generalizing i with
  | zero => omega
  | succ k ih =>
    by_cases hlast : i = m
    · obtain ⟨u, -, hu⟩ := source_reaches (m - 1) (le_refl 1) hm (le_refl _)
      exact ⟨u, hu.trans hlast.symm⟩
    · by_cases hroot : i = 1
      · exact ⟨0, hroot.symm⟩
      · rw [pow_succ] at hi
        obtain ⟨t, ht⟩ := @ih (2 ^ k - 1) (by omega) (by omega) (by omega)
        refine ⟨t + 1, ?_⟩
        rw [iterate_succ_apply', ht]
        unfold source right
        rw [if_neg (by omega), if_pos (by omega), if_pos (by omega)]
        omega

/-- The slots of the path are the turning ones. -/
theorem turning_iff (hm : 1 ≤ m) : Turning m i ↔ ∃ t, (source m)^[t] 1 = i := by
  constructor
  · rintro ⟨h1, hle, ⟨k, hk⟩ | hlast | ⟨hlast, k, hk⟩⟩
    · exact spine_on_path hm k h1 hk hle
    · obtain ⟨u, -, hu⟩ := source_reaches (m - 1) (le_refl 1) hm (le_refl _)
      exact ⟨u, hu.trans hlast.symm⟩
    · cases k with
      | zero => omega
      | succ k =>
        rw [pow_succ] at hk
        obtain ⟨t, ht⟩ := @spine_on_path m hm k (2 ^ k - 1) (by omega) (by omega) (by omega)
        refine ⟨t + 1, ?_⟩
        rw [iterate_succ_apply', ht]
        unfold source right
        rw [if_neg (by omega), if_pos (by omega), if_neg (by omega)]
        omega
  · rintro ⟨t, rfl⟩
    induction t with
    | zero => exact ⟨le_refl 1, hm, .inl ⟨1, rfl⟩⟩
    | succ t ih =>
      rw [iterate_succ_apply']
      exact turning_source ih

/-- Up to three slots all have their turn. -/
theorem turning_of_le (hm : m ≤ 3) (h1 : 1 ≤ i) (h : i ≤ m) : Turning m i := by
  refine ⟨h1, h, ?_⟩
  by_cases hlast : i = m
  · exact .inr (.inl hlast)
  · by_cases hroot : i = 1
    · exact .inl ⟨1, by omega⟩
    · exact .inr (.inr ⟨by omega, 2, by omega⟩)

/-- The second slot of four or more never has its turn. -/
theorem not_turning_two (hm : 4 ≤ m) : ¬Turning m 2 := by
  rintro ⟨-, -, ⟨k, hk⟩ | hlast | ⟨hlast, -⟩⟩
  · have hodd : ∀ k, 2 + 1 ≠ 2 ^ k := by
      intro k
      rcases k with _ | _ | k
      · decide
      · decide
      · rw [pow_succ, pow_succ]
        omega
    exact hodd k hk
  · omega
  · omega

end

/-! ### One turn -/

section

variable {β κ : Type*} {key : β → κ} {x : κ} {a : Nat → β} {n : Nat} {p : β}

/-- All keys are equal. -/
def Level (key : β → κ) (x : κ) (h : Heap β) : Prop := ∀ y ∈ h.entries, key y = x

theorem Level.key_heap {h : Heap β} (hl : Level key x h) {i : Nat} (h1 : 1 ≤ i)
    (hi : i ≤ h.count) : key (h.heap i) = x := hl _ (mem_contents.mpr ⟨i, h1, hi, rfl⟩)

variable [LinearOrder κ]

/-- Take out the root and put it back. -/
def turn (key : β → κ) (h : Heap β) : Heap β := (dequeue key h).enqueue key (h.heap 1)

private theorem pick_of_ties (ha : ∀ i, 1 ≤ i → i ≤ n → key (a i) = x) {i : Nat} (h1 : 1 ≤ i) :
    pick key n a i = right n i := by
  unfold pick right
  split
  · have hl := ha (2 * i) (by omega) (by omega)
    have hr := ha (2 * i + 1) (by omega) (by omega)
    rw [hl, hr, if_neg (lt_irrefl x)]
  · rfl

private theorem siftDown_of_lt (fuel : Nat) (a : Nat → β) {parent i : Nat} (h1 : 1 ≤ parent)
    (hi : i < parent) : siftDown key p n fuel a parent i = a i := by
  induction fuel generalizing a parent with
  | zero => exact update_of_ne hi.ne p a
  | succ fuel ih =>
    unfold siftDown
    split
    · next hmove =>
      obtain ⟨hlt, -, -⟩ := pick_range key a h1 hmove.1
      rw [ih _ (by omega) (by omega), update_of_ne hi.ne]
    · exact update_of_ne hi.ne p a

/-- On the path of the hole each entry moves up by one place, and `p` comes last. -/
private theorem siftDown_of_ties (fuel : Nat) (a : Nat → β) {parent : Nat} (h1 : 1 ≤ parent)
    (hp : key p = x) (ha : ∀ i, 1 ≤ i → i ≤ n → key (a i) = x) (hfuel : n ≤ parent + fuel)
    (t : Nat) (ht : (right n)^[t] parent ≤ n) :
    siftDown key p n fuel a parent ((right n)^[t] parent) =
      if 2 * (right n)^[t] parent ≤ n then a (right n ((right n)^[t] parent)) else p := by
  induction fuel generalizing a parent t with
  | zero =>
    cases t with
    | zero =>
      have hstop : ¬ 2 * parent ≤ n := by omega
      simp [siftDown, hstop]
    | succ t =>
      have hlt : parent < right n parent := lt_right h1
      have hle : right n parent ≤ (right n)^[t] (right n parent) := le_right_iterate (by omega) t
      rw [iterate_succ_apply] at ht
      omega
  | succ fuel ih =>
    have hpick : pick key n a parent = right n parent := pick_of_ties ha h1
    by_cases h2 : 2 * parent ≤ n
    · obtain ⟨hlt, hle, -⟩ := pick_range key a h1 h2
      rw [hpick] at hlt hle
      have hq : key (a (right n parent)) = x := ha _ (by omega) hle
      have hmove : siftDown key p n (fuel + 1) a parent =
          siftDown key p n fuel (update a parent (a (right n parent))) (right n parent) := by
        rw [siftDown, hpick, if_pos ⟨h2, (hq.trans hp.symm).le⟩]
      rw [hmove]
      cases t with
      | zero =>
        rw [iterate_zero_apply, siftDown_of_lt _ _ (by omega) hlt, update_self, if_pos h2]
      | succ t =>
        rw [iterate_succ_apply] at ht ⊢
        have hkeep : ∀ i, 1 ≤ i → i ≤ n → key (update a parent (a (right n parent)) i) = x := by
          intro i hi hin
          by_cases hip : i = parent
          · rw [hip, update_self]
            exact hq
          · rw [update_of_ne hip]
            exact ha i hi hin
        rw [ih _ (by omega) hkeep (by omega) t ht]
        have hge : right n parent ≤ (right n)^[t] (right n parent) := le_right_iterate (by omega) t
        generalize (right n)^[t] (right n parent) = i at *
        have hnext : i < right n i := lt_right (by omega)
        rw [update_of_ne (by omega)]
    · cases t with
      | zero => simp [siftDown, h2]
      | succ t =>
        have hlt : 2 * parent ≤ right n parent := by
          unfold right
          split <;> omega
        have hge : right n parent ≤ (right n)^[t] (right n parent) := le_right_iterate (by omega) t
        rw [iterate_succ_apply] at ht
        omega

variable {h : Heap β} {m : Nat}

theorem count_turn (h0 : 1 ≤ h.count) : (turn key h).count = h.count := by
  unfold turn
  rw [count_enqueue, count_dequeue]
  omega

theorem entries_turn (h0 : 1 ≤ h.count) : (turn key h).entries = h.entries := by
  unfold turn
  rw [entries_enqueue, entries_dequeue key h h0]

theorem Level.turn (hl : Level key x h) (h0 : 1 ≤ h.count) : Level key x (turn key h) := by
  unfold Level
  rw [entries_turn h0]
  exact hl

/-- The entry that is put back stays last. -/
private theorem heap_turn_eq (hl : Level key x h) (h0 : 1 ≤ h.count) :
    (turn key h).heap = update (dequeue key h).heap h.count (h.heap 1) := by
  have hp : key (h.heap 1) = x := hl.key_heap (le_refl 1) h0
  have hdeq : Level key x (dequeue key h) := by
    intro y hy
    apply hl y
    rw [entries_dequeue key h h0]
    exact Multiset.mem_cons_of_mem hy
  have hcount : h.count - 1 + 1 = h.count := Nat.sub_add_cancel h0
  show siftUp key (h.heap 1) (h.count - 1 + 1) (dequeue key h).heap (h.count - 1 + 1) = _
  rw [hcount]
  obtain ⟨n, hn⟩ : ∃ n, h.count = n + 1 := ⟨h.count - 1, hcount.symm⟩
  rw [hn, siftUp, if_neg]
  rintro ⟨h1, hlt⟩
  have hpar : key ((dequeue key h).heap ((n + 1) / 2)) = x := by
    apply hdeq.key_heap (by omega)
    rw [count_dequeue]
    omega
  rw [hp, hpar] at hlt
  exact lt_irrefl x hlt

/-- A turn moves an entry of the path to the slot whose source it was. -/
theorem heap_turn (hl : Level key x h) (h0 : 1 ≤ h.count) (t : Nat) :
    (turn key h).heap ((source h.count)^[t] 1) = h.heap (source h.count ((source h.count)^[t] 1)) := by
  rw [heap_turn_eq hl h0]
  by_cases hi : (source h.count)^[t] 1 = h.count
  · rw [hi, update_self, source_last]
  · obtain ⟨h1, hle⟩ := source_iterate h0 t
    have hlt : (source h.count)^[t] 1 < h.count := lt_of_le_of_ne hle hi
    obtain ⟨u, hu⟩ := path_of_lt h0 hlt
    have hpos : 0 < h.count - 1 := by omega
    rw [update_of_ne hi, ← hu]
    have hdeq : (dequeue key h).heap =
        siftDown key (h.heap h.count) (h.count - 1) (h.count - 1) h.heap 1 := if_pos hpos
    rw [hdeq, siftDown_of_ties (h.count - 1) h.heap (le_refl 1) (hl.key_heap h0 (le_refl _))
      (fun i h1 hi ↦ hl.key_heap h1 (by omega)) (by omega) u (by omega)]
    rw [hu]
    generalize (source h.count)^[t] 1 = i at *
    unfold source
    rw [if_neg hi]
    by_cases h2 : 2 * i < h.count
    · rw [if_pos h2, if_pos (by omega)]
    · rw [if_neg h2, if_neg (by omega)]

/-- What `t` turns leave. -/
theorem Level.turns (hl : Level key x h) (h0 : 1 ≤ h.count) (t : Nat) :
    ((Heap.turn key)^[t] h).count = h.count ∧ ((Heap.turn key)^[t] h).entries = h.entries ∧
      ∀ u, ((Heap.turn key)^[t] h).heap ((source h.count)^[u] 1) =
        h.heap ((source h.count)^[t + u] 1) := by
  induction t generalizing h with
  | zero => simp
  | succ t ih =>
    rw [iterate_succ_apply]
    have hcount : (Heap.turn key h).count = h.count := count_turn h0
    obtain ⟨hc, he, hh⟩ := ih (hl.turn h0) (by rw [hcount]; exact h0)
    rw [hcount] at hc hh
    refine ⟨hc, by rw [he, entries_turn h0], fun u ↦ ?_⟩
    rw [hh u, heap_turn hl h0, ← iterate_succ_apply' (source h.count), Nat.succ_add]

/-- Every entry comes to the root in every `h.count` turns if and only if every entry has an
equal one in a slot whose entries come to the root. -/
theorem Level.all_turn_iff (hl : Level key x h) (h0 : 1 ≤ h.count) :
    (∀ t, ∀ y ∈ h.entries, ∃ i, i < h.count ∧ ((Heap.turn key)^[t + i] h).heap 1 = y) ↔
      ∀ y ∈ h.entries, ∃ i, Turning h.count i ∧ h.heap i = y := by
  have hroot : ∀ t, ((Heap.turn key)^[t] h).heap 1 = h.heap ((source h.count)^[t] 1) := by
    intro t
    exact (hl.turns h0 t).2.2 0
  obtain ⟨d, h1, hd, hper⟩ := source_periodic h0
  constructor
  · intro hall y hy
    obtain ⟨i, -, hi⟩ := hall 0 y hy
    rw [hroot] at hi
    exact ⟨_, (turning_iff h0).mpr ⟨_, rfl⟩, hi⟩
  · intro hall t y hy
    obtain ⟨i, hi, hy⟩ := hall y hy
    obtain ⟨u, rfl⟩ := (turning_iff h0).mp hi
    obtain ⟨j, hj, hjt⟩ := exists_in_window hper h1 hd t u
    exact ⟨j, hj, by rw [hroot, hjt, hy]⟩

end

end Xv6.Lib.Heap
