import Mathlib

/-!
# Array heaps

A binary heap in an array, with entries in the slots `1 .. count` and a key for each
entry. `siftUp` and `siftDown` move a hole until the entry fits. Whatever the keys, the
operations keep the multiset of entries; where the keys are in heap order they keep that.
-/

namespace Xv6.Lib

open Function

variable {β κ : Type*}

/-- An array with entries in the slots `1 .. count`. -/
structure Heap (β : Type*) where
  heap : Nat → β
  count : Nat

namespace Heap

/-- The entries of an array of `n` slots, from slot 1 on. -/
def contents (a : Nat → β) (n : Nat) : Multiset β := (Multiset.range n).map fun i ↦ a (i + 1)

/-- The entries of a heap. -/
def entries (h : Heap β) : Multiset β := contents h.heap h.count

section Operations

variable [LinearOrder κ] (key : β → κ)

/-- Move the hole at `child` up to where `p` fits, and put `p` there. -/
def siftUp (p : β) : Nat → (Nat → β) → Nat → Nat → β
  | 0, a, child => update a child p
  | fuel + 1, a, child =>
    if 1 < child ∧ key p < key (a (child / 2)) then
      siftUp p fuel (update a child (a (child / 2))) (child / 2)
    else
      update a child p

/-- The child of `parent` that `siftDown` looks at: the smaller one, the right one of equals. -/
def pick (n : Nat) (a : Nat → β) (parent : Nat) : Nat :=
  if 2 * parent < n then
    if key (a (2 * parent)) < key (a (2 * parent + 1)) then 2 * parent else 2 * parent + 1
  else
    2 * parent

/-- Move the hole at `parent` down to where `p` fits among `n` entries, and put `p` there. -/
def siftDown (p : β) (n : Nat) : Nat → (Nat → β) → Nat → Nat → β
  | 0, a, parent => update a parent p
  | fuel + 1, a, parent =>
    if 2 * parent ≤ n ∧ key (a (pick key n a parent)) ≤ key p then
      siftDown p n fuel (update a parent (a (pick key n a parent))) (pick key n a parent)
    else
      update a parent p

/-- Add an entry. -/
def enqueue (h : Heap β) (p : β) : Heap β where
  heap := siftUp key p (h.count + 1) h.heap (h.count + 1)
  count := h.count + 1

/-- Remove the root of a heap that is not empty. -/
def dequeue (h : Heap β) : Heap β where
  heap :=
    if 0 < h.count - 1 then siftDown key (h.heap h.count) (h.count - 1) (h.count - 1) h.heap 1
    else h.heap
  count := h.count - 1

end Operations

/-! ### Entries -/

section Contents

variable {a : Nat → β} {n i j : Nat} {p : β}

theorem mem_contents {x : β} : x ∈ contents a n ↔ ∃ i, 1 ≤ i ∧ i ≤ n ∧ a i = x := by
  simp only [contents, Multiset.mem_map, Multiset.mem_range]
  constructor
  · rintro ⟨i, hi, rfl⟩
    exact ⟨i + 1, Nat.le_add_left 1 i, hi, rfl⟩
  · rintro ⟨i, h1, hi, rfl⟩
    refine ⟨i - 1, by omega, ?_⟩
    rw [Nat.sub_add_cancel h1]

/-- Entries that occur once stand in one slot. -/
theorem slot_unique (h : (contents a n).Nodup) (hi : 1 ≤ i) (hin : i ≤ n) (hj : 1 ≤ j)
    (hjn : j ≤ n) (hij : a i = a j) : i = j := by
  have hinj := Multiset.inj_on_of_nodup_map h (i - 1) (Multiset.mem_range.mpr (by omega)) (j - 1)
    (Multiset.mem_range.mpr (by omega))
  rw [Nat.sub_add_cancel hi, Nat.sub_add_cancel hj] at hinj
  have heq := hinj hij
  omega

theorem contents_succ : contents a (n + 1) = a (n + 1) ::ₘ contents a n := by
  simp [contents, Multiset.range_succ]

@[simp] theorem card_contents : Multiset.card (contents a n) = n := by
  simp [contents]

theorem contents_congr {a' : Nat → β} (h : ∀ i, 1 ≤ i → i ≤ n → a' i = a i) :
    contents a' n = contents a n := by
  apply Multiset.map_congr rfl
  intro i hi
  exact h (i + 1) (Nat.le_add_left 1 i) (Multiset.mem_range.mp hi)

/-- Writing past the end changes no entry. -/
theorem contents_update_of_gt (h : n < i) : contents (update a i p) n = contents a n := by
  apply contents_congr
  intro k _ hk
  have hne : k ≠ i := by omega
  exact update_of_ne hne p a

/-- Writing slot `i` exchanges its entry. -/
theorem cons_contents_update (h1 : 1 ≤ i) (hn : i ≤ n) :
    a i ::ₘ contents (update a i p) n = p ::ₘ contents a n := by
  induction n with
  | zero => omega
  | succ n ih =>
    rw [contents_succ, contents_succ]
    by_cases hi : i = n + 1
    · subst hi
      rw [update_self, contents_update_of_gt (Nat.lt_succ_self n), Multiset.cons_swap]
    · have hlt := ih (by omega)
      rw [update_of_ne (Ne.symm hi), Multiset.cons_swap, hlt, Multiset.cons_swap]

/-- Moving the hole keeps the entries. -/
theorem contents_move (hi : 1 ≤ i) (hin : i ≤ n) (hj : 1 ≤ j) (hjn : j ≤ n) (hij : i ≠ j) :
    contents (update (update a i (a j)) j p) n = contents (update a i p) n := by
  have h1 := cons_contents_update (a := update a i (a j)) (p := p) hj hjn
  have h2 := cons_contents_update (a := a) (p := a j) hi hin
  have h3 := cons_contents_update (a := a) (p := p) hi hin
  rw [update_of_ne (Ne.symm hij)] at h1
  apply (Multiset.cons_inj_right (a j)).mp
  rw [h1]
  apply (Multiset.cons_inj_right (a i)).mp
  rw [Multiset.cons_swap, h2, Multiset.cons_swap, ← h3, Multiset.cons_swap]

end Contents

section Entries

variable [LinearOrder κ] {key : β → κ} {p : β} {n : Nat}

private theorem contents_siftUp (fuel : Nat) (a : Nat → β) {child : Nat} (h1 : 1 ≤ child)
    (hn : child ≤ n) : contents (siftUp key p fuel a child) n = contents (update a child p) n := by
  induction fuel generalizing a child with
  | zero => rfl
  | succ fuel ih =>
    unfold siftUp
    split
    · next hmove =>
      rw [ih _ (by omega) (by omega)]
      exact contents_move h1 hn (by omega) (by omega) (by omega)
    · rfl

theorem pick_range (key : β → κ) (a : Nat → β) {parent : Nat} (hp : 1 ≤ parent)
    (h : 2 * parent ≤ n) :
    parent < pick key n a parent ∧ pick key n a parent ≤ n ∧ pick key n a parent / 2 = parent := by
  unfold pick
  split
  · split <;> omega
  · omega

private theorem contents_siftDown (fuel : Nat) (a : Nat → β) {parent : Nat} (h1 : 1 ≤ parent)
    (hn : parent ≤ n) :
    contents (siftDown key p n fuel a parent) n = contents (update a parent p) n := by
  induction fuel generalizing a parent with
  | zero => rfl
  | succ fuel ih =>
    unfold siftDown
    split
    · next hmove =>
      obtain ⟨hlt, hle, -⟩ := pick_range key a h1 hmove.1
      rw [ih _ (by omega) hle]
      exact contents_move h1 hn (by omega) hle (by omega)
    · rfl

@[simp] theorem count_enqueue (h : Heap β) : (enqueue key h p).count = h.count + 1 := rfl

@[simp] theorem count_dequeue (h : Heap β) : (dequeue key h).count = h.count - 1 := rfl

/-- `enqueue` adds the entry. -/
theorem entries_enqueue (h : Heap β) : (enqueue key h p).entries = p ::ₘ h.entries := by
  show contents (siftUp key p (h.count + 1) h.heap (h.count + 1)) (h.count + 1) = _
  rw [contents_siftUp _ _ (Nat.le_add_left 1 _) (Nat.le_refl _), contents_succ, update_self,
    contents_update_of_gt (Nat.lt_succ_self _)]
  rfl

/-- `dequeue` removes the root. -/
theorem entries_dequeue (key : β → κ) (h : Heap β) (h0 : 0 < h.count) :
    h.entries = h.heap 1 ::ₘ (dequeue key h).entries := by
  obtain ⟨n, hn⟩ : ∃ n, h.count = n + 1 := ⟨h.count - 1, by omega⟩
  unfold entries dequeue
  dsimp only
  rw [hn, Nat.add_sub_cancel, contents_succ]
  split
  · next hpos =>
    rw [contents_siftDown _ _ (Nat.le_refl 1) hpos]
    exact (cons_contents_update (Nat.le_refl 1) hpos).symm
  · next hz =>
    have hn0 : n = 0 := by omega
    subst hn0
    rfl

end Entries

/-! ### Order -/

section Order

variable [LinearOrder κ] {key : β → κ} {a : Nat → β} {n hole : Nat} {p : β}

/-- No entry has a smaller key than its parent. -/
def Ordered (key : β → κ) (a : Nat → β) (n : Nat) : Prop :=
  ∀ i, 1 < i → i ≤ n → key (a (i / 2)) ≤ key (a i)

/-- The pairs that the hole does not touch are in order. -/
def OrderedExcept (key : β → κ) (a : Nat → β) (n hole : Nat) : Prop :=
  ∀ i, 1 < i → i ≤ n → i ≠ hole → i / 2 ≠ hole → key (a (i / 2)) ≤ key (a i)

/-- The children of the hole are in order with its parent. -/
def OrderedAcross (key : β → κ) (a : Nat → β) (n hole : Nat) : Prop :=
  1 < hole → ∀ i, i ≤ n → i / 2 = hole → key (a (hole / 2)) ≤ key (a i)

/-- The root has the least key. -/
theorem Ordered.root_le (h : Ordered key a n) {x : β} (hx : x ∈ contents a n) :
    key (a 1) ≤ key x := by
  obtain ⟨i, h1, hn, rfl⟩ := mem_contents.mp hx
  induction i using Nat.strong_induction_on with
  | h i ih =>
    by_cases hi : i = 1
    · rw [hi]
    · have hpar := ih (i / 2) (by omega) (by omega) (by omega)
        (mem_contents.mpr ⟨i / 2, by omega, by omega, rfl⟩)
      exact hpar.trans (h i (by omega) hn)

theorem Ordered.congr {key' : β → κ} (h : Ordered key a n)
    (hk : ∀ x ∈ contents a n, key' x = key x) : Ordered key' a n := by
  intro i h1 hn
  rw [hk _ (mem_contents.mpr ⟨i / 2, by omega, by omega, rfl⟩),
    hk _ (mem_contents.mpr ⟨i, by omega, hn, rfl⟩)]
  exact h i h1 hn

/-- An entry that fits between the parent and the children of the hole fills it. -/
private theorem Ordered.of_except (hex : OrderedExcept key a n hole)
    (habove : 1 < hole → key (a (hole / 2)) ≤ key p)
    (hbelow : ∀ i, i ≤ n → 1 < i → i / 2 = hole → key p ≤ key (a i)) :
    Ordered key (update a hole p) n := by
  intro i h1 hn
  by_cases hi : i = hole
  · subst hi
    have hne : i / 2 ≠ i := by omega
    rw [update_self, update_of_ne hne]
    exact habove h1
  · rw [update_of_ne hi]
    by_cases hp : i / 2 = hole
    · rw [hp, update_self]
      exact hbelow i hn h1 hp
    · rw [update_of_ne hp]
      exact hex i h1 hn hi hp

private theorem ordered_siftUp (fuel : Nat) (a : Nat → β) {child : Nat} (hfuel : child ≤ fuel + 1)
    (hchild : 1 ≤ child) (hn : child ≤ n) (hex : OrderedExcept key a n child)
    (hacross : OrderedAcross key a n child)
    (hbelow : ∀ i, i ≤ n → 1 < i → i / 2 = child → key p ≤ key (a i)) :
    Ordered key (siftUp key p fuel a child) n := by
  induction fuel generalizing a child with
  | zero =>
    apply Ordered.of_except hex _ hbelow
    omega
  | succ fuel ih =>
    unfold siftUp
    split
    · next hmove =>
      obtain ⟨h1, hlt⟩ := hmove
      have hne : child / 2 ≠ child := by omega
      have hpar : 1 < child / 2 → key (a (child / 2 / 2)) ≤ key (a (child / 2)) := fun hp ↦
        hex (child / 2) hp (by omega) hne (by omega)
      apply ih _ (by omega) (by omega) (by omega)
      · intro i hi hin hic hic2
        have hi2 : i / 2 ≠ i := by omega
        by_cases hi' : i = child
        · rw [hi'] at hic2
          exact absurd rfl hic2
        · rw [update_of_ne hi']
          by_cases hp : i / 2 = child
          · rw [hp, update_self]
            exact hacross h1 i hin hp
          · rw [update_of_ne hp]
            exact hex i hi hin hi' hp
      · intro hp i hin hic
        have hp2 : child / 2 / 2 ≠ child := by omega
        rw [update_of_ne hp2]
        by_cases hi' : i = child
        · rw [hi', update_self]
          exact hpar hp
        · rw [update_of_ne hi']
          have hii := hex i (by omega) hin hi' (by omega)
          rw [hic] at hii
          exact (hpar hp).trans hii
      · intro i hin hi hic
        by_cases hi' : i = child
        · rw [hi', update_self]
          exact hlt.le
        · rw [update_of_ne hi']
          have hii := hex i hi hin hi' (by omega)
          rw [hic] at hii
          exact hlt.le.trans hii
    · next hstop =>
      apply Ordered.of_except hex _ hbelow
      intro h1
      exact not_lt.mp fun hlt ↦ hstop ⟨h1, hlt⟩

/-- `pick` takes a child with the smaller key. -/
private theorem key_pick_le {parent : Nat} (a : Nat → β) {i : Nat} (hin : i ≤ n)
    (hi : i / 2 = parent) : key (a (pick key n a parent)) ≤ key (a i) := by
  have hi' : i = 2 * parent ∨ i = 2 * parent + 1 := by omega
  unfold pick
  split
  · split
    · next hlt =>
      rcases hi' with rfl | rfl
      · exact le_refl _
      · exact hlt.le
    · next hge =>
      rcases hi' with rfl | rfl
      · exact not_lt.mp hge
      · exact le_refl _
  · have hil : i = 2 * parent := by omega
    rw [hil]

private theorem ordered_siftDown (fuel : Nat) (a : Nat → β) {parent : Nat}
    (hfuel : n ≤ parent + fuel) (hparent : 1 ≤ parent) (hex : OrderedExcept key a n parent)
    (hacross : OrderedAcross key a n parent)
    (habove : 1 < parent → key (a (parent / 2)) ≤ key p) :
    Ordered key (siftDown key p n fuel a parent) n := by
  induction fuel generalizing a parent with
  | zero =>
    apply Ordered.of_except hex habove
    omega
  | succ fuel ih =>
    unfold siftDown
    split
    · next hmove =>
      obtain ⟨h2, hle⟩ := hmove
      obtain ⟨hlt, hcn, hc⟩ := pick_range key a hparent h2
      have hmin : ∀ i, i ≤ n → i / 2 = parent → key (a (pick key n a parent)) ≤ key (a i) :=
        fun i hin hi ↦ key_pick_le a hin hi
      generalize pick key n a parent = c at *
      have hcp : c ≠ parent := by omega
      apply ih _ (by omega) (by omega)
      · intro i hi hin hic hic2
        by_cases hi' : i = parent
        · have hne : parent / 2 ≠ parent := by omega
          rw [hi', update_self, update_of_ne hne]
          exact hacross (by omega) c hcn hc
        · rw [update_of_ne hi']
          by_cases hp : i / 2 = parent
          · rw [hp, update_self]
            exact hmin i hin hp
          · rw [update_of_ne hp]
            exact hex i hi hin hi' hp
      · intro _ i hin hic
        have hip : i ≠ parent := by omega
        rw [hc, update_self, update_of_ne hip]
        have hii := hex i (by omega) hin hip (by omega)
        rwa [hic] at hii
      · intro _
        rw [hc, update_self]
        exact hle
    · next hstop =>
      apply Ordered.of_except hex habove
      intro i hin hi hip
      by_contra hlt
      apply hstop
      exact ⟨by omega, (key_pick_le a hin hip).trans (not_le.mp hlt).le⟩

/-- `enqueue` keeps the order. -/
theorem ordered_enqueue {h : Heap β} (ho : Ordered key h.heap h.count) (p : β) :
    Ordered key (enqueue key h p).heap (enqueue key h p).count := by
  apply ordered_siftUp _ _ (Nat.le_succ _) (Nat.le_add_left 1 _) (Nat.le_refl _)
  · intro i h1 hn hne _
    exact ho i h1 (by omega)
  · intro _ i hn hi
    omega
  · intro i hn _ hi
    omega

/-- `dequeue` keeps the order. -/
theorem ordered_dequeue {h : Heap β} (ho : Ordered key h.heap h.count) :
    Ordered key (dequeue key h).heap (dequeue key h).count := by
  unfold dequeue
  dsimp only
  split
  · apply ordered_siftDown _ _ (Nat.le_add_left _ 1) (Nat.le_refl 1)
    · intro i h1 hn _ _
      exact ho i h1 (by omega)
    · intro h1
      exact absurd h1 (Nat.lt_irrefl 1)
    · intro h1
      exact absurd h1 (Nat.lt_irrefl 1)
  · intro i h1 hn
    omega

end Order

/-! ### Slots -/

section Slots

variable [LinearOrder κ] {key : β → κ} {a a' : Nat → β} {n hole : Nat} {p : β} {h h' : Heap β}

/-- Two heaps with the same entries in the same slots. Slots past `count` are free. -/
structure Same (h h' : Heap β) : Prop where
  count : h'.count = h.count
  slot : ∀ i, 1 ≤ i → i ≤ h.count → h'.heap i = h.heap i

/-- The arrays agree in the slots `1 .. n` but the hole. -/
private def AgreeExcept (a a' : Nat → β) (n hole : Nat) : Prop :=
  ∀ i, 1 ≤ i → i ≤ n → i ≠ hole → a' i = a i

private theorem AgreeExcept.fill (h : AgreeExcept a a' n hole) (i : Nat) (h1 : 1 ≤ i)
    (hn : i ≤ n) : update a' hole p i = update a hole p i := by
  by_cases hi : i = hole
  · rw [hi, update_self, update_self]
  · rw [update_of_ne hi, update_of_ne hi]
    exact h i h1 hn hi

private theorem siftUp_same (fuel : Nat) {a a' : Nat → β} {hole : Nat} (h1 : 1 ≤ hole)
    (hn : hole ≤ n) (h : AgreeExcept a a' n hole) (i : Nat) (hi : 1 ≤ i) (hin : i ≤ n) :
    siftUp key p fuel a' hole i = siftUp key p fuel a hole i := by
  induction fuel generalizing a a' hole with
  | zero => exact h.fill i hi hin
  | succ fuel ih =>
    unfold siftUp
    by_cases hlt : 1 < hole
    · have hpar : a' (hole / 2) = a (hole / 2) := h _ (by omega) (by omega) (by omega)
      rw [hpar]
      split
      · exact ih (by omega) (by omega) fun j hj hjn _ ↦ h.fill j hj hjn
      · exact h.fill i hi hin
    · rw [if_neg fun hc ↦ hlt hc.1, if_neg fun hc ↦ hlt hc.1]
      exact h.fill i hi hin

private theorem siftDown_same (fuel : Nat) {a a' : Nat → β} {hole : Nat} (h1 : 1 ≤ hole)
    (h : AgreeExcept a a' n hole) (i : Nat) (hi : 1 ≤ i) (hin : i ≤ n) :
    siftDown key p n fuel a' hole i = siftDown key p n fuel a hole i := by
  induction fuel generalizing a a' hole with
  | zero => exact h.fill i hi hin
  | succ fuel ih =>
    unfold siftDown
    by_cases hle : 2 * hole ≤ n
    · have hpick : pick key n a' hole = pick key n a hole := by
        unfold pick
        by_cases hlt : 2 * hole < n
        · rw [h (2 * hole) (by omega) hle (by omega), h (2 * hole + 1) (by omega) hlt (by omega)]
        · rw [if_neg hlt, if_neg hlt]
      obtain ⟨hgt, hpn, _⟩ := pick_range key a h1 hle
      have hchild : a' (pick key n a hole) = a (pick key n a hole) :=
        h _ (by omega) hpn (by omega)
      rw [hpick, hchild]
      split
      · exact ih (by omega) fun j hj hjn _ ↦ h.fill j hj hjn
      · exact h.fill i hi hin
    · rw [if_neg fun hc ↦ hle hc.1, if_neg fun hc ↦ hle hc.1]
      exact h.fill i hi hin

theorem Same.enqueue (hs : Same h h') (key : β → κ) (p : β) :
    Same (enqueue key h p) (enqueue key h' p) := by
  unfold Heap.enqueue
  rw [hs.count]
  refine ⟨rfl, fun i hi hin ↦ siftUp_same _ (by omega) (Nat.le_refl _) ?_ i hi hin⟩
  exact fun j hj hjn hne ↦ hs.slot j hj (by omega)

theorem Same.dequeue (hs : Same h h') (key : β → κ) : Same (dequeue key h) (dequeue key h') := by
  unfold Heap.dequeue
  rw [hs.count]
  refine ⟨rfl, fun i hi hin ↦ ?_⟩
  dsimp only at hin ⊢
  have hpos : 0 < h'.count - 1 := by
    rw [hs.count]
    omega
  rw [hs.count] at hpos
  rw [if_pos hpos, if_pos hpos, hs.slot _ (by omega) (Nat.le_refl _)]
  exact siftDown_same _ (Nat.le_refl 1) (fun j hj hjn _ ↦ hs.slot j hj (by omega)) i hi hin

end Slots

end Heap

end Xv6.Lib
