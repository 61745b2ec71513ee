import Mathlib

/-!
# Pointer trees and the ownership of blocks

A store of blocks, each an array of pointers, and a family of roots. A position is a
root with the indices that lead down from it, deepest first; `ptr` is the block found
there, zero where the tree is not grown. `Owns` relates the positions to an allocator:
every block in use is found at exactly one position.
-/

namespace Xv6.Lib

variable {ρ : Type*}

/-- A root and the indices that lead down from it, deepest first. -/
abbrev Pos (ρ : Type*) := ρ × List Nat

/-- The block at a position; zero below a missing block. -/
def ptr (root : ρ → Nat) (mem : Nat → Nat → Nat) (r : ρ) : List Nat → Nat
  | [] => root r
  | i :: p => if ptr root mem r p = 0 then 0 else mem (ptr root mem r p) i

/-- The positions of trees of the given depths whose blocks have `w` entries. -/
def Positions (depth : ρ → Nat) (w : Nat) : Set (Pos ρ) :=
  {P | P.2.length ≤ depth P.1 ∧ ∀ i ∈ P.2, i < w}

section Ptr

variable {root root' : ρ → Nat} {mem mem' : Nat → Nat → Nat} {depth : ρ → Nat} {w : Nat} {r : ρ}
  {i : Nat} {p : List Nat}

@[simp] theorem ptr_nil : ptr root mem r [] = root r := rfl

theorem ptr_cons : ptr root mem r (i :: p) =
    if ptr root mem r p = 0 then 0 else mem (ptr root mem r p) i := rfl

theorem mem_positions_nil : (r, []) ∈ Positions depth w := by
  simp [Positions]

/-- The parent of a position is a position. -/
theorem mem_positions_parent (h : (r, i :: p) ∈ Positions depth w) : (r, p) ∈ Positions depth w := by
  obtain ⟨hl, hi⟩ := h
  simp only [List.length_cons] at hl
  exact ⟨Nat.le_of_succ_le hl, fun j hj ↦ hi j (List.mem_cons_of_mem i hj)⟩

theorem head_lt_of_mem_positions (h : (r, i :: p) ∈ Positions depth w) : i < w :=
  h.2 i List.mem_cons_self

/-- A tree with no root has no blocks. -/
theorem ptr_eq_zero_of_root (h : root r = 0) (p : List Nat) : ptr root mem r p = 0 := by
  induction p with
  | nil => exact h
  | cons i p ih => rw [ptr_cons, if_pos ih]

/-- Changes away from the pointers that lead to positions leave every position unchanged. -/
theorem ptr_congr (hr : root' r = root r)
    (hm : ∀ i p, (r, i :: p) ∈ Positions depth w → ptr root mem r p ≠ 0 →
      mem' (ptr root mem r p) i = mem (ptr root mem r p) i)
    (hp : (r, p) ∈ Positions depth w) : ptr root' mem' r p = ptr root mem r p := by
  induction p with
  | nil => exact hr
  | cons i p ih =>
    rw [ptr_cons, ptr_cons, ih (mem_positions_parent hp)]
    by_cases hz : ptr root mem r p = 0
    · rw [if_pos hz, if_pos hz]
    · rw [if_neg hz, if_neg hz, hm i p hp hz]

variable [DecidableEq ρ] {r₀ : ρ} {i₀ new : Nat} {p₀ : List Nat}

/-- Storing a fresh block with no pointers in an empty entry adds one position. -/
theorem ptr_attach (hsep : ∀ P ∈ Positions depth w, ∀ Q ∈ Positions depth w,
      ptr root mem P.1 P.2 = ptr root mem Q.1 Q.2 → ptr root mem P.1 P.2 ≠ 0 → P = Q)
    (h₀ : (r₀, i₀ :: p₀) ∈ Positions depth w) (hx : ptr root mem r₀ p₀ ≠ 0)
    (hempty : mem (ptr root mem r₀ p₀) i₀ = 0) (hnew : new ≠ 0)
    (hzero : ∀ j, mem' new j = 0)
    (hm : ∀ P ∈ Positions depth w, ptr root mem P.1 P.2 ≠ 0 → ∀ j, mem' (ptr root mem P.1 P.2) j =
      if ptr root mem P.1 P.2 = ptr root mem r₀ p₀ ∧ j = i₀ then new
      else mem (ptr root mem P.1 P.2) j)
    (hp : (r, p) ∈ Positions depth w) :
    ptr root mem' r p = if (r, p) = (r₀, i₀ :: p₀) then new else ptr root mem r p := by
  induction p with
  | nil =>
    rw [if_neg (by simp)]
    rfl
  | cons i p ih =>
    rw [ptr_cons, ih (mem_positions_parent hp)]
    by_cases hq : (r, p) = (r₀, i₀ :: p₀)
    · -- below the new block, which has no pointers
      have hold : ptr root mem r p = 0 := by
        obtain ⟨rfl, rfl⟩ := Prod.mk.inj hq
        rw [ptr_cons, if_neg hx, hempty]
      have hne : (r, i :: p) ≠ (r₀, i₀ :: p₀) := by
        intro he
        have h1 := (Prod.mk.inj hq).2
        have h2 := (Prod.mk.inj he).2
        have hlen := congrArg List.length (h1.trans h2.symm)
        simp at hlen
      rw [if_pos hq, if_neg hnew, if_neg hne, hzero, ptr_cons, if_pos hold]
    · rw [if_neg hq]
      by_cases hz : ptr root mem r p = 0
      · have hne : (r, i :: p) ≠ (r₀, i₀ :: p₀) := by
          intro he
          obtain ⟨rfl, hc⟩ := Prod.mk.inj he
          obtain ⟨-, rfl⟩ := List.cons.inj hc
          exact hx hz
        rw [if_pos hz, if_neg hne, ptr_cons, if_pos hz]
      · rw [if_neg hz, hm (r, p) (mem_positions_parent hp) hz]
        by_cases he : (r, i :: p) = (r₀, i₀ :: p₀)
        · obtain ⟨rfl, he'⟩ := Prod.mk.inj he
          obtain ⟨rfl, rfl⟩ := List.cons.inj he'
          rw [if_pos ⟨rfl, rfl⟩, if_pos rfl]
        · have hne : ¬(ptr root mem r p = ptr root mem r₀ p₀ ∧ i = i₀) := by
            rintro ⟨hb, rfl⟩
            have hpos := hsep (r, p) (mem_positions_parent hp) (r₀, p₀) (mem_positions_parent h₀) hb hz
            obtain ⟨rfl, rfl⟩ := Prod.mk.inj hpos
            exact he rfl
          rw [if_neg hne, if_neg he, ptr_cons, if_neg hz]

/-- A fresh block with no pointers as the root of an empty tree adds one position. -/
theorem ptr_attach_root (hempty : root r₀ = 0) (hnew : new ≠ 0) (hr₀ : root' r₀ = new)
    (hr : ∀ r, r ≠ r₀ → root' r = root r) (hzero : ∀ j, mem' new j = 0)
    (hm : ∀ P ∈ Positions depth w, ptr root mem P.1 P.2 ≠ 0 → ∀ j,
      mem' (ptr root mem P.1 P.2) j = mem (ptr root mem P.1 P.2) j)
    (hp : (r, p) ∈ Positions depth w) :
    ptr root' mem' r p = if (r, p) = (r₀, []) then new else ptr root mem r p := by
  induction p with
  | nil =>
    by_cases he : r = r₀
    · subst he
      rw [if_pos rfl]
      exact hr₀
    · rw [if_neg (fun h ↦ he (Prod.mk.inj h).1)]
      exact hr r he
  | cons i p ih =>
    rw [if_neg (by simp), ptr_cons, ih (mem_positions_parent hp)]
    by_cases hq : (r, p) = (r₀, [])
    · obtain ⟨rfl, rfl⟩ := Prod.mk.inj hq
      rw [if_pos rfl, if_neg hnew, hzero, ptr_cons, ptr_nil, if_pos hempty]
    · rw [if_neg hq, ptr_cons]
      by_cases hz : ptr root mem r p = 0
      · rw [if_pos hz, if_pos hz]
      · rw [if_neg hz, if_neg hz, hm (r, p) (mem_positions_parent hp) hz]

end Ptr

/-! ### The blocks of one tree -/

/-- The blocks of the tree of depth `d` at block `a`, children before parents. -/
def treeBlocks (mem : Nat → Nat → Nat) (w : Nat) : Nat → Nat → List Nat
  | 0, a => if a = 0 then [] else [a]
  | d + 1, a =>
    if a = 0 then []
    else ((List.range w).flatMap fun j ↦ treeBlocks mem w d (mem a j)) ++ [a]

section TreeBlocks

variable {root : ρ → Nat} {mem mem' : Nat → Nat → Nat} {depth : ρ → Nat} {w d a b : Nat} {r : ρ}

@[simp] theorem treeBlocks_zero : treeBlocks mem w d 0 = [] := by
  cases d <;> rfl

theorem self_mem_treeBlocks (ha : a ≠ 0) : a ∈ treeBlocks mem w d a := by
  cases d with
  | zero => simp [treeBlocks, ha]
  | succ d => simp [treeBlocks, ha]

/-- The tree depends only on the entries of its own blocks. -/
theorem treeBlocks_congr (h : ∀ b ∈ treeBlocks mem w d a, ∀ j, mem' b j = mem b j) :
    treeBlocks mem' w d a = treeBlocks mem w d a := by
  induction d generalizing a with
  | zero => rfl
  | succ d ih =>
    by_cases ha : a = 0
    · simp [ha]
    · have hroot : ∀ j, mem' a j = mem a j := h a (self_mem_treeBlocks ha)
      simp only [treeBlocks, if_neg ha, hroot]
      congr 1
      apply List.flatMap_congr
      intro j hj
      apply ih
      intro b hb
      apply h
      rw [treeBlocks, if_neg ha]
      exact List.mem_append_left _ (List.mem_flatMap.mpr ⟨j, hj, hb⟩)

/-- The blocks of a subtree are the blocks at the positions below its root. -/
theorem mem_treeBlocks {p : List Nat} :
    b ∈ treeBlocks mem w d (ptr root mem r p) ↔
      b ≠ 0 ∧ ∃ q : List Nat, q.length ≤ d ∧ (∀ i ∈ q, i < w) ∧ ptr root mem r (q ++ p) = b := by
  induction d generalizing p with
  | zero =>
    constructor
    · intro hb
      by_cases ha : ptr root mem r p = 0
      · simp [ha] at hb
      · simp only [treeBlocks, if_neg ha, List.mem_singleton] at hb
        subst hb
        exact ⟨ha, [], Nat.le_refl _, by simp, rfl⟩
    · rintro ⟨hb, q, hq, -, rfl⟩
      have hnil : q = [] := List.length_eq_zero_iff.mp (Nat.le_zero.mp hq)
      subst hnil
      exact self_mem_treeBlocks hb
  | succ d ih =>
    by_cases ha : ptr root mem r p = 0
    · have hz : ∀ q, ptr root mem r (q ++ p) = 0 := by
        intro q
        induction q with
        | nil => exact ha
        | cons i q ihq => rw [List.cons_append, ptr_cons, if_pos ihq]
      constructor
      · intro hb
        simp [ha] at hb
      · rintro ⟨hb, q, -, -, rfl⟩
        exact absurd (hz q) hb
    · have hchild : ∀ j, mem (ptr root mem r p) j = ptr root mem r (j :: p) := by
        intro j
        rw [ptr_cons, if_neg ha]
      simp only [treeBlocks, if_neg ha, List.mem_append, List.mem_flatMap, List.mem_range,
        List.mem_singleton, hchild, ih]
      constructor
      · rintro (⟨j, hj, hb, q, hq, hqw, he⟩ | rfl)
        · refine ⟨hb, q ++ [j], by simpa using hq, ?_, by simpa using he⟩
          intro i hi
          rcases List.mem_append.mp hi with hi | hi
          · exact hqw i hi
          · rw [List.mem_singleton.mp hi]
            exact hj
        · exact ⟨ha, [], Nat.zero_le _, by simp, rfl⟩
      · rintro ⟨hb, q, hq, hqw, he⟩
        rcases List.eq_nil_or_concat q with rfl | ⟨q', j, rfl⟩
        · exact Or.inr he.symm
        · rw [List.concat_eq_append] at hq hqw he
          refine Or.inl ⟨j, hqw j (by simp), hb, q', by simpa using hq, ?_, by simpa using he⟩
          exact fun i hi ↦ hqw i (by simp [hi])

/-- Where different positions have different blocks, no block of a tree is listed twice. -/
theorem nodup_treeBlocks
    (hsep : ∀ P ∈ Positions depth w, ∀ Q ∈ Positions depth w,
      ptr root mem P.1 P.2 = ptr root mem Q.1 Q.2 → ptr root mem P.1 P.2 ≠ 0 → P = Q)
    {p : List Nat} (hp : ∀ i ∈ p, i < w) (hd : p.length + d ≤ depth r) :
    (treeBlocks mem w d (ptr root mem r p)).Nodup := by
  have hpos : ∀ q : List Nat, (∀ i ∈ q, i < w) → q.length ≤ depth r → (r, q) ∈ Positions depth w :=
    fun q hq hl ↦ ⟨hl, hq⟩
  induction d generalizing p with
  | zero =>
    unfold treeBlocks
    split <;> simp
  | succ d ih =>
    by_cases ha : ptr root mem r p = 0
    · simp [ha]
    · have hchild : ∀ j, mem (ptr root mem r p) j = ptr root mem r (j :: p) := by
        intro j
        rw [ptr_cons, if_neg ha]
      have hlen : ∀ (q : List Nat) (j : Nat), q.length ≤ d → (q ++ j :: p).length ≤ depth r := by
        intro q j hq
        simp only [List.length_append, List.length_cons]
        omega
      have hbelow : ∀ (q : List Nat) (j : Nat), (∀ i ∈ q, i < w) → j < w →
          ∀ i ∈ q ++ j :: p, i < w := by
        intro q j hq hj i hi
        rcases List.mem_append.mp hi with hi | hi
        · exact hq i hi
        · rcases List.mem_cons.mp hi with rfl | hi
          · exact hj
          · exact hp i hi
      simp only [treeBlocks, if_neg ha, hchild]
      rw [List.nodup_append]
      refine ⟨?_, by simp, ?_⟩
      · rw [List.nodup_flatMap]
        constructor
        · intro j hj
          apply ih
          · exact hbelow [] j (by simp) (List.mem_range.mp hj)
          · simp only [List.length_cons]
            omega
        · -- two different entries lead to different positions
          apply List.Pairwise.imp_of_mem ?_ List.nodup_range
          intro j k hj hk hjk b hb hb'
          obtain ⟨hbz, q, hq, hqw, he⟩ := mem_treeBlocks.mp hb
          obtain ⟨-, q', hq', hqw', he'⟩ := mem_treeBlocks.mp hb'
          have hpe := hsep (r, q ++ j :: p)
            (hpos _ (hbelow q j hqw (List.mem_range.mp hj)) (hlen q j hq)) (r, q' ++ k :: p)
            (hpos _ (hbelow q' k hqw' (List.mem_range.mp hk)) (hlen q' k hq'))
            (he.trans he'.symm) (he.trans_ne hbz)
          have hl := (Prod.mk.inj hpe).2
          have hr : (q ++ [j]) ++ p = (q' ++ [k]) ++ p := by simpa using hl
          have hs := List.append_cancel_right hr
          exact hjk (List.append_inj_right' hs rfl |> List.cons.inj |>.1)
      · intro b hb c hc
        rw [List.mem_singleton.mp hc]
        rintro rfl
        obtain ⟨j, hj, hb⟩ := List.mem_flatMap.mp hb
        obtain ⟨hbz, q, hq, hqw, he⟩ := mem_treeBlocks.mp hb
        have hpe := hsep (r, q ++ j :: p)
          (hpos _ (hbelow q j hqw (List.mem_range.mp hj)) (hlen q j hq)) (r, p)
          (hpos _ hp (by omega)) he (he.trans_ne hbz)
        have hl := congrArg List.length (Prod.mk.inj hpe).2
        simp only [List.length_append, List.length_cons] at hl
        omega

end TreeBlocks

/-! ### Ownership -/

/-- Every block of the range `[lo, hi)` that is in use is found at exactly one position. -/
structure Owns {π : Type*} (V : Set π) (f : π → Nat) (used : Nat → Prop) (lo hi : Nat) : Prop where
  pos : 0 < lo
  sep : ∀ P ∈ V, ∀ Q ∈ V, f P = f Q → f P ≠ 0 → P = Q
  range : ∀ P ∈ V, f P ≠ 0 → lo ≤ f P ∧ f P < hi
  used : ∀ b, lo ≤ b → b < hi → (used b ↔ ∃ P ∈ V, f P = b)

namespace Owns

variable {π : Type*} {V : Set π} {f f' : π → Nat} {used used' : Nat → Prop} {lo hi : Nat}

theorem congr (h : Owns V f used lo hi) (hf : ∀ P ∈ V, f' P = f P)
    (hu : ∀ b, lo ≤ b → b < hi → (used' b ↔ used b)) : Owns V f' used' lo hi where
  pos := h.pos
  sep := by
    intro P hP Q hQ
    rw [hf P hP, hf Q hQ]
    exact h.sep P hP Q hQ
  range := by
    intro P hP
    rw [hf P hP]
    exact h.range P hP
  used := by
    intro b hlo hhi
    rw [hu b hlo hhi, h.used b hlo hhi]
    constructor
    · rintro ⟨P, hP, rfl⟩
      exact ⟨P, hP, hf P hP⟩
    · rintro ⟨P, hP, rfl⟩
      exact ⟨P, hP, (hf P hP).symm⟩

/-- A free block is found at no position. -/
theorem fresh (h : Owns V f used lo hi) {b : Nat} (hlo : lo ≤ b) (hhi : b < hi) (hb : ¬used b) :
    ∀ P ∈ V, f P ≠ b :=
  fun P hP he ↦ hb ((h.used b hlo hhi).mpr ⟨P, hP, he⟩)

/-- A free block is taken into use at one empty position. -/
theorem attach (h : Owns V f used lo hi) {P₀ : π} {b₀ : Nat} (hP₀ : P₀ ∈ V) (hempty : f P₀ = 0)
    (hlo : lo ≤ b₀) (hhi : b₀ < hi) (hfree : ¬used b₀) (hf₀ : f' P₀ = b₀)
    (hf : ∀ P ∈ V, P ≠ P₀ → f' P = f P)
    (hu : ∀ b, lo ≤ b → b < hi → (used' b ↔ b = b₀ ∨ used b)) : Owns V f' used' lo hi where
  pos := h.pos
  sep := by
    intro P hP Q hQ he hz
    by_cases hPP : P = P₀ <;> by_cases hQP : Q = P₀
    · rw [hPP, hQP]
    · rw [hPP, hf₀, hf Q hQ hQP] at he
      exact absurd he.symm (h.fresh hlo hhi hfree Q hQ)
    · rw [hQP, hf₀, hf P hP hPP] at he
      exact absurd he (h.fresh hlo hhi hfree P hP)
    · rw [hf P hP hPP, hf Q hQ hQP] at he
      rw [hf P hP hPP] at hz
      exact h.sep P hP Q hQ he hz
  range := by
    intro P hP hz
    by_cases hPP : P = P₀
    · rw [hPP, hf₀]
      exact ⟨hlo, hhi⟩
    · rw [hf P hP hPP] at hz ⊢
      exact h.range P hP hz
  used := by
    intro b hbl hbh
    rw [hu b hbl hbh, h.used b hbl hbh]
    constructor
    · rintro (rfl | ⟨P, hP, rfl⟩)
      · exact ⟨P₀, hP₀, hf₀⟩
      · have hne : P ≠ P₀ := by
          rintro rfl
          rw [hempty] at hbl
          exact absurd h.pos (Nat.not_lt.mpr hbl)
        exact ⟨P, hP, hf P hP hne⟩
    · rintro ⟨P, hP, rfl⟩
      by_cases hPP : P = P₀
      · exact Or.inl (by rw [hPP, hf₀])
      · exact Or.inr ⟨P, hP, (hf P hP hPP).symm⟩

/-- The blocks at some positions are freed and the positions emptied. -/
theorem release (h : Owns V f used lo hi) {S : Set π} (hS : ∀ P ∈ V, P ∈ S → f' P = 0)
    (hf : ∀ P ∈ V, P ∉ S → f' P = f P)
    (hu : ∀ b, lo ≤ b → b < hi → (used' b ↔ used b ∧ ∀ P ∈ V, P ∈ S → f P ≠ b)) :
    Owns V f' used' lo hi where
  pos := h.pos
  sep := by
    intro P hP Q hQ he hz
    have hPS : P ∉ S := fun hm ↦ hz (hS P hP hm)
    have hQS : Q ∉ S := fun hm ↦ hz (he.trans (hS Q hQ hm))
    rw [hf P hP hPS, hf Q hQ hQS] at he
    rw [hf P hP hPS] at hz
    exact h.sep P hP Q hQ he hz
  range := by
    intro P hP hz
    have hPS : P ∉ S := fun hm ↦ hz (hS P hP hm)
    rw [hf P hP hPS] at hz ⊢
    exact h.range P hP hz
  used := by
    intro b hbl hbh
    rw [hu b hbl hbh, h.used b hbl hbh]
    constructor
    · rintro ⟨⟨P, hP, rfl⟩, hout⟩
      have hPS : P ∉ S := fun hm ↦ hout P hP hm rfl
      exact ⟨P, hP, hf P hP hPS⟩
    · rintro ⟨P, hP, rfl⟩
      have hPS : P ∉ S := by
        intro hm
        rw [hS P hP hm] at hbl
        exact absurd h.pos (Nat.not_lt.mpr hbl)
      have he := hf P hP hPS
      refine ⟨⟨P, hP, he.symm⟩, fun Q hQ hQS heq ↦ hPS ?_⟩
      have hz : f Q ≠ 0 := by
        have hpos := h.pos
        omega
      rw [← h.sep Q hQ P hP (heq.trans he) hz]
      exact hQS

end Owns

end Xv6.Lib
