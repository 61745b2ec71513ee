import Xv6.Fs.Layout

/-!
# From block numbers to positions

`leaf bn` is the place of the `bn`th block of a file in the four regions of the inode's
address tree: the entry of `ip->addrs` and the indices below it, deepest first. `bmap`
walks to it one pointer at a time.
-/

namespace Xv6.Fs

open Function

/-- The levels of indirect blocks below `ip->addrs[k]`. -/
def levels (k : Fin (NDIRECT + 3)) : Nat := k + 1 - NDIRECT

theorem single_lt : NDIRECT < NDIRECT + 3 := by decide

theorem double_lt : NDIRECT + 1 < NDIRECT + 3 := by decide

theorem triple_lt : NDIRECT + 2 < NDIRECT + 3 := by decide

/-- The place of the `bn`th block of a file; `fs.c:372-465`. -/
def leaf (bn : Nat) : Fin (NDIRECT + 3) × List Nat :=
  if h : bn < NDIRECT then
    (Fin.castAdd 3 ⟨bn, h⟩, [])
  else
  let bn := bn - NDIRECT
  if bn < NINDIRECT then
    (⟨NDIRECT, single_lt⟩, [bn])
  else
  let bn := bn - NINDIRECT
  if bn < NDINDIRECT then
    (⟨NDIRECT + 1, double_lt⟩, [bn % NINDIRECT, bn / NINDIRECT])
  else
  let bn := bn - NDINDIRECT
  (⟨NDIRECT + 2, triple_lt⟩,
    [bn % NDINDIRECT % NINDIRECT, bn % NDINDIRECT / NINDIRECT, bn / NDINDIRECT])

/-- The position is needed for the first `nb` blocks of a file: it is on the way to one. -/
def Needed (nb : Nat) (k : Fin (NDIRECT + 3)) (q : List Nat) : Prop :=
  ∃ bn < nb, bn < MAXFILE ∧ (leaf bn).1 = k ∧ q <:+ (leaf bn).2

/-! ### The four regions -/

section Regions

variable {bn : Nat}

theorem leaf_direct (h : bn < NDIRECT) : leaf bn = (Fin.castAdd 3 ⟨bn, h⟩, []) := by
  rw [leaf, dif_pos h]

theorem leaf_single (h : ¬bn < NDIRECT) (h1 : bn - NDIRECT < NINDIRECT) :
    leaf bn = (⟨NDIRECT, single_lt⟩, [bn - NDIRECT]) := by
  rw [leaf, dif_neg h]
  dsimp only
  rw [if_pos h1]

theorem leaf_double (h : ¬bn < NDIRECT) (h1 : ¬bn - NDIRECT < NINDIRECT)
    (h2 : bn - NDIRECT - NINDIRECT < NDINDIRECT) :
    leaf bn = (⟨NDIRECT + 1, double_lt⟩,
      [(bn - NDIRECT - NINDIRECT) % NINDIRECT, (bn - NDIRECT - NINDIRECT) / NINDIRECT]) := by
  rw [leaf, dif_neg h]
  dsimp only
  rw [if_neg h1, if_pos h2]

theorem leaf_triple (h : ¬bn < NDIRECT) (h1 : ¬bn - NDIRECT < NINDIRECT)
    (h2 : ¬bn - NDIRECT - NINDIRECT < NDINDIRECT) :
    leaf bn = (⟨NDIRECT + 2, triple_lt⟩,
      [(bn - NDIRECT - NINDIRECT - NDINDIRECT) % NDINDIRECT % NINDIRECT,
        (bn - NDIRECT - NINDIRECT - NDINDIRECT) % NDINDIRECT / NINDIRECT,
        (bn - NDIRECT - NINDIRECT - NDINDIRECT) / NDINDIRECT]) := by
  rw [leaf, dif_neg h]
  dsimp only
  rw [if_neg h1, if_neg h2]

/-- A block number lies in one of the four regions. -/
theorem region_cases (h : bn < MAXFILE) : bn < NDIRECT ∨
    (¬bn < NDIRECT ∧ bn - NDIRECT < NINDIRECT) ∨
    (¬bn < NDIRECT ∧ ¬bn - NDIRECT < NINDIRECT ∧ bn - NDIRECT - NINDIRECT < NDINDIRECT) ∨
    (¬bn < NDIRECT ∧ ¬bn - NDIRECT < NINDIRECT ∧ ¬bn - NDIRECT - NINDIRECT < NDINDIRECT ∧
      bn - NDIRECT - NINDIRECT - NDINDIRECT < NTINDIRECT) := by
  unfold MAXFILE at h
  omega

/-- A place has as many indices as its tree has levels, all within a block. -/
theorem leaf_valid (h : bn < MAXFILE) :
    (leaf bn).2.length = levels (leaf bn).1 ∧ ∀ i ∈ (leaf bn).2, i < NINDIRECT := by
  rcases region_cases h with h0 | ⟨h0, h1⟩ | ⟨h0, h1, h2⟩ | ⟨h0, h1, h2, h3⟩
  · rw [leaf_direct h0]
    constructor
    · show 0 = bn + 1 - NDIRECT
      omega
    · simp
  · rw [leaf_single h0 h1]
    exact ⟨rfl, by simpa using h1⟩
  · rw [leaf_double h0 h1 h2]
    refine ⟨rfl, ?_⟩
    intro i hi
    simp only [List.mem_cons, List.not_mem_nil, or_false] at hi
    rcases hi with hi | hi
    · rw [hi]
      exact Nat.mod_lt _ (by decide)
    · have hlt : bn - NDIRECT - NINDIRECT < NINDIRECT * NINDIRECT := h2
      rw [hi]
      exact Nat.div_lt_of_lt_mul hlt
  · rw [leaf_triple h0 h1 h2]
    refine ⟨rfl, ?_⟩
    intro i hi
    simp only [List.mem_cons, List.not_mem_nil, or_false] at hi
    rcases hi with hi | hi | hi
    · rw [hi]
      exact Nat.mod_lt _ (by decide)
    · have hlt : (bn - NDIRECT - NINDIRECT - NDINDIRECT) % NDINDIRECT < NINDIRECT * NINDIRECT :=
        Nat.mod_lt _ (by decide)
      rw [hi]
      exact Nat.div_lt_of_lt_mul hlt
    · have hlt : bn - NDIRECT - NINDIRECT - NDINDIRECT < NDINDIRECT * NINDIRECT := h3
      rw [hi]
      exact Nat.div_lt_of_lt_mul hlt

/-- The block number of a place in full depth, digit by digit. -/
def blockNumber (P : Fin (NDIRECT + 3) × List Nat) : Nat :=
  match P.2 with
  | [] => P.1
  | [j] => NDIRECT + j
  | [j, i] => NDIRECT + NINDIRECT + (i * NINDIRECT + j)
  | j :: i :: h :: _ => NDIRECT + NINDIRECT + NDINDIRECT + ((h * NINDIRECT + i) * NINDIRECT + j)

theorem blockNumber_leaf (h : bn < MAXFILE) : blockNumber (leaf bn) = bn := by
  rcases region_cases h with h0 | ⟨h0, h1⟩ | ⟨h0, h1, h2⟩ | ⟨h0, h1, h2, h3⟩
  · rw [leaf_direct h0]
    rfl
  · rw [leaf_single h0 h1]
    show NDIRECT + (bn - NDIRECT) = bn
    omega
  · rw [leaf_double h0 h1 h2]
    show NDIRECT + NINDIRECT + ((bn - NDIRECT - NINDIRECT) / NINDIRECT * NINDIRECT +
      (bn - NDIRECT - NINDIRECT) % NINDIRECT) = bn
    rw [Nat.div_add_mod']
    omega
  · rw [leaf_triple h0 h1 h2]
    have hd := Nat.div_add_mod' ((bn - NDIRECT - NINDIRECT - NDINDIRECT) % NDINDIRECT) NINDIRECT
    have hd' := Nat.div_add_mod' (bn - NDIRECT - NINDIRECT - NDINDIRECT) NDINDIRECT
    show NDIRECT + NINDIRECT + NDINDIRECT +
      (((bn - NDIRECT - NINDIRECT - NDINDIRECT) / NDINDIRECT * NINDIRECT +
        (bn - NDIRECT - NINDIRECT - NDINDIRECT) % NDINDIRECT / NINDIRECT) * NINDIRECT +
        (bn - NDIRECT - NINDIRECT - NDINDIRECT) % NDINDIRECT % NINDIRECT) = bn
    rw [Nat.add_mul, Nat.mul_assoc, Nat.add_assoc _ _ (_ % NINDIRECT), hd, hd']
    omega

/-- Different block numbers have different places. -/
theorem leaf_inj {bn' : Nat} (h : bn < MAXFILE) (h' : bn' < MAXFILE) (he : leaf bn = leaf bn') :
    bn = bn' := by
  have key : ∀ {x}, x < MAXFILE → blockNumber (leaf x) = x := blockNumber_leaf
  rw [← key h, ← key h', he]

/-- The place of a block is needed exactly when the block is one of the first `nb`. -/
theorem needed_leaf {nb : Nat} (h : bn < MAXFILE) :
    Needed nb (leaf bn).1 (leaf bn).2 ↔ bn < nb := by
  constructor
  · rintro ⟨bn', hlt, hmax, hk, hq⟩
    have hlen : (leaf bn).2.length = (leaf bn').2.length := by
      rw [(leaf_valid h).1, (leaf_valid hmax).1, hk]
    have he : leaf bn' = leaf bn := Prod.ext hk (hq.eq_of_length hlen).symm
    rwa [← leaf_inj hmax h he]
  · intro hlt
    exact ⟨bn, hlt, h, rfl, List.suffix_refl _⟩

/-- Mapping the next block adds the positions on the way to it. -/
theorem needed_grow {nb : Nat} (h : bn < MAXFILE) (hle : bn ≤ nb) {k : Fin (NDIRECT + 3)}
    {q : List Nat} : Needed (max nb (bn + 1)) k q ↔
      Needed nb k q ∨ ((leaf bn).1 = k ∧ q <:+ (leaf bn).2) := by
  constructor
  · rintro ⟨bn', hlt, hmax, hk, hq⟩
    by_cases hnb : bn' < nb
    · exact Or.inl ⟨bn', hnb, hmax, hk, hq⟩
    · have he : bn' = bn := by omega
      subst he
      exact Or.inr ⟨hk, hq⟩
  · rintro (⟨bn', hlt, hmax, hk, hq⟩ | ⟨hk, hq⟩)
    · exact ⟨bn', by omega, hmax, hk, hq⟩
    · exact ⟨bn, by omega, h, hk, hq⟩

end Regions

/-! ### Walking down -/

/-- Follow the pointers to a place, allocating what is missing. -/
def walk (sb : Superblock) (s : State) (ip : Slot) (k : Fin (NDIRECT + 3)) :
    List Nat → Except Panic (State × Nat)
  | [] => root sb s ip k
  | i :: p => do
    let (s, addr) ← walk sb s ip k p
    entry sb s addr i

/-- `bmap` walks to the place of the block. -/
theorem bmap_eq_walk {sb : Superblock} {s : State} {ip : Slot} {bn : Nat} (h : bn < MAXFILE) :
    bmap sb s ip bn = walk sb s ip (leaf bn).1 (leaf bn).2 := by
  rcases region_cases h with h0 | ⟨h0, h1⟩ | ⟨h0, h1, h2⟩ | ⟨h0, h1, h2, h3⟩
  · rw [leaf_direct h0, bmap, dif_pos h0]
    rfl
  · rw [leaf_single h0 h1, bmap, dif_neg h0]
    dsimp only
    rw [if_pos h1]
    rfl
  · rw [leaf_double h0 h1 h2, bmap, dif_neg h0]
    dsimp only
    rw [if_neg h1, if_pos h2]
    simp only [walk, bind_assoc]
  · rw [leaf_triple h0 h1 h2, bmap, dif_neg h0]
    dsimp only
    rw [if_neg h1, if_neg h2, if_pos h3]
    simp only [walk, bind_assoc]

end Xv6.Fs
