import Xv6.Fs.Contents
import Xv6.Fs.Logged

/-!
# The blocks that a write takes

A block of a file needs a position of its own and, where it is the first one below some indirect
blocks, positions for these. `balloc` takes the free blocks in increasing order, one for each
position that a write maps, and the log gets the new blocks, the free map for each of them and the
indirect blocks they are entered in.
-/

namespace Xv6.Fs

open Function

/-! ### New positions -/

/-- The number of indirect blocks that the `bn`th block of a file is the first one to need. -/
def opened (bn : Nat) : Nat :=
  if bn < NDIRECT then 0
  else
  let bn := bn - NDIRECT
  if bn < NINDIRECT then
    if bn = 0 then 1 else 0
  else
  let bn := bn - NINDIRECT
  if bn < NDINDIRECT then
    if bn = 0 then 2 else if bn % NINDIRECT = 0 then 1 else 0
  else
  let bn := bn - NDINDIRECT
  if bn = 0 then 3
  else if bn % NDINDIRECT = 0 then 2
  else if bn % NINDIRECT = 0 then 1
  else 0

/-- The positions on the way to a position, from the root on. -/
def spine {ρ : Type*} (r : ρ) : List Nat → List (Lib.Pos ρ)
  | [] => [(r, [])]
  | i :: p => spine r p ++ [(r, i :: p)]

/-- The positions that are mapped with the `bn`th block of inode `i` when all blocks before it are
mapped. -/
def newPlaces (i bn : Nat) : List (Lib.Pos Root) :=
  (spine (i, (leaf bn).1) (leaf bn).2).drop (levels (leaf bn).1 - opened bn)

/-- The positions that are mapped when inode `i` grows from `nb` to `nb'` blocks. -/
def growth (i nb nb' : Nat) : List (Lib.Pos Root) :=
  (List.range' nb (nb' - nb)).flatMap (newPlaces i)

section Positions

variable {bn : Nat} {q : List Nat}

theorem length_spine {ρ : Type*} {r : ρ} {p : List Nat} : (spine r p).length = p.length + 1 := by
  induction p with
  | nil => rfl
  | cons i p ih => rw [spine, List.length_append, ih]; rfl

theorem mem_spine {ρ : Type*} {r : ρ} {p : List Nat} {Q : Lib.Pos ρ} :
    Q ∈ spine r p ↔ Q.1 = r ∧ Q.2 <:+ p := by
  induction p with
  | nil => simp [spine, Prod.ext_iff]
  | cons i p ih =>
    rw [spine, List.mem_append, ih, List.mem_singleton, List.suffix_cons_iff, Prod.ext_iff]
    tauto

/-- The positions on the way are in the order of their levels. -/
private theorem filter_spine {ρ : Type*} {r : ρ} {p : List Nat} (c : Nat) :
    (spine r p).filter (fun Q ↦ c ≤ Q.2.length) = (spine r p).drop c := by
  induction p with
  | nil =>
    rcases Nat.eq_zero_or_pos c with rfl | hc
    · rfl
    · rw [List.drop_of_length_le (by rw [length_spine]; exact hc), List.filter_eq_nil_iff]
      intro Q hQ
      rw [List.mem_singleton.mp hQ]
      simp only [List.length_nil, decide_eq_true_eq]
      omega
  | cons i p ih =>
    rw [spine, List.filter_append, ih, List.filter_singleton, List.drop_append, length_spine,
      List.length_cons]
    congr 1
    by_cases hc : c ≤ p.length + 1
    · rw [decide_eq_true hc, cond_true, Nat.sub_eq_zero_of_le hc]
      rfl
    · rw [decide_eq_false hc, cond_false, List.drop_of_length_le]
      rw [List.length_singleton]
      omega

theorem mem_newPlaces {i bn : Nat} {Q : Lib.Pos Root} : Q ∈ newPlaces i bn ↔
    Q.1 = (i, (leaf bn).1) ∧ Q.2 <:+ (leaf bn).2 ∧
      levels (leaf bn).1 - opened bn ≤ Q.2.length := by
  rw [newPlaces, ← filter_spine, List.mem_filter, mem_spine, decide_eq_true_eq, and_assoc]

/-- Blocks with the same entry of `addrs` are in the same region. -/
theorem leaf_fst (bn : Nat) : ((leaf bn).1 : Nat) =
    if bn < NDIRECT then bn
    else if bn - NDIRECT < NINDIRECT then NDIRECT
    else if bn - NDIRECT - NINDIRECT < NDINDIRECT then NDIRECT + 1
    else NDIRECT + 2 := by
  unfold leaf
  split
  · rfl
  · dsimp only
    split
    · rfl
    · split
      · rfl
      · rfl

private theorem needed_direct (h : bn < NDIRECT) : ¬Needed bn (leaf bn).1 [] := by
  rintro ⟨bn', hlt, _, hk, _⟩
  have hk := congrArg Fin.val hk
  rw [leaf_fst, leaf_fst, if_pos h, if_pos (by omega)] at hk
  omega

private theorem needed_single (h : ¬bn < NDIRECT) (h1 : bn - NDIRECT < NINDIRECT) :
    (Needed bn (leaf bn).1 [] ↔ bn - NDIRECT ≠ 0) := by
  constructor
  · rintro ⟨bn', hlt, _, hk, _⟩ h0
    have hk := congrArg Fin.val hk
    rw [leaf_fst, leaf_fst, if_neg h, if_pos h1, if_pos (by omega)] at hk
    omega
  · intro h0
    refine ⟨bn - 1, by omega, by unfold MAXFILE; omega, ?_, List.nil_suffix⟩
    rw [leaf_single h h1, leaf_single (by omega) (by omega)]

private theorem needed_double (h : ¬bn < NDIRECT) (h1 : ¬bn - NDIRECT < NINDIRECT)
    (h2 : bn - NDIRECT - NINDIRECT < NDINDIRECT) {q : List Nat} :
    Needed bn (leaf bn).1 q ↔
      ∃ j < bn - NDIRECT - NINDIRECT, q <:+ [j % NINDIRECT, j / NINDIRECT] := by
  constructor
  · rintro ⟨bn', hlt, _, hk, hq⟩
    have hk := congrArg Fin.val hk
    rw [leaf_fst, leaf_fst, if_neg h, if_neg h1, if_pos h2] at hk
    have hd : ¬bn' < NDIRECT := fun hd ↦ by rw [if_pos hd] at hk; omega
    have hs : ¬bn' - NDIRECT < NINDIRECT := fun hs ↦ by rw [if_neg hd, if_pos hs] at hk; omega
    rw [leaf_double hd hs (by omega)] at hq
    exact ⟨bn' - NDIRECT - NINDIRECT, by omega, hq⟩
  · rintro ⟨j, hj, hq⟩
    refine ⟨NDIRECT + NINDIRECT + j, by omega, by unfold MAXFILE; omega, ?_, ?_⟩
    · rw [leaf_double h h1 h2, leaf_double (by omega) (by omega) (by omega)]
    · rw [leaf_double (by omega) (by omega) (by omega)]
      rwa [show NDIRECT + NINDIRECT + j - NDIRECT - NINDIRECT = j by omega]

private theorem needed_triple (h : bn < MAXFILE) (h0 : ¬bn < NDIRECT)
    (h1 : ¬bn - NDIRECT < NINDIRECT) (h2 : ¬bn - NDIRECT - NINDIRECT < NDINDIRECT) {q : List Nat} :
    Needed bn (leaf bn).1 q ↔ ∃ j < bn - NDIRECT - NINDIRECT - NDINDIRECT,
      q <:+ [j % NDINDIRECT % NINDIRECT, j % NDINDIRECT / NINDIRECT, j / NDINDIRECT] := by
  constructor
  · rintro ⟨bn', hlt, _, hk, hq⟩
    have hk := congrArg Fin.val hk
    rw [leaf_fst, leaf_fst, if_neg h0, if_neg h1, if_neg h2] at hk
    have hd : ¬bn' < NDIRECT := fun hd ↦ by rw [if_pos hd] at hk; omega
    have hs : ¬bn' - NDIRECT < NINDIRECT := fun hs ↦ by rw [if_neg hd, if_pos hs] at hk; omega
    have ht : ¬bn' - NDIRECT - NINDIRECT < NDINDIRECT := fun ht ↦ by
      rw [if_neg hd, if_neg hs, if_pos ht] at hk
      omega
    rw [leaf_triple hd hs ht] at hq
    exact ⟨bn' - NDIRECT - NINDIRECT - NDINDIRECT, by omega, hq⟩
  · rintro ⟨j, hj, hq⟩
    refine ⟨NDIRECT + NINDIRECT + NDINDIRECT + j, by omega, by omega, ?_, ?_⟩
    · rw [leaf_triple h0 h1 h2, leaf_triple (by omega) (by omega) (by omega)]
    · rw [leaf_triple (by omega) (by omega) (by omega)]
      rwa [show NDIRECT + NINDIRECT + NDINDIRECT + j - NDIRECT - NINDIRECT - NDINDIRECT = j by
        omega]

/-- Of the places on the way to the `bn`th block, those that lead to earlier blocks as well. -/
theorem needed_suffix (h : bn < MAXFILE) (hq : q <:+ (leaf bn).2) :
    Needed bn (leaf bn).1 q ↔ q.length + opened bn < levels (leaf bn).1 := by
  have hN : NINDIRECT = 128 := rfl
  have hD : NDINDIRECT = 16384 := rfl
  unfold levels opened
  rw [leaf_fst]
  rcases region_cases h with h0 | ⟨h0, h1⟩ | ⟨h0, h1, h2⟩ | ⟨h0, h1, h2, h3⟩
  · rw [leaf_direct h0] at hq
    obtain rfl := List.suffix_nil.mp hq
    simp only [if_pos h0, List.length_nil]
    exact iff_of_false (needed_direct h0) (by omega)
  · have hleaf := leaf_single h0 h1
    simp only [if_neg h0, if_pos h1]
    rw [hleaf] at hq
    rcases List.suffix_cons_iff.mp hq with rfl | hq
    · have hno : ¬Needed bn (leaf bn).1 (leaf bn).2 := fun hn ↦ ((needed_leaf h).mp hn).false
      rw [hleaf] at hno ⊢
      simp only [List.length_cons, List.length_nil]
      exact iff_of_false hno (by omega)
    · obtain rfl := List.suffix_nil.mp hq
      rw [needed_single h0 h1, List.length_nil]
      split <;> omega
  · simp only [if_neg h0, if_neg h1, if_pos h2]
    rw [leaf_double h0 h1 h2] at hq
    rw [needed_double h0 h1 h2]
    generalize bn - NDIRECT - NINDIRECT = j at *
    rw [hN] at hq ⊢
    simp only [List.suffix_cons_iff, List.suffix_nil] at hq ⊢
    rcases hq with rfl | rfl | rfl <;>
      simp only [List.length_cons, List.length_nil, List.cons.injEq, and_true, reduceCtorEq,
        and_false, or_false, false_or, or_true]
    · refine iff_of_false ?_ (by split_ifs <;> omega)
      rintro ⟨j', hj, hq⟩
      omega
    · constructor
      · rintro ⟨j', hj, hq⟩
        split_ifs <;> omega
      · intro hlt
        refine ⟨j - 1, ?_, ?_⟩ <;> split_ifs at hlt <;> omega
    · constructor
      · rintro ⟨j', hj⟩
        split_ifs <;> omega
      · intro hlt
        refine ⟨0, ?_⟩
        split_ifs at hlt <;> omega
  · simp only [if_neg h0, if_neg h1, if_neg h2]
    rw [leaf_triple h0 h1 h2] at hq
    rw [needed_triple h h0 h1 h2]
    generalize bn - NDIRECT - NINDIRECT - NDINDIRECT = j at *
    rw [hN, hD] at hq ⊢
    simp only [List.suffix_cons_iff, List.suffix_nil] at hq ⊢
    rcases hq with rfl | rfl | rfl | rfl <;>
      simp only [List.length_cons, List.length_nil, List.cons.injEq, and_true, reduceCtorEq,
        and_false, or_false, false_or, or_true]
    · refine iff_of_false ?_ (by split_ifs <;> omega)
      rintro ⟨j', hj, hq⟩
      omega
    · constructor
      · rintro ⟨j', hj, hq⟩
        split_ifs <;> omega
      · intro hlt
        refine ⟨j - 1, ?_, ?_⟩ <;> split_ifs at hlt <;> omega
    · constructor
      · rintro ⟨j', hj, hq⟩
        split_ifs <;> omega
      · intro hlt
        refine ⟨j - 1, ?_, ?_⟩ <;> split_ifs at hlt <;> omega
    · constructor
      · rintro ⟨j', hj⟩
        split_ifs <;> omega
      · intro hlt
        refine ⟨0, ?_⟩
        split_ifs at hlt <;> omega

end Positions

/-! ### The free blocks -/

/-- The free blocks, in the order in which `balloc` takes them. -/
def freeBlocks (sb : Superblock) (blocks : Nat → Block) : List Nat :=
  (List.range sb.size).filter fun b ↦ !used sb blocks b

section Free

variable {sb : Superblock} {ip : Slot} {s t : State} {b : Nat}

theorem mem_freeBlocks {blocks : Nat → Block} :
    b ∈ freeBlocks sb blocks ↔ b < sb.size ∧ used sb blocks b = false := by
  simp [freeBlocks]

theorem freeBlocks_congr {blocks blocks' : Nat → Block}
    (h : ∀ b < sb.size, used sb blocks' b = used sb blocks b) :
    freeBlocks sb blocks' = freeBlocks sb blocks := by
  unfold freeBlocks
  apply List.filter_congr
  intro b hb
  rw [h b (List.mem_range.mp hb)]

/-- `balloc` takes the first free block, if there is one. -/
private theorem balloc_free (hr : Ready sb ip s) :
    Lib.Ensures (balloc sb s) (fun e ↦ e = .outOfBlocks ∧ freeBlocks sb s.blocks = []) fun r ↦
      Allocated sb s r.1 r.2 ∧ Logs s r.1 [sb.BBLOCK r.2, r.2] ∧
      freeBlocks sb s.blocks = r.2 :: freeBlocks sb r.1.blocks := by
  cases hb : balloc sb s with
  | ok r =>
    have ha := (balloc_spec s).of_ok hb
    refine ⟨ha, balloc_logs hb, ?_⟩
    have hfind : (List.range sb.size).find? (fun b ↦ !used sb s.blocks b) = some r.2 := by
      unfold balloc at hb
      split at hb
      · next b hf =>
        cases hb
        exact hf
      · cases hb
    obtain ⟨-, l, l', hl, hused⟩ := List.find?_eq_some_iff_append.mp hfind
    have hnodup : (l ++ r.2 :: l').Nodup := hl ▸ List.nodup_range
    have hnot : r.2 ∉ l' := (List.nodup_cons.mp (List.nodup_append.mp hnodup).2.1).1
    have hold : l.filter (fun b ↦ !used sb s.blocks b) = [] := by
      apply List.filter_eq_nil_iff.mpr
      simpa using hused
    have hnew : l.filter (fun b ↦ !used sb r.1.blocks b) = [] := by
      apply List.filter_eq_nil_iff.mpr
      intro x hx
      have hlt : x < sb.size := List.mem_range.mp (hl ▸ List.mem_append_left _ hx)
      have hx' : used sb s.blocks x = true := by simpa using hused x hx
      rw [ha.taken (hr.nmeta_le ha) x hlt, hx']
      simp
    unfold freeBlocks
    rw [hl, List.filter_append, List.filter_append, hold, hnew, List.filter_cons_of_pos,
      List.filter_cons_of_neg, List.nil_append, List.nil_append, List.cons.injEq,
      and_iff_right rfl]
    · apply List.filter_congr
      intro x hx
      have hlt : x < sb.size :=
        List.mem_range.mp (hl ▸ List.mem_append_right _ (List.mem_cons_of_mem _ hx))
      have hne : x ≠ r.2 := fun he ↦ hnot (he ▸ hx)
      rw [ha.taken (hr.nmeta_le ha) x hlt]
      simp [hne]
    · rw [ha.taken (hr.nmeta_le ha) _ ha.lt]
      simp
    · simp [ha.free]
  | error e =>
    refine ⟨(balloc_spec s).of_error hb, ?_⟩
    unfold balloc at hb
    split at hb
    · cases hb
    · next hf => exact List.filter_eq_nil_iff.mpr fun b hb ↦ by simpa using List.find?_eq_none.mp hf b hb

end Free

/-! ### Taking and storing -/

/-- What a write does to a position: gives it a block, or stores into its block. -/
inductive Touch where
  | take (P : Lib.Pos Root)
  | store (P : Lib.Pos Root)

/-- The position that is touched. -/
def Touch.place : Touch → Lib.Pos Root
  | take P => P
  | store P => P

/-- The positions that are given a block, in order. -/
def taken (l : List Touch) : List (Lib.Pos Root) :=
  l.flatMap fun
    | .take P => [P]
    | .store _ => []

/-- The blocks that are logged for it: the free map and the new block, and the indirect block in
which it is entered; or just the block that is stored into. -/
def Touch.logged (sb : Superblock) (ip : Slot) (s : State) : Touch → List Nat
  | take (r, []) => [sb.BBLOCK (pos sb ip s (r, [])), pos sb ip s (r, [])]
  | take (r, i :: p) =>
    [sb.BBLOCK (pos sb ip s (r, i :: p)), pos sb ip s (r, i :: p), pos sb ip s (r, p)]
  | store P => [pos sb ip s P]

/-- From `s` to `t` the positions of `l` have been touched: the new blocks were the first free
ones, and what is logged is logged for them. -/
structure Took (sb : Superblock) (ip : Slot) (l : List Touch) (s t : State) : Prop where
  free : freeBlocks sb s.blocks =
    (taken l).map (pos sb ip t) ++ freeBlocks sb t.blocks
  logs : Logs s t (l.flatMap (Touch.logged sb ip t))
  mapped : ∀ e ∈ l, e.place ∈ Places ∧ pos sb ip t e.place ≠ 0

/-- There are too few free blocks for the positions that a walk takes. -/
def Short (sb : Superblock) (s : State) (l : List Touch) (e : Panic) : Prop :=
  e = .outOfBlocks ∧ (freeBlocks sb s.blocks).length < (taken l).length

section Taking

variable {sb : Superblock} {ip : Slot} {s t u : State} {l l' : List Touch}

@[simp] theorem taken_nil : taken [] = [] := rfl

@[simp] theorem taken_append : taken (l ++ l') = taken l ++ taken l' := List.flatMap_append

theorem mem_taken {P : Lib.Pos Root} : P ∈ taken l ↔ .take P ∈ l := by
  unfold taken
  rw [List.mem_flatMap]
  constructor
  · rintro ⟨e, he, hP⟩
    cases e with
    | take Q =>
      rw [List.mem_singleton.mp hP]
      exact he
    | store Q => cases hP
  · intro h
    exact ⟨_, h, List.mem_singleton_self P⟩

theorem taken_map_take (L : List (Lib.Pos Root)) : taken (L.map .take) = L := by
  induction L with
  | nil => rfl
  | cons P L ih =>
    show P :: taken (L.map .take) = P :: L
    rw [ih]

/-- The block above a mapped position is mapped. -/
theorem pos_parent_ne_zero {r : Root} {i : Nat} {p : List Nat}
    (hz : pos sb ip s (r, i :: p) ≠ 0) : pos sb ip s (r, p) ≠ 0 := by
  intro h0
  apply hz
  show Lib.ptr _ _ _ (i :: p) = 0
  rw [Lib.ptr_cons]
  exact if_pos h0

/-- What is logged for a mapped position stays the same while positions stay mapped. -/
theorem Kept.logged_eq (h : Kept sb ip s t) {e : Touch} (hP : e.place ∈ Places)
    (hz : pos sb ip s e.place ≠ 0) : e.logged sb ip t = e.logged sb ip s := by
  have hkept := h.kept _ hP hz
  match e with
  | .store P =>
    show [_] = [_]
    rw [show pos sb ip t P = pos sb ip s P from hkept]
  | .take (r, []) =>
    show [_, _] = [_, _]
    rw [show pos sb ip t (r, []) = pos sb ip s (r, []) from hkept]
  | .take (r, i :: p) =>
    have hpar := h.kept _ (Lib.mem_positions_parent hP) (pos_parent_ne_zero hz)
    show [_, _, _] = [_, _, _]
    rw [show pos sb ip t (r, i :: p) = pos sb ip s (r, i :: p) from hkept, hpar]

theorem Took.refl (sb : Superblock) (ip : Slot) (s : State) : Took sb ip [] s s where
  free := rfl
  logs := Logs.refl s
  mapped := by simp

theorem Took.trans (h : Took sb ip l s t) (hk : Kept sb ip t u) (h' : Took sb ip l' t u) :
    Took sb ip (l ++ l') s u where
  free := by
    have hsame : (taken l).map (pos sb ip u) = (taken l).map (pos sb ip t) := by
      apply List.map_congr_left
      intro P hP
      obtain ⟨hplace, hz⟩ := h.mapped _ (mem_taken.mp hP)
      exact hk.kept P hplace hz
    rw [h.free, h'.free, taken_append, List.map_append, hsame, List.append_assoc]
  logs := by
    have hsame : l.flatMap (Touch.logged sb ip u) = l.flatMap (Touch.logged sb ip t) := by
      apply List.flatMap_congr
      intro e he
      obtain ⟨hplace, hz⟩ := h.mapped e he
      exact hk.logged_eq hplace hz
    rw [List.flatMap_append, hsame]
    exact h.logs.trans h'.logs
  mapped := by
    intro e he
    rcases List.mem_append.mp he with he | he
    · obtain ⟨hplace, hz⟩ := h.mapped e he
      exact ⟨hplace, by rwa [hk.kept _ hplace hz]⟩
    · exact h'.mapped e he

/-- Too few blocks are left after some are taken: there were too few before. -/
theorem Took.short {e : Panic} (h : Took sb ip l s t) (h' : Short sb t l' e) :
    Short sb s (l ++ l') e := by
  obtain ⟨he, hlt⟩ := h'
  refine ⟨he, ?_⟩
  have hfree := congrArg List.length h.free
  rw [List.length_append, List.length_map] at hfree
  rw [taken_append, List.length_append]
  omega

theorem Short.append {e : Panic} (h : Short sb s l e) (l' : List Touch) :
    Short sb s (l ++ l') e := by
  obtain ⟨he, hlt⟩ := h
  refine ⟨he, ?_⟩
  rw [taken_append, List.length_append]
  omega

end Taking

/-! ### Down to a block -/

/-- What a walk through the positions `L` takes. -/
def missing (sb : Superblock) (ip : Slot) (s : State) (L : List (Lib.Pos Root)) : List Touch :=
  (L.filter fun P ↦ pos sb ip s P = 0).map .take

section Walk

variable {sb : Superblock} {ip : Slot} {s t : State}

/-- Writing a data block does not change what is free. -/
private theorem freeBlocks_logWrite {b : Nat} (hb : sb.nmeta ≤ b) (data : Block) :
    freeBlocks sb (logWrite s b data).blocks = freeBlocks sb s.blocks := by
  apply freeBlocks_congr
  intro x hx
  apply used_congr _ hx
  intro y _ hy
  have hne : y ≠ b := by omega
  simp [blocks_logWrite, hne]

private theorem took_one {P : Lib.Pos Root} {b : Nat} (hP : P ∈ Places) (hz : b ≠ 0)
    (hb : b = pos sb ip t P) (hfree : freeBlocks sb s.blocks = b :: freeBlocks sb t.blocks)
    (hlogs : Logs s t (Touch.logged sb ip t (.take P))) : Took sb ip [.take P] s t where
  free := by
    rw [hfree, hb]
    rfl
  logs := by simpa using hlogs
  mapped := by
    intro e he
    rw [List.mem_singleton.mp he]
    exact ⟨hP, hb ▸ hz⟩

private theorem root_took (hr : Ready sb ip s) (k : Fin (NDIRECT + 3)) :
    Lib.Ensures (root sb s ip k)
      (Short sb s (missing sb ip s [(((s.icache ip).inum, k), [])])) fun r ↦
      Took sb ip (missing sb ip s [(((s.icache ip).inum, k), [])]) s r.1 := by
  have hroot := pos_root hr.inUse k
  have hspec := root_spec hr k
  unfold missing
  rw [List.filter_singleton, hroot]
  unfold root at hspec ⊢
  dsimp only at hspec ⊢
  split at hspec
  · next hz =>
    simp only [if_pos hz, decide_eq_true hz, cond_true] at hspec ⊢
    have hb := balloc_free hr
    cases hbr : balloc sb s with
    | error e =>
      rw [hbr] at hb
      refine ⟨hb.1, ?_⟩
      rw [hb.2]
      exact Nat.zero_lt_one
    | ok r =>
      rw [hbr] at hb hspec
      obtain ⟨-, hlogs, hfree⟩ := hb
      have hreach := Lib.Ensures.ok_iff.mp hspec
      exact took_one Lib.mem_positions_nil hreach.ne_zero hreach.at_pos hfree (by
        have hp := hreach.at_pos
        unfold Touch.logged
        dsimp only at hp ⊢
        rw [← hp]
        exact hlogs)
  · next hz =>
    simp only [if_neg hz, decide_eq_false hz, cond_false]
    exact Took.refl sb ip s

private theorem entry_took (hr : Ready sb ip s) {r : Root} {p : List Nat} {i : Nat}
    (hP : (r, i :: p) ∈ Places) (hx : pos sb ip s (r, p) ≠ 0) :
    Lib.Ensures (entry sb s (pos sb ip s (r, p)) i)
      (Short sb s (missing sb ip s [(r, i :: p)])) fun r' ↦
      Took sb ip (missing sb ip s [(r, i :: p)]) s r'.1 := by
  have hentry := pos_entry (i := i) hx
  have hspec := entry_spec hr hP hx
  have hlo := (hr.owned.owns.range _ (Lib.mem_positions_parent hP) hx).1
  unfold missing
  rw [List.filter_singleton, hentry]
  unfold entry at hspec ⊢
  dsimp only at hspec ⊢
  split at hspec
  · next hz =>
    simp only [if_pos hz, decide_eq_true hz, cond_true] at hspec ⊢
    have hb := balloc_free hr
    cases hbr : balloc sb s with
    | error e =>
      rw [hbr] at hb
      refine ⟨hb.1, ?_⟩
      rw [hb.2]
      exact Nat.zero_lt_one
    | ok r' =>
      rw [hbr] at hb hspec
      obtain ⟨-, hlogs, hfree⟩ := hb
      have hreach := Lib.Ensures.ok_iff.mp hspec
      refine took_one hP hreach.ne_zero hreach.at_pos ?_ ?_
      · rw [freeBlocks_logWrite hlo]
        exact hfree
      · have hp := hreach.at_pos
        have hpar := hreach.kept _ (Lib.mem_positions_parent hP) hx
        unfold Touch.logged
        dsimp only at hp hpar ⊢
        rw [← hp, hpar]
        exact hlogs.trans (logs_logWrite _ _)
  · next hz =>
    simp only [if_neg hz, decide_eq_false hz, cond_false]
    exact Took.refl sb ip s

/-- Walking down takes a block for each missing position on the way. -/
private theorem walk_took (hr : Ready sb ip s) {k : Fin (NDIRECT + 3)} {p : List Nat}
    (hp : (((s.icache ip).inum, k), p) ∈ Places) :
    Lib.Ensures (walk sb s ip k p)
      (Short sb s (missing sb ip s (spine ((s.icache ip).inum, k) p))) fun r ↦
      Took sb ip (missing sb ip s (spine ((s.icache ip).inum, k) p)) s r.1 := by
  induction p with
  | nil => exact root_took hr k
  | cons i p ih =>
    have hpar := Lib.mem_positions_parent hp
    have hwalk := ih hpar
    have hspec := walk_spec hr hpar
    have hsplit : missing sb ip s (spine ((s.icache ip).inum, k) (i :: p)) =
        missing sb ip s (spine ((s.icache ip).inum, k) p) ++
          missing sb ip s [(((s.icache ip).inum, k), i :: p)] := by
      simp [missing, spine]
    rw [hsplit, walk]
    cases hw : walk sb s ip k p with
    | error e =>
      rw [hw] at hwalk
      exact Short.append hwalk _
    | ok r =>
      rw [hw] at hwalk hspec
      obtain ⟨s₁, a⟩ := r
      have htook : Took sb ip _ s s₁ := hwalk
      have hreach : Reached sb ip s _ _ (s₁, a) := hspec
      have hr₁ := hreach.ready hr
      have ha : a = pos sb ip s₁ (((s.icache ip).inum, k), p) := hreach.at_pos
      have hentry := entry_took hr₁ hp (ha ▸ hreach.ne_zero)
      have hsame : missing sb ip s₁ [(((s.icache ip).inum, k), i :: p)] =
          missing sb ip s [(((s.icache ip).inum, k), i :: p)] := by
        have hiff := hreach.mapped _ hp
        have hnot : (((s.icache ip).inum, k), i :: p) ∉
            {Q : Lib.Pos Root | Q.1 = ((s.icache ip).inum, k) ∧ Q.2 <:+ p} := by
          rintro ⟨-, hsuf⟩
          have hlen := hsuf.length_le
          rw [List.length_cons] at hlen
          omega
        rw [or_iff_left hnot, not_iff_not] at hiff
        unfold missing
        rw [List.filter_singleton, List.filter_singleton, decide_eq_decide.mpr hiff]
      rw [hsame, ← ha] at hentry
      show Lib.Ensures (entry sb s₁ a i) _ _
      have hkept := entry_spec hr₁ hp (ha ▸ hreach.ne_zero)
      rw [← ha] at hkept
      apply (hentry.and hkept).mono
      · rintro r ⟨htook₁, hreach₁⟩
        exact htook.trans hreach₁.toKept htook₁
      · intro e he
        exact htook.short he

/-- What a write of the `bn`th block of inode `i` touches when the first `nb` are mapped. -/
def touches (i nb bn : Nat) : List Touch :=
  (if bn < nb then [] else (newPlaces i bn).map .take) ++ [.store (place i bn)]

/-- On the way to a block within or just past the mapped ones, its new places are missing. -/
private theorem missing_spine {nb bn : Nat} (hm : Maps sb ip s nb) (hbn : bn < MAXFILE)
    (hle : bn ≤ nb) : missing sb ip s (spine ((s.icache ip).inum, (leaf bn).1) (leaf bn).2) =
      if bn < nb then [] else (newPlaces (s.icache ip).inum bn).map .take := by
  have hplace := (isLeaf_place (s.icache ip).inum hbn).1
  have hpos : ∀ Q ∈ spine ((s.icache ip).inum, (leaf bn).1) (leaf bn).2,
      (pos sb ip s Q = 0 ↔ ¬Needed nb (leaf bn).1 Q.2) ∧ Q.2 <:+ (leaf bn).2 := by
    rintro ⟨r, q⟩ hQ
    obtain ⟨hr, hq⟩ := mem_spine.mp hQ
    dsimp only at hr hq ⊢
    subst hr
    have hmem : (((s.icache ip).inum, (leaf bn).1), q) ∈ Places :=
      ⟨hq.length_le.trans hplace.1, fun i hi ↦ hplace.2 i (hq.subset hi)⟩
    exact ⟨by rw [← hm _ _ hmem, not_not], hq⟩
  unfold missing
  split
  · next hlt =>
    rw [List.map_eq_nil_iff, List.filter_eq_nil_iff]
    intro Q hQ hz
    obtain ⟨hiff, hq⟩ := hpos Q hQ
    exact hiff.mp (of_decide_eq_true hz) ⟨bn, hlt, hbn, rfl, hq⟩
  · next hge =>
    obtain rfl : nb = bn := by omega
    have hfilter : ∀ Q ∈ spine ((s.icache ip).inum, (leaf nb).1) (leaf nb).2,
        decide (pos sb ip s Q = 0) = decide (levels (leaf nb).1 - opened nb ≤ Q.2.length) := by
      intro Q hQ
      obtain ⟨hiff, hq⟩ := hpos Q hQ
      have hneed := needed_suffix hbn hq
      apply decide_eq_decide.mpr
      rw [hiff, hneed]
      omega
    rw [List.filter_congr hfilter, filter_spine]
    rfl

/-- `bmap` takes the new places of a block past the mapped ones. -/
theorem bmap_took {nb bn : Nat} (hr : Ready sb ip s) (hm : Maps sb ip s nb) (hbn : bn < MAXFILE)
    (hle : bn ≤ nb) :
    Lib.Ensures (bmap sb s ip bn)
      (Short sb s (touches (s.icache ip).inum nb bn)) fun r ↦
      Took sb ip (if bn < nb then [] else (newPlaces (s.icache ip).inum bn).map .take) s r.1 := by
  rw [bmap_eq_walk hbn]
  have hwalk := walk_took hr (isLeaf_place (s.icache ip).inum hbn).1
  rw [missing_spine hm hbn hle] at hwalk
  exact hwalk.mono (fun _ h ↦ h) fun e he ↦ he.append _

/-- Storing into a data block logs it, and takes nothing. -/
private theorem store_took (hr : Ready sb ip s) {P : Lib.Pos Root} (hP : IsLeaf P)
    (hz : pos sb ip s P ≠ 0) (data : Block) :
    Took sb ip [.store P] s (logWrite s (pos sb ip s P) data) := by
  have hlo := (hr.owned.owns.range P hP.1 hz).1
  obtain ⟨-, hpos, -⟩ := @store_spec sb ip s _ hr P hP hz data rfl
  constructor
  · rw [freeBlocks_logWrite hlo]
    rfl
  · show Logs s _ [pos sb ip _ P]
    rw [hpos P hP.1]
    exact logs_logWrite _ _
  · intro e he
    rw [List.mem_singleton.mp he]
    refine ⟨hP.1, ?_⟩
    show pos sb ip _ P ≠ 0
    rwa [hpos P hP.1]

/-- The number of blocks that hold a part of the `k` bytes from `off` on. -/
def spanned (off k : Nat) : Nat :=
  if k = 0 then 0 else (off + k - 1) / BSIZE + 1 - off / BSIZE

/-- What a write of `k` bytes from `off` on touches when the first `nb` blocks are mapped. -/
def chunk (i nb off k : Nat) : List Touch :=
  (List.range' (off / BSIZE) (spanned off k)).flatMap (touches i nb)

/-- The blocks of a write are the first one and those of the rest. -/
private theorem chunk_split {i nb off m k : Nat} (hm : m = min k (BSIZE - off % BSIZE)) (hk : 0 < k) :
    chunk i nb off k = touches i nb (off / BSIZE) ++
      chunk i (max nb (off / BSIZE + 1)) (off + m) (k - m) := by
  have hB : BSIZE = 512 := rfl
  rw [hB] at hm
  have hspan : spanned off k = spanned (off + m) (k - m) + 1 := by
    unfold spanned
    rw [hB, if_neg (by omega)]
    split <;> omega
  have hnext : 0 < spanned (off + m) (k - m) → (off + m) / BSIZE = off / BSIZE + 1 := by
    unfold spanned
    rw [hB]
    split
    · exact fun h ↦ absurd h (lt_irrefl 0)
    · intro _
      omega
  have hlater : ∀ bn, off / BSIZE < bn → touches i (max nb (off / BSIZE + 1)) bn =
      touches i nb bn := by
    intro bn hbn
    have hiff : bn < max nb (off / BSIZE + 1) ↔ bn < nb := by omega
    unfold touches
    simp only [hiff]
  unfold chunk
  rw [hspan, List.range'_succ, List.flatMap_cons]
  congr 1
  rcases Nat.eq_zero_or_pos (spanned (off + m) (k - m)) with h0 | h0
  · rw [h0]
    rfl
  · rw [hnext h0]
    apply List.flatMap_congr
    intro bn hbn
    exact (hlater bn (List.mem_range'_1.mp hbn).1).symm

/-- One round of the loop of `writei` takes the new places of its block and stores into it. -/
private theorem round_took (hr : Ready sb ip s) (src : Nat → UInt8) {off m nb : Nat}
    (hm : Maps sb ip s nb) (hoff : off / BSIZE ≤ nb) (hbn : off / BSIZE < MAXFILE) :
    Lib.Ensures (bmap sb s ip (off / BSIZE))
      (Short sb s (touches (s.icache ip).inum nb (off / BSIZE))) fun r ↦
      Took sb ip (touches (s.icache ip).inum nb (off / BSIZE)) s
        (logWrite r.1 r.2 ((r.1.blocks r.2).splice (off % BSIZE) m src)) := by
  apply ((bmap_took hr hm hbn hoff).and (bmap_spec hr hm hbn hoff)).imp
  rintro ⟨s₁, a⟩ ⟨htook, hk, -, -, -, ha, hz⟩
  dsimp only at htook hk ha hz ⊢
  subst ha
  have hleaf := isLeaf_place (s.icache ip).inum hbn
  obtain ⟨hk₂, -, -⟩ := store_spec (hk.ready hr) hleaf hz rfl
  exact htook.trans hk₂ (store_took (hk.ready hr) hleaf hz _)

/-- The loop of `writei` touches the blocks of its range in order. -/
theorem writeLoop_took (src : Nat → UInt8) {n : Nat} (k : Nat) {off : Nat} (tot : Nat)
    {nb : Nat} (hk : n - tot = k) (hr : Ready sb ip s) (hm : Maps sb ip s nb)
    (hoff : off ≤ nb * BSIZE) (hmax : off + k ≤ MAXFILE * BSIZE) :
    Lib.Ensures (writeLoop sb s ip src off tot n) (Short sb s (chunk (s.icache ip).inum nb off k))
      fun r ↦ Took sb ip (chunk (s.icache ip).inum nb off k) s r.1 := by
  induction k using Nat.strong_induction_on generalizing s off tot nb with
  | h k ih =>
    unfold writeLoop
    split
    · next hlt =>
      have hmod : off % BSIZE < BSIZE := Nat.mod_lt _ (by decide)
      have hdiv : off / BSIZE < MAXFILE := by
        apply Nat.div_lt_of_lt_mul
        rw [Nat.mul_comm]
        omega
      obtain ⟨m, hmin⟩ : ∃ m, m = min (n - tot) (BSIZE - off % BSIZE) := ⟨_, rfl⟩
      have hchunk : off % BSIZE + m ≤ BSIZE := by omega
      have hle : off / BSIZE ≤ nb := Nat.div_le_of_le_mul (by rwa [Nat.mul_comm] at hoff)
      rw [chunk_split (hk ▸ hmin) (by omega), ← hmin]
      have hround := round_took (m := m) hr (fun j ↦ src (tot + j)) hm hle hdiv
      have hwrote := round_spec hr (fun j ↦ src (tot + j)) hm hle hdiv hchunk
      cases hb : bmap sb s ip (off / BSIZE) with
      | error e =>
        rw [hb] at hround
        exact Short.append hround _
      | ok r =>
        rw [hb] at hround hwrote
        obtain ⟨s₁, a⟩ := r
        have htook := Lib.Ensures.ok_iff.mp hround
        have hw := Lib.Ensures.ok_iff.mp hwrote
        dsimp only at htook hw
        have hend : off + m ≤ max nb (off / BSIZE + 1) * BSIZE := by
          have h1 := Nat.div_add_mod off BSIZE
          have h2 : (off / BSIZE + 1) * BSIZE ≤ max nb (off / BSIZE + 1) * BSIZE :=
            Nat.mul_le_mul_right _ (Nat.le_max_right _ _)
          rw [Nat.add_mul, Nat.one_mul, Nat.mul_comm] at h2
          omega
        have hr₁ := hw.ready hr
        have hrest := ih (k - m) (by omega) (tot + m) (by omega) hr₁ hw.maps hend (by omega)
        have hspec := writeLoop_spec (n := n) src (k - m) (tot + m) (by omega) hr₁ hw.maps hend
          (by omega)
        rw [hw.inum_eq] at hrest
        apply (hrest.and hspec).mono
        · rintro r ⟨htook', -, hw'⟩
          exact htook.trans hw'.toKept htook'
        · exact fun e he ↦ htook.short he
    · next hge =>
      have hk0 : k = 0 := by omega
      subst hk0
      exact Took.refl sb ip s

end Walk

/-! ### Growth -/

section Growth

variable {sb : Superblock} {ip : Slot} {s t : State} {i nb nb' nb'' off k : Nat}

/-- Growing twice is growing once. -/
theorem growth_append (h : nb ≤ nb') (h' : nb' ≤ nb'') :
    growth i nb nb' ++ growth i nb' nb'' = growth i nb nb'' := by
  have hsplit : List.range' nb (nb'' - nb) =
      List.range' nb (nb' - nb) ++ List.range' nb' (nb'' - nb') := by
    rw [show nb'' - nb = nb' - nb + (nb'' - nb') by omega, ← List.range'_append_1,
      Nat.add_sub_cancel' h]
  unfold growth
  rw [hsplit, List.flatMap_append]

private theorem taken_touches (i nb bn : Nat) :
    taken (touches i nb bn) = if bn < nb then [] else newPlaces i bn := by
  unfold touches
  rw [taken_append]
  split
  · rfl
  · rw [taken_map_take]
    exact List.append_nil _

private theorem taken_range {a : Nat} (h : a ≤ nb) (c : Nat) :
    taken ((List.range' a c).flatMap (touches i nb)) = growth i nb (max nb (a + c)) := by
  induction c with
  | zero =>
    have hmax : max nb (a + 0) - nb = 0 := by omega
    rw [growth, hmax]
    rfl
  | succ c ih =>
    rw [List.range'_1_concat, List.flatMap_append, taken_append, ih, List.flatMap_singleton,
      taken_touches]
    split
    · rw [List.append_nil, Nat.max_eq_left (by omega), Nat.max_eq_left (by omega)]
    · have hlast : growth i (a + c) (a + (c + 1)) = newPlaces i (a + c) := by
        rw [growth, show a + (c + 1) - (a + c) = 1 by omega, List.range'_one,
          List.flatMap_singleton]
      rw [Nat.max_eq_right (by omega), Nat.max_eq_right (by omega), ← hlast]
      exact growth_append (by omega) (by omega)

/-- The end of a write, in blocks. -/
theorem spanned_end (h : off ≤ nb * BSIZE) :
    max nb (off / BSIZE + spanned off k) = max nb (blocksFor (off + k)) := by
  have hB : BSIZE = 512 := rfl
  unfold spanned blocksFor
  rw [hB] at h ⊢
  split <;> omega

/-- A write takes the blocks by which the file grows. -/
theorem taken_chunk (h : off ≤ nb * BSIZE) :
    taken (chunk i nb off k) = growth i nb (max nb (blocksFor (off + k))) := by
  have hle : off / BSIZE ≤ nb := Nat.div_le_of_le_mul (by rwa [Nat.mul_comm] at h)
  rw [chunk, taken_range hle, spanned_end h]

/-- What `writei` of a regular file takes and logs: the chunk, and the inode if the file grows. -/
theorem writei_took {off n : UInt32} (h : Consistent sb s) (hip : Held s ip) (dev : Devsw)
    (ht : (s.icache ip).type ≠ T_DEV) (src : Nat → UInt8)
    (hf : ¬WriteFails (s.icache ip).size off.toNat n.toNat) :
    Lib.Ensures (writei sb dev s ip src off n)
      (Short sb s (chunk (s.icache ip).inum (blocksFor (s.icache ip).size) off.toNat n.toNat))
      fun r ↦ ∃ s₁, Settled sb ip s s₁ r.1 ∧
        Took sb ip (chunk (s.icache ip).inum (blocksFor (s.icache ip).size) off.toNat n.toNat)
          s s₁ ∧
        freeBlocks sb r.1.blocks = freeBlocks sb s₁.blocks ∧
        Logs s₁ r.1 (if (s.icache ip).size < off.toNat + n.toNat then
          [sb.IBLOCK (s.icache ip).inum] else []) ∧
        ∃ addrs, r.1.icache ip = { s.icache ip with
          size := max (s.icache ip).size (off.toNat + n.toNat), addrs } := by
  obtain ⟨hoff, hwrap, hmax⟩ : off.toNat ≤ (s.icache ip).size ∧
      ¬2 ^ 32 ≤ off.toNat + n.toNat ∧ off.toNat + n.toNat ≤ MAXFILE * BSIZE := by
    unfold WriteFails at hf
    omega
  have hlen := Nat.le_trans hoff (le_blocksFor (s.icache ip).size)
  have htook := writeLoop_took (n := n.toNat) src n.toNat 0 (Nat.sub_zero _) (h.ready hip)
    (h.maps hip) hlen hmax
  have hspec := writeLoop_spec (n := n.toNat) src n.toNat 0 (Nat.sub_zero _) (h.ready hip)
    (h.maps hip) hlen hmax
  cases hloop : writeLoop sb s ip src off.toNat 0 n.toNat with
  | error e =>
    rw [hloop] at htook
    have hw := writei_error dev ht src hf hloop
    rw [hw]
    exact htook
  | ok r =>
    rw [hloop] at htook hspec
    obtain ⟨s₁, e⟩ := r
    obtain ⟨he, hwrote⟩ := Lib.Ensures.ok_iff.mp hspec
    dsimp only at he hwrote
    obtain ⟨addrs, ha⟩ := hwrote.self
    have hinum : (s₁.icache ip).inum = (s.icache ip).inum := hwrote.inum_eq
    rw [writei_of_loop dev ht src hf hloop, he, hwrote.size_eq]
    by_cases hgrow : (s.icache ip).size < off.toNat + n.toNat
    · have hnb := Nat.max_eq_right (blocksFor_mono hgrow.le)
      rw [hnb] at hwrote
      rw [if_pos ⟨by omega, hgrow⟩]
      refine ⟨s₁, (settled_grown h hip hwrote hmax rfl).1, htook, ?_, ?_, addrs, ?_⟩
      · apply freeBlocks_congr
        intro b hb
        apply used_congr _ hb
        intro x hx _
        rw [blocks_iupdate _ hx, blocks_setInode]
        rw [icache_setInode_self, hinum]
        exact h.cache.inum ip hip.1
      · rw [if_pos hgrow, ← hinum]
        have hlog := @logs_iupdate sb
          (setInode s₁ ip { s₁.icache ip with size := off.toNat + n.toNat }) ip
        rw [icache_setInode_self] at hlog
        exact hlog
      · rw [icache_iupdate, icache_setInode_self, ha, Nat.max_eq_right hgrow.le]
    · have hnb := Nat.max_eq_left (blocksFor_mono (Nat.le_of_not_lt hgrow))
      rw [hnb] at hwrote
      rw [if_neg fun hc ↦ hgrow hc.2]
      refine ⟨s₁, settled_same h hip hwrote, htook, rfl, ?_, addrs, ?_⟩
      · rw [if_neg hgrow]
        exact Logs.refl s₁
      · dsimp only
        rw [ha, Nat.max_eq_left (Nat.le_of_not_lt hgrow)]

/-- With enough free blocks a write goes through. -/
theorem writei_ok {off n : UInt32} (h : Consistent sb s) (hip : Held s ip) (dev : Devsw)
    (ht : (s.icache ip).type ≠ T_DEV) (src : Nat → UInt8)
    (hf : ¬WriteFails (s.icache ip).size off.toNat n.toNat)
    (hroom : (growth (s.icache ip).inum (blocksFor (s.icache ip).size)
      (max (blocksFor (s.icache ip).size) (blocksFor (off.toNat + n.toNat)))).length ≤
      (freeBlocks sb s.blocks).length) :
    ∃ t, writei sb dev s ip src off n = .ok (t, some n.toNat) := by
  have hoff : off.toNat ≤ (s.icache ip).size := by
    unfold WriteFails at hf
    omega
  have htook := writei_took h hip dev ht src hf
  have hspec := writei_spec h hip dev ht src hf
  cases hw : writei sb dev s ip src off n with
  | error e =>
    rw [hw] at htook
    obtain ⟨-, hshort⟩ := htook
    rw [taken_chunk (hoff.trans (le_blocksFor _))] at hshort
    omega
  | ok r =>
    rw [hw] at hspec
    obtain ⟨t, r⟩ := r
    have hr : r = some n.toNat := hspec.1
    exact ⟨t, by rw [hr]⟩

end Growth

end Xv6.Fs
