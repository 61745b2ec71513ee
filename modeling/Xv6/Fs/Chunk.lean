import Xv6.Fs.Demand
import Xv6.Fs.Mkfs

/-!
# How many blocks a chunk logs

The transaction of one chunk of a write logs its data blocks, the indirect blocks it opens or
enters blocks in, the free map for each block it takes, and the inode.
-/

namespace Xv6.Fs

open Function

/-! ### Counting the log -/

/-- The positions whose blocks are logged: the touched one, and the one above a new block. -/
def Touch.places : Touch → List (Lib.Pos Root)
  | take (r, []) => [(r, [])]
  | take (r, i :: p) => [(r, i :: p), (r, p)]
  | store P => [P]

section Count

variable {sb : Superblock} {ip : Slot} {s t : State} {l : List Touch} {b : Nat}

private theorem Touch.mem_logged {e : Touch} : b ∈ e.logged sb ip t ↔
    (∃ P, e = .take P ∧ b = sb.BBLOCK (pos sb ip t P)) ∨ ∃ P ∈ e.places, b = pos sb ip t P := by
  match e with
  | .take (r, []) => simp [Touch.logged, Touch.places]
  | .take (r, i :: p) => simp [Touch.logged, Touch.places]
  | .store P => simp [Touch.logged, Touch.places]

/-- The positions that are logged are mapped. -/
private theorem Took.mapped_places (h : Took sb ip l s t) {P : Lib.Pos Root}
    (hP : P ∈ l.flatMap Touch.places) : P ∈ Places ∧ pos sb ip t P ≠ 0 := by
  obtain ⟨e, he, hPe⟩ := List.mem_flatMap.mp hP
  obtain ⟨hplace, hz⟩ := h.mapped e he
  match e with
  | .take (r, []) =>
    rw [List.mem_singleton.mp hPe]
    exact ⟨hplace, hz⟩
  | .take (r, i :: p) =>
    rcases List.mem_cons.mp hPe with rfl | hPe
    · exact ⟨hplace, hz⟩
    · rw [List.mem_singleton.mp hPe]
      exact ⟨Lib.mem_positions_parent hplace, pos_parent_ne_zero hz⟩
  | .store Q =>
    rw [List.mem_singleton.mp hPe]
    exact ⟨hplace, hz⟩

/-- The logged blocks are blocks of the free map and blocks of the logged positions. -/
theorem Took.card (h : Took sb ip l s t) (hr : Ready sb ip t) :
    (l.flatMap (Touch.logged sb ip t)).toFinset.card =
      (((freeBlocks sb s.blocks).take (taken l).length).map sb.BBLOCK).toFinset.card +
        (l.flatMap Touch.places).toFinset.card := by
  have hown := hr.owned.owns
  have htake : (freeBlocks sb s.blocks).take (taken l).length = (taken l).map (pos sb ip t) := by
    rw [h.free, ← List.length_map (pos sb ip t), List.take_left]
  have hinj : Set.InjOn (pos sb ip t) ↑(l.flatMap Touch.places).toFinset := by
    intro P hP Q hQ he
    obtain ⟨hP, hz⟩ := h.mapped_places (List.mem_toFinset.mp hP)
    obtain ⟨hQ, -⟩ := h.mapped_places (List.mem_toFinset.mp hQ)
    exact hown.sep P hP Q hQ he hz
  have hunion : (l.flatMap (Touch.logged sb ip t)).toFinset =
      (((taken l).map (pos sb ip t)).map sb.BBLOCK).toFinset ∪
        (l.flatMap Touch.places).toFinset.image (pos sb ip t) := by
    ext b
    rw [Finset.mem_union, List.mem_toFinset, List.mem_toFinset, Finset.mem_image, List.mem_flatMap,
      List.mem_map]
    constructor
    · rintro ⟨e, he, hb⟩
      rcases Touch.mem_logged.mp hb with ⟨P, rfl, rfl⟩ | ⟨P, hP, rfl⟩
      · exact Or.inl ⟨_, List.mem_map_of_mem (mem_taken.mpr he), rfl⟩
      · exact Or.inr ⟨P, List.mem_toFinset.mpr (List.mem_flatMap.mpr ⟨e, he, hP⟩), rfl⟩
    · rintro (⟨x, hx, rfl⟩ | ⟨P, hP, rfl⟩)
      · obtain ⟨P, hP, rfl⟩ := List.mem_map.mp hx
        exact ⟨_, mem_taken.mp hP, Touch.mem_logged.mpr (Or.inl ⟨P, rfl, rfl⟩)⟩
      · obtain ⟨e, he, hPe⟩ := List.mem_flatMap.mp (List.mem_toFinset.mp hP)
        exact ⟨e, he, Touch.mem_logged.mpr (Or.inr ⟨P, hPe, rfl⟩)⟩
  have hdisj : Disjoint (((taken l).map (pos sb ip t)).map sb.BBLOCK).toFinset
      ((l.flatMap Touch.places).toFinset.image (pos sb ip t)) := by
    rw [Finset.disjoint_left]
    intro b hb hb'
    obtain ⟨x, hx, rfl⟩ := List.mem_map.mp (List.mem_toFinset.mp hb)
    obtain ⟨P, hP, rfl⟩ := List.mem_map.mp hx
    obtain ⟨Q, hQ, he⟩ := Finset.mem_image.mp hb'
    obtain ⟨hQ, hz⟩ := h.mapped_places (List.mem_toFinset.mp hQ)
    obtain ⟨hP, hzP⟩ := h.mapped _ (mem_taken.mp hP)
    have hlt : sb.BBLOCK (pos sb ip t P) < sb.nmeta := sb.BBLOCK_lt (hown.range P hP hzP).2
    have hle : sb.nmeta ≤ pos sb ip t Q := (hown.range Q hQ hz).1
    omega
  rw [hunion, Finset.card_union_of_disjoint hdisj, Finset.card_image_of_injOn hinj, htake]

/-- No inode block is among them. -/
theorem Took.bmapstart_le (h : Took sb ip l s t) (hr : Ready sb ip t)
    (hb : b ∈ l.flatMap (Touch.logged sb ip t)) : sb.bmapstart ≤ b := by
  have hmap := sb.bmapstart_lt
  obtain ⟨e, he, hb⟩ := List.mem_flatMap.mp hb
  rcases Touch.mem_logged.mp hb with ⟨P, rfl, rfl⟩ | ⟨P, hP, rfl⟩
  · exact sb.le_BBLOCK _
  · obtain ⟨hplace, hz⟩ := h.mapped_places (List.mem_flatMap.mpr ⟨e, he, hP⟩)
    have hlo : sb.nmeta ≤ pos sb ip t P := (hr.owned.owns.range P hplace hz).1
    omega

end Count

/-! ### Boundaries -/

/-- The first block of the triple indirect region. -/
def firstTriple : Nat := NDIRECT + NINDIRECT + NDINDIRECT

section Boundary

variable {i nb bn bn' m : Nat}

/-- Indirect blocks are opened at every 128th block past the direct ones. -/
theorem opened_ne_zero : opened bn ≠ 0 ↔ NDIRECT ≤ bn ∧ (bn - NDIRECT) % NINDIRECT = 0 := by
  have hN : NINDIRECT = 128 := rfl
  have hD : NDINDIRECT = 16384 := rfl
  unfold opened
  rw [hN, hD]
  dsimp only
  split_ifs <;> omega

/-- What a boundary opens, and what it logs for that. -/
theorem opened_le (bn : Nat) : opened bn ≤ levels (leaf bn).1 ∧
    opened bn + min (opened bn + 1) (levels (leaf bn).1) ≤ if bn = firstTriple then 6 else 5 := by
  have hN : NINDIRECT = 128 := rfl
  have hD : NDINDIRECT = 16384 := rfl
  have hM : firstTriple = NDIRECT + 128 + 16384 := rfl
  unfold levels opened
  rw [leaf_fst, hN, hD, hM]
  dsimp only
  split_ifs <;> omega

theorem length_newPlaces (h : bn < MAXFILE) : (newPlaces i bn).length = opened bn + 1 := by
  have hle := (opened_le bn).1
  rw [newPlaces, List.length_drop, length_spine, (leaf_valid h).1]
  omega

/-- A file that opens no indirect block takes as many blocks as it grows. -/
theorem length_growth_zero (hm : nb + m ≤ MAXFILE)
    (h : ∀ bn, nb ≤ bn → bn < nb + m → opened bn = 0) :
    (growth i nb (nb + m)).length = m := by
  induction m with
  | zero =>
    rw [growth, Nat.add_zero, Nat.sub_self]
    rfl
  | succ m ih =>
    have hlast : (growth i (nb + m) (nb + (m + 1))).length = 1 := by
      rw [growth, show nb + (m + 1) - (nb + m) = 1 by omega, List.range'_one,
        List.flatMap_singleton, length_newPlaces (by omega), h _ (by omega) (by omega)]
    have hfirst := ih (by omega) fun bn h1 h2 ↦ h bn h1 (by omega)
    have happend := growth_append (i := i) (Nat.le_add_right nb m)
      (show nb + m ≤ nb + (m + 1) by omega)
    rw [← happend, List.length_append, hfirst, hlast]

/-- With one boundary in between it takes the indirect blocks of that in addition. -/
theorem length_growth_one (hm : nb + m ≤ MAXFILE) (h1 : nb ≤ bn) (h2 : bn < nb + m)
    (h : ∀ bn', nb ≤ bn' → bn' < nb + m → bn' ≠ bn → opened bn' = 0) :
    (growth i nb (nb + m)).length = m + opened bn := by
  obtain ⟨x, rfl⟩ : ∃ x, bn = nb + x := ⟨bn - nb, by omega⟩
  obtain ⟨y, rfl⟩ : ∃ y, m = x + 1 + y := ⟨m - x - 1, by omega⟩
  have hbefore : (growth i nb (nb + x)).length = x :=
    length_growth_zero (by omega) fun bn' h1 h2 ↦ h bn' h1 (by omega) (by omega)
  have hat : (growth i (nb + x) (nb + x + 1)).length = opened (nb + x) + 1 := by
    rw [growth, show nb + x + 1 - (nb + x) = 1 by omega, List.range'_one,
      List.flatMap_singleton, length_newPlaces (by omega)]
  have hafter : (growth i (nb + x + 1) (nb + x + 1 + y)).length = y :=
    length_growth_zero (by omega) fun bn' h1 h2 ↦ h bn' (by omega) (by omega) (by omega)
  have happend := growth_append (i := i) (Nat.le_add_right nb x) (Nat.le_succ (nb + x))
  have happend' := growth_append (i := i) (show nb ≤ nb + x + 1 by omega)
    (Nat.le_add_right (nb + x + 1) y)
  rw [show nb + (x + 1 + y) = nb + x + 1 + y by omega, ← happend', ← happend]
  simp only [List.length_append]
  rw [hbefore, hat, hafter]
  omega

/-- The indirect block in which the `bn`th block is entered, if it is in one. -/
def above (i bn : Nat) : List (Lib.Pos Root) :=
  match (leaf bn).2 with
  | [] => []
  | _ :: p => [((i, (leaf bn).1), p)]

/-- The indirect blocks that are logged when the `bn`th block is taken. -/
def ancestors (i bn : Nat) : List (Lib.Pos Root) :=
  ((List.range (levels (leaf bn).1)).drop (levels (leaf bn).1 - opened bn - 1)).map fun j ↦
    ((i, (leaf bn).1), (leaf bn).2.drop (levels (leaf bn).1 - j))

private theorem length_above : (above i bn).length ≤ 1 := by
  unfold above
  split
  · exact Nat.zero_le 1
  · exact Nat.le_refl 1

private theorem length_ancestors :
    (ancestors i bn).length = min (opened bn + 1) (levels (leaf bn).1) := by
  rw [ancestors, List.length_map, List.length_drop, List.length_range]
  omega

private theorem mem_ancestors (h : bn < MAXFILE) {q : List Nat} (hq : q <:+ (leaf bn).2)
    (hlo : levels (leaf bn).1 - opened bn - 1 ≤ q.length) (hhi : q.length < levels (leaf bn).1) :
    ((i, (leaf bn).1), q) ∈ ancestors i bn := by
  have hlen := (leaf_valid h).1
  have hdrop := List.suffix_iff_eq_drop.mp hq
  refine List.mem_map.mpr ⟨q.length, ?_, ?_⟩
  · rw [List.mem_drop_iff_getElem]
    refine ⟨q.length - (levels (leaf bn).1 - opened bn - 1), ?_, ?_⟩
    · rw [List.length_range]
      omega
    · rw [List.getElem_range]
      omega
  · rw [← hlen, ← hdrop]

private theorem above_subset (h : bn < MAXFILE) : above i bn ⊆ ancestors i bn := by
  have hlen := (leaf_valid h).1
  intro P hP
  unfold above at hP
  split at hP
  · cases hP
  · next j p hleaf =>
    rw [List.mem_singleton.mp hP]
    rw [hleaf, List.length_cons] at hlen
    apply mem_ancestors h
    · rw [hleaf]
      exact List.suffix_cons j p
    · omega
    · omega

private theorem ancestors_eq (h : bn < MAXFILE) (h0 : opened bn = 0) :
    ancestors i bn = above i bn := by
  have hlen := (leaf_valid h).1
  unfold ancestors above
  rw [h0, Nat.sub_zero]
  split
  · next hleaf =>
    rw [← hlen, hleaf]
    rfl
  · next j p hleaf =>
    rw [← hlen, hleaf, List.length_cons, List.range_succ, Nat.add_sub_cancel, List.drop_left']
    · simp
    · exact List.length_range

/-- Neighbours with no boundary in between are entered in the same block. -/
private theorem above_pred (h : bn + 1 < MAXFILE) (h0 : opened (bn + 1) = 0) :
    above i (bn + 1) = above i bn := by
  have hN : NINDIRECT = 128 := rfl
  have hD : NDINDIRECT = 16384 := rfl
  have hno : ¬(NDIRECT ≤ bn + 1 ∧ (bn + 1 - NDIRECT) % NINDIRECT = 0) :=
    mt opened_ne_zero.mpr (not_not.mpr h0)
  rw [hN] at hno
  unfold above
  rcases region_cases h with h0 | ⟨h0, h1⟩ | ⟨h0, h1, h2⟩ | ⟨h0, h1, h2, h3⟩
  · rw [leaf_direct h0, leaf_direct (by omega)]
  · rw [leaf_single h0 h1, leaf_single (by omega) (by omega)]
  · rw [leaf_double h0 h1 h2, leaf_double (by omega) (by omega) (by omega), hN]
    have hdiv : (bn + 1 - NDIRECT - 128) / 128 = (bn - NDIRECT - 128) / 128 := by omega
    dsimp only
    rw [hdiv]
  · rw [leaf_triple h0 h1 h2, leaf_triple (by omega) (by omega) (by omega), hN, hD]
    have hdiv : (bn + 1 - NDIRECT - 128 - 16384) % 16384 / 128 =
        (bn - NDIRECT - 128 - 16384) % 16384 / 128 := by omega
    have hdiv' : (bn + 1 - NDIRECT - 128 - 16384) / 16384 =
        (bn - NDIRECT - 128 - 16384) / 16384 := by omega
    dsimp only
    rw [hdiv, hdiv']

private theorem above_eq (hle : nb ≤ bn) (h : bn < MAXFILE)
    (h0 : ∀ bn', nb < bn' → bn' ≤ bn → opened bn' = 0) : above i bn = above i nb := by
  induction bn, hle using Nat.le_induction with
  | base => rfl
  | succ bn hle ih =>
    rw [above_pred h (h0 _ (by omega) (Nat.le_refl _))]
    exact ih (by omega) fun bn' h1 h2 ↦ h0 bn' h1 (by omega)

/-- A chunk logs its own blocks and indirect blocks of the ones that it takes. -/
private theorem places_subset {a c : Nat} {A : List (Lib.Pos Root)} (hmax : a + c ≤ MAXFILE)
    (hA : ∀ bn, nb ≤ bn → bn < a + c → ancestors i bn ⊆ A) :
    ((List.range' a c).flatMap (touches i nb)).flatMap Touch.places ⊆
      (List.range' a c).map (place i) ++ A := by
  intro P hP
  obtain ⟨e, he, hPe⟩ := List.mem_flatMap.mp hP
  obtain ⟨bn, hbn, he⟩ := List.mem_flatMap.mp he
  have hlt : bn < a + c := (List.mem_range'_1.mp hbn).2
  have hleaf := leaf_valid (show bn < MAXFILE by omega)
  rcases List.mem_append.mp he with he | he
  · split at he
    · cases he
    · next hge =>
      have hanc := hA bn (by omega) hlt
      obtain ⟨⟨r, q⟩, hQ, rfl⟩ := List.mem_map.mp he
      obtain ⟨hr, hq, hlen⟩ := mem_newPlaces.mp hQ
      dsimp only at hr hq hlen
      subst hr
      have hself : ((i, (leaf bn).1), q) ∈ (List.range' a c).map (place i) ++ A := by
        rcases Nat.lt_or_ge q.length (levels (leaf bn).1) with hshort | hfull
        · exact List.mem_append_right _
            (hanc (mem_ancestors (by omega) hq (by omega) hshort))
        · have hall : q = (leaf bn).2 :=
            hq.eq_of_length (Nat.le_antisymm hq.length_le (by rw [hleaf.1]; exact hfull))
          exact List.mem_append_left _ (List.mem_map.mpr ⟨bn, hbn, by rw [hall, place]⟩)
      cases q with
      | nil =>
        rw [List.mem_singleton.mp hPe]
        exact hself
      | cons x p =>
        rcases List.mem_cons.mp hPe with rfl | hPe
        · exact hself
        · rw [List.mem_singleton.mp hPe]
          have hp : p <:+ (leaf bn).2 := (List.suffix_cons x p).trans hq
          have hle := hq.length_le
          rw [hleaf.1, List.length_cons] at hle
          rw [List.length_cons] at hlen
          exact List.mem_append_right _ (hanc (mem_ancestors (by omega) hp (by omega) (by omega)))
  · rw [List.mem_singleton.mp he] at hPe
    rw [List.mem_singleton.mp hPe]
    exact List.mem_append_left _ (List.mem_map_of_mem hbn)

private theorem card_places_le {a c : Nat} {A : List (Lib.Pos Root)} (hmax : a + c ≤ MAXFILE)
    (hA : ∀ bn, nb ≤ bn → bn < a + c → ancestors i bn ⊆ A) :
    (((List.range' a c).flatMap (touches i nb)).flatMap Touch.places).toFinset.card ≤
      c + A.length := by
  have hsub : (((List.range' a c).flatMap (touches i nb)).flatMap Touch.places).toFinset ⊆
      ((List.range' a c).map (place i) ++ A).toFinset := by
    intro P hP
    exact List.mem_toFinset.mpr (places_subset hmax hA (List.mem_toFinset.mp hP))
  have hlen := List.toFinset_card_le ((List.range' a c).map (place i) ++ A)
  rw [List.length_append, List.length_map, List.length_range'] at hlen
  exact (Finset.card_le_card hsub).trans hlen

/-- With no boundary a chunk enters its new blocks in one indirect block. -/
theorem card_places_zero {a c : Nat} (hmax : a + c ≤ MAXFILE)
    (h : ∀ bn, nb ≤ bn → bn < a + c → opened bn = 0) :
    (((List.range' a c).flatMap (touches i nb)).flatMap Touch.places).toFinset.card ≤ c + 1 := by
  have hA : ∀ bn, nb ≤ bn → bn < a + c → ancestors i bn ⊆ above i nb := by
    intro bn h1 h2
    rw [ancestors_eq (by omega) (h bn h1 h2), above_eq h1 (by omega) fun bn' h3 h4 ↦
      h bn' (by omega) (by omega)]
    exact List.Subset.refl _
  have hcard := card_places_le hmax hA
  have hlen := @length_above i nb
  omega

/-- With one boundary it enters those from there on in the blocks that are opened. -/
theorem card_places_one {a c : Nat} (hmax : a + c ≤ MAXFILE) (h1 : nb ≤ bn)
    (h2 : bn < a + c) (h : ∀ bn', nb ≤ bn' → bn' < a + c → bn' ≠ bn → opened bn' = 0) :
    (((List.range' a c).flatMap (touches i nb)).flatMap Touch.places).toFinset.card ≤
      c + ((if nb < bn then 1 else 0) + min (opened bn + 1) (levels (leaf bn).1)) := by
  have hA : ∀ bn', nb ≤ bn' → bn' < a + c →
      ancestors i bn' ⊆ (if nb < bn then above i nb else []) ++ ancestors i bn := by
    intro bn' h3 h4
    rcases Nat.lt_trichotomy bn' bn with hlt | heq | hgt
    · rw [if_pos (by omega), ancestors_eq (by omega) (h bn' h3 h4 (by omega)),
        above_eq h3 (by omega) fun bn'' h5 h6 ↦ h bn'' (by omega) (by omega) (by omega)]
      exact List.subset_append_left _ _
    · rw [heq]
      exact List.subset_append_right _ _
    · rw [ancestors_eq (by omega) (h bn' h3 h4 (by omega)),
        above_eq hgt.le (by omega) fun bn'' h5 h6 ↦ h bn'' (by omega) (by omega) (by omega)]
      exact fun P hP ↦ List.mem_append_right _ (above_subset (show bn < MAXFILE by omega) hP)
  have hcard := card_places_le hmax hA
  have hlen := @length_above i nb
  rw [List.length_append, length_ancestors] at hcard
  split_ifs at hcard ⊢ with hlt
  · omega
  · rw [List.length_nil] at hcard
    omega

end Boundary

end Xv6.Fs
