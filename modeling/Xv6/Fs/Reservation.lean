import Xv6.Fs.Chunk
import Xv6.Fs.FileIo
import Xv6.Fs.Fresh

/-!
# A write chunk and its reservation

The transaction that writes one chunk of a file stays within `MAXOPBLOCKS` blocks, except for one
kind of chunk.
-/

namespace Xv6.Fs

open Function

/-! ### The transaction of a chunk -/

section

variable {sb : Superblock} {dev : Devsw} {s t : State} {ip : Slot} {off n : UInt32}

/-- The number of blocks of the free map that hold the first `m` free blocks. -/
def bitmaps (sb : Superblock) (s : State) (m : Nat) : Nat :=
  (((freeBlocks sb s.blocks).take m).map sb.BBLOCK).toFinset.card

private theorem bitmaps_le (s : State) (m : Nat) : bitmaps sb s m ≤ m := by
  unfold bitmaps
  have hlen := List.toFinset_card_le (((freeBlocks sb s.blocks).take m).map sb.BBLOCK)
  rw [List.length_map, List.length_take] at hlen
  omega

/-- The log after a chunk has been written: the inode if the file has grown, blocks of the free
map, and blocks of the logged positions. -/
private theorem length_lh (h : Consistent sb s) (hip : Held s ip)
    (ht : (s.icache ip).type ≠ T_DEV) {src : Nat → UInt8}
    (hf : ¬WriteFails (s.icache ip).size off.toNat n.toNat) {r : Option Nat}
    (hw : writei sb dev s.unlogged ip src off n = .ok (t, r)) :
    t.lh.length = (if (s.icache ip).size < off.toNat + n.toNat then 1 else 0) +
      bitmaps sb s (growth (s.icache ip).inum (blocksFor (s.icache ip).size)
        (max (blocksFor (s.icache ip).size) (blocksFor (off.toNat + n.toNat)))).length +
      ((chunk (s.icache ip).inum (blocksFor (s.icache ip).size) off.toNat n.toNat).flatMap
        Touch.places).toFinset.card := by
  obtain ⟨s₁, hset, htook, -, hlogs, -⟩ := (writei_took h.unlogged hip dev ht src hf).of_ok hw
  have hr := hset.kept.ready (h.unlogged.ready hip)
  have hoff : off.toNat ≤ (s.icache ip).size := by
    unfold WriteFails at hf
    omega
  have hgrown : Logs s₁ t (if (s.icache ip).size < off.toNat + n.toNat then
      [sb.IBLOCK (s.icache ip).inum] else []) := hlogs
  have hcard := htook.card hr
  have hlh := (htook.logs.trans hgrown).card.2
  simp only [State.icache_unlogged, State.blocks_unlogged] at htook hcard hlh
  rw [taken_chunk (hoff.trans (le_blocksFor _))] at hcard
  rw [hlh, List.toFinset_append, add_assoc]
  by_cases hgrow : (s.icache ip).size < off.toNat + n.toNat
  · simp only [if_pos hgrow]
    have hdisj : Disjoint ((chunk (s.icache ip).inum (blocksFor (s.icache ip).size) off.toNat
        n.toNat).flatMap (Touch.logged sb ip s₁)).toFinset
        [sb.IBLOCK (s.icache ip).inum].toFinset := by
      rw [Finset.disjoint_left]
      intro b hb hb'
      have hle := htook.bmapstart_le hr (List.mem_toFinset.mp hb)
      have hlt := sb.IBLOCK_lt (h.cache.inum ip hip.1)
      have hbe := List.mem_singleton.mp (List.mem_toFinset.mp hb')
      omega
    rw [Finset.card_union_of_disjoint hdisj, hcard, add_comm]
    rfl
  · simp only [if_neg hgrow]
    rw [List.toFinset_nil, Finset.union_empty, hcard, zero_add]
    rfl

/-- The chunk that overruns the reservation: an unaligned one of seven blocks that starts in the
last block of the file, goes over from the double to the triple indirect region past its first
new block, and finds the first nine free blocks in nine blocks of the free map. -/
def Overruns (sb : Superblock) (s : State) (ip : Slot) (off n : Nat) : Prop :=
  (s.icache ip).type ≠ T_DEV ∧ off % BSIZE ≠ 0 ∧
  blocksFor (s.icache ip).size = off / BSIZE + 1 ∧ blocksFor (off + n) = off / BSIZE + 7 ∧
  off / BSIZE + 1 < firstTriple ∧ firstTriple < off / BSIZE + 7 ∧
  (((freeBlocks sb s.blocks).take 9).map sb.BBLOCK).Nodup

/-- Repeated blocks of the free map count once. -/
private theorem bitmaps_lt {m : Nat} (h : ¬(((freeBlocks sb s.blocks).take m).map sb.BBLOCK).Nodup) :
    bitmaps sb s m < m := by
  have hne : bitmaps sb s m ≠ (((freeBlocks sb s.blocks).take m).map sb.BBLOCK).length := fun he ↦
    h (Multiset.toFinset_card_eq_card_iff_nodup.mp he)
  have hle : bitmaps sb s m ≤ m := bitmaps_le s m
  have hcard := List.toFinset_card_le (((freeBlocks sb s.blocks).take m).map sb.BBLOCK)
  have hlen := List.length_take_le m (freeBlocks sb s.blocks)
  rw [List.length_map] at hne hcard
  unfold bitmaps at *
  omega

/-- Past the last block that a chunk of at most `chunkMax` bytes touches. -/
private theorem spanned_le {off k : Nat} (hk : k ≤ chunkMax) :
    spanned off k ≤ 7 ∧ (spanned off k = 7 → off % BSIZE ≠ 0) := by
  have hB : BSIZE = 512 := rfl
  have hc : chunkMax = 3072 := rfl
  unfold spanned
  rw [hB]
  split <;> omega

/-- Every other chunk stays within it. -/
private theorem count_le {i off k nb B : Nat} (hk : k ≤ chunkMax) (hoff : off ≤ nb * BSIZE)
    (hnb : nb ≤ MAXFILE) (hmax : off + k ≤ MAXFILE * BSIZE)
    (hB : B ≤ (growth i nb (max nb (blocksFor (off + k)))).length)
    (hov : off % BSIZE ≠ 0 → nb = off / BSIZE + 1 → blocksFor (off + k) = off / BSIZE + 7 →
      off / BSIZE + 1 < firstTriple → firstTriple < off / BSIZE + 7 → B ≤ 8) :
    1 + B + ((chunk i nb off k).flatMap Touch.places).toFinset.card ≤ MAXOPBLOCKS := by
  have hcap : MAXOPBLOCKS = 20 := rfl
  have hBS : BSIZE = 512 := rfl
  obtain ⟨hspan, haligned⟩ := @spanned_le off k hk
  have hend := spanned_end (k := k) hoff
  have hlast : off / BSIZE + spanned off k ≤ MAXFILE := by
    unfold spanned
    rw [hBS] at hmax ⊢
    split <;> omega
  have hfirst : off / BSIZE ≤ nb := Nat.div_le_of_le_mul (by rwa [Nat.mul_comm] at hoff)
  have hfirst' : off % BSIZE ≠ 0 → off / BSIZE + 1 ≤ nb := by
    rw [hBS] at hoff ⊢
    omega
  obtain ⟨m, hm⟩ : ∃ m, max nb (off / BSIZE + spanned off k) = nb + m :=
    ⟨_, (Nat.add_sub_cancel' (Nat.le_max_left _ _)).symm⟩
  rw [← hend, hm] at hB
  unfold chunk
  by_cases hno : ∀ bn, nb ≤ bn → bn < off / BSIZE + spanned off k → opened bn = 0
  · have hlen := @length_growth_zero i nb m (by omega) fun bn h1 h2 ↦
      hno bn h1 (by omega)
    have hcard := @card_places_zero i nb _ _ hlast hno
    omega
  · -- the one boundary among the new blocks
    push Not at hno
    obtain ⟨bn, h1, h2, hbn⟩ := hno
    have hone : ∀ bn', nb ≤ bn' → bn' < off / BSIZE + spanned off k → bn' ≠ bn →
        opened bn' = 0 := by
      intro bn' h3 h4 hne
      by_contra hbn'
      have hN : NINDIRECT = 128 := rfl
      have hb := opened_ne_zero.mp hbn
      have hb' := opened_ne_zero.mp hbn'
      rw [hN] at hb hb'
      omega
    have hlen := length_growth_one (i := i) (m := m) (by omega) h1 (by omega) fun bn' h3 h4 ↦
      hone bn' h3 (by omega)
    have hcard := card_places_one (i := i) hlast h1 h2 hone
    have hopen := (opened_le bn).2
    split_ifs at hcard hopen with hlt htriple <;> omega

private theorem take_places {i nb a c : Nat} (bn : Nat) (h1 : nb ≤ bn) (ha : a ≤ bn) (h2 : bn < a + c)
    {P : Lib.Pos Root} (hP : ∃ Q ∈ newPlaces i bn, P ∈ (Touch.take Q).places) :
    P ∈ ((List.range' a c).flatMap (touches i nb)).flatMap Touch.places := by
  obtain ⟨Q, hQ, hPQ⟩ := hP
  refine List.mem_flatMap.mpr ⟨.take Q, List.mem_flatMap.mpr ⟨bn, ?_, ?_⟩, hPQ⟩
  · rw [List.mem_range'_1]
    exact ⟨ha, h2⟩
  · rw [touches, if_neg (by omega)]
    exact List.mem_append_left _ (List.mem_map_of_mem hQ)

/-- Going over to the triple indirect region logs four indirect blocks. -/
private theorem crossing_card {i a : Nat} (h1 : a + 1 < firstTriple) (h2 : firstTriple < a + 7) :
    11 ≤ (((List.range' a 7).flatMap (touches i (a + 1))).flatMap Touch.places).toFinset.card := by
  have hT : firstTriple = 16522 := rfl
  have hM : MAXFILE = 2113674 := rfl
  rw [hT] at h1 h2
  -- the four indirect blocks: the last one of the double region, and the way to the first triple one
  obtain ⟨A, hA⟩ : ∃ A : List (Lib.Pos Root), A =
      [((i, ⟨NDIRECT + 1, double_lt⟩), [127]), ((i, ⟨NDIRECT + 2, triple_lt⟩), []),
        ((i, ⟨NDIRECT + 2, triple_lt⟩), [0]), ((i, ⟨NDIRECT + 2, triple_lt⟩), [0, 0])] := ⟨_, rfl⟩
  have hlast : leaf 16521 = (⟨NDIRECT + 1, double_lt⟩, [127, 127]) := by decide +kernel
  have hfirst : leaf 16522 = (⟨NDIRECT + 2, triple_lt⟩, [0, 0, 0]) := by decide +kernel
  have hopened : opened 16522 = 3 := by decide +kernel
  have hmem : ∀ P ∈ A, P ∈ ((List.range' a 7).flatMap (touches i (a + 1))).flatMap
      Touch.places := by
    intro P hP
    rw [hA] at hP
    have hspine : ∀ q, q <:+ [0, 0, 0] → ((i, (⟨NDIRECT + 2, triple_lt⟩ : Fin (NDIRECT + 3))), q) ∈
        ((List.range' a 7).flatMap (touches i (a + 1))).flatMap Touch.places := by
      intro q hq
      apply take_places 16522 (by omega) (by omega) (by omega)
      refine ⟨((i, ⟨NDIRECT + 2, triple_lt⟩), q), mem_newPlaces.mpr ?_, ?_⟩
      · rw [hfirst, hopened]
        exact ⟨rfl, hq, Nat.zero_le _⟩
      · cases q <;> exact List.mem_cons_self
    simp only [List.mem_cons, List.not_mem_nil, or_false] at hP
    rcases hP with rfl | rfl | rfl | rfl
    · apply take_places 16521 (by omega) (by omega) (by omega)
      refine ⟨((i, ⟨NDIRECT + 1, double_lt⟩), [127, 127]), mem_newPlaces.mpr ?_, ?_⟩
      · rw [hlast]
        exact ⟨rfl, List.suffix_refl _, Nat.sub_le _ _⟩
      · exact List.mem_cons_of_mem _ List.mem_cons_self
    · exact hspine _ List.nil_suffix
    · exact hspine _ ((List.suffix_cons 0 [0]).trans (List.suffix_cons 0 [0, 0]))
    · exact hspine _ (List.suffix_cons 0 [0, 0])
  have hleaves : ∀ P ∈ (List.range' a 7).map (place i), P.2.length = levels P.1.2 := by
    intro P hP
    obtain ⟨bn, hbn, rfl⟩ := List.mem_map.mp hP
    have hlt := (List.mem_range'_1.mp hbn).2
    exact (isLeaf_place i (by omega)).2
  have hAshort : ∀ P ∈ A, P.2.length ≠ levels P.1.2 := by
    intro P hP
    rw [hA] at hP
    simp only [List.mem_cons, List.not_mem_nil, or_false] at hP
    rcases hP with rfl | rfl | rfl | rfl <;>
      simp only [List.length_cons, List.length_nil, levels] <;> omega
  have hnodup : ((List.range' a 7).map (place i) ++ A).Nodup := by
    rw [List.nodup_append]
    refine ⟨?_, ?_, fun P hP Q hQ he ↦ hAshort Q hQ (he ▸ hleaves P hP)⟩
    · refine List.Nodup.map_on ?_ List.nodup_range'
      intro bn hbn bn' hbn' he
      have hlt := (List.mem_range'_1.mp hbn).2
      have hlt' := (List.mem_range'_1.mp hbn').2
      exact ((place_inj (by omega) (by omega)).mp he).2
    · rw [hA]
      simp
  have hcard := List.toFinset_card_of_nodup hnodup
  rw [List.length_append, List.length_map, List.length_range', hA, ← hA] at hcard
  have hlen : A.length = 4 := by rw [hA]; rfl
  have hsub : ((List.range' a 7).map (place i) ++ A).toFinset ⊆
      (((List.range' a 7).flatMap (touches i (a + 1))).flatMap Touch.places).toFinset := by
    intro P hP
    rw [List.mem_toFinset] at hP ⊢
    rcases List.mem_append.mp hP with hP | hP
    · obtain ⟨bn, hbn, rfl⟩ := List.mem_map.mp hP
      refine List.mem_flatMap.mpr ⟨.store (place i bn), List.mem_flatMap.mpr ⟨bn, hbn, ?_⟩, ?_⟩
      · exact List.mem_append_right _ (List.mem_singleton_self _)
      · exact List.mem_singleton_self _
    · exact hmem P hP
  have hle := Finset.card_le_card hsub
  omega

/-- Going over to the triple indirect region takes nine blocks. -/
private theorem crossing_growth {i a : Nat} (h1 : a + 1 < firstTriple) (h2 : firstTriple < a + 7) :
    (growth i (a + 1) (max (a + 1) (a + 7))).length = 9 := by
  have hT : firstTriple = 16522 := rfl
  have hM : MAXFILE = 2113674 := rfl
  have hopened : opened 16522 = 3 := by decide +kernel
  have hone : ∀ bn, a + 1 ≤ bn → bn < a + 1 + 6 → bn ≠ 16522 → opened bn = 0 := by
    intro bn h3 h4 hne
    by_contra hbn
    have hN : NINDIRECT = 128 := rfl
    have hD : NDIRECT = 10 := rfl
    have hb := opened_ne_zero.mp hbn
    rw [hN, hD] at hb
    omega
  have hnew := @length_growth_one i (a + 1) 16522 6 (by omega) (by omega) (by omega) hone
  rw [hopened] at hnew
  rwa [Nat.max_eq_right (by omega)]

/-- A write that goes through has found a free block for each one by which the file grows. -/
private theorem growth_le_free (h : Consistent sb s) (hip : Held s ip)
    (ht : (s.icache ip).type ≠ T_DEV) {src : Nat → UInt8}
    (hf : ¬WriteFails (s.icache ip).size off.toNat n.toNat) {r : Option Nat}
    (hw : writei sb dev s ip src off n = .ok (t, r)) :
    (growth (s.icache ip).inum (blocksFor (s.icache ip).size)
      (max (blocksFor (s.icache ip).size) (blocksFor (off.toNat + n.toNat)))).length ≤
      (freeBlocks sb s.blocks).length := by
  obtain ⟨s₁, -, htook, -, -, -⟩ := (writei_took h hip dev ht src hf).of_ok hw
  have hoff : off.toNat ≤ (s.icache ip).size := by
    unfold WriteFails at hf
    omega
  have hlen := congrArg List.length htook.free
  rw [List.length_append, List.length_map, taken_chunk (hoff.trans (le_blocksFor _))] at hlen
  omega

/-- A chunk that overruns can be written as far as the file goes. -/
private theorem Overruns.writable (hov : Overruns sb s ip off.toNat n.toNat)
    (hoff : off.toNat ≤ (s.icache ip).size) :
    ¬WriteFails (s.icache ip).size off.toNat n.toNat := by
  obtain ⟨-, -, -, hend, hdouble, -, -⟩ := hov
  have hM : MAXFILE * BSIZE = 1082201088 := rfl
  have hT : firstTriple = 16522 := rfl
  have hB : BSIZE = 512 := rfl
  have hle := le_blocksFor (off.toNat + n.toNat)
  rw [hend] at hle
  rw [hT, hB] at hdouble
  unfold WriteFails
  rw [hM]
  rw [hB] at hle
  omega

/-- It logs 21 blocks. -/
private theorem overruns_exceeds (h : Consistent sb s) (hip : Held s ip)
    (hoff : off.toNat ≤ (s.icache ip).size) (hov : Overruns sb s ip off.toNat n.toNat)
    {src : Nat → UInt8} {r : Option Nat}
    (hw : writei sb dev s.unlogged ip src off n = .ok (t, r)) : MAXOPBLOCKS < t.lh.length := by
  have hf := hov.writable hoff
  obtain ⟨ht, hoff', hstart, hend, h1, h2, hnodup⟩ := hov
  have hB : BSIZE = 512 := rfl
  have hlen := length_lh h hip ht hf hw
  have hgrow : (s.icache ip).size < off.toNat + n.toNat := by
    by_contra hge
    have hmono := blocksFor_mono (Nat.le_of_not_lt hge)
    omega
  have hfree := growth_le_free h.unlogged hip ht hf hw
  have hcross := crossing_card (i := (s.icache ip).inum) h1 h2
  have hspan : spanned off.toNat n.toNat = 7 := by
    unfold blocksFor at hend
    unfold spanned
    rw [hB] at hend hoff' ⊢
    split <;> omega
  have hnew := crossing_growth (i := (s.icache ip).inum) h1 h2
  rw [if_pos hgrow, hstart, hend, hnew, chunk, hspan] at hlen
  simp only [State.icache_unlogged, State.blocks_unlogged] at hfree
  rw [hstart, hend, hnew] at hfree
  have hmaps : bitmaps sb s 9 = 9 := by
    unfold bitmaps
    rw [List.toFinset_card_of_nodup hnodup, List.length_map, List.length_take]
    omega
  have hcap : MAXOPBLOCKS = 20 := rfl
  omega

/-- Every other chunk logs at most 20. -/
private theorem fits_of_not_overruns (h : Consistent sb s) (hip : Held s ip)
    (hoff : off.toNat ≤ (s.icache ip).size) (hn : n.toNat ≤ chunkMax)
    (hov : ¬Overruns sb s ip off.toNat n.toNat) {src : Nat → UInt8} {r : Option Nat}
    (hw : writei sb dev s.unlogged ip src off n = .ok (t, r)) : t.lh.length ≤ MAXOPBLOCKS := by
  by_cases ht : (s.icache ip).type = T_DEV
  · obtain ⟨r', hr⟩ := writei_dev (s := s.unlogged) sb dev ht src off n
    rw [hr] at hw
    cases hw
    exact Nat.zero_le _
  by_cases hf : WriteFails (s.icache ip).size off.toNat n.toNat
  · rw [writei_fails (s := s.unlogged) dev ht src hf] at hw
    cases hw
    exact Nat.zero_le _
  have hlen := length_lh h hip ht hf hw
  have hnb : blocksFor (s.icache ip).size ≤ MAXFILE := blocksFor_le (h.size_le hip)
  have hsize := hoff.trans (le_blocksFor (s.icache ip).size)
  have hmax : off.toNat + n.toNat ≤ MAXFILE * BSIZE := by
    unfold WriteFails at hf
    omega
  have hshort : off.toNat % BSIZE ≠ 0 →
      blocksFor (s.icache ip).size = off.toNat / BSIZE + 1 →
      blocksFor (off.toNat + n.toNat) = off.toNat / BSIZE + 7 →
      off.toNat / BSIZE + 1 < firstTriple → firstTriple < off.toNat / BSIZE + 7 →
      bitmaps sb s (growth (s.icache ip).inum (blocksFor (s.icache ip).size)
        (max (blocksFor (s.icache ip).size) (blocksFor (off.toNat + n.toNat)))).length ≤ 8 := by
    intro h1 h2 h3 h4 h5
    rw [h2, h3, crossing_growth h4 h5]
    exact Nat.le_of_lt_succ (bitmaps_lt fun hnodup ↦ hov ⟨ht, h1, h2, h3, h4, h5, hnodup⟩)
  have hcount := count_le hn hsize hnb hmax (bitmaps_le s _) hshort
  split_ifs at hlen <;> omega

/-- A write chunk fits its reservation, except for one kind of chunk: the transaction that writes
at most `chunkMax` bytes within or at the end of a file logs at most `MAXOPBLOCKS` different blocks
exactly when the chunk is not one that overruns. -/
theorem chunk_fits (h : Consistent sb s) (hip : Held s ip) (hoff : off.toNat ≤ (s.icache ip).size)
    (hn : n.toNat ≤ chunkMax) {src : Nat → UInt8} {r : Option Nat}
    (hw : writeOp sb dev s.unlogged ip src off n = .ok (t, r)) :
    t.lh.length ≤ MAXOPBLOCKS ↔ ¬Overruns sb s ip off.toNat n.toNat := by
  rw [writeOp_of_held (s := s.unlogged) hip] at hw
  constructor
  · intro hle hov
    have hlt := overruns_exceeds h hip hoff hov hw
    omega
  · intro hov
    exact fits_of_not_overruns h hip hoff hn hov hw

end

/-- A chunk at the end of a file of `NDIRECT` blocks takes the indirect block and fits. -/
theorem chunk_fits_indirect : ∃ s t, Consistent mkfsSuperblock s ∧
    (s.icache 0).size = NDIRECT * BSIZE ∧
    writeOp mkfsSuperblock ⟨fun _ ↦ none, fun _ ↦ none⟩ s.unlogged 0 (fun _ ↦ 7) 5120 3072 =
      .ok (t, some 3072) ∧ t.lh.length ≤ MAXOPBLOCKS := by
  obtain ⟨s, hs, -⟩ := @oneFile_grow NDIRECT (by decide) (by decide)
  obtain ⟨addrs, hslot⟩ := hs.self
  have hheld := held_fileInode hslot
  have hsize : (s.icache 0).size = NDIRECT * BSIZE := by rw [hslot]; rfl
  have hoff : (5120 : UInt32).toNat = NDIRECT * BSIZE := by decide
  have hn : (3072 : UInt32).toNat = (16 - NDIRECT) * BSIZE := by decide
  obtain ⟨t, ht, -⟩ := writei_fresh (s := s.unlogged) ⟨fun _ ↦ none, fun _ ↦ none⟩ (fun _ ↦ 7)
    hs.consistent.unlogged hslot hs.free (by decide : NDIRECT ≤ 16) (by decide) (by decide) hoff hn
  have hop := (writeOp_of_held (s := s.unlogged) hheld _ _ _).trans ht
  refine ⟨s, t, hs.consistent, hsize, hop, ?_⟩
  apply (chunk_fits hs.consistent hheld (by rw [hsize]; decide) (by decide) hop).mpr
  exact fun hov ↦ hov.2.1 (by decide)

/-! ### A chunk that overruns -/

section Scattered

variable {s : State} {p a b : Nat} {fs : List Nat}

/-- Three files on a fresh disk: the first has its blocks at `fs`, the others have `a` and `b`
blocks, and the blocks from `p` on are free. -/
private structure Stage (s : State) (p a b : Nat) (fs : List Nat) : Prop where
  consistent : Consistent mkfsSuperblock s
  first : ∃ addrs, s.icache 0 = fileInode 1 (fs.length * BSIZE) addrs
  second : ∃ addrs, s.icache 1 = fileInode 2 (a * BSIZE) addrs
  third : ∃ addrs, s.icache 2 = fileInode 3 (b * BSIZE) addrs
  free : freeBlocks mkfsSuperblock s.blocks = List.range' p (FSSIZE - p)
  blocks : ∀ k (hk : k < fs.length), diskAt mkfsSuperblock s.blocks (place 1 k) = fs[k]

/-- The blocks of the first file stay where they are. -/
private theorem Stage.kept {t : State} (h : Stage s p a b fs) (hlen : fs.length ≤ NDIRECT)
    (hkept : ∀ P ∈ Places, diskAt mkfsSuperblock s.blocks P ≠ 0 →
      diskAt mkfsSuperblock t.blocks P = diskAt mkfsSuperblock s.blocks P) :
    ∀ k (hk : k < fs.length), diskAt mkfsSuperblock t.blocks (place 1 k) = fs[k] := by
  intro k hk
  have hT : NDIRECT < MAXFILE := by decide
  have hplace := (isLeaf_place 1 (show k < MAXFILE by omega)).1
  obtain ⟨addrs, hip⟩ := h.first
  have hz : diskAt mkfsSuperblock s.blocks (place 1 k) ≠ 0 := by
    have hm := (h.consistent.maps (held_fileInode hip)).place_iff (show k < MAXFILE by omega)
    rw [hip, h.consistent.pos_eq (held_fileInode hip)] at hm
    refine hm.mpr ?_
    show k < (fs.length * 512 + 511) / 512
    omega
  rw [hkept _ hplace hz, h.blocks k hk]

private theorem Stage.growSecond (h : Stage s p a b fs) (a' : Nat) (hlen : fs.length ≤ NDIRECT)
    (hle : a ≤ a') (hmax : a' ≤ firstTriple) (hroom : p + (need a' - need a) ≤ FSSIZE) :
    ∃ t, Stage t (p + (need a' - need a)) a' b fs := by
  obtain ⟨addrs, hip⟩ := h.second
  obtain ⟨t, ht, -⟩ := grow_fresh ⟨fun _ ↦ none, fun _ ↦ none⟩ h.consistent hip h.free hle hmax hroom
  refine ⟨t, ht.consistent, ?_, ht.self, ?_, ht.free, h.kept hlen ht.kept⟩
  · rw [ht.others 0 (by decide)]
    exact h.first
  · rw [ht.others 2 (by decide)]
    exact h.third

private theorem Stage.growThird (h : Stage s p a b fs) (b' : Nat) (hlen : fs.length ≤ NDIRECT)
    (hle : b ≤ b') (hmax : b' ≤ firstTriple) (hroom : p + (need b' - need b) ≤ FSSIZE) :
    ∃ t, Stage t (p + (need b' - need b)) a b' fs := by
  obtain ⟨addrs, hip⟩ := h.third
  obtain ⟨t, ht, -⟩ := grow_fresh ⟨fun _ ↦ none, fun _ ↦ none⟩ h.consistent hip h.free hle hmax hroom
  refine ⟨t, ht.consistent, ?_, ?_, ht.self, ht.free, h.kept hlen ht.kept⟩
  · rw [ht.others 0 (by decide)]
    exact h.first
  · rw [ht.others 1 (by decide)]
    exact h.second

/-- The first file takes one more block. -/
private theorem Stage.growFirst (h : Stage s p a b fs) (hlen : fs.length < NDIRECT)
    (hroom : p + 1 ≤ FSSIZE) : ∃ t, Stage t (p + 1) a b (fs ++ [p]) := by
  obtain ⟨addrs, hip⟩ := h.first
  have hneed : need (fs.length + 1) - need fs.length = 1 := by
    unfold need
    rw [if_pos (show fs.length + 1 ≤ NDIRECT from hlen), if_pos hlen.le]
    omega
  have hT : NDIRECT < firstTriple := by decide
  have hgrow := @grow_fresh _ s 0 1 fs.length (fs.length + 1) p ⟨fun _ ↦ none, fun _ ↦ none⟩
    h.consistent addrs hip h.free (Nat.le_succ _) (by omega) (by rw [hneed]; exact hroom)
  rw [hneed] at hgrow
  obtain ⟨t, ht, hmap⟩ := hgrow
  have hnew : diskAt mkfsSuperblock t.blocks (place 1 fs.length) = p := by
    have hplace : growth 1 fs.length (fs.length + 1) = [place 1 fs.length] := by
      have hopened : opened fs.length = 0 := if_pos hlen
      rw [growth, Nat.add_sub_cancel_left, List.range'_one, List.flatMap_singleton, newPlaces,
        hopened, place, leaf_direct hlen]
      have hlevels : levels (Fin.castAdd 3 ⟨fs.length, hlen⟩) = 0 := by
        show fs.length + 1 - NDIRECT = 0
        omega
      rw [hlevels]
      rfl
    rw [hplace] at hmap
    exact (List.cons.inj hmap).1
  refine ⟨t, ht.consistent, ?_, ?_, ?_, ht.free, ?_⟩
  · rw [List.length_append]
    exact ht.self
  · rw [ht.others 1 (by decide)]
    exact h.second
  · rw [ht.others 2 (by decide)]
    exact h.third
  · intro k hk
    rw [List.length_append, List.length_singleton] at hk
    rcases Nat.lt_or_ge k fs.length with hlt | hge
    · rw [List.getElem_append_left hlt]
      exact h.kept hlen.le ht.kept k hlt
    · obtain rfl : k = fs.length := by omega
      rw [List.getElem_append_right (Nat.le_refl _)]
      simpa using hnew

/-- Three empty files on the empty disk. -/
private def emptyFiles : State :=
  openFile mkfsSuperblock
    (openFile mkfsSuperblock (openFile mkfsSuperblock (emptyFs mkfsSuperblock) 1 0) 2 1) 3 2

private theorem emptyFiles_stage : Stage emptyFiles 98 0 0 [] := by
  have h0 := emptyFs_consistent mkfsSuperblock
  have hfree : ∀ i < 200, (dinode mkfsSuperblock (emptyFs mkfsSuperblock).blocks i).type = 0 :=
    fun i hi ↦ type_emptyDisk hi
  have h1 : Consistent mkfsSuperblock
      (openFile mkfsSuperblock (emptyFs mkfsSuperblock) 1 0) :=
    openFile_consistent h0 (by decide) (hfree 1 (by decide))
      fun iq _ href ↦ absurd href (Nat.lt_irrefl 0)
  have h2 : Consistent mkfsSuperblock
      (openFile mkfsSuperblock (openFile mkfsSuperblock (emptyFs mkfsSuperblock) 1 0) 2 1) := by
    apply openFile_consistent h1 (by decide)
    · rw [openFile_dinode]
      exact hfree 2 (by decide)
    · intro iq hne href
      by_cases he : iq = 0
      · subst he
        exact show (1 : Nat) ≠ 2 by decide
      · rw [openFile, icache_setInode_ne he] at href
        exact absurd href (Nat.lt_irrefl 0)
  have h3 : Consistent mkfsSuperblock emptyFiles := by
    apply openFile_consistent h2 (by decide)
    · rw [openFile_dinode, openFile_dinode]
      exact hfree 3 (by decide)
    · intro iq hne href
      by_cases he : iq = 1
      · subst he
        exact show (2 : Nat) ≠ 3 by decide
      · rw [openFile, icache_setInode_ne he] at href ⊢
        by_cases he' : iq = 0
        · subst he'
          exact show (1 : Nat) ≠ 3 by decide
        · rw [icache_logWrite, openFile, icache_setInode_ne he'] at href
          exact absurd href (Nat.lt_irrefl 0)
  refine ⟨h3, ⟨_, rfl⟩, ⟨_, rfl⟩, ⟨_, rfl⟩, ?_, fun k hk ↦ absurd hk (Nat.not_lt_zero k)⟩
  rw [emptyFiles, openFile_free (by decide), openFile_free (by decide), openFile_free (by decide),
    freeBlocks_emptyFs]
  rfl

/-- The other files grow between the blocks of the first, so that these lie in the first nine
blocks of the free map. -/
private theorem scattered : ∃ s, Stage s 33141 16520 16256
    [98, 4196, 8293, 12390, 16486, 20651, 24814, 28977, 33140] := by
  obtain ⟨s, h⟩ := emptyFiles_stage.growFirst (by decide) (by decide)
  obtain ⟨s, h⟩ := h.growThird 4064 (by decide) (by decide) (by decide) (by decide)
  obtain ⟨s, h⟩ := h.growFirst (by decide) (by decide)
  obtain ⟨s, h⟩ := h.growThird 8128 (by decide) (by decide) (by decide) (by decide)
  obtain ⟨s, h⟩ := h.growFirst (by decide) (by decide)
  obtain ⟨s, h⟩ := h.growThird 12192 (by decide) (by decide) (by decide) (by decide)
  obtain ⟨s, h⟩ := h.growFirst (by decide) (by decide)
  obtain ⟨s, h⟩ := h.growThird 16256 (by decide) (by decide) (by decide) (by decide)
  obtain ⟨s, h⟩ := h.growFirst (by decide) (by decide)
  obtain ⟨s, h⟩ := h.growSecond 4130 (by decide) (by decide) (by decide) (by decide)
  obtain ⟨s, h⟩ := h.growFirst (by decide) (by decide)
  obtain ⟨s, h⟩ := h.growSecond 8260 (by decide) (by decide) (by decide) (by decide)
  obtain ⟨s, h⟩ := h.growFirst (by decide) (by decide)
  obtain ⟨s, h⟩ := h.growSecond 12390 (by decide) (by decide) (by decide) (by decide)
  obtain ⟨s, h⟩ := h.growFirst (by decide) (by decide)
  obtain ⟨s, h⟩ := h.growSecond 16520 (by decide) (by decide) (by decide) (by decide)
  obtain ⟨s, h⟩ := h.growFirst (by decide) (by decide)
  exact ⟨s, h⟩

/-- When the first file is deleted, the chunk that takes the second one over to the triple indirect
region logs 21 blocks. -/
theorem chunk_overruns : ∃ s t, Consistent mkfsSuperblock s ∧ Held s 1 ∧ (s.icache 1).type = 2 ∧
    (s.icache 1).size = 16520 * BSIZE ∧
    writeOp mkfsSuperblock ⟨fun _ ↦ none, fun _ ↦ none⟩ s.unlogged 1 (fun _ ↦ 7)
      8457729 3072 = .ok (t, some 3072) ∧ MAXOPBLOCKS < t.lh.length := by
  obtain ⟨s, hs⟩ := scattered
  obtain ⟨addrs, hip⟩ := hs.first
  obtain ⟨t, -, ht, hfree, hothers⟩ := delete_fresh hs.consistent hip (by decide) hs.blocks
    (by decide) (by decide) hs.free
  obtain ⟨addrs', hsecond⟩ := hs.second
  have hslot : t.icache 1 = fileInode 2 (16520 * BSIZE) addrs' := by
    rw [hothers 1 (by decide), hsecond]
  have hheld := held_fileInode hslot
  have hsize : (t.icache 1).size = 16520 * BSIZE := by rw [hslot]; rfl
  have htype : (t.icache 1).type = 2 := by rw [hslot]; rfl
  have hov : Overruns mkfsSuperblock t 1 (8457729 : UInt32).toNat (3072 : UInt32).toNat := by
    refine ⟨?_, by decide, ?_, by decide, by decide, by decide, ?_⟩
    · rw [htype]
      decide
    · rw [hsize]
      decide
    · rw [hfree]
      show (List.map mkfsSuperblock.BBLOCK
        [98, 4196, 8293, 12390, 16486, 20651, 24814, 28977, 33140]).Nodup
      decide
  have hle : (8457729 : UInt32).toNat ≤ (t.icache 1).size := by
    rw [hsize]
    decide
  have hroom : (growth (t.icache 1).inum (blocksFor (t.icache 1).size)
      (max (blocksFor (t.icache 1).size)
        (blocksFor ((8457729 : UInt32).toNat + (3072 : UInt32).toNat)))).length ≤
      (freeBlocks mkfsSuperblock t.blocks).length := by
    have hnew : (growth (t.icache 1).inum (16519 + 1) (max (16519 + 1) (16519 + 7))).length = 9 :=
      crossing_growth (by decide) (by decide)
    rw [hsize, show blocksFor (16520 * BSIZE) = 16519 + 1 by decide,
      show blocksFor ((8457729 : UInt32).toNat + (3072 : UInt32).toNat) = 16519 + 7 by decide, hnew,
      hfree, List.length_append]
    simp only [List.length_cons, List.length_nil]
    omega
  obtain ⟨u, hu⟩ := writei_ok (s := t.unlogged) ht.unlogged hheld ⟨fun _ ↦ none, fun _ ↦ none⟩
    hov.1 (fun _ ↦ 7) (hov.writable hle) hroom
  have hop : writeOp mkfsSuperblock ⟨fun _ ↦ none, fun _ ↦ none⟩ t.unlogged 1 (fun _ ↦ 7) 8457729
      3072 = .ok (u, some 3072) := (writeOp_of_held (s := t.unlogged) hheld _ _ _).trans hu
  exact ⟨t, u, ht, hheld, htype, hsize, hop, overruns_exceeds ht hheld hle hov hu⟩

end Scattered

end Xv6.Fs
