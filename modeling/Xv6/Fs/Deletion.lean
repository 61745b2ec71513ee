import Xv6.Fs.Fresh

/-!
# Deleting a file in one transaction

However many blocks a file has, the `iput` that deletes it logs only blocks of the free map and the
block of its inode, which the reservation of one operation covers.
-/

namespace Xv6.Fs

open Function

section

variable {sb : Superblock} {ip : Slot} {s t : State}

/-- The `iput` that deletes a file logs the free map for each block of the file, and the inode. -/
theorem iput_logs (hs : Consistent sb s) (hf : Frees s ip) (ht : iput sb s ip = .ok t) : Logs s t
    ((treesAt s ip (List.finRange (NDIRECT + 3))).map sb.BBLOCK ++
      [sb.IBLOCK (s.icache ip).inum, sb.IBLOCK (s.icache ip).inum]) := by
  obtain ⟨hvalid, hnlink, href⟩ := hf
  have hip : Held s ip := ⟨by rw [href]; exact Nat.one_pos, hvalid⟩
  unfold iput at ht
  rw [if_pos ⟨hvalid, hnlink, href⟩] at ht
  obtain ⟨v, hv, ht⟩ := Lib.bind_eq_ok.mp ht
  have hlogs := itrunc_logs (hs.ready hip) hv
  have hself := ((itrunc_spec (hs.ready hip) fun _ ↦ True).of_ok hv).self
  cases ht
  have hinum : (v.icache ip).inum = (s.icache ip).inum := by rw [hself]
  have hlast : Logs v (setInode (iupdate sb (setInode v ip { v.icache ip with type := 0 }) ip) ip
      { v.icache ip with type := 0, valid := false }) [sb.IBLOCK (s.icache ip).inum] := by
    rw [← hinum]
    unfold Logs iupdate
    rw [icache_setInode_self]
    rfl
  have hall := hlogs.trans hlast
  rw [List.append_assoc] at hall
  exact hall

/-- The blocks of the free map for an `FSSIZE`-block disk, and one inode block. -/
private def covered (sb : Superblock) (inum : Nat) : Finset Nat :=
  insert (sb.IBLOCK inum) ((Finset.range (FSSIZE / BPB + 1)).image (· + sb.bmapstart))

private theorem card_covered (inum : Nat) : (covered sb inum).card ≤ MAXOPBLOCKS := by
  have hmap : ((Finset.range (FSSIZE / BPB + 1)).image (· + sb.bmapstart)).card ≤
      (Finset.range (FSSIZE / BPB + 1)).card := Finset.card_image_le
  rw [Finset.card_range] at hmap
  have hinsert : (covered sb inum).card ≤ _ := Finset.card_insert_le _ _
  have hbound : FSSIZE / BPB + 1 + 1 ≤ MAXOPBLOCKS := by decide
  omega

/-- Deleting a file fits one transaction: whatever its size and wherever its blocks are, the `iput`
that drops the last reference to an unlinked inode succeeds, and calls `log_write` on at most
`MAXOPBLOCKS` different blocks. -/
theorem deletion_fits (hs : Consistent sb s) (hsize : sb.size = FSSIZE) (hf : Frees s ip) :
    Lib.Ensures (iput sb s.unlogged ip) (fun _ ↦ False) fun t ↦
      t.lh.Nodup ∧ t.lh.length ≤ MAXOPBLOCKS := by
  have hs' := hs.unlogged
  have href : 0 < (s.icache ip).ref := by
    rw [hf.2.2]
    exact Nat.one_pos
  have hip : Held s.unlogged ip := ⟨href, hf.1⟩
  cases ht : iput sb s.unlogged ip with
  | error e => exact (iput_of_frees hs' hf fun _ ↦ False).of_error ht
  | ok t =>
    obtain ⟨hnodup, hlen⟩ := (iput_logs hs' hf ht).card
    have hcard : (covered sb (s.icache ip).inum).card ≤ MAXOPBLOCKS := card_covered _
    refine ⟨hnodup, hlen.le.trans ((Finset.card_le_card fun b hb ↦ ?_).trans hcard)⟩
    rcases List.mem_append.mp (List.mem_toFinset.mp hb) with hb | hb
    · obtain ⟨x, hx, rfl⟩ := List.mem_map.mp hb
      have hlt := ((canFree_treesAt (hs'.ready hip)).data x hx).2
      rw [hsize] at hlt
      refine Finset.mem_insert_of_mem (Finset.mem_image.mpr ⟨x / BPB, ?_, rfl⟩)
      exact Finset.mem_range.mpr (Nat.lt_succ_of_le (Nat.div_le_div_right hlt.le))
    · have hb : b = sb.IBLOCK (s.unlogged.icache ip).inum := by simpa using hb
      rw [hb]
      exact Finset.mem_insert_self _ _

end

/-- The positions that a file takes as it grows are its own. -/
private theorem growth_places {nb nb' i : Nat} (h : nb' ≤ MAXFILE) {P : Lib.Pos Root}
    (hP : P ∈ growth i nb nb') : P ∈ Places ∧ P.1.1 = i := by
  obtain ⟨bn, hbn, hP⟩ := List.mem_flatMap.mp hP
  obtain ⟨hr, hq, -⟩ := mem_newPlaces.mp hP
  obtain ⟨hlen, hall⟩ := leaf_valid (show bn < MAXFILE by
    have hlt := List.mem_range'_1.mp hbn
    omega)
  rw [hr]
  refine ⟨⟨?_, fun x hx ↦ hall x (hq.subset hx)⟩, rfl⟩
  rw [hr]
  exact hq.length_le.trans hlen.le

/-- A file of 16520 blocks is deleted, which with its indirect blocks are the 16650 from block 98 on:
the log gets the blocks of the free map for all of them. -/
theorem deletion_fits_large : ∃ s t, Consistent mkfsSuperblock s ∧
    (s.icache 0).size = 16520 * BSIZE ∧ iput mkfsSuperblock s.unlogged 0 = .ok t ∧
    (∀ b, 98 ≤ b → b < 98 + 16650 → mkfsSuperblock.BBLOCK b ∈ t.lh) ∧
    t.lh.length ≤ MAXOPBLOCKS := by
  have hneed : need 16520 = 16650 := by decide
  obtain ⟨s, hs, hmap⟩ := @oneFile_grow 16520 (by decide) (by rw [hneed]; decide)
  rw [hneed] at hs hmap
  obtain ⟨addrs, hslot⟩ := hs.self
  have hheld := held_fileInode hslot
  have hfrees : Frees s 0 := by
    rw [Frees, hslot]
    exact ⟨rfl, rfl, rfl⟩
  have hfit := deletion_fits hs.consistent rfl hfrees
  cases ht : iput mkfsSuperblock s.unlogged 0 with
  | error e =>
    rw [ht] at hfit
    exact absurd hfit id
  | ok t =>
    rw [ht] at hfit
    refine ⟨s, t, hs.consistent, by rw [hslot]; rfl, ht, fun b hlo hhi ↦ ?_, hfit.2⟩
    have hlogs := iput_logs hs.consistent.unlogged hfrees ht
    obtain ⟨P, hP, hb⟩ : ∃ P ∈ growth 1 0 16520, diskAt mkfsSuperblock s.blocks P = b := by
      rw [← List.mem_map, hmap]
      exact List.mem_range'_1.mpr ⟨hlo, hhi⟩
    obtain ⟨hplace, hinum⟩ := growth_places (by decide) hP
    have htree : b ∈ treesAt s.unlogged 0 (List.finRange (NDIRECT + 3)) := by
      refine (mem_treesAt (hs.consistent.unlogged.ready hheld)).mpr ⟨by omega, P, hplace, ?_, ?_⟩
      · rw [hinum]
        show 1 = (s.icache 0).inum
        rw [hslot]
        rfl
      · rw [hs.consistent.unlogged.pos_eq hheld]
        exact hb
    rw [show t.lh = absorbs [] _ from hlogs]
    exact mem_absorbs.mpr (.inr (List.mem_append_left _ (List.mem_map_of_mem htree)))

end Xv6.Fs
