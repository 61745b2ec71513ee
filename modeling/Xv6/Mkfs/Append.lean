import Xv6.Mkfs.Model
import Xv6.Fs.Contents

/-!
# The builder maps what the kernel maps

The loop of `iappend` does to the image what the loop of `writei` at the end of the file does
to a disk of the kernel whose free map has the blocks below `freeblock` in use: the two
mappers take the same blocks and put them in the same places, up to the block after the
single indirect ones.
-/

namespace Xv6.Mkfs

open Fs Function

/-- The bytes of the blocks that `iappend` can map. -/
abbrev capacity : Nat := (NDIRECT + NINDIRECT) * BSIZE

/-- The disk of `s` is the image, with a free map that has the blocks below `freeblock` in
use; the image's own free map is still empty. -/
structure Shows (sb : Superblock) (img : Image) (s : State) : Prop where
  blocks : ∀ b, ¬(sb.bmapstart ≤ b ∧ b < sb.nmeta) → s.blocks b = img.blocks b
  used : ∀ x < sb.size, Fs.used sb s.blocks x = decide (x < img.freeblock)
  zero : ∀ b, img.freeblock ≤ b → img.blocks b = Block.zero
  data : sb.nmeta ≤ img.freeblock
  le : img.freeblock ≤ sb.size
  unwritten : ∀ b, sb.bmapstart ≤ b → b < sb.nmeta → img.blocks b = Block.zero

section

variable {sb : Superblock} {img : Image} {s t : State} {ip : Slot} {din : Dinode}

namespace Shows

theorem congr (h : Shows sb img s) (ht : t.blocks = s.blocks) : Shows sb img t where
  blocks := by rw [ht]; exact h.blocks
  used := by rw [ht]; exact h.used
  zero := h.zero
  data := h.data
  le := h.le
  unwritten := h.unwritten

/-- Of two places outside the free map, the image and the disk agree after a write too. -/
theorem write (h : Shows sb img s) {x : Nat} (hx : x < sb.bmapstart ∨ sb.nmeta ≤ x)
    (hlt : x < img.freeblock) (buf : Block) : Shows sb (wsect img x buf) (logWrite s x buf) where
  blocks := by
    intro b hb
    show update s.blocks x buf b = update img.blocks x buf b
    by_cases he : b = x
    · rw [he, update_self, update_self]
    · rw [update_of_ne he, update_of_ne he, h.blocks b hb]
  used := by
    intro y hy
    show _ = decide (y < img.freeblock)
    rw [← h.used y hy]
    apply used_congr _ hy
    intro b hlo hhi
    exact update_of_ne (by omega) _ _
  zero := by
    intro b hb
    have hb' : img.freeblock ≤ b := hb
    show update img.blocks x buf b = Block.zero
    rw [update_of_ne (by omega), h.zero b hb']
  data := h.data
  le := h.le
  unwritten := by
    intro b hlo hhi
    show update img.blocks x buf b = Block.zero
    rw [update_of_ne (by omega), h.unwritten b hlo hhi]

/-- The search of `balloc` finds the block that `mkfs` takes. -/
theorem balloc (h : Shows sb img s) (hroom : img.freeblock < sb.size) :
    ∃ t, Fs.balloc sb s = .ok (t, img.freeblock) ∧ t.icache = s.icache ∧
      Shows sb { img with freeblock := img.freeblock + 1 } t := by
  have hfind : (List.range sb.size).find? (fun b ↦ !Fs.used sb s.blocks b) =
      some img.freeblock := by
    rw [List.find?_range_eq_some]
    refine ⟨?_, List.mem_range.mpr hroom, ?_⟩
    · rw [h.used _ hroom]
      simp
    · intro j hj
      rw [h.used j (Nat.lt_trans hj hroom)]
      simpa using hj
  have hspec := @balloc_spec sb s
  obtain ⟨t, ht⟩ : ∃ t, Fs.balloc sb s = .ok (t, img.freeblock) := by
    unfold Fs.balloc
    rw [hfind]
    exact ⟨_, rfl⟩
  have ha := hspec.of_ok ht
  dsimp only at ha
  refine ⟨t, ht, ha.icache, ?_, ?_, ?_, ?_, hroom, h.unwritten⟩
  · intro b hb
    by_cases he : b = img.freeblock
    · rw [he, ha.zero]
      exact (h.zero _ (Nat.le_refl _)).symm
    · rw [ha.rest b he hb]
      exact h.blocks b hb
  · intro x hx
    rw [ha.taken h.data x hx, h.used x hx, ← Bool.decide_or]
    apply decide_eq_decide.mpr
    show _ ↔ x < img.freeblock + 1
    omega
  · intro b hb
    exact h.zero b (Nat.le_of_succ_le hb)
  · exact Nat.le_succ_of_le h.data

/-- The blocks at positions are below `freeblock`. -/
theorem pos_range (h : Shows sb img s) (hr : Ready sb ip s) {P : Lib.Pos Root} (hP : P ∈ Places)
    (hz : pos sb ip s P ≠ 0) : sb.nmeta ≤ pos sb ip s P ∧ pos sb ip s P < img.freeblock := by
  obtain ⟨hlo, hhi⟩ : sb.nmeta ≤ pos sb ip s P ∧ pos sb ip s P < sb.size :=
    hr.owned.owns.range P hP hz
  refine ⟨hlo, ?_⟩
  have hu : Fs.used sb s.blocks (pos sb ip s P) = true :=
    (hr.owned.owns.used _ hlo hhi).mpr ⟨P, hP, rfl⟩
  rw [h.used _ hhi] at hu
  exact of_decide_eq_true hu

end Shows

/-! ### One pointer -/

private theorem counts_allot (img : Image) (din : Dinode) (k : Fin (NDIRECT + 3)) :
    (allot img din k).1.freeinode = img.freeinode ∧
      (allot img din k).1.freeblock ≤ img.freeblock + 1 := by
  unfold allot
  split
  · exact ⟨rfl, Nat.le_refl _⟩
  · exact ⟨rfl, Nat.le_succ _⟩

/-- Where the new block is on the disk, `allot` does what the kernel does to an entry of
`addrs`. -/
private theorem root_allot (hr : Ready sb ip s) (hs : Shows sb img s)
    (hdin : (s.icache ip).toDinode = din) (k : Fin (NDIRECT + 3)) :
    ((allot img din k).2.addrs k < sb.size →
      ∃ t, root sb s ip k = .ok (t, (allot img din k).2.addrs k) ∧
        Shows sb (allot img din k).1 t ∧ (t.icache ip).toDinode = (allot img din k).2) ∧
      (sb.size ≤ (allot img din k).2.addrs k → sb.size ≤ img.freeblock) := by
  subst hdin
  have hroot := pos_root hr.inUse k
  unfold allot root
  dsimp only
  split
  · next hz =>
    dsimp only
    rw [update_self]
    refine ⟨?_, id⟩
    intro hlt
    obtain ⟨t, ht, hic, hshow⟩ := hs.balloc hlt
    rw [ht]
    refine ⟨_, rfl, hshow.congr (blocks_setInode _ _), ?_⟩
    rw [icache_setInode_self, hic]
  · next hz =>
    have hrange := hs.pos_range hr Lib.mem_positions_nil (by rwa [hroot])
    rw [hroot] at hrange
    refine ⟨fun _ ↦ ⟨s, rfl, hs, rfl⟩, ?_⟩
    intro hle
    have hle' : sb.size ≤ (s.icache ip).addrs k := hle
    have hsize := hs.le
    omega

/-- The part of `sector` that maps entry `j` of the indirect block at `bno`. -/
private def assign (img : Image) (bno j : Nat) : Image × Nat :=
  let indirect := img.blocks bno
  if indirect.word j = 0 then
    let indirect := indirect.setWord j img.freeblock
    (wsect { img with freeblock := img.freeblock + 1 } bno indirect, indirect.word j)
  else
    (img, indirect.word j)

private theorem counts_assign (img : Image) (bno j : Nat) :
    (assign img bno j).1.freeinode = img.freeinode ∧
      (assign img bno j).1.freeblock ≤ img.freeblock + 1 := by
  unfold assign
  dsimp only
  split
  · exact ⟨rfl, Nat.le_refl _⟩
  · exact ⟨rfl, Nat.le_succ _⟩

/-- Where the new block is on the disk, `assign` does what the kernel does to an entry of an
indirect block. -/
private theorem entry_assign (hr : Ready sb ip s) (hs : Shows sb img s) {r : Root} {p : List Nat}
    {j : Nat} (hP : (r, j :: p) ∈ Places) (hx : pos sb ip s (r, p) ≠ 0) {bno : Nat}
    (hbno : bno = pos sb ip s (r, p)) :
    ((assign img bno j).2 < sb.size →
      ∃ t, entry sb s bno j = .ok (t, (assign img bno j).2) ∧
        Shows sb (assign img bno j).1 t ∧ t.icache = s.icache) ∧
      (sb.size ≤ (assign img bno j).2 → sb.size ≤ img.freeblock) := by
  have hentry := pos_entry (i := j) hx
  obtain ⟨hlo, hhi⟩ := hs.pos_range hr (Lib.mem_positions_parent hP) hx
  rw [← hbno] at hentry hlo hhi
  have hblk : img.blocks bno = s.blocks bno := (hs.blocks bno (by omega)).symm
  have hsize := sb.size_lt
  have hword : ((s.blocks bno).setWord j img.freeblock).word j = img.freeblock := by
    apply Block.word_setWord_same _ _ _ (Lib.head_lt_of_mem_positions hP)
    have hle := hs.le
    omega
  unfold assign entry
  dsimp only
  rw [hblk]
  split
  · next hz =>
    dsimp only
    rw [hword]
    refine ⟨?_, id⟩
    intro hlt
    obtain ⟨t, ht, hic, hshow⟩ := hs.balloc hlt
    have hkeep : t.blocks bno = s.blocks bno := by
      rw [hshow.blocks bno (by omega)]
      exact hblk
    rw [ht]
    refine ⟨_, rfl, ?_, hic⟩
    rw [hkeep]
    exact hshow.write (Or.inr hlo) (Nat.lt_succ_of_lt hhi) _
  · next hz =>
    have hrange := hs.pos_range hr hP (by rwa [hentry])
    rw [hentry] at hrange
    refine ⟨fun _ ↦ ⟨s, rfl, hs, rfl⟩, ?_⟩
    intro hle
    have hle' := hs.le
    omega

/-! ### The block of a file -/

/-- The place of the indirect block. -/
private def single : Fin (NDIRECT + 3) := ⟨NDIRECT, single_lt⟩

private theorem sector_direct {fbn : Nat} (h : fbn < NDIRECT) :
    sector sb img din fbn = .ok ((allot img din ⟨fbn, direct_lt h⟩).1,
      (allot img din ⟨fbn, direct_lt h⟩).2,
      (allot img din ⟨fbn, direct_lt h⟩).2.addrs ⟨fbn, direct_lt h⟩) := by
  have hmax : fbn < MAXFILE := Nat.lt_trans h (by decide)
  unfold sector
  rw [if_neg (not_not.mpr hmax), dif_pos h]

private theorem sector_single {fbn : Nat} (h : ¬fbn < NDIRECT) (hle : fbn ≤ NDIRECT + NINDIRECT) :
    sector sb img din fbn =
      if (allot img din single).2.addrs single < sb.size then
        if fbn - NDIRECT < NINDIRECT then
          let r := assign (allot img din single).1 ((allot img din single).2.addrs single)
            (fbn - NDIRECT)
          .ok (r.1, (allot img din single).2, r.2)
        else
          .error .bounds
      else
        .error .read := by
  have hmax : fbn < MAXFILE := Nat.lt_of_le_of_lt hle (by decide)
  unfold sector
  rw [if_neg (not_not.mpr hmax), dif_neg h]
  show (rsect sb (allot img din single).1 ((allot img din single).2.addrs single) >>= _) = _
  unfold rsect
  by_cases hlt : (allot img din single).2.addrs single < sb.size
  · rw [if_pos hlt, if_pos hlt]
    by_cases hin : fbn - NDIRECT < NINDIRECT
    · rw [if_pos hin]
      show (if ¬fbn - NDIRECT < NINDIRECT then _ else _) = _
      rw [if_neg (not_not.mpr hin)]
      unfold assign
      dsimp only
      split
      · rfl
      · rfl
    · rw [if_neg hin]
      show (if ¬fbn - NDIRECT < NINDIRECT then _ else _) = _
      rw [if_pos hin]
  · rw [if_neg hlt, if_neg hlt]
    rfl

/-- Up to the block after the single indirect ones, `sector` maps what `bmap` maps. It fails
past the end of the indirect block, and where the image has no room. -/
private theorem sector_spec (hr : Ready sb ip s) (hs : Shows sb img s)
    (hdin : (s.icache ip).toDinode = din) {fbn : Nat} (hle : fbn ≤ NDIRECT + NINDIRECT) :
    Lib.Ensures (sector sb img din fbn)
      (fun e ↦ e = .bounds ∧ NDIRECT + NINDIRECT ≤ fbn ∨ e = .read ∧ sb.size < img.freeblock + 2)
      fun r ↦ fbn < NDIRECT + NINDIRECT ∧
        (r.1.freeinode = img.freeinode ∧ r.1.freeblock ≤ img.freeblock + 2) ∧
        (r.2.2 < sb.size → ∃ t, bmap sb s ip fbn = .ok (t, r.2.2) ∧ Shows sb r.1 t ∧
          (t.icache ip).toDinode = r.2.1) ∧
        (sb.size ≤ r.2.2 → sb.size < img.freeblock + 2) := by
  by_cases hd : fbn < NDIRECT
  · rw [sector_direct hd]
    obtain ⟨hsim, hfull⟩ := root_allot hr hs hdin ⟨fbn, direct_lt hd⟩
    have hcounts := counts_allot img din ⟨fbn, direct_lt hd⟩
    refine ⟨by omega, ⟨hcounts.1, Nat.le_succ_of_le hcounts.2⟩, ?_, ?_⟩
    · rw [bmap, dif_pos hd]
      exact hsim
    · intro hge
      have hlt := hfull hge
      omega
  · rw [sector_single hd hle]
    obtain ⟨hsim, hfull⟩ := root_allot hr hs hdin single
    obtain ⟨hcount, hfree⟩ := counts_allot img din single
    split
    · next hlt =>
      split
      · next hin =>
        -- the indirect block is on the disk, and the entry is looked up in it
        obtain ⟨t, ht, hshow, hdin'⟩ := hsim hlt
        have hreach := (root_spec hr single).of_ok ht
        have hr' := hreach.ready hr
        have hz := hreach.ne_zero
        rw [hreach.at_pos] at hz
        have hP : (((s.icache ip).inum, single), [fbn - NDIRECT]) ∈ Places := by
          refine ⟨Nat.le_refl 1, ?_⟩
          simpa using hin
        obtain ⟨hsim', hfull'⟩ := entry_assign hr' hshow hP hz hreach.at_pos
        obtain ⟨hcount', hfree'⟩ := counts_assign (allot img din single).1
          ((allot img din single).2.addrs single) (fbn - NDIRECT)
        refine ⟨by omega, ⟨hcount'.trans hcount, Nat.le_trans hfree' (Nat.succ_le_succ hfree)⟩,
          ?_, ?_⟩
        · intro hlt'
          obtain ⟨u, hu, hshow', hic⟩ := hsim' hlt'
          refine ⟨u, ?_, hshow', ?_⟩
          · rw [bmap, dif_neg hd]
            dsimp only
            rw [if_pos hin, show (⟨NDIRECT, _⟩ : Fin (NDIRECT + 3)) = single from rfl, ht]
            exact hu
          · rw [hic]
            exact hdin'
        · intro hge
          have hlt' := hfull' hge
          omega
      · next hin => exact Or.inl ⟨rfl, by omega⟩
    · next hge =>
      have hlt := hfull (Nat.not_lt.mp hge)
      exact Or.inr ⟨rfl, by omega⟩

/-! ### The loop of `iappend` -/

/-- A round of the loop that is not the last ends at a block boundary. -/
private theorem next_block {off k m : Nat} (hm : m = min k (BSIZE - off % BSIZE)) (hlt : m < k) :
    (off + m) / BSIZE = off / BSIZE + 1 := by
  have hm' : m = min k (512 - off % 512) := hm
  show (off + m) / 512 = off / 512 + 1
  omega

private theorem round_end (nb : Nat) {off m : Nat} (h : off % BSIZE + m ≤ BSIZE) :
    off + m ≤ max nb (off / BSIZE + 1) * BSIZE := by
  have h' : off % 512 + m ≤ 512 := h
  have hle : off + m ≤ (off / BSIZE + 1) * BSIZE := by
    show off + m ≤ (off / 512 + 1) * 512
    omega
  exact Nat.le_trans hle (Nat.mul_le_mul_right _ (Nat.le_max_right _ _))

/-- Within the capacity, the loop does what the loop of `writei` does. -/
theorem appendLoop_spec (src : Nat → UInt8) {p : List UInt8} {off tot n nb : Nat}
    (hlen : n - tot = p.length) (hsrc : ∀ j, p.getD j 0 = src (tot + j)) (hr : Ready sb ip s)
    (hm : Maps sb ip s nb) (hs : Shows sb img s) (hdin : (s.icache ip).toDinode = din)
    (hoff : off ≤ nb * BSIZE) (hcap : off ≤ capacity) :
    Lib.Ensures (appendLoop sb img din off p)
      (fun e ↦ e = .bounds ∧ capacity < off + p.length ∨ e = .read ∧ 0 < p.length ∧
        sb.size < img.freeblock + 2 * (blocksFor (off + p.length) - off / BSIZE))
      fun r ↦ r.2.2 = off + p.length ∧ off + p.length ≤ capacity ∧
        r.1.freeinode = img.freeinode ∧ ∃ t, writeLoop sb s ip src off tot n = .ok (t, off + p.length) ∧
          Shows sb r.1 t ∧ (t.icache ip).toDinode = r.2.1 := by
  obtain ⟨k, hk⟩ : ∃ k, k = p.length := ⟨_, rfl⟩
  induction k using Nat.strong_induction_on generalizing p off tot nb img din s with
  | h k ih =>
    unfold appendLoop writeLoop
    by_cases hpos : p.length > 0
    · have hmod : off % BSIZE < BSIZE := Nat.mod_lt _ (by decide)
      have hdiv := Nat.div_add_mod' off BSIZE
      have hfbn : off / BSIZE ≤ NDIRECT + NINDIRECT := by
        apply Nat.div_le_of_le_mul
        rwa [Nat.mul_comm]
      have hmax : off / BSIZE < MAXFILE := Nat.lt_of_le_of_lt hfbn (by decide)
      have hle : off / BSIZE ≤ nb := Nat.div_le_of_le_mul (by rwa [Nat.mul_comm] at hoff)
      have hrounds : off / BSIZE < blocksFor (off + p.length) := div_lt_blocksFor (by omega)
      have hn1 : min p.length ((off / BSIZE + 1) * BSIZE - off) =
          min p.length (BSIZE - off % BSIZE) := by
        rw [Nat.add_mul, Nat.one_mul]
        omega
      obtain ⟨m, hmin⟩ : ∃ m, m = min p.length (BSIZE - off % BSIZE) := ⟨_, rfl⟩
      have hm0 : 0 < m := by omega
      have hmk : m ≤ p.length := by omega
      have hchunk : off % BSIZE + m ≤ BSIZE := by omega
      have hskip : off - off / BSIZE * BSIZE = off % BSIZE := by omega
      rw [if_pos hpos, if_pos (show tot < n by omega), hlen]
      dsimp only
      rw [hn1, ← hmin, hskip]
      have hsector := sector_spec hr hs hdin hfbn
      apply Lib.Ensures.bind (hsector.mono (fun r hr ↦ hr) ?_)
      · rintro ⟨img₁, din₁, x⟩ ⟨hin, ⟨hcount, hfree⟩, hsim, hfull⟩
        dsimp only at hcount hfree hsim hfull ⊢
        unfold rsect
        by_cases hx : x < sb.size
        · obtain ⟨t, ht, hshow, hdin₁⟩ := hsim hx
          have hw := (round_spec hr (fun j ↦ src (tot + j)) hm hle hmax hchunk).of_ok ht
          obtain ⟨hkept, -, -, -, hat, hne⟩ := (bmap_spec hr hm hmax hle).of_ok ht
          dsimp only at hw hkept hat hne
          have hrange := hshow.pos_range (hkept.ready hr) (isLeaf_place _ hmax).1 (hat ▸ hne)
          rw [← hat] at hrange
          have hblk : img₁.blocks x = t.blocks x := (hshow.blocks x (by omega)).symm
          have hbytes : (fun j ↦ p.getD j 0) = fun j ↦ src (tot + j) := funext hsrc
          have hsize : off + m ≤ capacity := by
            have h1 : off / 512 < 138 := hin
            have h2 : off % 512 + m ≤ 512 := hchunk
            show off + m ≤ 138 * 512
            omega
          have hend := round_end nb hchunk
          rw [if_pos hx, ht, hbytes, hblk]
          have hdrop : (p.drop m).length = p.length - m := List.length_drop
          have hsum : off + m + (p.length - m) = off + p.length := by omega
          -- the rest of the two loops, from the end of this block or of the bytes
          have hrest := @ih (p.length - m) (by omega)
            (wsect img₁ x ((t.blocks x).splice (off % BSIZE) m fun j ↦ src (tot + j)))
            (logWrite t x ((t.blocks x).splice (off % BSIZE) m fun j ↦ src (tot + j)))
            din₁ (p.drop m) (off + m) (tot + m) (max nb (off / BSIZE + 1)) (by omega)
            (by
              intro j
              rw [List.getD_eq_getElem?_getD, List.getElem?_drop, ← List.getD_eq_getElem?_getD, hsrc,
                Nat.add_assoc])
            (hw.ready hr) hw.maps (hshow.write (Or.inr hrange.1) hrange.2 _) hdin₁ hend hsize
            hdrop.symm
          rw [hdrop, hsum] at hrest
          apply hrest.mono
          · rintro r ⟨hlast, hfits, hsame, hloop⟩
            exact ⟨hlast, hfits, hsame.trans hcount, hloop⟩
          · rintro e (he | ⟨he, hgt, hroom⟩)
            · exact Or.inl he
            · have hnext := next_block hmin (by omega)
              have hfree' : sb.size < img₁.freeblock +
                  2 * (blocksFor (off + p.length) - (off + m) / BSIZE) := hroom
              exact Or.inr ⟨he, hpos, by omega⟩
        · have hlast := hfull (Nat.not_lt.mp hx)
          rw [if_neg hx]
          exact Or.inr ⟨rfl, hpos, by omega⟩
      · rintro e (⟨he, hout⟩ | ⟨he, hroom⟩)
        · refine Or.inl ⟨he, ?_⟩
          have h1 : 138 ≤ off / 512 := hout
          show 138 * 512 < off + p.length
          omega
        · exact Or.inr ⟨he, hpos, by omega⟩
    · have h0 : p.length = 0 := by omega
      rw [if_neg hpos, if_neg (by omega), h0]
      exact ⟨rfl, hcap, rfl, s, rfl, hs, hdin⟩

end

end Xv6.Mkfs
