import Xv6.Fs.Consistent

/-!
# File contents

`readi` and `writei` treat each file as an array of bytes: a write replaces or extends a
range of one file, a read returns a range, whatever regions of the address tree the
blocks lie in and however the range is cut at block boundaries.
-/

namespace Xv6.Fs

open Function

section

variable {sb : Superblock} {ip : Slot} {s t : State}

/-! ### Writing one block -/

/-- Storing into a data block of a file changes that block of that file only. -/
theorem store_spec (hr : Ready sb ip s) {P₀ : Lib.Pos Root} (hP₀ : IsLeaf P₀)
    (hz : pos sb ip s P₀ ≠ 0) {data : Block} (ht : t = logWrite s (pos sb ip s P₀) data) :
    Kept sb ip s t ∧ (∀ P ∈ Places, pos sb ip t P = pos sb ip s P) ∧
      ∀ P, IsLeaf P → ∀ o, byteAt sb ip t P o =
        if P = P₀ then data.byte o else byteAt sb ip s P o := by
  have hrange : sb.nmeta ≤ pos sb ip s P₀ ∧ pos sb ip s P₀ < sb.size :=
    hr.owned.owns.range P₀ hP₀.1 hz
  have hmap := sb.bmapstart_lt
  have hblocks : ∀ x, x ≠ pos sb ip s P₀ → t.blocks x = s.blocks x := by
    intro x hne
    simp [ht, blocks_logWrite, hne]
  have hdisk : ∀ x < sb.bmapstart, t.blocks x = s.blocks x := by
    intro x hlt
    exact hblocks x (by omega)
  have hic : t.icache = s.icache := by rw [ht, icache_logWrite]
  have hlook : ∀ i < sb.ninodes, look sb t ip i = look sb s ip i := by
    intro i hi
    unfold look
    rw [hic, dinode_congr hdisk hi]
  have hpos : ∀ P ∈ Places, pos sb ip t P = pos sb ip s P := by
    intro P hP
    show Lib.ptr (roots sb (look sb t ip)) _ _ _ = _
    rw [roots_congr_eq hlook]
    apply Lib.ptr_congr rfl _ hP
    intro i p hp hpz
    have hne : pos sb ip s (P.1, p) ≠ pos sb ip s P₀ := by
      intro he
      have heq := hr.owned.owns.sep (P.1, p) (Lib.mem_positions_parent hp) P₀ hP₀.1 he hpz
      rw [← heq] at hP₀
      have hlen : p.length = levels P.1.2 := hP₀.2
      have hdeep : (i :: p).length ≤ levels P.1.2 := hp.1
      rw [List.length_cons] at hdeep
      omega
    exact congrArg (fun blk ↦ blk.word i) (hblocks _ hne)
  refine ⟨⟨?_, hdisk, fun iq _ ↦ by rw [hic], ⟨(s.icache ip).addrs, by rw [hic]⟩,
    fun P hP _ ↦ hpos P hP⟩, hpos, ?_⟩
  · have hused : ∀ x < sb.size, used sb t.blocks x = used sb s.blocks x := by
      intro x hx
      apply used_congr _ hx
      intro y _ hy
      exact hblocks y (by omega)
    constructor
    · apply hr.owned.owns.congr hpos
      intro b _ hb
      rw [hused b hb]
    · intro b hm hb
      rw [hused b hb]
      exact hr.owned.reserved b hm hb
  · intro P hP o
    unfold byteAt
    rw [hpos P hP.1]
    by_cases he : P = P₀
    · subst he
      rw [if_neg hz, if_pos rfl, ht, blocks_logWrite, update_self]
    · rw [if_neg he]
      by_cases hPz : pos sb ip s P = 0
      · rw [if_pos hPz, if_pos hPz]
      · have hne : pos sb ip s P ≠ pos sb ip s P₀ := fun h ↦
          he (hr.owned.owns.sep P hP.1 P₀ hP₀.1 h hPz)
        rw [if_neg hPz, if_neg hPz, hblocks _ hne]

/-! ### The loop of `writei` -/

/-- Byte `j` of file `i`; zero where no block is mapped. -/
def fileByte (sb : Superblock) (ip : Slot) (s : State) (i j : Nat) : UInt8 :=
  byteAt sb ip s (place i (j / BSIZE)) (j % BSIZE)

/-- A byte position is in one block of the file, at one offset. -/
private theorem chunk_iff {off m j : Nat} (hm : off % BSIZE + m ≤ BSIZE) :
    (j / BSIZE = off / BSIZE ∧ off % BSIZE ≤ j % BSIZE ∧ j % BSIZE < off % BSIZE + m) ↔
      off ≤ j ∧ j < off + m := by
  have hm' : off % 512 + m ≤ 512 := hm
  show (j / 512 = off / 512 ∧ off % 512 ≤ j % 512 ∧ j % 512 < off % 512 + m) ↔ _
  omega

/-- The bytes `[off, off + n)` of the inode of `ip` have been replaced by those of `src`, its
first `nb` blocks are mapped, and every other file is unchanged. -/
structure Wrote (sb : Superblock) (ip : Slot) (src : Nat → UInt8) (off n nb : Nat)
    (s t : State) : Prop extends Kept sb ip s t where
  maps : Maps sb ip t nb
  foreign : ∀ P ∈ Places, P.1.1 ≠ (s.icache ip).inum → (pos sb ip t P ≠ 0 ↔ pos sb ip s P ≠ 0)
  bytes : ∀ i j, j < MAXFILE * BSIZE → fileByte sb ip t i j =
    if i = (s.icache ip).inum ∧ off ≤ j ∧ j < off + n then src (j - off) else fileByte sb ip s i j

private theorem Wrote.refl {src : Nat → UInt8} {off nb : Nat} (hr : Ready sb ip s)
    (hm : Maps sb ip s nb) : Wrote sb ip src off 0 nb s s where
  toKept := Kept.refl hr
  maps := hm
  foreign := fun _ _ _ ↦ Iff.rfl
  bytes := by
    intro i j _
    rw [if_neg (by omega)]

private theorem Wrote.trans {src src' : Nat → UInt8} {off m n nb nb' : Nat} {u : State}
    (h : Wrote sb ip src off m nb s t) (h' : Wrote sb ip src' (off + m) n nb' t u)
    (hsrc : ∀ j, src' j = src (m + j)) : Wrote sb ip src off (m + n) nb' s u where
  toKept := h.toKept.trans h'.toKept
  maps := h'.maps
  foreign := by
    intro P hP hne
    rw [h'.foreign P hP (by rwa [h.inum_eq]), h.foreign P hP hne]
  bytes := by
    intro i j hj
    rw [h'.bytes i j hj, h.bytes i j hj, h.inum_eq]
    by_cases hi : i = (s.icache ip).inum
    · by_cases h1 : off + m ≤ j ∧ j < off + m + n
      · rw [if_pos ⟨hi, h1⟩, if_pos ⟨hi, by omega⟩, hsrc]
        congr 1
        omega
      · rw [if_neg fun h ↦ h1 h.2]
        by_cases h2 : off ≤ j ∧ j < off + m
        · rw [if_pos ⟨hi, h2⟩, if_pos ⟨hi, by omega⟩]
        · rw [if_neg fun h ↦ h2 h.2, if_neg (by omega)]
    · rw [if_neg fun h ↦ hi h.1, if_neg fun h ↦ hi h.1, if_neg fun h ↦ hi h.1]

/-- One round of the loop: the block is mapped and part of it overwritten. -/
theorem round_spec (hr : Ready sb ip s) (src : Nat → UInt8) {off m nb : Nat}
    (hm : Maps sb ip s nb) (hoff : off / BSIZE ≤ nb) (hbn : off / BSIZE < MAXFILE)
    (hchunk : off % BSIZE + m ≤ BSIZE) :
    Lib.Ensures (bmap sb s ip (off / BSIZE)) (· = .outOfBlocks) fun r ↦
      Wrote sb ip src off m (max nb (off / BSIZE + 1)) s
        (logWrite r.1 r.2 ((r.1.blocks r.2).splice (off % BSIZE) m src)) := by
  apply (bmap_spec hr hm hbn hoff).imp
  rintro ⟨s₁, a⟩ ⟨hk, hm₁, hf, hb, ha, hz⟩
  dsimp only at hk hm₁ hf hb ha hz ⊢
  have hr₁ := hk.ready hr
  have hleaf := isLeaf_place (s.icache ip).inum hbn
  subst ha
  obtain ⟨hk₂, hpos, hbytes⟩ := store_spec hr₁ hleaf hz rfl
  constructor
  · exact hk.trans hk₂
  · intro k q hq
    rw [hk₂.inum_eq] at hq ⊢
    rw [hpos _ hq]
    exact hm₁ k q hq
  · intro P hP hne
    rw [hpos P hP]
    exact hf P hP hne
  · intro i j hj
    have hjb : j / BSIZE < MAXFILE := Nat.div_lt_of_lt_mul (by rwa [Nat.mul_comm] at hj)
    have hjl := isLeaf_place i hjb
    have hold : fileByte sb ip s i j = byteAt sb ip s₁ (place i (j / BSIZE)) (j % BSIZE) :=
      (hb _ hjl _).symm
    rw [fileByte, hbytes _ hjl, hold]
    by_cases he : place i (j / BSIZE) = place (s.icache ip).inum (off / BSIZE)
    · obtain ⟨hi, hd⟩ := (place_inj hjb hbn).mp he
      rw [if_pos he, Block.byte_splice _ _ _ _ _ hchunk, he]
      by_cases hin : off % BSIZE ≤ j % BSIZE ∧ j % BSIZE < off % BSIZE + m
      · have hj' := (chunk_iff hchunk).mp ⟨hd, hin⟩
        rw [if_pos hin, if_pos ⟨hi, hj'⟩]
        congr 1
        have h1 := Nat.div_add_mod j BSIZE
        have h2 := Nat.div_add_mod off BSIZE
        rw [hd] at h1
        omega
      · rw [if_neg hin, if_neg fun h ↦ hin ((chunk_iff hchunk).mpr h.2).2, byteAt, if_neg hz]
    · rw [if_neg he, if_neg]
      rintro ⟨hi, hin⟩
      exact he ((place_inj hjb hbn).mpr ⟨hi, ((chunk_iff hchunk).mpr hin).1⟩)

/-- The loop of `writei` from offset `off` with `n - tot` bytes to go. -/
theorem writeLoop_spec (src : Nat → UInt8) {n : Nat} (k : Nat) {off : Nat} (tot : Nat)
    {nb : Nat} (hk : n - tot = k) (hr : Ready sb ip s) (hm : Maps sb ip s nb) (hoff : off ≤ nb * BSIZE)
    (hmax : off + k ≤ MAXFILE * BSIZE) :
    Lib.Ensures (writeLoop sb s ip src off tot n) (· = .outOfBlocks) fun r ↦
      r.2 = off + k ∧
        Wrote sb ip (fun j ↦ src (tot + j)) off k (max nb (blocksFor (off + k))) s r.1 := by
  induction k using Nat.strong_induction_on generalizing s off tot nb with
  | h k ih =>
    unfold writeLoop
    split
    · next hlt =>
      have hmod : off % BSIZE < BSIZE := Nat.mod_lt _ (by decide)
      have hdiv : off / BSIZE < MAXFILE := by
        apply Nat.div_lt_of_lt_mul
        rw [Nat.mul_comm]
        omega
      obtain ⟨m, hmin⟩ : ∃ m, m = min (n - tot) (BSIZE - off % BSIZE) := ⟨_, rfl⟩
      have hm0 : 0 < m := by omega
      have hmk : m ≤ k := by omega
      have hchunk : off % BSIZE + m ≤ BSIZE := by omega
      have hle : off / BSIZE ≤ nb := Nat.div_le_of_le_mul (by rwa [Nat.mul_comm] at hoff)
      rw [← hmin]
      apply Lib.Ensures.bind (round_spec hr (fun j ↦ src (tot + j)) hm hle hdiv hchunk)
      rintro ⟨s₁, a⟩ hw
      -- the rest of the loop, from the end of this block or of the data
      have hend : off + m ≤ max nb (off / BSIZE + 1) * BSIZE := by
        have h1 := Nat.div_add_mod off BSIZE
        have h2 : (off / BSIZE + 1) * BSIZE ≤ max nb (off / BSIZE + 1) * BSIZE :=
          Nat.mul_le_mul_right _ (Nat.le_max_right _ _)
        rw [Nat.add_mul, Nat.one_mul, Nat.mul_comm] at h2
        omega
      have hrest := ih (k - m) (by omega) (tot + m) (by omega) (hw.ready hr) hw.maps hend (by omega)
      apply hrest.imp
      rintro r ⟨hlast, hw'⟩
      refine ⟨by omega, ?_⟩
      have hnb : max (max nb (off / BSIZE + 1)) (blocksFor (off + m + (k - m))) =
          max nb (blocksFor (off + k)) := by
        have hle' : off / BSIZE < blocksFor (off + k) := div_lt_blocksFor (by omega)
        rw [show off + m + (k - m) = off + k by omega]
        omega
      rw [hnb] at hw'
      have htrans := hw.trans hw' fun j ↦ by rw [Nat.add_assoc]
      rwa [Nat.add_sub_cancel' hmk] at htrans
    · next hge =>
      have hk0 : k = 0 := by omega
      subst hk0
      refine ⟨rfl, ?_⟩
      have hnb : max nb (blocksFor (off + 0)) = nb := Nat.max_eq_left (blocksFor_le hoff)
      rw [hnb]
      exact Wrote.refl hr hm

/-! ### The loop of `readi` -/

/-- The loop of `readi` over mapped blocks returns the bytes and changes nothing. -/
private theorem readLoop_eq {n : Nat} (k off tot : Nat) (dst : List UInt8)
    (hk : n - tot = k) (hu : InUse sb ip s) (hmax : off + k ≤ MAXFILE * BSIZE)
    (hmap : ∀ bn, bn < MAXFILE → bn < blocksFor (off + k) →
      pos sb ip s (place (s.icache ip).inum bn) ≠ 0) :
    readLoop sb s ip off tot n dst = .ok (s, dst ++
      (List.range k).map fun j ↦ fileByte sb ip s (s.icache ip).inum (off + j)) := by
  induction k using Nat.strong_induction_on generalizing off tot dst with
  | h k ih =>
    unfold readLoop
    split
    · next hlt =>
      have hmod : off % BSIZE < BSIZE := Nat.mod_lt _ (by decide)
      have hdiv : off / BSIZE < MAXFILE := by
        apply Nat.div_lt_of_lt_mul
        rw [Nat.mul_comm]
        omega
      have hneed : off / BSIZE < blocksFor (off + k) := div_lt_blocksFor (by omega)
      have hz := hmap _ hdiv hneed
      obtain ⟨m, hmin⟩ : ∃ m, m = min (n - tot) (BSIZE - off % BSIZE) := ⟨_, rfl⟩
      have hm0 : 0 < m := by omega
      have hmk : m ≤ k := by omega
      have hchunk : off % BSIZE + m ≤ BSIZE := by omega
      rw [← hmin, bmap_of_mapped hu hdiv hz]
      have hbytes : ((List.range m).map fun j ↦
          (s.blocks (pos sb ip s (place (s.icache ip).inum (off / BSIZE)))).byte
            (off % BSIZE + j)) =
          (List.range m).map fun j ↦ fileByte sb ip s (s.icache ip).inum (off + j) := by
        apply List.map_congr_left
        intro j hj
        have hjm := List.mem_range.mp hj
        obtain ⟨hd, h1, h2⟩ := (chunk_iff (j := off + j) hchunk).mpr (by omega)
        have ho : (off + j) % BSIZE = off % BSIZE + j := by
          have e1 := Nat.div_add_mod (off + j) BSIZE
          have e2 := Nat.div_add_mod off BSIZE
          rw [hd] at e1
          omega
        rw [fileByte, hd, ho, byteAt, if_neg hz]
      have hrest := ih (k - m) (by omega) (off + m) (tot + m)
        (dst ++ (List.range m).map fun j ↦
          fileByte sb ip s (s.icache ip).inum (off + j)) (by omega) (by omega)
        (fun bn hbn hlt ↦ hmap bn hbn (by rwa [show off + m + (k - m) = off + k by omega] at hlt))
      show readLoop sb s ip (off + m) (tot + m) n (dst ++ _) = _
      rw [hbytes, hrest, List.append_assoc]
      congr 3
      have hsplit : k = m + (k - m) := by omega
      conv_rhs => rw [hsplit, List.range_add, List.map_append, List.map_map]
      congr 1
      apply List.map_congr_left
      intro j _
      simp [Nat.add_assoc]
    · next hge =>
      have hk0 : k = 0 := by omega
      subst hk0
      simp

/-! ### Files -/

/-- Byte `j` of file `i` on the disk. -/
def diskByte (sb : Superblock) (blocks : Nat → Block) (i j : Nat) : UInt8 :=
  if diskAt sb blocks (place i (j / BSIZE)) = 0 then 0
  else (blocks (diskAt sb blocks (place i (j / BSIZE)))).byte (j % BSIZE)

/-- The bytes of each inode in use. -/
def files (sb : Superblock) (blocks : Nat → Block) (i : Nat) : List UInt8 :=
  if Live sb blocks i then (List.range (dinode sb blocks i).size).map (diskByte sb blocks i) else []

/-- A file depends on its inode, its positions and the data blocks only. -/
theorem files_congr (h : Consistent sb s) {i : Nat}
    (hd : dinode sb t.blocks i = dinode sb s.blocks i)
    (hdisk : ∀ P ∈ Places, diskAt sb t.blocks P = diskAt sb s.blocks P)
    (hdata : ∀ b, sb.nmeta ≤ b → t.blocks b = s.blocks b) :
    files sb t.blocks i = files sb s.blocks i := by
  have hlive : Live sb t.blocks i ↔ Live sb s.blocks i := by rw [Live, Live, hd]
  unfold files
  by_cases hl : Live sb s.blocks i
  · rw [if_pos hl, if_pos (hlive.mpr hl), hd]
    apply List.map_congr_left
    intro j hj
    have hlt := List.mem_range.mp hj
    have hsmall := h.disk.small i hl
    have hjb : j / BSIZE < MAXFILE := Nat.div_lt_of_lt_mul (by rw [Nat.mul_comm]; omega)
    have hP := (isLeaf_place i hjb).1
    unfold diskByte
    rw [hdisk _ hP]
    by_cases hz : diskAt sb s.blocks (place i (j / BSIZE)) = 0
    · rw [if_pos hz, if_pos hz]
    · rw [if_neg hz, if_neg hz, hdata _ (h.disk.owned.owns.range _ hP hz).1]
  · rw [if_neg hl, if_neg fun hc ↦ hl (hlive.mp hc)]

/-- `data` with the bytes from `off` on replaced, and extended where they go past its end. -/
def overwrite (data : List UInt8) (off : Nat) (bytes : List UInt8) : List UInt8 :=
  data.take off ++ bytes ++ data.drop (off + bytes.length)

theorem length_overwrite {data bytes : List UInt8} {off : Nat} (h : off ≤ data.length) :
    (overwrite data off bytes).length = max data.length (off + bytes.length) := by
  simp only [overwrite, List.length_append, List.length_take, List.length_drop]
  omega

private theorem overwrite_range {size off n : Nat} {old src : Nat → UInt8} (h : off ≤ size) :
    overwrite ((List.range size).map old) off ((List.range n).map src) =
      (List.range (max size (off + n))).map fun j ↦
        if off ≤ j ∧ j < off + n then src (j - off) else old j := by
  apply List.ext_getElem
  · rw [length_overwrite (by simpa using h)]
    simp
  · intro j h1 h2
    simp only [List.length_map, List.length_range] at h2
    simp only [overwrite, List.getElem_map, List.getElem_range, List.getElem_append,
      List.length_append, List.length_take, List.length_map, List.length_range,
      List.getElem_take, List.getElem_drop]
    have hmin : min off size = off := Nat.min_eq_left h
    split
    · split
      · rw [if_neg (by omega)]
      · next hj =>
        rw [if_pos (by omega)]
        congr 1
        omega
    · rw [if_neg (by omega)]
      congr 1
      omega

/-- What `readi` of an array of bytes returns. -/
def readSpec (data : List UInt8) (off n : Nat) : Option (Nat × List UInt8) :=
  if data.length < off ∨ 2 ^ 32 ≤ off + n then none
  else some (min n (data.length - off), (data.drop off).take n)

/-- The range cannot be written to an array of `size` bytes. -/
def WriteFails (size off n : Nat) : Prop :=
  size < off ∨ 2 ^ 32 ≤ off + n ∨ MAXFILE * BSIZE < off + n

instance (size off n : Nat) : Decidable (WriteFails size off n) :=
  inferInstanceAs (Decidable (_ ∨ _))

section Held

variable {off n : UInt32}

private theorem add_lt_iff : off + n < off ↔ 2 ^ 32 ≤ off.toNat + n.toNat := by
  have h1 := off.toNat_lt
  have h2 := n.toNat_lt
  rw [UInt32.lt_iff_toNat_lt, UInt32.toNat_add]
  omega

private theorem toNat_add_eq (h : ¬2 ^ 32 ≤ off.toNat + n.toNat) :
    (off + n).toNat = off.toNat + n.toNat := by
  rw [UInt32.toNat_add]
  omega

/-- `readi` of an inode whose blocks are mapped returns the bytes of the range and changes
nothing. -/
theorem readi_of_mapped (hu : InUse sb ip s) (dev : Devsw) (ht : (s.icache ip).type ≠ T_DEV)
    (hsize : (s.icache ip).size ≤ MAXFILE * BSIZE)
    (hmap : ∀ bn, bn < MAXFILE → bn < blocksFor (s.icache ip).size →
      pos sb ip s (place (s.icache ip).inum bn) ≠ 0) :
    readi sb dev s ip off n = .ok (s, readSpec
      ((List.range (s.icache ip).size).map (fileByte sb ip s (s.icache ip).inum))
      off.toNat n.toNat) := by
  unfold readi readSpec
  rw [List.length_map, List.length_range]
  dsimp only
  rw [if_neg ht]
  by_cases hbad : (s.icache ip).size < off.toNat ∨ 2 ^ 32 ≤ off.toNat + n.toNat
  · rw [if_pos hbad, if_pos]
    rcases hbad with hoff | hwrap
    · exact Or.inl hoff
    · exact Or.inr (add_lt_iff.mpr hwrap)
  · rw [if_neg hbad, if_neg fun hc ↦ hbad (hc.imp id add_lt_iff.mp)]
    obtain ⟨hoff, hwrap⟩ := not_or.mp hbad
    rw [toNat_add_eq hwrap]
    have hcount : (if off.toNat + n.toNat > (s.icache ip).size then (s.icache ip).size - off.toNat
        else n.toNat) = min n.toNat ((s.icache ip).size - off.toNat) := by
      split <;> omega
    rw [hcount]
    have hloop := readLoop_eq (min n.toNat ((s.icache ip).size - off.toNat)) off.toNat 0 []
      (Nat.sub_zero _) hu (by omega) fun bn hbn hlt ↦
        hmap bn hbn (Nat.lt_of_lt_of_le hlt (blocksFor_mono (by omega)))
    rw [hloop]
    have hdrop : (((List.range (s.icache ip).size).map
          (fileByte sb ip s (s.icache ip).inum)).drop off.toNat).take n.toNat =
        (List.range (min n.toNat ((s.icache ip).size - off.toNat))).map fun j ↦
          fileByte sb ip s (s.icache ip).inum (off.toNat + j) := by
      apply List.ext_getElem
      · simp
      · intro j h1 h2
        simp
    rw [hdrop]
    rfl

variable (h : Consistent sb s) (hip : Held s ip)

include h hip

theorem fileByte_eq (i j : Nat) : fileByte sb ip s i j = diskByte sb s.blocks i j := by
  unfold fileByte byteAt diskByte
  rw [h.pos_eq hip]

theorem files_self : files sb s.blocks (s.icache ip).inum =
    (List.range (s.icache ip).size).map (diskByte sb s.blocks (s.icache ip).inum) := by
  rw [files, if_pos (h.live hip), ← h.cache.cached ip hip]

theorem length_files_self : (files sb s.blocks (s.icache ip).inum).length = (s.icache ip).size := by
  rw [files_self h hip, List.length_map, List.length_range]

/-- `readi` of a regular file returns the bytes of the range and changes nothing. -/
theorem readi_spec (dev : Devsw) (ht : (s.icache ip).type ≠ T_DEV) :
    readi sb dev s ip off n =
      .ok (s, readSpec (files sb s.blocks (s.icache ip).inum) off.toNat n.toNat) := by
  have hread := @readi_of_mapped sb ip s off n (h.ready hip).inUse dev ht (h.size_le hip)
    fun bn hbn hlt ↦ ((h.maps hip).place_iff hbn).mpr hlt
  have hbytes := funext (fileByte_eq h hip (s.icache ip).inum)
  rw [hread, files_self h hip, hbytes]

/-- The files after a settled write. -/
private theorem files_settled {src : Nat → UInt8} {o m nb : Nat} {s₁ : State}
    (hw : Wrote sb ip src o m nb s s₁) (ht : Settled sb ip s s₁ t)
    (ho : o ≤ (s.icache ip).size) (hsize : (t.icache ip).size = max (s.icache ip).size (o + m)) :
    files sb t.blocks = update (files sb s.blocks) (s.icache ip).inum
      (overwrite (files sb s.blocks (s.icache ip).inum) o ((List.range m).map src)) := by
  have hbyte : ∀ i j, j < MAXFILE * BSIZE → diskByte sb t.blocks i j =
      if i = (s.icache ip).inum ∧ o ≤ j ∧ j < o + m then src (j - o)
      else diskByte sb s.blocks i j := by
    intro i j hj
    have hjb : j / BSIZE < MAXFILE := Nat.div_lt_of_lt_mul (by rwa [Nat.mul_comm] at hj)
    rw [← fileByte_eq h hip, ← hw.bytes i j hj]
    have hp := ht.diskAt_eq h hip (isLeaf_place i hjb).1
    unfold diskByte fileByte byteAt
    rw [hp]
    by_cases hz : pos sb ip s₁ (place i (j / BSIZE)) = 0
    · rw [if_pos hz, if_pos hz]
    · have hrange := ht.kept.owned.owns.range _ (isLeaf_place i hjb).1 hz
      rw [if_neg hz, if_neg hz, ht.blocks _ (Nat.le_trans sb.bmapstart_lt.le hrange.1)]
  funext i
  by_cases hi : i = (s.icache ip).inum
  · subst hi
    rw [update_self, files_self h hip, overwrite_range ho, files,
      if_pos ((ht.live_iff h hip _).mpr (h.live hip)), ht.dinode_self h hip, hsize]
    apply List.map_congr_left
    intro j hj
    have hlt := List.mem_range.mp hj
    have hmax := ht.size
    rw [hsize] at hmax
    rw [hbyte _ j (by omega)]
    simp
  · rw [update_of_ne hi]
    unfold files
    by_cases hl : Live sb s.blocks i
    · rw [if_pos hl, if_pos ((ht.live_iff h hip i).mpr hl), ht.dinode_other hl.1 hi]
      apply List.map_congr_left
      intro j hj
      have hlt := List.mem_range.mp hj
      have hsmall := h.disk.small i hl
      rw [hbyte i j (by omega), if_neg fun hc ↦ hi hc.1]
    · rw [if_neg hl, if_neg fun hc ↦ hl ((ht.live_iff h hip i).mp hc)]

/-- A call that maps no further block leaves the in-memory inode as it was. -/
private theorem icache_of_maps {s₁ : State} (hk : Kept sb ip s s₁)
    (hm : Maps sb ip s₁ (blocksFor (s.icache ip).size)) : s₁.icache ip = s.icache ip := by
  obtain ⟨addrs, ha⟩ := hk.self
  have hr := h.ready hip
  have hr₁ := hk.ready hr
  have haddrs : addrs = (s.icache ip).addrs := by
    funext k
    have h₁ : pos sb ip s₁ (((s.icache ip).inum, k), []) = addrs k := by
      have hroot := pos_root hr₁.inUse k
      rw [hk.inum_eq] at hroot
      rw [hroot, ha]
    rw [← pos_root hr.inUse k, ← h₁]
    by_cases hz : pos sb ip s (((s.icache ip).inum, k), []) = 0
    · have hn : ¬Needed (blocksFor (s.icache ip).size) k [] := fun hn ↦
        (h.maps hip k [] Lib.mem_positions_nil).mpr hn hz
      have hz₁ := mt (hm k [] Lib.mem_positions_nil).mp hn
      rw [hk.inum_eq, not_not] at hz₁
      rw [hz, hz₁]
    · exact hk.kept _ Lib.mem_positions_nil hz
  rw [ha, haddrs]

/-- The end of `writei` when the file has not grown. -/
theorem settled_same {src : Nat → UInt8} {o m : Nat} {s₁ : State}
    (hw : Wrote sb ip src o m (blocksFor (s.icache ip).size) s s₁) : Settled sb ip s s₁ s₁ := by
  have hsame := icache_of_maps h hip hw.toKept hw.maps
  constructor
  · exact hw.toKept
  · rw [hsame]
    exact hw.maps
  · exact hw.foreign
  · exact fun _ _ ↦ rfl
  · intro i hi
    rw [dinode_congr hw.disk hi, hsame]
    split
    · next he => rw [he, h.cache.cached ip hip]
    · rfl
  · rfl
  · rw [hsame]
  · rw [hsame]
    exact h.size_le hip
  · rw [hsame]
  · rw [Held, hsame]
    exact hip
  · exact hw.others

/-- The end of `writei` when the file has grown to `e` bytes. -/
theorem settled_grown {src : Nat → UInt8} {o m e : Nat} {s₁ : State}
    (hw : Wrote sb ip src o m (blocksFor e) s s₁) (he : e ≤ MAXFILE * BSIZE)
    (ht : t = iupdate sb (setInode s₁ ip { s₁.icache ip with size := e }) ip) :
    Settled sb ip s s₁ t ∧ (t.icache ip).size = e := by
  have hic : t.icache ip = { s₁.icache ip with size := e } := by
    rw [ht, icache_iupdate, icache_setInode_self]
  have hinum : (s₁.icache ip).inum < sb.ninodes := (hw.ready (h.ready hip)).inum
  have hheld : Held s₁ ip := by
    obtain ⟨addrs, ha⟩ := hw.self
    rw [Held, ha]
    exact hip
  refine ⟨⟨hw.toKept, ?_, hw.foreign, ?_, ?_, ?_, ?_, ?_, ?_, ?_, ?_⟩, by rw [hic]⟩
  · rw [hic]
    exact hw.maps
  · intro b hb
    rw [ht, blocks_iupdate _ hb, blocks_setInode]
    rwa [icache_setInode_self]
  · intro i hi
    have hlt : e < 2 ^ 32 := Nat.lt_of_le_of_lt he (by decide)
    rw [hic, ht, dinode_iupdate]
    · rw [icache_setInode_self, blocks_setInode, dinode_congr hw.disk hi]
      dsimp only
      rw [hw.inum_eq]
    · rwa [icache_setInode_self]
    · rw [icache_setInode_self]
      exact (hw.ready (h.ready hip)).addrs_lt
  · rw [hic]
  · rw [hic]
    exact hw.type_eq
  · rw [hic]
    exact he
  · rw [hic]
    exact hw.inum_eq
  · rw [Held, hic]
    exact hheld
  · intro iq hne
    rw [ht, icache_iupdate, icache_setInode_ne hne, hw.others iq hne]

omit h hip in
/-- `writei` of a device leaves the disk alone. -/
theorem writei_dev (sb : Superblock) (dev : Devsw) (ht : (s.icache ip).type = T_DEV)
    (src : Nat → UInt8) (off n : UInt32) : ∃ r, writei sb dev s ip src off n = .ok (s, r) := by
  unfold writei
  dsimp only
  rw [if_pos ht]
  split
  · exact ⟨none, rfl⟩
  · split
    · exact ⟨none, rfl⟩
    · exact ⟨_, rfl⟩

omit h hip in
/-- `writei` of a range that cannot be written changes nothing. -/
theorem writei_fails (dev : Devsw) (ht : (s.icache ip).type ≠ T_DEV) (src : Nat → UInt8)
    (hf : WriteFails (s.icache ip).size off.toNat n.toNat) :
    writei sb dev s ip src off n = .ok (s, none) := by
  unfold writei
  dsimp only
  rw [if_neg ht]
  by_cases hbad : off.toNat > (s.icache ip).size ∨ off + n < off
  · rw [if_pos hbad]
  · obtain ⟨hoff, hwrap⟩ := not_or.mp hbad
    have hwrap' := mt add_lt_iff.mpr hwrap
    rw [if_neg hbad, toNat_add_eq hwrap', if_pos]
    rcases hf with hf | hf | hf
    · exact absurd hf hoff
    · exact absurd hf hwrap'
    · exact hf

omit h hip in
/-- `writei` of a range that can be written fails when its loop does. -/
theorem writei_error (dev : Devsw) (ht : (s.icache ip).type ≠ T_DEV) (src : Nat → UInt8)
    (hf : ¬WriteFails (s.icache ip).size off.toNat n.toNat) {e : Panic}
    (hloop : writeLoop sb s ip src off.toNat 0 n.toNat = .error e) :
    writei sb dev s ip src off n = .error e := by
  obtain ⟨hoff, hwrap, hmax⟩ : off.toNat ≤ (s.icache ip).size ∧
      ¬2 ^ 32 ≤ off.toNat + n.toNat ∧ off.toNat + n.toNat ≤ MAXFILE * BSIZE := by
    unfold WriteFails at hf
    omega
  unfold writei
  dsimp only
  rw [if_neg ht, if_neg (not_or.mpr ⟨by omega, mt add_lt_iff.mp hwrap⟩), toNat_add_eq hwrap,
    if_neg (by omega), hloop]
  rfl

omit h hip in
/-- `writei` of a range that can be written ends with the inode, if the file has grown. -/
theorem writei_of_loop (dev : Devsw) (ht : (s.icache ip).type ≠ T_DEV) (src : Nat → UInt8)
    (hf : ¬WriteFails (s.icache ip).size off.toNat n.toNat) {e : Nat}
    (hloop : writeLoop sb s ip src off.toNat 0 n.toNat = .ok (t, e)) :
    writei sb dev s ip src off n =
      if n.toNat > 0 ∧ e > (t.icache ip).size then
        .ok (iupdate sb (setInode t ip { t.icache ip with size := e }) ip, some n.toNat)
      else
        .ok (t, some n.toNat) := by
  obtain ⟨hoff, hwrap, hmax⟩ : off.toNat ≤ (s.icache ip).size ∧
      ¬2 ^ 32 ≤ off.toNat + n.toNat ∧ off.toNat + n.toNat ≤ MAXFILE * BSIZE := by
    unfold WriteFails at hf
    omega
  unfold writei
  dsimp only
  rw [if_neg ht, if_neg (not_or.mpr ⟨by omega, mt add_lt_iff.mp hwrap⟩), toNat_add_eq hwrap,
    if_neg (by omega), hloop]
  rfl

/-- `writei` of a range that can be written overwrites it, returns its length and leaves the
file system consistent. -/
theorem writei_spec (dev : Devsw) (ht : (s.icache ip).type ≠ T_DEV) (src : Nat → UInt8)
    (hf : ¬WriteFails (s.icache ip).size off.toNat n.toNat) :
    Lib.Ensures (writei sb dev s ip src off n) (· = .outOfBlocks) fun r ↦
      r.2 = some n.toNat ∧ Consistent sb r.1 ∧
      files sb r.1.blocks = update (files sb s.blocks) (s.icache ip).inum
        (overwrite (files sb s.blocks (s.icache ip).inum) off.toNat
          ((List.range n.toNat).map src)) ∧
      ∃ s₁, Settled sb ip s s₁ r.1 := by
  obtain ⟨hoff, hwrap, hmax⟩ : off.toNat ≤ (s.icache ip).size ∧
      ¬2 ^ 32 ≤ off.toNat + n.toNat ∧ off.toNat + n.toNat ≤ MAXFILE * BSIZE := by
    unfold WriteFails at hf
    omega
  have hsize := h.size_le hip
  unfold writei
  dsimp only
  rw [if_neg ht, if_neg (not_or.mpr ⟨by omega, mt add_lt_iff.mp hwrap⟩), toNat_add_eq hwrap,
    if_neg (by omega)]
  have hloop := writeLoop_spec src n.toNat 0 (Nat.sub_zero _) (h.ready hip) (h.maps hip)
    (Nat.le_trans hoff (le_blocksFor _)) hmax
  simp only [Nat.zero_add] at hloop
  apply Lib.Ensures.bind hloop
  rintro ⟨s₁, e⟩ ⟨he, hw⟩
  dsimp only at he hw ⊢
  subst he
  have hsz : (s₁.icache ip).size = (s.icache ip).size := hw.size_eq
  rw [hsz]
  by_cases hgrow : n.toNat > 0 ∧ off.toNat + n.toNat > (s.icache ip).size
  · rw [if_pos hgrow]
    have hnb := Nat.max_eq_right (blocksFor_mono (Nat.le_of_lt hgrow.2))
    rw [hnb] at hw
    obtain ⟨hset, hlen⟩ := settled_grown h hip hw hmax rfl
    refine ⟨rfl, hset.consistent h hip, ?_, s₁, hset⟩
    apply files_settled h hip hw hset hoff
    rw [hlen]
    omega
  · rw [if_neg hgrow]
    have hle : off.toNat + n.toNat ≤ (s.icache ip).size := by omega
    have hnb := Nat.max_eq_left (blocksFor_mono hle)
    rw [hnb] at hw
    have hset := settled_same h hip hw
    refine ⟨rfl, hset.consistent h hip, ?_, s₁, hset⟩
    apply files_settled h hip hw hset hoff
    omega

end Held

end

end Xv6.Fs
