import Xv6.Fs.Chunk
import Xv6.Fs.Truncate

/-!
# Files on a fresh disk

As long as no file is deleted the free blocks are the ones from some block on, and a file that grows
takes the next ones. Deleting a file puts its blocks in front.
-/

namespace Xv6.Fs

open Function

section

variable {sb : Superblock} {dev : Devsw} {s t : State} {ip : Slot} {i nb nb' p : Nat}

/-! ### The size of a file in blocks -/

/-- The blocks that the first `nb` blocks of a file take, with the indirect blocks for them, up to
the triple indirect region. -/
def need (nb : Nat) : Nat :=
  if nb ≤ NDIRECT then nb
  else if nb ≤ NDIRECT + NINDIRECT then nb + 1
  else nb + 2 + (nb - NDIRECT - 1) / NINDIRECT

theorem need_succ (h : nb < firstTriple) : need (nb + 1) = need nb + 1 + opened nb := by
  have hN : NINDIRECT = 128 := rfl
  have hD : NDINDIRECT = 16384 := rfl
  have hT : firstTriple = NDIRECT + 128 + 16384 := rfl
  unfold need opened
  rw [hN, hD]
  rw [hT] at h
  dsimp only
  split_ifs <;> omega

theorem length_growth (hle : nb ≤ nb') (h : nb' ≤ firstTriple) :
    need nb + (growth i nb nb').length = need nb' := by
  have hT : firstTriple < MAXFILE := by decide
  induction nb', hle using Nat.le_induction with
  | base => rw [growth, Nat.sub_self]; rfl
  | succ nb' hle ih =>
    have hlast : (growth i nb' (nb' + 1)).length = opened nb' + 1 := by
      rw [growth, Nat.add_sub_cancel_left, List.range'_one, List.flatMap_singleton,
        length_newPlaces (by omega)]
    have hfirst := ih (by omega)
    rw [← growth_append hle (Nat.le_succ nb'), List.length_append, hlast, need_succ (by omega)]
    omega

/-! ### Empty files -/

/-- An inode of a file that is open once and has no links. -/
def fileInode (i size : Nat) (addrs : Fin (NDIRECT + 3) → Nat) : Inode :=
  { Dinode.fresh 2 with size, addrs, inum := i, ref := 1, valid := true }

/-- Inode `i` is allocated as an empty file, in slot `ip`. -/
def openFile (sb : Superblock) (s : State) (i : Nat) (ip : Slot) : State :=
  setInode (logWrite s (sb.IBLOCK i)
    (writeDinode (s.blocks (sb.IBLOCK i)) (i % IPB) (Dinode.fresh 2))) ip
    (fileInode i 0 fun _ ↦ 0)

theorem openFile_dinode (s : State) (ip : Slot) (j : Nat) :
    dinode sb (openFile sb s i ip).blocks j =
      if j = i then Dinode.fresh 2 else dinode sb s.blocks j :=
  dinode_seed rfl (fun _ ↦ rfl) rfl j

theorem openFile_consistent (h : Consistent sb s) (hi : i < sb.ninodes)
    (hfree : (dinode sb s.blocks i).type = 0)
    (hslots : ∀ iq, iq ≠ ip → 0 < (s.icache iq).ref → (s.icache iq).inum ≠ i) :
    Consistent sb (openFile sb s i ip) := by
  apply (h.fresh hi hfree 2).setInode
  intro _
  refine ⟨hi, hslots, fun _ ↦ ⟨?_, show (2 : Int16) ≠ 0 by decide⟩⟩
  exact ((@dinode_seed sb s _ i _ rfl (fun _ ↦ rfl) rfl i).trans (if_pos rfl)).symm

theorem openFile_free (hi : i < sb.ninodes) :
    freeBlocks sb (openFile sb s i ip).blocks = freeBlocks sb s.blocks := by
  apply freeBlocks_congr
  intro b hb
  apply used_congr _ hb
  intro x hx _
  exact blocks_seed hi rfl hx

theorem freeBlocks_emptyFs (sb : Superblock) :
    freeBlocks sb (emptyFs sb).blocks = List.range' sb.nmeta (sb.size - sb.nmeta) := by
  have hused : ∀ b, used sb (emptyFs sb).blocks b = decide (b < sb.nmeta) := by
    intro b
    have h0 : used sb (fun _ ↦ Block.zero) b = false := Block.bit_zero _
    show used sb (emptyDisk sb) b = _
    rw [emptyDisk, used_markUsed, h0, Bool.or_false]
  apply List.Pairwise.eq_of_mem_iff (r := (· < ·))
  · exact List.pairwise_lt_range.sublist List.filter_sublist
  · exact List.pairwise_lt_range'
  · intro b
    rw [mem_freeBlocks, hused, decide_eq_false_iff_not, List.mem_range'_1]
    omega

/-! ### Growing -/

/-- `t` follows `s`: slot `ip` has grown to `nb` blocks, into the `c` free blocks from `p` on. -/
structure Follows (sb : Superblock) (ip : Slot) (i nb p c : Nat) (s t : State) : Prop where
  consistent : Consistent sb t
  self : ∃ addrs, t.icache ip = fileInode i (nb * BSIZE) addrs
  others : ∀ iq, iq ≠ ip → t.icache iq = s.icache iq
  free : freeBlocks sb t.blocks = List.range' (p + c) (sb.size - (p + c))
  kept : ∀ P ∈ Places, diskAt sb s.blocks P ≠ 0 → diskAt sb t.blocks P = diskAt sb s.blocks P

theorem held_fileInode {size : Nat} {addrs : Fin (NDIRECT + 3) → Nat}
    (h : s.icache ip = fileInode i size addrs) : Held s ip := by
  rw [Held, h]
  exact ⟨Nat.one_pos, rfl⟩

/-- A write of whole blocks at the end of a file takes the next free blocks, in the order of the new
positions. -/
theorem writei_fresh (dev : Devsw) (src : Nat → UInt8) (h : Consistent sb s)
    {addrs : Fin (NDIRECT + 3) → Nat} (hip : s.icache ip = fileInode i (nb * BSIZE) addrs)
    (hfree : freeBlocks sb s.blocks = List.range' p (sb.size - p)) (hle : nb ≤ nb')
    (hmax : nb' ≤ firstTriple) (hroom : p + (need nb' - need nb) ≤ sb.size) {off n : UInt32}
    (hoff : off.toNat = nb * BSIZE) (hn : n.toNat = (nb' - nb) * BSIZE) :
    ∃ t, writei sb dev s ip src off n = .ok (t, some n.toNat) ∧
      Follows sb ip i nb' p (need nb' - need nb) s t ∧
      (growth i nb nb').map (diskAt sb t.blocks) = List.range' p (need nb' - need nb) := by
  have hB : BSIZE = 512 := rfl
  have hT : firstTriple = 16522 := rfl
  have hM : MAXFILE * BSIZE = 1082201088 := rfl
  have hheld := held_fileInode hip
  have hsize : (s.icache ip).size = nb * BSIZE := by rw [hip]; rfl
  have hinum : (s.icache ip).inum = i := by rw [hip]; rfl
  have htype : (s.icache ip).type ≠ T_DEV := by
    rw [hip]
    show (2 : Int16) ≠ 3
    decide
  have hsum : off.toNat + n.toNat = nb' * BSIZE := by
    rw [hoff, hn, hB]
    omega
  have hf : ¬WriteFails (s.icache ip).size off.toNat n.toNat := by
    unfold WriteFails
    rw [hsum, hsize, hoff, hM, hB]
    omega
  have hblocks : ∀ m, blocksFor (m * BSIZE) = m := by
    intro m
    unfold blocksFor
    rw [hB]
    omega
  have hlen := length_growth (i := i) hle hmax
  have htook := writei_took h hheld dev htype src hf
  have hspec := writei_spec h hheld dev htype src hf
  rw [hinum, hsize, hblocks, hsum] at htook
  cases hw : writei sb dev s ip src off n with
  | error e =>
    rw [hw] at htook
    obtain ⟨-, hshort⟩ := htook
    rw [taken_chunk hoff.le, hsum, hblocks, Nat.max_eq_right hle, hfree, List.length_range'] at hshort
    omega
  | ok r =>
    rw [hw] at htook hspec
    obtain ⟨t, r⟩ := r
    obtain ⟨s₁, hset, htook, hfree', -, addrs', hself⟩ := Lib.Ensures.ok_iff.mp htook
    obtain ⟨hr, hcons, -⟩ := Lib.Ensures.ok_iff.mp hspec
    dsimp only at hset hfree' hself hr hcons
    have hnew : (growth i nb nb').map (diskAt sb t.blocks) ++ freeBlocks sb t.blocks =
        List.range' p (sb.size - p) := by
      rw [← hfree, htook.free, taken_chunk hoff.le, hsum, hblocks, Nat.max_eq_right hle, hfree']
      congr 1
      apply List.map_congr_left
      intro P hP
      have htaken : P ∈ taken (chunk i nb off.toNat n.toNat) := by
        rw [taken_chunk hoff.le, hsum, hblocks, Nat.max_eq_right hle]
        exact hP
      exact hset.diskAt_eq h hheld (htook.mapped _ (mem_taken.mp htaken)).1
    have hcount : (growth i nb nb').length = need nb' - need nb := by omega
    have hsplit : List.range' p (sb.size - p) = List.range' p (need nb' - need nb) ++
        List.range' (p + (need nb' - need nb)) (sb.size - (p + (need nb' - need nb))) := by
      rw [List.range'_append_1]
      congr 1
      omega
    rw [hsplit] at hnew
    obtain ⟨hmap, hrest⟩ := List.append_inj hnew (by rw [List.length_map, hcount, List.length_range'])
    refine ⟨t, by rw [hr], ⟨hcons, ⟨addrs', ?_⟩, hset.others, hrest, ?_⟩, hmap⟩
    · rw [hself, hip, Nat.max_eq_right (Nat.mul_le_mul_right _ hle)]
      rfl
    · intro P hP hz
      rw [← h.pos_eq hheld] at hz ⊢
      rw [hset.diskAt_eq h hheld hP]
      exact hset.kept.kept P hP hz

/-- A file can grow to any size for which the disk has room. -/
theorem grow_fresh (dev : Devsw) (h : Consistent sb s) {addrs : Fin (NDIRECT + 3) → Nat}
    (hip : s.icache ip = fileInode i (nb * BSIZE) addrs)
    (hfree : freeBlocks sb s.blocks = List.range' p (sb.size - p)) (hle : nb ≤ nb')
    (hmax : nb' ≤ firstTriple) (hroom : p + (need nb' - need nb) ≤ sb.size) :
    ∃ t, Follows sb ip i nb' p (need nb' - need nb) s t ∧
      (growth i nb nb').map (diskAt sb t.blocks) = List.range' p (need nb' - need nb) := by
  have hB : BSIZE = 512 := rfl
  have hT : firstTriple = 16522 := rfl
  have hS : UInt32.size = 4294967296 := rfl
  obtain ⟨off, hoff⟩ : ∃ off : UInt32, off.toNat = nb * BSIZE :=
    ⟨UInt32.ofNat (nb * BSIZE), UInt32.toNat_ofNat_of_lt' (by rw [hB]; omega)⟩
  obtain ⟨n, hn⟩ : ∃ n : UInt32, n.toNat = (nb' - nb) * BSIZE :=
    ⟨UInt32.ofNat ((nb' - nb) * BSIZE), UInt32.toNat_ofNat_of_lt' (by rw [hB]; omega)⟩
  obtain ⟨t, -, ht⟩ := writei_fresh dev (fun _ ↦ 0) h hip hfree hle hmax hroom hoff hn
  exact ⟨t, ht⟩

/-- The blocks of the empty file system that an empty file leaves free. -/
theorem freeBlocks_oneFile : freeBlocks mkfsSuperblock oneFile.blocks =
    List.range' 98 (mkfsSuperblock.size - 98) := by
  have he : oneFile = openFile mkfsSuperblock (emptyFs mkfsSuperblock) 1 0 := rfl
  rw [he, openFile_free (by decide), freeBlocks_emptyFs]
  rfl

/-- The only file of `oneFile` grows to `nb` blocks. -/
theorem oneFile_grow (hmax : nb ≤ firstTriple) (hroom : 98 + need nb ≤ mkfsSuperblock.size) :
    ∃ t, Follows mkfsSuperblock 0 1 nb 98 (need nb) oneFile t ∧
      (growth 1 0 nb).map (diskAt mkfsSuperblock t.blocks) = List.range' 98 (need nb) := by
  have hstart : oneFile.icache 0 = fileInode 1 (0 * BSIZE) fun _ ↦ 0 := oneFile_slot
  exact grow_fresh ⟨fun _ ↦ none, fun _ ↦ none⟩ oneFile_consistent hstart freeBlocks_oneFile
    (Nat.zero_le nb) hmax hroom

/-! ### Deleting -/

/-- The positions of a file with direct blocks only. -/
private theorem mapped_direct (h : Consistent sb s) {addrs : Fin (NDIRECT + 3) → Nat} {m : Nat}
    (hip : s.icache ip = fileInode i (m * BSIZE) addrs) (hm : m ≤ NDIRECT) {P : Lib.Pos Root}
    (hP : P ∈ Places) (hi : P.1.1 = i) : pos sb ip s P ≠ 0 ↔ ∃ bn < m, P = place i bn := by
  obtain ⟨⟨i', k⟩, q⟩ := P
  dsimp only at hi
  subst hi
  have hinum : (s.icache ip).inum = i' := by rw [hip]; rfl
  have hsize : (s.icache ip).size = m * BSIZE := by rw [hip]; rfl
  have hblocks : blocksFor (m * BSIZE) = m := by
    have hB : BSIZE = 512 := rfl
    unfold blocksFor
    rw [hB]
    omega
  have hmaps := h.maps (held_fileInode hip) k q
  rw [hinum, hsize, hblocks] at hmaps
  rw [hmaps hP]
  constructor
  · rintro ⟨bn, hlt, hmax, rfl, hq⟩
    refine ⟨bn, hlt, ?_⟩
    rw [leaf_direct (by omega)] at hq
    rw [place, leaf_direct (by omega), List.suffix_nil.mp hq]
  · rintro ⟨bn, hlt, he⟩
    have hT : NDIRECT < MAXFILE := by decide
    obtain ⟨hr, rfl⟩ := Prod.mk.inj he
    obtain rfl := (Prod.mk.inj hr).2
    exact (needed_leaf (by omega)).mpr hlt

/-- The blocks of a deleted file come before the other free ones. -/
theorem delete_fresh (h : Consistent sb s) {addrs : Fin (NDIRECT + 3) → Nat} {fs : List Nat}
    (hip : s.icache ip = fileInode i (fs.length * BSIZE) addrs) (hlen : fs.length ≤ NDIRECT)
    (hat : ∀ k (hk : k < fs.length), diskAt sb s.blocks (place i k) = fs[k])
    (hsorted : fs.Pairwise (· < ·)) (hlt : ∀ x ∈ fs, x < p)
    (hfree : freeBlocks sb s.blocks = List.range' p (sb.size - p)) :
    ∃ t, iput sb s ip = .ok t ∧ Consistent sb t ∧
      freeBlocks sb t.blocks = fs ++ List.range' p (sb.size - p) ∧
      ∀ iq, iq ≠ ip → t.icache iq = s.icache iq := by
  have hheld := held_fileInode hip
  have hinum : (s.icache ip).inum = i := by rw [hip]; rfl
  have hfrees : Frees s ip := by
    rw [Frees, hip]
    exact ⟨rfl, rfl, rfl⟩
  have hiput := iput_of_frees h hfrees fun _ ↦ False
  cases ht : iput sb s ip with
  | error e =>
    rw [ht] at hiput
    exact absurd hiput id
  | ok t =>
    rw [ht] at hiput
    obtain ⟨v, htype, href, hempty⟩ := Lib.Ensures.ok_iff.mp hiput
    refine ⟨t, rfl, hempty.consistent h hheld htype href, ?_, hempty.others⟩
    have hT : NDIRECT < MAXFILE := by decide
    -- the blocks of the file are those of the list
    have hown : ∀ x, sb.nmeta ≤ x →
        ((∃ P ∈ Places, P.1.1 = i ∧ pos sb ip s P = x) ↔ x ∈ fs) := by
      intro x hx
      have hpos := sb.nmeta_pos
      constructor
      · rintro ⟨P, hP, hi, rfl⟩
        obtain ⟨bn, hbn, rfl⟩ := (mapped_direct h hip hlen hP hi).mp (by omega)
        rw [h.pos_eq hheld, hat bn hbn]
        exact List.getElem_mem hbn
      · intro hx
        obtain ⟨k, hk, rfl⟩ := List.getElem_of_mem hx
        refine ⟨place i k, (isLeaf_place i (by omega)).1, rfl, ?_⟩
        rw [h.pos_eq hheld, hat k hk]
    have hrange : ∀ x ∈ fs, sb.nmeta ≤ x ∧ x < sb.size := by
      intro x hx
      obtain ⟨k, hk, rfl⟩ := List.getElem_of_mem hx
      have hplace := (isLeaf_place i (show k < MAXFILE by omega)).1
      have hz : pos sb ip s (place i k) ≠ 0 := (mapped_direct h hip hlen hplace rfl).mpr ⟨k, hk, rfl⟩
      have hr := (h.ready hheld).owned.owns.range _ hplace hz
      rw [← hat k hk, ← h.pos_eq hheld]
      exact hr
    apply List.Pairwise.eq_of_mem_iff (r := (· < ·))
    · exact List.pairwise_lt_range.sublist List.filter_sublist
    · rw [List.pairwise_append]
      refine ⟨hsorted, List.pairwise_lt_range', fun x hx y hy ↦ ?_⟩
      exact Nat.lt_of_lt_of_le (hlt x hx) (List.mem_range'_1.mp hy).1
    · intro x
      rw [List.mem_append, ← hfree, mem_freeBlocks, mem_freeBlocks]
      by_cases hmeta : x < sb.nmeta
      · have hnot : x ∉ fs := fun hx ↦ by
          have hlo := (hrange x hx).1
          omega
        rw [or_iff_right hnot]
        apply and_congr_right
        intro hx
        rw [hempty.reserved x hmeta hx, h.disk.owned.reserved x hmeta hx]
      · have hmem := hown x (by omega)
        constructor
        · rintro ⟨hx, hu⟩
          have hiff := hempty.free x (by omega) hx
          rw [hu, hinum] at hiff
          by_cases hxfs : x ∈ fs
          · exact Or.inl hxfs
          · refine Or.inr ⟨hx, ?_⟩
            by_contra hus
            have hall := mt hmem.mp hxfs
            push Not at hall
            exact Bool.false_ne_true (hiff.mpr ⟨Bool.eq_true_of_not_eq_false hus, hall⟩)
        · intro hor
          have hx : x < sb.size := by
            rcases hor with hx | hx
            · exact (hrange x hx).2
            · exact hx.1
          have hiff := hempty.free x (by omega) hx
          rw [hinum] at hiff
          refine ⟨hx, Bool.eq_false_of_not_eq_true fun hu ↦ ?_⟩
          obtain ⟨hus, hall⟩ := hiff.mp hu
          rcases hor with hx | hx
          · obtain ⟨P, hP, hi, he⟩ := hmem.mpr hx
            exact hall P hP hi he
          · rw [hx.2] at hus
            cases hus

end

end Xv6.Fs
