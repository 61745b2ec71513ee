import Xv6.Mkfs.Append
import Xv6.Fs.Mkfs

/-!
# Files of the builder, read by the kernel

Whatever `main` appends to its files, in whatever chunks, the kernel reads it back from the
image, as long as no file needs the block after the single indirect ones; there the builder
leaves `indirect[]`.
-/

namespace Xv6.Mkfs

open Fs Function

section

variable {sb : Superblock} {img : Image} {s t : State} {ip : Slot} {din : Dinode}

/-! ### One call -/

/-- Inodes are read as the kernel reads them. -/
theorem rinode_eq (hfit : sb.nmeta ≤ sb.size) {inum : Nat} (hi : inum < sb.ninodes) :
    rinode sb img inum = .ok (dinode sb img.blocks inum) := by
  have hlt := sb.IBLOCK_lt hi
  have hmap := sb.bmapstart_lt
  unfold rinode rsect
  rw [if_pos (by omega)]
  rfl

theorem winode_eq (hfit : sb.nmeta ≤ sb.size) {inum : Nat} (hi : inum < sb.ninodes)
    (din : Dinode) : winode sb img inum din = .ok (wsect img (sb.IBLOCK inum)
      (writeDinode (img.blocks (sb.IBLOCK inum)) (inum % IPB) din)) := by
  have hlt := sb.IBLOCK_lt hi
  have hmap := sb.bmapstart_lt
  unfold winode rsect
  rw [if_pos (by omega)]
  rfl

/-- Appending nothing changes nothing. -/
private theorem iappend_nil (hfit : sb.nmeta ≤ sb.size) {inum : Nat} (hi : inum < sb.ninodes) :
    iappend sb img inum [] = .ok img := by
  unfold iappend
  rw [rinode_eq hfit hi]
  show (appendLoop sb img (dinode sb img.blocks inum) _ [] >>= _) = _
  unfold appendLoop
  rw [if_neg (by simp)]
  show winode sb img inum (dinode sb img.blocks inum) = _
  rw [winode_eq hfit hi, dinode, writeDinode_readDinode, wsect, update_eq_self]

/-- The last writes of `writei` and of `iappend` agree. -/
private theorem Shows.finish (h : Shows sb img t) {inum : Nat} (hi : inum < sb.ninodes)
    (hinum : (t.icache ip).inum = inum) (hdin : (t.icache ip).toDinode = din) (e : Nat) :
    Shows sb (wsect img (sb.IBLOCK inum)
        (writeDinode (img.blocks (sb.IBLOCK inum)) (inum % IPB) { din with size := e }))
      (iupdate sb (setInode t ip { t.icache ip with size := e }) ip) := by
  subst hinum hdin
  have hlt := sb.IBLOCK_lt hi
  have hmap := sb.bmapstart_lt
  have hdata := h.data
  have hset : Shows sb img (setInode t ip { t.icache ip with size := e }) :=
    h.congr (blocks_setInode _ _)
  unfold iupdate
  dsimp only
  rw [icache_setInode_self, blocks_setInode, h.blocks _ (by dsimp only; omega)]
  exact hset.write (Or.inl hlt) (by omega) _

private theorem overwrite_end (data xp : List UInt8) :
    overwrite data data.length ((List.range xp.length).map fun j ↦ xp.getD j 0) = data ++ xp := by
  have hxp : (List.range xp.length).map (fun j ↦ xp.getD j 0) = xp := by
    apply List.ext_getElem
    · simp
    · intro j h1 h2
      simp [h2]
  rw [hxp, overwrite, List.take_length, List.drop_of_length_le (Nat.le_add_right _ _),
    List.append_nil]

/-- The image holds the files `f`, as the kernel state `s` with an empty inode cache shows. -/
structure Holds (sb : Superblock) (f : Nat → List UInt8) (img : Image) (s : State) : Prop where
  shows : Shows sb img s
  consistent : Consistent sb s
  uncached : ∀ ip, (s.icache ip).ref = 0
  files : ∀ i, files sb s.blocks i = f i
  made : ∀ i, 0 < i → i < img.freeinode →
    (dinode sb s.blocks i).type ≠ 0 ∧ (dinode sb s.blocks i).type ≠ T_DEV
  free : ∀ i, img.freeinode ≤ i → i < sb.ninodes → dinode sb s.blocks i = Dinode.fresh 0
  count : img.freeinode ≤ sb.ninodes
  fits : ∀ i, (f i).length ≤ capacity

namespace Holds

variable {f : Nat → List UInt8} {inum : Nat}

theorem dinode_eq (h : Holds sb f img s) (hi : inum < sb.ninodes) :
    dinode sb s.blocks inum = dinode sb img.blocks inum := by
  apply dinode_congr _ hi
  intro b hb
  exact h.shows.blocks b (by omega)

/-- The kernel may have the inode in a slot. -/
private theorem open_spec (h : Holds sb f img s) (hpos : 0 < inum) (hlt : inum < img.freeinode)
    (ip : Slot) (ht : t = setInode s ip
      { dinode sb s.blocks inum with inum, ref := 1, valid := true }) :
    Consistent sb t ∧ Held t ip ∧ (t.icache ip).inum = inum ∧
      (t.icache ip).toDinode = dinode sb s.blocks inum ∧
      (t.icache ip).size = (f inum).length := by
  have hic : t.icache ip = { dinode sb s.blocks inum with inum, ref := 1, valid := true } := by
    rw [ht, icache_setInode_self]
  have hi : inum < sb.ninodes := Nat.lt_of_lt_of_le hlt h.count
  have hcons : Consistent sb t := by
    rw [ht]
    apply h.consistent.setInode
    intro _
    refine ⟨hi, ?_, fun _ ↦ ⟨rfl, (h.made inum hpos hlt).1⟩⟩
    intro iq _ hq
    rw [h.uncached iq] at hq
    exact absurd hq (Nat.lt_irrefl 0)
  have hheld : Held t ip := by
    rw [Held, hic]
    exact ⟨Nat.one_pos, rfl⟩
  refine ⟨hcons, hheld, by rw [hic], by rw [hic], ?_⟩
  have hlen := length_files_self hcons hheld
  have hblocks : t.blocks = s.blocks := by rw [ht, blocks_setInode]
  rw [hic, hblocks, h.files] at hlen
  rw [hic]
  exact hlen.symm

/-- The end of the call: the inode has gone to disk, and its slot is free again. -/
private theorem close_spec (h : Holds sb f img s) (hpos : 0 < inum) (hlt : inum < img.freeinode)
    {ip : Slot} {s₀ s₁ u : State} {img' : Image} {xp : List UInt8}
    (hs₀ : s₀ = setInode s ip { dinode sb s.blocks inum with inum, ref := 1, valid := true })
    (hset : Settled sb ip s₀ s₁ u) (hcons : Consistent sb u) (hshow : Shows sb img' u)
    (hcount : img'.freeinode = img.freeinode)
    (hfiles : Fs.files sb u.blocks = update (Fs.files sb s₀.blocks) inum (f inum ++ xp))
    (hcap : (f inum ++ xp).length ≤ capacity) :
    Holds sb (update f inum (f inum ++ xp)) img' (setInode u ip { u.icache ip with ref := 0 }) := by
  obtain ⟨hcons₀, hheld, hinum, hdin, -⟩ := h.open_spec hpos hlt ip hs₀
  have hblocks₀ : s₀.blocks = s.blocks := by rw [hs₀, blocks_setInode]
  have htypes : ∀ i < sb.ninodes, (dinode sb u.blocks i).type = (dinode sb s.blocks i).type := by
    intro i hi
    rw [hset.dinodes i hi, hinum, hblocks₀]
    split
    · next he => rw [hset.type, hdin, he]
    · rfl
  constructor
  · exact hshow.congr (blocks_setInode _ _)
  · exact hcons.setRef fun hz ↦ absurd hz (Nat.lt_irrefl 0)
  · intro iq
    by_cases he : iq = ip
    · rw [he, icache_setInode_self]
    · rw [icache_setInode_ne he, hset.others iq he, hs₀, icache_setInode_ne he, h.uncached]
  · intro i
    rw [blocks_setInode, hfiles, hblocks₀]
    by_cases he : i = inum
    · rw [he, update_self, update_self]
    · rw [update_of_ne he, update_of_ne he, h.files]
  · intro i hi hlt'
    rw [blocks_setInode, htypes i (Nat.lt_of_lt_of_le hlt' (hcount ▸ h.count))]
    exact h.made i hi (hcount ▸ hlt')
  · intro i hle hi
    have hle' : img.freeinode ≤ i := hcount ▸ hle
    rw [blocks_setInode, hset.dinodes i hi, hinum, if_neg (by omega), hblocks₀]
    exact h.free i hle' hi
  · rw [hcount]
    exact h.count
  · intro i
    by_cases he : i = inum
    · rw [he, update_self]
      exact hcap
    · rw [update_of_ne he]
      exact h.fits i

/-- `iappend` extends the file and makes no inode, or stops past the single indirect blocks, or for want of
room. -/
theorem iappend_spec (h : Holds sb f img s) (hfit : sb.nmeta ≤ sb.size) (hpos : 0 < inum)
    (hlt : inum < img.freeinode) {xp : List UInt8} (hint : xp.length < 2 ^ 31) :
    Lib.Ensures (iappend sb img inum xp)
      (fun e ↦ e = .bounds ∧ capacity < (f inum).length + xp.length ∨ e = .read ∧
        sb.size < img.freeblock + 2 * blocksFor ((f inum).length + xp.length))
      fun img' ↦ img'.freeinode = img.freeinode ∧
        ∃ t, Holds sb (update f inum (f inum ++ xp)) img' t := by
  have hi : inum < sb.ninodes := Nat.lt_of_lt_of_le hlt h.count
  by_cases hnil : xp = []
  · rw [hnil, iappend_nil hfit hi, List.append_nil, update_eq_self]
    exact ⟨rfl, s, h⟩
  · have hxp : 0 < xp.length := List.length_pos_iff.mpr hnil
    -- the kernel holds the inode in some slot
    obtain ⟨ip, -⟩ : ∃ ip : Slot, ip.val = 0 := ⟨⟨0, by decide⟩, rfl⟩
    obtain ⟨s₀, hs₀⟩ : ∃ s₀, s₀ = setInode s ip
      { dinode sb s.blocks inum with inum, ref := 1, valid := true } := ⟨_, rfl⟩
    obtain ⟨hcons, hheld, hinum, hdin, hsize⟩ := h.open_spec hpos hlt ip hs₀
    have hshow : Shows sb img s₀ := h.shows.congr (by rw [hs₀, blocks_setInode])
    have hsz : (dinode sb s.blocks inum).size = (f inum).length := by rw [← hsize, ← hdin]
    have hfits := h.fits inum
    have hloop := appendLoop_spec (fun j ↦ xp.getD j 0) (Nat.sub_zero xp.length)
      (fun j ↦ by rw [Nat.zero_add]) (hcons.ready hheld) (hcons.maps hheld) hshow hdin
      (hsize ▸ le_blocksFor _) hfits
    unfold iappend
    rw [rinode_eq hfit hi, ← h.dinode_eq hi]
    show Lib.Ensures (appendLoop sb img (dinode sb s.blocks inum) (dinode sb s.blocks inum).size xp
      >>= _) _ _
    rw [hsz]
    apply Lib.Ensures.bind (hloop.mono (fun _ hr ↦ hr) ?_)
    · rintro ⟨img₁, din₁, e⟩ ⟨he, hcap, hcount, t, ht, hshow₁, hdin₁⟩
      dsimp only at he hcount hshow₁ hdin₁ ⊢
      have hbound : capacity < 2 ^ 31 := by decide
      have hmax : capacity ≤ MAXFILE * BSIZE := by decide
      have hoff' : (UInt32.ofNat (f inum).length).toNat = (f inum).length := by
        rw [UInt32.toNat_ofNat']
        omega
      have hn' : (UInt32.ofNat xp.length).toNat = xp.length := by
        rw [UInt32.toNat_ofNat']
        omega
      have htype : (s₀.icache ip).type ≠ T_DEV := by
        rw [hdin]
        exact (h.made inum hpos hlt).2
      have hok : ¬WriteFails (s₀.icache ip).size (UInt32.ofNat (f inum).length).toNat
          (UInt32.ofNat xp.length).toNat := by
        unfold WriteFails
        rw [hoff', hn', hsize]
        omega
      obtain ⟨-, hwrote⟩ := (writeLoop_spec (fun j ↦ xp.getD j 0) xp.length 0 (Nat.sub_zero _)
        (hcons.ready hheld) (hcons.maps hheld) (hsize ▸ le_blocksFor _)
        (Nat.le_trans hcap hmax)).of_ok ht
      have hgrown : (t.icache ip).size = (f inum).length := by rw [hwrote.size_eq, hsize]
      obtain ⟨dev⟩ : Nonempty Devsw := ⟨⟨fun _ ↦ none, fun _ ↦ none⟩⟩
      have hwrite := writei_of_loop dev htype (fun j ↦ xp.getD j 0) hok (by rwa [hoff', hn'])
      rw [hn', hgrown, if_pos ⟨hxp, by omega⟩] at hwrite
      obtain ⟨-, hcons', hfiles, s₁, hset⟩ :=
        (writei_spec hcons hheld dev htype _ hok).of_ok hwrite
      dsimp only at hcons' hfiles hset
      subst he
      rw [winode_eq hfit hi]
      refine ⟨hcount, _, h.close_spec hpos hlt hs₀ hset hcons' ?_ hcount ?_ ?_⟩
      · exact hshow₁.finish hi (by rw [hwrote.inum_eq, hinum]) hdin₁ _
      · have hblocks₀ : s₀.blocks = s.blocks := by rw [hs₀, blocks_setInode]
        rw [hfiles, hinum, hoff', hn', hblocks₀, h.files, overwrite_end]
      · rw [List.length_append]
        exact hcap
    · rintro e (he | ⟨he, -, hroom⟩)
      · exact Or.inl he
      · have hle := Nat.sub_le (blocksFor ((f inum).length + xp.length)) ((f inum).length / BSIZE)
        exact Or.inr ⟨he, by omega⟩

/-- `ialloc` makes an empty file and takes no block. -/
theorem ialloc_spec (h : Holds sb f img s) (hfit : sb.nmeta ≤ sb.size) {type : Int16}
    (ht : type ≠ 0) (hdev : type ≠ T_DEV) (hroom : img.freeinode < sb.ninodes) :
    ∃ img' t, mkfsStep sb img (.ialloc type) = .ok img' ∧ img'.freeblock = img.freeblock ∧
      img'.freeinode = img.freeinode + 1 ∧ Holds sb f img' t := by
  have hfree : (dinode sb s.blocks img.freeinode).type = 0 := by
    rw [h.free img.freeinode (Nat.le_refl _) hroom]
    rfl
  obtain ⟨d, hd⟩ : ∃ d, d = { Dinode.fresh type with nlink := 1 } := ⟨_, rfl⟩
  have hsize : d.size = 0 := by rw [hd]; rfl
  have haddrs : ∀ k, d.addrs k = 0 := by rw [hd]; exact fun _ ↦ rfl
  have hb := sb.IBLOCK_lt hroom
  have hblk : s.blocks (sb.IBLOCK img.freeinode) = img.blocks (sb.IBLOCK img.freeinode) :=
    h.shows.blocks _ (by omega)
  obtain ⟨t, htdef⟩ : ∃ t, t = logWrite s (sb.IBLOCK img.freeinode)
    (writeDinode (s.blocks (sb.IBLOCK img.freeinode)) (img.freeinode % IPB) d) := ⟨_, rfl⟩
  have hdinode := dinode_seed hsize haddrs htdef
  refine ⟨wsect { img with freeinode := img.freeinode + 1 } (sb.IBLOCK img.freeinode)
    (writeDinode (img.blocks (sb.IBLOCK img.freeinode)) (img.freeinode % IPB) d), t, ?_, rfl, rfl,
    ?_⟩
  · unfold mkfsStep ialloc
    dsimp only
    rw [winode_eq hfit hroom, hd]
    rfl
  · constructor
    · have hmap := sb.bmapstart_lt
      have hdata := h.shows.data
      have hnext : Shows sb { img with freeinode := img.freeinode + 1 } s :=
        ⟨h.shows.blocks, h.shows.used, h.shows.zero, h.shows.data, h.shows.le, h.shows.unwritten⟩
      rw [htdef, hblk]
      exact hnext.write (Or.inl hb) (show _ < img.freeblock by omega) _
    · exact h.consistent.seed hroom hfree hsize haddrs htdef
    · intro ip
      rw [htdef, icache_logWrite, h.uncached]
    · intro i
      rw [← h.files]
      by_cases he : i = img.freeinode
      · have hdead : ¬Live sb s.blocks i := fun hl ↦ hl.2 (he ▸ hfree)
        unfold Fs.files
        rw [if_neg hdead, hdinode, if_pos he, hsize]
        exact ite_self _
      · apply files_congr h.consistent
        · rw [hdinode, if_neg he]
        · exact fun P hP ↦ h.consistent.diskAt_seed hroom hfree hsize haddrs htdef hP
        · exact fun b hlo ↦ blocks_seed hroom htdef (Nat.le_trans sb.bmapstart_lt.le hlo)
    · intro i hi hlt
      have hlt' : i < img.freeinode + 1 := hlt
      rw [hdinode]
      split
      · rw [hd]
        exact ⟨ht, hdev⟩
      · next he => exact h.made i hi (by omega)
    · intro i hle hi
      have hle' : img.freeinode + 1 ≤ i := hle
      rw [hdinode, if_neg (by omega)]
      exact h.free i (by omega) hi
    · exact hroom
    · exact h.fits

end Holds

/-! ### Runs -/

private theorem dinode_emptyDisk {i : Nat} (hi : i < sb.ninodes) :
    dinode sb (emptyDisk sb) i = Dinode.fresh 0 := by
  have hd : dinode sb (emptyDisk sb) i = dinode sb (fun _ ↦ Block.zero) i :=
    dinode_congr (fun b hb ↦ markUsed_of_lt hb) hi
  rw [hd]
  simp only [dinode, readDinode, Block.word_zero]
  rfl

/-- The image is formatted as an empty disk. -/
theorem formatted_holds (hfit : sb.nmeta ≤ sb.size) (hinodes : 0 < sb.ninodes) :
    Holds sb (fun _ ↦ []) (formatted sb) (emptyFs sb) where
  shows := by
    refine ⟨?_, ?_, fun _ _ ↦ rfl, Nat.le_refl _, hfit, fun _ _ _ ↦ rfl⟩
    · intro b hb
      show markUsed sb sb.nmeta (fun _ ↦ Block.zero) b = Block.zero
      by_cases hlt : b < sb.bmapstart
      · exact markUsed_of_lt hlt
      · exact markUsed_of_data hfit (by omega)
    · intro x _
      have h0 : used sb (fun _ ↦ Block.zero) x = false := Block.bit_zero _
      show used sb (emptyDisk sb) x = decide (x < sb.nmeta)
      rw [emptyDisk, used_markUsed, h0, Bool.or_false]
  consistent := emptyFs_consistent sb
  uncached := fun _ ↦ rfl
  files := by
    intro i
    unfold Fs.files
    rw [if_neg]
    intro hl
    exact hl.2 (type_emptyDisk hl.1)
  made := by
    intro i hi hlt
    have hlt' : i < 1 := hlt
    omega
  free := fun i _ hi ↦ dinode_emptyDisk hi
  count := hinodes
  fits := fun _ ↦ Nat.zero_le _

@[simp] theorem appended_nil (i : Nat) : appended [] i = [] := rfl

theorem appended_cons (c : Call) (cs : List Call) (i : Nat) :
    appended (c :: cs) i = appended [c] i ++ appended cs i := by
  simp [appended]

/-- A run leaves the image with the bytes appended, or stops at a file that outgrows the
single indirect blocks, or for want of room. -/
private theorem exec_spec (hfit : sb.nmeta ≤ sb.size) {f : Nat → List UInt8}
    (h : Holds sb f img s) (cs : List Call)
    (hp : Lib.Along (mkfsStep sb) (Proper sb) img cs) :
    Lib.Ensures (Lib.exec (mkfsStep sb) img cs)
      (fun e ↦ (e = .bounds ∧ ∃ i, capacity < (f i ++ appended cs i).length) ∨ e = .read)
      fun img' ↦ ∃ t, Holds sb (fun i ↦ f i ++ appended cs i) img' t := by
  induction cs generalizing f img s with
  | nil =>
    refine ⟨s, ?_⟩
    simpa using h
  | cons c cs ih =>
    obtain ⟨hc, hcs⟩ := hp
    cases c with
    | ialloc type =>
      obtain ⟨img', t, ht, -, -, hnext⟩ := h.ialloc_spec hfit hc.1 hc.2.1 hc.2.2
      have hsame : ∀ i, appended (.ialloc type :: cs) i = appended cs i := fun _ ↦ rfl
      have hrest := ih hnext (hcs img' ht)
      unfold Lib.exec
      rw [ht]
      simp only [hsame]
      exact hrest
    | iappend inum xp =>
      have hone := h.iappend_spec hfit hc.1 hc.2.1 hc.2.2
      have hsplit : ∀ i, f i ++ appended (.iappend inum xp :: cs) i =
          update f inum (f inum ++ xp) i ++ appended cs i := by
        intro i
        rw [appended_cons]
        by_cases hi : i = inum
        · subst hi
          simp [appended]
        · simp [appended, hi, Ne.symm hi]
      unfold Lib.exec
      cases hok : mkfsStep sb img (.iappend inum xp) with
      | ok img' =>
        obtain ⟨-, t, hnext⟩ := hone.of_ok hok
        have hrest := ih hnext (hcs img' hok)
        simp only [hsplit]
        exact hrest
      | error e =>
        rcases hone.of_error hok with ⟨he, hlong⟩ | ⟨he, -⟩
        · refine Or.inl ⟨he, inum, ?_⟩
          rw [hsplit, update_self, List.length_append, List.length_append]
          omega
        · exact Or.inr he

/-! ### Reading -/

/-- A kernel whose disk is the image, whatever its free map, reads inode `i` as `data`. -/
def Reads (sb : Superblock) (img : Image) (i : Nat) (data : List UInt8) : Prop :=
  ∀ dev s ip, (∀ b, ¬(sb.bmapstart ≤ b ∧ b < sb.nmeta) → s.blocks b = img.blocks b) →
    (s.icache ip).inum = i → (s.icache ip).toDinode = dinode sb img.blocks i →
    ∀ off n : UInt32, readi sb dev s ip off n = .ok (s, readSpec data off.toNat n.toNat)

theorem Holds.reads {f : Nat → List UInt8} (h : Holds sb f img s) {i : Nat} (hpos : 0 < i)
    (hlt : i < img.freeinode) : Reads sb img i (f i) := by
  intro dev k ip hblocks hinum hdin off n
  have hi : i < sb.ninodes := Nat.lt_of_lt_of_le hlt h.count
  obtain ⟨htype, hdev⟩ := h.made i hpos hlt
  have hlive : Live sb s.blocks i := ⟨hi, htype⟩
  rw [← h.dinode_eq hi] at hdin
  -- the image shows every block outside the free map as both kernels have it
  have hsame : ∀ b, ¬(sb.bmapstart ≤ b ∧ b < sb.nmeta) → k.blocks b = s.blocks b := fun b hb ↦
    (hblocks b hb).trans (h.shows.blocks b hb).symm
  have hroots : roots sb (look sb k ip) = roots sb (dinode sb s.blocks) := by
    apply roots_congr_eq
    intro j hj
    unfold look
    rw [hinum]
    split
    · next he => rw [hdin, he]
    · exact dinode_congr (fun b hb ↦ hsame b (by omega)) hj
  have hpos' : ∀ P ∈ Places, pos sb ip k P = diskAt sb s.blocks P := fun P hP ↦
    blockAt_congr h.consistent.disk.owned (fun b hb ↦ hsame b (by omega)) hroots hP
  have hu : InUse sb ip k := by
    constructor
    · rw [hinum]
      exact hi
    · rw [hdin]
      exact htype
  have hsmall := h.consistent.disk.small i hlive
  have hread := @readi_of_mapped sb ip k off n hu dev (by rwa [hdin]) (by rwa [hdin]) (by
    intro bn hbn hneed
    have hP := (isLeaf_place i hbn).1
    rw [hdin] at hneed
    rw [hinum, hpos' _ hP]
    exact (h.consistent.disk.mapped i hlive _ _ hP).mpr ((needed_leaf hbn).mpr hneed))
  have hbytes : (List.range (dinode sb s.blocks i).size).map (fileByte sb ip k i) = f i := by
    rw [← h.files i, Fs.files, if_pos hlive]
    apply List.map_congr_left
    intro j hj
    have hjlt := List.mem_range.mp hj
    have hjb : j / BSIZE < MAXFILE := Nat.div_lt_of_lt_mul (by rw [Nat.mul_comm]; omega)
    have hP := (isLeaf_place i hjb).1
    unfold fileByte byteAt diskByte
    rw [hpos' _ hP]
    by_cases hz : diskAt sb s.blocks (place i (j / BSIZE)) = 0
    · rw [if_pos hz, if_pos hz]
    · have hrange : sb.nmeta ≤ diskAt sb s.blocks (place i (j / BSIZE)) ∧ _ :=
        h.consistent.disk.owned.owns.range _ hP hz
      rw [if_neg hz, if_neg hz, hsame _ (by omega)]
  rw [hread, hinum, hdin, hbytes]

end

/-- The image has room for what it is given, and every `fbn` is below `MAXFILE`. -/
def Accepts (sb : Superblock) (cs : List Call) : Prop :=
  Lib.exec (mkfsStep sb) (formatted sb) cs ≠ .error .assertion ∧
    Lib.exec (mkfsStep sb) (formatted sb) cs ≠ .error .read

/-- The two mappers agree: `mkfs` stays within `indirect[]` to the end, and the kernel reads in
each inode the bytes appended to it. -/
def Agrees (sb : Superblock) (cs : List Call) : Prop :=
  ∃ img, Lib.exec (mkfsStep sb) (formatted sb) cs = .ok img ∧
    ∀ i, 0 < i → i < img.freeinode → Reads sb img i (appended cs i)

/-- They agree exactly when no file outgrows the direct and the single indirect blocks. -/
theorem mkfs_agrees_iff (cs : List Call)
    (hp : Lib.Along (mkfsStep mkfsSuperblock) (Proper mkfsSuperblock) (formatted mkfsSuperblock) cs)
    (ha : Accepts mkfsSuperblock cs) :
    Agrees mkfsSuperblock cs ↔ ∀ i, (appended cs i).length ≤ (NDIRECT + NINDIRECT) * BSIZE := by
  have hrun := exec_spec (by decide) (formatted_holds (by decide) (by decide)) cs hp
  constructor
  · rintro ⟨img, hok, -⟩ i
    obtain ⟨t, hend⟩ := hrun.of_ok hok
    exact hend.fits i
  · intro hfits
    cases hexec : Lib.exec (mkfsStep mkfsSuperblock) (formatted mkfsSuperblock) cs with
    | ok img =>
      obtain ⟨t, hend⟩ := hrun.of_ok hexec
      exact ⟨img, hexec, fun i hpos hlt ↦ hend.reads hpos hlt⟩
    | error e =>
      rcases hrun.of_error hexec with ⟨-, i, hlong⟩ | he
      · exact absurd (hfits i) (Nat.not_le.mpr hlong)
      · exact absurd (hexec.trans (congrArg _ he)) ha.2

/-- A disk image with one file, made in one append. -/
def oneAppend (xp : List UInt8) : List Call := [.ialloc 2, .iappend 1 xp]

private theorem oneAppend_run {xp : List UInt8} (hint : xp.length < 2 ^ 31)
    (hroom : mkfsSuperblock.nmeta + 2 * blocksFor xp.length ≤ mkfsSuperblock.size) :
    Lib.Along (mkfsStep mkfsSuperblock) (Proper mkfsSuperblock) (formatted mkfsSuperblock)
        (oneAppend xp) ∧
      Lib.Ensures (Lib.exec (mkfsStep mkfsSuperblock) (formatted mkfsSuperblock) (oneAppend xp))
        (fun e ↦ e = .bounds ∧ capacity < xp.length) fun _ ↦ xp.length ≤ capacity := by
  have hfit : mkfsSuperblock.nmeta ≤ mkfsSuperblock.size := by decide
  have hstart := @formatted_holds mkfsSuperblock hfit (by decide)
  obtain ⟨img, t, ht, hblock, hinode, hone⟩ := hstart.ialloc_spec hfit
    (show (2 : Int16) ≠ 0 by decide) (by decide) (show 1 < mkfsSuperblock.ninodes by decide)
  have hlt : 1 < img.freeinode := by
    rw [hinode]
    exact Nat.lt_succ_self 1
  have hend := hone.iappend_spec hfit Nat.one_pos hlt hint
  constructor
  · refine ⟨⟨by decide, by decide, show 1 < mkfsSuperblock.ninodes by decide⟩, ?_⟩
    intro img₁ h₁
    cases ht.symm.trans h₁
    exact ⟨⟨Nat.one_pos, hlt, hint⟩, fun _ _ ↦ trivial⟩
  · unfold oneAppend Lib.exec
    rw [ht]
    show Lib.Ensures (Lib.exec (mkfsStep mkfsSuperblock) img [.iappend 1 xp]) _ _
    unfold Lib.exec
    cases hok : mkfsStep mkfsSuperblock img (.iappend 1 xp) with
    | ok img' =>
      obtain ⟨-, u, hu⟩ := hend.of_ok hok
      simpa using hu.fits 1
    | error e =>
      rcases hend.of_error hok with ⟨he, hlong⟩ | ⟨he, hfull⟩
      · exact ⟨he, by simpa using hlong⟩
      · have hfull' : mkfsSuperblock.size < mkfsSuperblock.nmeta +
            2 * blocksFor xp.length := by
          rw [hblock, List.length_nil, Nat.zero_add] at hfull
          exact hfull
        omega

/-- One byte more than the single indirect blocks hold, and `mkfs` leaves `indirect[]`. -/
theorem mkfs_disagrees :
    Lib.Along (mkfsStep mkfsSuperblock) (Proper mkfsSuperblock) (formatted mkfsSuperblock)
        (oneAppend (List.replicate 70657 0)) ∧
      Accepts mkfsSuperblock (oneAppend (List.replicate 70657 0)) ∧
      Lib.exec (mkfsStep mkfsSuperblock) (formatted mkfsSuperblock)
        (oneAppend (List.replicate 70657 0)) = .error .bounds ∧
      ¬Agrees mkfsSuperblock (oneAppend (List.replicate 70657 0)) := by
  have hlen : (List.replicate 70657 (0 : UInt8)).length = 70657 := List.length_replicate
  obtain ⟨halong, hrun⟩ := @oneAppend_run (List.replicate 70657 0) (by rw [hlen]; decide)
    (by rw [hlen]; decide)
  rw [hlen] at hrun
  have hexec : Lib.exec (mkfsStep mkfsSuperblock) (formatted mkfsSuperblock)
      (oneAppend (List.replicate 70657 0)) = .error .bounds := by
    cases hexec : Lib.exec (mkfsStep mkfsSuperblock) (formatted mkfsSuperblock)
      (oneAppend (List.replicate 70657 0)) with
    | ok img => exact absurd (hrun.of_ok hexec) (by decide)
    | error e => rw [(hrun.of_error hexec).1]
  refine ⟨halong, ⟨?_, ?_⟩, hexec, ?_⟩
  · rw [hexec]
    exact fun he ↦ nomatch he
  · rw [hexec]
    exact fun he ↦ nomatch he
  · rintro ⟨img, hok, -⟩
    rw [hexec] at hok
    cases hok

/-- Three bytes are read back. -/
theorem mkfs_agrees_iff_oneAppend : Agrees mkfsSuperblock (oneAppend [7, 7, 7]) := by
  obtain ⟨halong, hrun⟩ := @oneAppend_run [7, 7, 7] (by decide) (by decide)
  have hok : ∀ e, Lib.exec (mkfsStep mkfsSuperblock) (formatted mkfsSuperblock)
      (oneAppend [7, 7, 7]) ≠ .error e := by
    intro e he
    exact absurd (hrun.of_error he).2 (by decide)
  apply (mkfs_agrees_iff (oneAppend [7, 7, 7]) halong ⟨hok _, hok _⟩).mpr
  intro i
  by_cases hi : i = 1
  · rw [hi]
    decide
  · have hnone : appended (oneAppend [7, 7, 7]) i = [] := by
      simp [appended, oneAppend, Ne.symm hi]
    rw [hnone]
    exact Nat.zero_le _

end Xv6.Mkfs
