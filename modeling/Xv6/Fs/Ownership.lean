import Xv6.Fs.Index
import Xv6.Lib.PtrForest

/-!
# Ownership of blocks

Which block stands at which position of which inode's tree, and that the free map agrees.
While a call works on an inode its in-memory copy is ahead of the disk, so the positions
are read through a view of the inodes; `Grown` says what `bmap` may do to them.
-/

namespace Xv6.Fs

open Function

/-! ### Positions -/

/-- An entry of `addrs` of an inode. -/
abbrev Root := Nat × Fin (NDIRECT + 3)

/-- The positions of all four-region trees. -/
abbrev Places : Set (Lib.Pos Root) := Lib.Positions (fun r ↦ levels r.2) NINDIRECT

/-- The roots of the trees of the inodes in use, as `look` shows the inodes. -/
def roots (sb : Superblock) (look : Nat → Dinode) (r : Root) : Nat :=
  if r.1 < sb.ninodes ∧ (look r.1).type ≠ 0 then (look r.1).addrs r.2 else 0

/-- Every block as an array of pointers. -/
def words (blocks : Nat → Block) (b i : Nat) : Nat := (blocks b).word i

/-- The block at a position, zero if there is none. -/
def blockAt (sb : Superblock) (blocks : Nat → Block) (look : Nat → Dinode) (P : Lib.Pos Root) :
    Nat := Lib.ptr (roots sb look) (words blocks) P.1 P.2

/-- Every block in use is a metadata block or stands at exactly one position. -/
structure Owned (sb : Superblock) (blocks : Nat → Block) (look : Nat → Dinode) : Prop where
  owns : Lib.Owns Places (blockAt sb blocks look) (fun b ↦ used sb blocks b = true)
    sb.nmeta sb.size
  reserved : ∀ b < sb.nmeta, b < sb.size → used sb blocks b = true

section Congr

variable {sb : Superblock} {blocks blocks' : Nat → Block} {look look' : Nat → Dinode}

theorem roots_of_live {i : Nat} (hi : i < sb.ninodes) (ht : (look i).type ≠ 0)
    (k : Fin (NDIRECT + 3)) : roots sb look (i, k) = (look i).addrs k :=
  if_pos ⟨hi, ht⟩

/-- The roots depend on the types and the entries of the inodes only. -/
theorem roots_congr (h : ∀ i < sb.ninodes,
    (look' i).type = (look i).type ∧ (look' i).addrs = (look i).addrs) :
    roots sb look' = roots sb look := by
  funext r
  unfold roots
  by_cases hr : r.1 < sb.ninodes
  · rw [(h r.1 hr).1, (h r.1 hr).2]
  · rw [if_neg fun hc ↦ hr hc.1, if_neg fun hc ↦ hr hc.1]

theorem roots_congr_eq (h : ∀ i < sb.ninodes, look' i = look i) :
    roots sb look' = roots sb look := by
  apply roots_congr
  intro i hi
  rw [h i hi]
  exact ⟨rfl, rfl⟩

/-- The positions depend on the data blocks and the roots only. -/
theorem blockAt_congr (ho : Owned sb blocks look) (hb : ∀ b, sb.nmeta ≤ b → blocks' b = blocks b)
    (hl : roots sb look' = roots sb look) {P : Lib.Pos Root} (hP : P ∈ Places) :
    blockAt sb blocks' look' P = blockAt sb blocks look P := by
  unfold blockAt
  rw [hl]
  apply Lib.ptr_congr rfl _ hP
  intro i p hp hz
  have hrange := ho.owns.range (P.1, p) (Lib.mem_positions_parent hp) hz
  exact congrArg (fun blk ↦ blk.word i) (hb _ hrange.1)

theorem Owned.congr (ho : Owned sb blocks look)
    (hb : ∀ b, sb.bmapstart ≤ b → blocks' b = blocks b)
    (hl : roots sb look' = roots sb look) : Owned sb blocks' look' where
  owns := by
    apply ho.owns.congr
    · intro P hP
      exact blockAt_congr ho (fun b h ↦ hb b (Nat.le_trans sb.bmapstart_lt.le h)) hl hP
    · intro b _ hlt
      rw [used_congr (fun x h _ ↦ hb x h) hlt]
  reserved := by
    intro b hm hlt
    rw [used_congr (fun x h _ ↦ hb x h) hlt]
    exact ho.reserved b hm hlt

/-- A block in use past the metadata stands at exactly one position. -/
theorem Owned.unique (ho : Owned sb blocks look) {b : Nat} (hlo : sb.nmeta ≤ b) (hhi : b < sb.size)
    (hu : used sb blocks b = true) : ∃! P, P ∈ Places ∧ blockAt sb blocks look P = b := by
  obtain ⟨P, hP, hb⟩ := (ho.owns.used b hlo hhi).mp hu
  refine ⟨P, ⟨hP, hb⟩, ?_⟩
  rintro Q ⟨hQ, hQb⟩
  apply ho.owns.sep Q hQ P hP (hQb.trans hb.symm)
  have hpos := sb.nmeta_pos
  omega

end Congr

/-! ### Working on one inode -/

/-- The inodes as a call that works on `ip` sees them. -/
def look (sb : Superblock) (s : State) (ip : Slot) (i : Nat) : Dinode :=
  if i = (s.icache ip).inum then (s.icache ip).toDinode else dinode sb s.blocks i

/-- The block at a position, as a call that works on `ip` sees it. -/
abbrev pos (sb : Superblock) (ip : Slot) (s : State) (P : Lib.Pos Root) : Nat :=
  blockAt sb s.blocks (look sb s ip) P

/-- A byte of the block at a position; zero if there is no block. -/
def byteAt (sb : Superblock) (ip : Slot) (s : State) (P : Lib.Pos Root) (o : Nat) : UInt8 :=
  if pos sb ip s P = 0 then 0 else (s.blocks (pos sb ip s P)).byte o

/-- `ip` holds an inode in use. -/
def InUse (sb : Superblock) (ip : Slot) (s : State) : Prop :=
  (s.icache ip).inum < sb.ninodes ∧ (s.icache ip).type ≠ 0

/-- `ip` is an inode in use, of a disk where every block has one owner. -/
structure Ready (sb : Superblock) (ip : Slot) (s : State) : Prop where
  owned : Owned sb s.blocks (look sb s ip)
  inum : (s.icache ip).inum < sb.ninodes
  typed : (s.icache ip).type ≠ 0

/-- What a call that works on `ip` leaves alone: the disk up to the free map, the other
in-memory inodes, the fields of `ip` other than `addrs`, and the blocks already mapped. -/
structure Kept (sb : Superblock) (ip : Slot) (s s' : State) : Prop where
  owned : Owned sb s'.blocks (look sb s' ip)
  disk : ∀ b < sb.bmapstart, s'.blocks b = s.blocks b
  others : ∀ iq, iq ≠ ip → s'.icache iq = s.icache iq
  self : ∃ addrs, s'.icache ip = { s.icache ip with addrs }
  kept : ∀ P ∈ Places, pos sb ip s P ≠ 0 → pos sb ip s' P = pos sb ip s P

/-- A data block position. -/
def IsLeaf (P : Lib.Pos Root) : Prop := P ∈ Places ∧ P.2.length = levels P.1.2

/-- Positions `E` are mapped in addition, and no byte of a file has changed. -/
structure Grown (sb : Superblock) (ip : Slot) (E : Set (Lib.Pos Root)) (s s' : State) : Prop
    extends Kept sb ip s s' where
  mapped : ∀ P ∈ Places, pos sb ip s' P ≠ 0 ↔ pos sb ip s P ≠ 0 ∨ P ∈ E
  bytes : ∀ P, IsLeaf P → ∀ o, byteAt sb ip s' P o = byteAt sb ip s P o

/-- The call has returned the block at position `P`, with positions `E` mapped on the way. -/
structure Reached (sb : Superblock) (ip : Slot) (s : State) (P : Lib.Pos Root)
    (E : Set (Lib.Pos Root)) (r : State × Nat) : Prop extends Grown sb ip E s r.1 where
  at_pos : r.2 = pos sb ip r.1 P
  ne_zero : r.2 ≠ 0

section Relations

variable {sb : Superblock} {ip : Slot} {s s' s'' : State} {E E' : Set (Lib.Pos Root)}

theorem Kept.refl (h : Ready sb ip s) : Kept sb ip s s where
  owned := h.owned
  disk := fun _ _ ↦ rfl
  others := fun _ _ ↦ rfl
  self := ⟨(s.icache ip).addrs, rfl⟩
  kept := fun _ _ _ ↦ rfl

theorem Kept.trans (h : Kept sb ip s s') (h' : Kept sb ip s' s'') : Kept sb ip s s'' where
  owned := h'.owned
  disk := fun b hb ↦ (h'.disk b hb).trans (h.disk b hb)
  others := fun iq hq ↦ (h'.others iq hq).trans (h.others iq hq)
  self := by
    obtain ⟨addrs, ha⟩ := h.self
    obtain ⟨addrs', ha'⟩ := h'.self
    exact ⟨addrs', by rw [ha', ha]⟩
  kept := by
    intro P hP hz
    have hs := h.kept P hP hz
    rw [h'.kept P hP (by rwa [hs]), hs]

theorem Kept.inum_eq (h : Kept sb ip s s') : (s'.icache ip).inum = (s.icache ip).inum := by
  obtain ⟨addrs, ha⟩ := h.self
  rw [ha]

theorem Kept.size_eq (h : Kept sb ip s s') : (s'.icache ip).size = (s.icache ip).size := by
  obtain ⟨addrs, ha⟩ := h.self
  rw [ha]

theorem Kept.type_eq (h : Kept sb ip s s') : (s'.icache ip).type = (s.icache ip).type := by
  obtain ⟨addrs, ha⟩ := h.self
  rw [ha]

theorem Kept.ready (h : Kept sb ip s s') (hr : Ready sb ip s) : Ready sb ip s' where
  owned := h.owned
  inum := by rw [h.inum_eq]; exact hr.inum
  typed := by rw [h.type_eq]; exact hr.typed

theorem Grown.refl (h : Ready sb ip s) : Grown sb ip ∅ s s where
  toKept := Kept.refl h
  mapped := by simp
  bytes := fun _ _ _ ↦ rfl

theorem Grown.trans (h : Grown sb ip E s s') (h' : Grown sb ip E' s' s'') :
    Grown sb ip (E ∪ E') s s'' where
  toKept := h.toKept.trans h'.toKept
  mapped := by
    intro P hP
    rw [h'.mapped P hP, h.mapped P hP, or_assoc]
    rfl
  bytes := fun P hP o ↦ (h'.bytes P hP o).trans (h.bytes P hP o)

/-- Growing at mapped positions only is the same as not growing. -/
theorem Grown.congr_set (h : Grown sb ip E s s')
    (he : ∀ P ∈ Places, pos sb ip s P ≠ 0 ∨ P ∈ E ↔ pos sb ip s P ≠ 0 ∨ P ∈ E') :
    Grown sb ip E' s s' where
  toKept := h.toKept
  mapped := fun P hP ↦ (h.mapped P hP).trans (he P hP)
  bytes := h.bytes

/-- A new block `b` at the empty position `P₀` is growth, if nothing else has changed. -/
private theorem reached_attach (hr : Ready sb ip s) {P₀ : Lib.Pos Root} {b : Nat} (hP₀ : P₀ ∈ Places)
    (hempty : pos sb ip s P₀ = 0) (hlo : sb.nmeta ≤ b) (hhi : b < sb.size)
    (hfree : used sb s.blocks b = false)
    (hpos : ∀ P ∈ Places, pos sb ip s' P = if P = P₀ then b else pos sb ip s P)
    (hused : ∀ x < sb.size, used sb s'.blocks x = (decide (x = b) || used sb s.blocks x))
    (hdisk : ∀ x < sb.bmapstart, s'.blocks x = s.blocks x)
    (hothers : ∀ iq, iq ≠ ip → s'.icache iq = s.icache iq)
    (hself : ∃ addrs, s'.icache ip = { s.icache ip with addrs })
    (hleaf : ∀ P, IsLeaf P → pos sb ip s P ≠ 0 →
      s'.blocks (pos sb ip s P) = s.blocks (pos sb ip s P))
    (hzero : IsLeaf P₀ → s'.blocks b = Block.zero) : Reached sb ip s P₀ {P₀} (s', b) where
  at_pos := ((hpos P₀ hP₀).trans (if_pos rfl)).symm
  ne_zero := by
    have hn := sb.nmeta_pos
    show b ≠ 0
    omega
  owned := by
    constructor
    · refine hr.owned.owns.attach hP₀ hempty hlo hhi (by simp [hfree]) ?_ ?_ ?_
      · exact (hpos P₀ hP₀).trans (if_pos rfl)
      · intro P hP hne
        exact (hpos P hP).trans (if_neg hne)
      · intro x _ hx
        simp [hused x hx]
    · intro x hm hx
      rw [hused x hx, hr.owned.reserved x hm hx, Bool.or_true]
  disk := hdisk
  others := hothers
  self := hself
  kept := by
    intro P hP hz
    rw [hpos P hP, if_neg]
    rintro rfl
    exact hz hempty
  mapped := by
    intro P hP
    have hb : b ≠ 0 := by
      have hpos := sb.nmeta_pos
      omega
    rw [hpos P hP]
    split
    · next he => simp [he, hb]
    · next he => simp [he]
  bytes := by
    intro P hP o
    unfold byteAt
    rw [hpos P hP.1]
    by_cases he : P = P₀
    · subst he
      rw [if_pos rfl, hempty, if_pos rfl, hzero hP, Block.byte_zero, ite_self]
    · rw [if_neg he]
      by_cases hz : pos sb ip s P = 0
      · rw [if_pos hz, if_pos hz]
      · rw [if_neg hz, if_neg hz, hleaf P hP hz]

end Relations

/-! ### One pointer -/

section Pointer

variable {sb : Superblock} {ip : Slot} {s : State}

theorem Ready.inUse (hr : Ready sb ip s) : InUse sb ip s := ⟨hr.inum, hr.typed⟩

/-- A root read through the view is the entry of the in-memory inode. -/
theorem pos_root (hu : InUse sb ip s) (k : Fin (NDIRECT + 3)) :
    pos sb ip s (((s.icache ip).inum, k), []) = (s.icache ip).addrs k := by
  show roots sb (look sb s ip) ((s.icache ip).inum, k) = _
  have hl : look sb s ip (s.icache ip).inum = (s.icache ip).toDinode := if_pos rfl
  unfold roots
  rw [hl, if_pos ⟨hu.1, hu.2⟩]

/-- The entries of an inode in use are block numbers. -/
theorem Ready.addrs_lt (hr : Ready sb ip s) (k : Fin (NDIRECT + 3)) :
    (s.icache ip).addrs k < 2 ^ 32 := by
  have hsize := sb.size_lt
  rw [← pos_root hr.inUse k]
  by_cases hz : pos sb ip s (((s.icache ip).inum, k), []) = 0
  · rw [hz]
    exact Nat.two_pow_pos 32
  · have hrange := (hr.owned.owns.range _ Lib.mem_positions_nil hz).2
    exact Nat.lt_trans hrange (by omega)

/-- An entry of a mapped block. -/
theorem pos_entry {r : Root} {p : List Nat} {i : Nat} (hz : pos sb ip s (r, p) ≠ 0) :
    pos sb ip s (r, i :: p) = (s.blocks (pos sb ip s (r, p))).word i := by
  show Lib.ptr _ _ _ (i :: p) = _
  rw [Lib.ptr_cons]
  exact if_neg hz

/-- The block that `balloc` returns is a data block. -/
theorem Ready.nmeta_le (hr : Ready sb ip s) {s' : State} {b : Nat}
    (ha : Allocated sb s s' b) : sb.nmeta ≤ b := by
  by_contra hlt
  have hu := hr.owned.reserved b (by omega) ha.lt
  rw [ha.free] at hu
  cases hu

private theorem Reached.of_mapped (hr : Ready sb ip s) {P : Lib.Pos Root}
    (hz : pos sb ip s P ≠ 0) : Reached sb ip s P {P} (s, pos sb ip s P) where
  toGrown := by
    apply (Grown.refl hr).congr_set
    intro Q _
    constructor
    · rintro (h | h)
      · exact Or.inl h
      · exact absurd h (Set.notMem_empty Q)
    · rintro (h | h)
      · exact Or.inl h
      · rw [Set.mem_singleton_iff.mp h]
        exact Or.inl hz
  at_pos := rfl
  ne_zero := hz

section Allocate

variable {s' : State} {b : Nat}

private theorem Allocated.data (ha : Allocated sb s s' b) {x : Nat} (hx : sb.nmeta ≤ x)
    (hne : x ≠ b) : s'.blocks x = s.blocks x :=
  ha.rest x hne fun h ↦ Nat.not_lt.mpr hx h.2

private theorem Allocated.disk (ha : Allocated sb s s' b) (hb : sb.nmeta ≤ b) {x : Nat}
    (hx : x < sb.bmapstart) : s'.blocks x = s.blocks x := by
  have hlt := sb.bmapstart_lt
  exact ha.rest x (by omega) fun h ↦ Nat.not_lt.mpr h.1 hx

private theorem Ready.fresh (hr : Ready sb ip s) (ha : Allocated sb s s' b) {P : Lib.Pos Root}
    (hP : P ∈ Places) : pos sb ip s P ≠ b :=
  hr.owned.owns.fresh (hr.nmeta_le ha) ha.lt (by simp [ha.free]) P hP

/-- `balloc` leaves every mapped block as it was. -/
private theorem Ready.blocks_pos (hr : Ready sb ip s) (ha : Allocated sb s s' b)
    {P : Lib.Pos Root} (hP : P ∈ Places) (hz : pos sb ip s P ≠ 0) :
    s'.blocks (pos sb ip s P) = s.blocks (pos sb ip s P) :=
  ha.data (hr.owned.owns.range P hP hz).1 (hr.fresh ha hP)

/-- The inode entry `k` receives the new block. -/
private theorem root_attach (hr : Ready sb ip s) (ha : Allocated sb s s' b)
    {k : Fin (NDIRECT + 3)} (hz : (s.icache ip).addrs k = 0) {v : Inode}
    (hv : v = { s.icache ip with addrs := update (s.icache ip).addrs k b }) :
    Reached sb ip s (((s.icache ip).inum, k), []) {(((s.icache ip).inum, k), [])}
      (setInode s' ip v, b) := by
  have hlo := hr.nmeta_le ha
  have hself : (setInode s' ip v).icache ip = v := icache_setInode_self ip v
  have hroots : ∀ r, roots sb (look sb (setInode s' ip v) ip) r =
      if r = ((s.icache ip).inum, k) then b else roots sb (look sb s ip) r := by
    rintro ⟨i, j⟩
    by_cases hi : i = (s.icache ip).inum
    · have hl : look sb (setInode s' ip v) ip i = v.toDinode := by
        unfold look
        rw [hself, hv, if_pos hi]
      have hl' : look sb s ip i = (s.icache ip).toDinode := if_pos hi
      have hlt : i < sb.ninodes := hi ▸ hr.inum
      rw [roots_of_live hlt (by rw [hl, hv]; exact hr.typed),
        roots_of_live hlt (by rw [hl']; exact hr.typed), hl, hl', hv, hi]
      by_cases hj : j = k
      · subst hj
        simp
      · rw [if_neg fun h ↦ hj (Prod.mk.inj h).2]
        simp [hj]
    · rw [if_neg (fun h ↦ hi (Prod.mk.inj h).1)]
      by_cases hlt : i < sb.ninodes
      · have hl : look sb (setInode s' ip v) ip i = look sb s ip i := by
          unfold look
          rw [hself, hv, if_neg hi, if_neg hi]
          exact dinode_congr (fun x hx ↦ ha.disk hlo hx) hlt
        unfold roots
        rw [hl]
      · unfold roots
        rw [if_neg fun h ↦ hlt h.1, if_neg fun h ↦ hlt h.1]
  apply reached_attach hr Lib.mem_positions_nil (by rwa [pos_root hr.inUse]) hlo ha.lt ha.free
  · intro P hP
    refine Lib.ptr_attach_root ?_ ?_ ?_ ?_ ?_ ?_ (show (P.1, P.2) ∈ Places from hP)
    · have h0 := pos_root hr.inUse k
      rw [hz] at h0
      exact h0
    · have hpos := sb.nmeta_pos
      omega
    · exact (hroots _).trans (if_pos rfl)
    · intro r hne
      exact (hroots r).trans (if_neg hne)
    · intro j
      show (s'.blocks b).word j = 0
      rw [ha.zero, Block.word_zero]
    · intro Q hQ hQz j
      exact congrArg (fun blk ↦ blk.word j) (hr.blocks_pos ha hQ hQz)
  · exact ha.taken hlo
  · exact fun x hx ↦ ha.disk hlo hx
  · intro iq hne
    rw [icache_setInode_ne hne, ha.icache]
  · exact ⟨_, hself.trans hv⟩
  · exact fun P hP hPz ↦ hr.blocks_pos ha hP.1 hPz
  · exact fun _ ↦ ha.zero

/-- Entry `i` of the indirect block at `(r, p)` receives the new block. -/
private theorem entry_attach (hr : Ready sb ip s) (ha : Allocated sb s s' b) {r : Root}
    {p : List Nat} {i : Nat} (hP : (r, i :: p) ∈ Places) (hx : pos sb ip s (r, p) ≠ 0)
    (hz : (s.blocks (pos sb ip s (r, p))).word i = 0) {t : State}
    (ht : t = logWrite s' (pos sb ip s (r, p))
      ((s'.blocks (pos sb ip s (r, p))).setWord i b)) :
    Reached sb ip s (r, i :: p) {(r, i :: p)} (t, b) := by
  have hlo := hr.nmeta_le ha
  have hpar := Lib.mem_positions_parent hP
  have hrange : sb.nmeta ≤ pos sb ip s (r, p) ∧ pos sb ip s (r, p) < sb.size :=
    hr.owned.owns.range (r, p) hpar hx
  have hxb : pos sb ip s (r, p) ≠ b := hr.fresh ha hpar
  have hblocks : ∀ x, x ≠ pos sb ip s (r, p) → t.blocks x = s'.blocks x := by
    intro x hne
    simp [ht, blocks_logWrite, hne]
  have hmap : sb.bmapstart < pos sb ip s (r, p) := Nat.lt_of_lt_of_le sb.bmapstart_lt hrange.1
  have hdisk : ∀ x < sb.bmapstart, t.blocks x = s.blocks x := by
    intro x hlt
    rw [hblocks x (by omega), ha.disk hlo hlt]
  have hic : t.icache = s.icache := by rw [ht, icache_logWrite, ha.icache]
  have hlook : ∀ j < sb.ninodes, look sb t ip j = look sb s ip j := by
    intro j hj
    unfold look
    rw [hic, dinode_congr hdisk hj]
  have hb : t.blocks b = Block.zero := by rw [hblocks b hxb.symm, ha.zero]
  apply reached_attach hr hP (by rwa [pos_entry hx]) hlo ha.lt ha.free
  · intro P hPP
    show Lib.ptr (roots sb (look sb t ip)) _ _ _ = _
    rw [roots_congr_eq hlook]
    apply Lib.ptr_attach hr.owned.owns.sep hP hx hz
    · have hpos := sb.nmeta_pos
      omega
    · intro j
      show (t.blocks b).word j = 0
      rw [hb, Block.word_zero]
    · intro Q hQ hQz j
      show (t.blocks (pos sb ip s Q)).word j = _
      by_cases he : pos sb ip s Q = pos sb ip s (r, p)
      · have hword : (t.blocks (pos sb ip s (r, p))).word j =
            if j = i then b else (s.blocks (pos sb ip s (r, p))).word j := by
          have hi : i < NINDIRECT := Lib.head_lt_of_mem_positions hP
          have hb32 : b < 2 ^ 32 := by
            have h1 := ha.lt
            have h2 := sb.size_lt
            omega
          rw [ht, blocks_logWrite, update_self, Block.word_setWord _ _ _ _ hi hb32,
            hr.blocks_pos ha hpar hx]
        rw [he, hword]
        by_cases hj : j = i
        · rw [if_pos hj, if_pos ⟨he, hj⟩]
        · rw [if_neg hj, if_neg fun h ↦ hj h.2, ← he]
          rfl
      · rw [if_neg fun h ↦ he h.1, hblocks _ he, hr.blocks_pos ha hQ hQz]
        rfl
    · exact hPP
  · intro x hlt
    rw [← ha.taken hlo x hlt]
    apply used_congr _ hlt
    intro y _ hy
    exact hblocks y (by omega)
  · exact hdisk
  · intro iq _
    rw [hic]
  · exact ⟨(s.icache ip).addrs, by rw [hic]⟩
  · intro P hPl hPz
    have hne : pos sb ip s P ≠ pos sb ip s (r, p) := by
      intro he
      have heq := hr.owned.owns.sep P hPl.1 (r, p) hpar he hPz
      rw [heq] at hPl
      have hlen : p.length = levels r.2 := hPl.2
      have hdeep : (i :: p).length ≤ levels r.2 := hP.1
      rw [List.length_cons] at hdeep
      omega
    rw [hblocks _ hne, hr.blocks_pos ha hPl.1 hPz]
  · exact fun _ ↦ hb

end Allocate

theorem root_spec (hr : Ready sb ip s) (k : Fin (NDIRECT + 3)) :
    Lib.Ensures (root sb s ip k) (· = .outOfBlocks)
      (Reached sb ip s (((s.icache ip).inum, k), []) {(((s.icache ip).inum, k), [])}) := by
  have hroot := pos_root hr.inUse k
  unfold root
  dsimp only
  split
  · next hz =>
    apply Lib.Ensures.bind (balloc_spec s)
    rintro ⟨s₁, b⟩ ha
    have hv : s₁.icache ip = s.icache ip := by rw [ha.icache]
    show Reached sb ip s _ _
      (setInode s₁ ip { s₁.icache ip with addrs := update (s₁.icache ip).addrs k b }, b)
    rw [hv]
    exact root_attach hr ha hz rfl
  · next hz =>
    have hm := Reached.of_mapped hr (P := (((s.icache ip).inum, k), [])) (by rwa [hroot])
    rwa [hroot] at hm

theorem entry_spec (hr : Ready sb ip s) {r : Root} {p : List Nat} {i : Nat}
    (hP : (r, i :: p) ∈ Places) (hx : pos sb ip s (r, p) ≠ 0) :
    Lib.Ensures (entry sb s (pos sb ip s (r, p)) i) (· = .outOfBlocks)
      (Reached sb ip s (r, i :: p) {(r, i :: p)}) := by
  have hentry := pos_entry (i := i) hx
  unfold entry
  dsimp only
  split
  · next hz =>
    apply Lib.Ensures.bind (balloc_spec s)
    rintro ⟨s₁, b⟩ ha
    exact entry_attach hr ha hP hx hz rfl
  · next hz =>
    have hm := Reached.of_mapped hr (P := (r, i :: p)) (by rwa [hentry])
    rwa [hentry] at hm

/-- Walking down maps the positions on the way, and returns the block at the end. -/
theorem walk_spec (hr : Ready sb ip s) {k : Fin (NDIRECT + 3)} {p : List Nat}
    (hp : (((s.icache ip).inum, k), p) ∈ Places) :
    Lib.Ensures (walk sb s ip k p) (· = .outOfBlocks)
      (Reached sb ip s (((s.icache ip).inum, k), p)
        {Q | Q.1 = ((s.icache ip).inum, k) ∧ Q.2 <:+ p}) := by
  induction p with
  | nil =>
    apply (root_spec hr k).imp
    intro r h
    have he : {Q : Lib.Pos Root | Q.1 = ((s.icache ip).inum, k) ∧ Q.2 <:+ []} =
        {(((s.icache ip).inum, k), [])} := by
      ext Q
      simp [Prod.ext_iff]
    rwa [he]
  | cons i p ih =>
    apply Lib.Ensures.bind (ih (Lib.mem_positions_parent hp))
    rintro ⟨s₁, a⟩ h₁
    have hr₁ := h₁.ready hr
    have hi : (s₁.icache ip).inum = (s.icache ip).inum := h₁.inum_eq
    have ha : a = pos sb ip s₁ (((s.icache ip).inum, k), p) := h₁.at_pos
    show Lib.Ensures (entry sb s₁ a i) _ _
    rw [ha]
    apply (entry_spec hr₁ hp (ha ▸ h₁.ne_zero)).imp
    intro r h₂
    constructor
    · apply (h₁.toGrown.trans h₂.toGrown).congr_set
      intro Q _
      have he : Q ∈ {Q : Lib.Pos Root | Q.1 = ((s.icache ip).inum, k) ∧ Q.2 <:+ p} ∪
          {(((s.icache ip).inum, k), i :: p)} ↔
          Q ∈ {Q : Lib.Pos Root | Q.1 = ((s.icache ip).inum, k) ∧ Q.2 <:+ i :: p} := by
        simp only [Set.mem_union, Set.mem_ofPred_eq, Set.mem_singleton_iff, List.suffix_cons_iff,
          Prod.ext_iff]
        tauto
      rw [he]
    · exact h₂.at_pos
    · exact h₂.ne_zero

/-- Walking down to a mapped position allocates nothing. -/
theorem walk_of_mapped (hu : InUse sb ip s) {k : Fin (NDIRECT + 3)} {p : List Nat}
    (hz : pos sb ip s (((s.icache ip).inum, k), p) ≠ 0) :
    walk sb s ip k p = .ok (s, pos sb ip s (((s.icache ip).inum, k), p)) := by
  induction p with
  | nil =>
    rw [pos_root hu] at hz ⊢
    rw [walk, root]
    exact if_neg hz
  | cons i p ih =>
    have hpar : pos sb ip s (((s.icache ip).inum, k), p) ≠ 0 := by
      intro h0
      apply hz
      show Lib.ptr _ _ _ (i :: p) = 0
      rw [Lib.ptr_cons]
      exact if_pos h0
    rw [walk, ih hpar]
    rw [pos_entry hpar] at hz ⊢
    show entry sb s _ i = _
    rw [entry]
    exact if_neg hz

end Pointer

/-! ### `bmap` -/

section Bmap

variable {sb : Superblock} {ip : Slot} {s : State} {bn nb : Nat}

/-- Of the inode of `ip`, just the positions that its first `nb` blocks need are mapped. -/
def Maps (sb : Superblock) (ip : Slot) (s : State) (nb : Nat) : Prop :=
  ∀ k q, (((s.icache ip).inum, k), q) ∈ Places →
    (pos sb ip s (((s.icache ip).inum, k), q) ≠ 0 ↔ Needed nb k q)

/-- The position of the `bn`th block of inode `i`. -/
def place (i bn : Nat) : Lib.Pos Root := ((i, (leaf bn).1), (leaf bn).2)

theorem isLeaf_place (i : Nat) (h : bn < MAXFILE) : IsLeaf (place i bn) :=
  ⟨⟨(leaf_valid h).1.le, (leaf_valid h).2⟩, (leaf_valid h).1⟩

theorem place_inj {i i' bn' : Nat} (h : bn < MAXFILE) (h' : bn' < MAXFILE) :
    place i bn = place i' bn' ↔ i = i' ∧ bn = bn' := by
  constructor
  · intro he
    obtain ⟨hroot, hpath⟩ := Prod.mk.inj he
    obtain ⟨hi, hk⟩ := Prod.mk.inj hroot
    exact ⟨hi, leaf_inj h h' (Prod.ext hk hpath)⟩
  · rintro ⟨rfl, rfl⟩
    rfl

/-- The `bn`th block is mapped when it is one of the first `nb`. -/
theorem Maps.place_iff (hm : Maps sb ip s nb) (hbn : bn < MAXFILE) :
    pos sb ip s (place (s.icache ip).inum bn) ≠ 0 ↔ bn < nb :=
  (hm _ _ (isLeaf_place _ hbn).1).trans (needed_leaf hbn)

/-- `bmap` of a block within or just past the mapped ones maps it, and changes no file. -/
theorem bmap_spec (hr : Ready sb ip s) (hm : Maps sb ip s nb) (hbn : bn < MAXFILE)
    (hle : bn ≤ nb) :
    Lib.Ensures (bmap sb s ip bn) (· = .outOfBlocks) fun r ↦
      Kept sb ip s r.1 ∧ Maps sb ip r.1 (max nb (bn + 1)) ∧
      (∀ P ∈ Places, P.1.1 ≠ (s.icache ip).inum → (pos sb ip r.1 P ≠ 0 ↔ pos sb ip s P ≠ 0)) ∧
      (∀ P, IsLeaf P → ∀ o, byteAt sb ip r.1 P o = byteAt sb ip s P o) ∧
      r.2 = pos sb ip r.1 (place (s.icache ip).inum bn) ∧ r.2 ≠ 0 := by
  rw [bmap_eq_walk hbn]
  have hplace := isLeaf_place (s.icache ip).inum hbn
  apply (walk_spec hr hplace.1).imp
  intro r h
  refine ⟨h.toKept, ?_, ?_, h.bytes, h.at_pos, h.ne_zero⟩
  · intro k q hq
    rw [h.inum_eq] at hq ⊢
    rw [h.mapped _ hq, hm k q hq, needed_grow hbn hle]
    simp only [Set.mem_ofPred_eq, Prod.mk.injEq, true_and, eq_comm]
  · intro P hP hne
    rw [h.mapped P hP]
    constructor
    · rintro (hz | ⟨hroot, -⟩)
      · exact hz
      · exact absurd (congrArg Prod.fst hroot) hne
    · exact Or.inl

/-- `bmap` of a mapped block only reads. -/
theorem bmap_of_mapped (hu : InUse sb ip s) (hbn : bn < MAXFILE)
    (hz : pos sb ip s (place (s.icache ip).inum bn) ≠ 0) :
    bmap sb s ip bn = .ok (s, pos sb ip s (place (s.icache ip).inum bn)) := by
  rw [bmap_eq_walk hbn]
  exact walk_of_mapped hu hz

end Bmap

end Xv6.Fs
