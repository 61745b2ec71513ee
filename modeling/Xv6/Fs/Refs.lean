import Xv6.Fs.Demand
import Xv6.Fs.Truncate
import Xv6.Fs.Inodes

/-!
# Inodes and the references to them

The disk as the callers of `fs.c` see it, a partial map from inode numbers to nodes, and the
reference counts of the inode cache, which add up to the references that the callers hold. Each
call on inodes is described by what it does to these two.
-/

namespace Xv6.Fs

open Function

/-- An inode in use, without its blocks. -/
structure Node where
  type : Int16
  nlink : Int16
  data : List UInt8

/-- The inodes in use on the disk. -/
def view (sb : Superblock) (blocks : Nat → Block) (i : Nat) : Option Node :=
  if Live sb blocks i then
    some ⟨(dinode sb blocks i).type, (dinode sb blocks i).nlink, files sb blocks i⟩
  else
    none

/-- The callers hold the references `H`, and what they refer to is in use. -/
structure Holding (sb : Superblock) (H : Multiset Slot) (s : State) : Prop where
  consistent : Consistent sb s
  count : ∀ ip, (s.icache ip).ref = H.count ip
  live : ∀ ip ∈ H, Live sb s.blocks (s.icache ip).inum

/-- The slots of `H` keep their inodes from `s` to `t`, and what has been read stays read. -/
def Steady (H : Multiset Slot) (s t : State) : Prop :=
  ∀ ip ∈ H, (t.icache ip).inum = (s.icache ip).inum ∧
    ((s.icache ip).valid = true → (t.icache ip).valid = true)

section

variable {sb : Superblock} {s t u : State} {ip : Slot} {H : Multiset Slot}

theorem Steady.refl (H : Multiset Slot) (s : State) : Steady H s s := fun _ _ ↦ ⟨rfl, id⟩

theorem Steady.trans (h : Steady H s t) (h' : Steady H t u) : Steady H s u := by
  intro ip hip
  exact ⟨(h' ip hip).1.trans (h ip hip).1, fun hv ↦ (h' ip hip).2 ((h ip hip).2 hv)⟩

theorem Steady.mono {H' : Multiset Slot} (h : Steady H s t) (hle : ∀ ip ∈ H', ip ∈ H) :
    Steady H' s t :=
  fun ip hip ↦ h ip (hle ip hip)

/-- Slots that no call has touched are steady. -/
theorem Steady.of_eq (h : ∀ ip ∈ H, t.icache ip = s.icache ip) : Steady H s t := by
  intro ip hip
  rw [h ip hip]
  exact ⟨rfl, id⟩

/-! ### Views -/

theorem view_of_live {i : Nat} (h : Live sb s.blocks i) : view sb s.blocks i =
    some ⟨(dinode sb s.blocks i).type, (dinode sb s.blocks i).nlink, files sb s.blocks i⟩ :=
  if_pos h

theorem view_eq_none {i : Nat} : view sb s.blocks i = none ↔ ¬Live sb s.blocks i := by
  unfold view
  split
  · next h => exact iff_of_false (Option.some_ne_none _) (not_not.mpr h)
  · next h => exact iff_of_true rfl h

theorem live_of_view {i : Nat} {nd : Node} (h : view sb s.blocks i = some nd) :
    Live sb s.blocks i := by
  by_contra hl
  rw [view_eq_none.mpr hl] at h
  cases h

/-- The node of a locked inode has the fields of the in-memory copy. -/
theorem view_self (h : Consistent sb s) (hip : Held s ip) :
    view sb s.blocks (s.icache ip).inum = some ⟨(s.icache ip).type, (s.icache ip).nlink,
      files sb s.blocks (s.icache ip).inum⟩ := by
  rw [view_of_live (h.live hip), ← h.cache.cached ip hip]

theorem view_congr {i : Nat} (hd : dinode sb t.blocks i = dinode sb s.blocks i)
    (hf : files sb t.blocks i = files sb s.blocks i) :
    view sb t.blocks i = view sb s.blocks i := by
  have hlive : Live sb t.blocks i ↔ Live sb s.blocks i := by rw [Live, Live, hd]
  unfold view
  by_cases hl : Live sb s.blocks i
  · rw [if_pos hl, if_pos (hlive.mpr hl), hd, hf]
  · rw [if_neg hl, if_neg (mt hlive.mp hl)]

/-- A file depends on its size, its own positions and the data blocks only. -/
theorem files_congr_self (h : Consistent sb s) {i : Nat}
    (hlive : Live sb t.blocks i ↔ Live sb s.blocks i)
    (hsize : Live sb s.blocks i → (dinode sb t.blocks i).size = (dinode sb s.blocks i).size)
    (hdisk : ∀ P ∈ Places, P.1.1 = i → diskAt sb t.blocks P = diskAt sb s.blocks P)
    (hdata : ∀ b, sb.nmeta ≤ b → t.blocks b = s.blocks b) :
    files sb t.blocks i = files sb s.blocks i := by
  unfold files
  by_cases hl : Live sb s.blocks i
  · rw [if_pos hl, if_pos (hlive.mpr hl), hsize hl]
    apply List.map_congr_left
    intro j hj
    have hlt := List.mem_range.mp hj
    have hsmall := h.disk.small i hl
    have hjb : j / BSIZE < MAXFILE := Nat.div_lt_of_lt_mul (by rw [Nat.mul_comm]; omega)
    have hP := (isLeaf_place i hjb).1
    unfold diskByte
    rw [hdisk _ hP rfl]
    by_cases hz : diskAt sb s.blocks (place i (j / BSIZE)) = 0
    · rw [if_pos hz, if_pos hz]
    · rw [if_neg hz, if_neg hz, hdata _ (h.disk.owned.owns.range _ hP hz).1]
  · rw [if_neg hl, if_neg (mt hlive.mp hl)]

/-- A call that settles `ip` changes the node of `ip` only. -/
theorem Settled.view_eq {s₁ : State} (ht : Settled sb ip s s₁ t) (h : Consistent sb s)
    (hip : Held s ip) {data : List UInt8}
    (hfiles : files sb t.blocks = update (files sb s.blocks) (s.icache ip).inum data) :
    view sb t.blocks = update (view sb s.blocks) (s.icache ip).inum
      (some ⟨(s.icache ip).type, (t.icache ip).nlink, data⟩) := by
  funext i
  by_cases hi : i = (s.icache ip).inum
  · subst hi
    rw [update_self, view_of_live ((ht.live_iff h hip _).mpr (h.live hip)), ht.dinode_self h hip,
      hfiles, update_self, ht.type]
  · rw [update_of_ne hi]
    by_cases hl : Live sb s.blocks i
    · apply view_congr (ht.dinode_other hl.1 hi)
      rw [hfiles, update_of_ne hi]
    · rw [view_eq_none.mpr hl, view_eq_none.mpr (mt (ht.live_iff h hip i).mp hl)]

/-! ### References -/

namespace Holding

theorem ref_pos (h : Holding sb H s) : 0 < (s.icache ip).ref ↔ ip ∈ H := by
  rw [h.count, Multiset.count_pos]

theorem held (h : Holding sb H s) (hip : ip ∈ H) (hv : (s.icache ip).valid = true) : Held s ip :=
  ⟨h.ref_pos.mpr hip, hv⟩

/-- The node of a slot is there. -/
theorem node (h : Holding sb H s) (hip : ip ∈ H) :
    ∃ nd, view sb s.blocks (s.icache ip).inum = some nd :=
  ⟨_, view_of_live (h.live ip hip)⟩

/-- The in-memory copy of an inode that has been read has the fields of its node. -/
theorem fields (h : Holding sb H s) (hip : ip ∈ H) (hv : (s.icache ip).valid = true) {nd : Node}
    (hnd : view sb s.blocks (s.icache ip).inum = some nd) :
    (s.icache ip).type = nd.type ∧ (s.icache ip).nlink = nd.nlink ∧
      files sb s.blocks (s.icache ip).inum = nd.data := by
  rw [view_self h.consistent (h.held hip hv)] at hnd
  cases hnd
  exact ⟨rfl, rfl, rfl⟩

/-- Two slots in use have different inodes. -/
theorem inum_ne (h : Holding sb H s) {iq : Slot} (hip : ip ∈ H) (hiq : iq ∈ H) (hne : ip ≠ iq) :
    (s.icache ip).inum ≠ (s.icache iq).inum := fun he ↦
  hne (h.consistent.cache.single ip iq (h.ref_pos.mpr hip) (h.ref_pos.mpr hiq) he)

/-- The callers hold the same references after a call that neither takes nor drops one and
frees no inode. -/
theorem keep (h : Holding sb H s) (ht : Consistent sb t)
    (href : ∀ ip, (t.icache ip).ref = (s.icache ip).ref)
    (hinum : ∀ ip ∈ H, (t.icache ip).inum = (s.icache ip).inum)
    (hlive : ∀ i, Live sb s.blocks i → Live sb t.blocks i) : Holding sb H t where
  consistent := ht
  count ip := (href ip).trans (h.count ip)
  live ip hip := by
    rw [hinum ip hip]
    exact hlive _ (h.live ip hip)

end Holding

/-- `iget` adds a reference to a slot of the inode. -/
theorem iget_refs (h : Holding sb H s) {inum : Nat} (hl : Live sb s.blocks inum) :
    Lib.Ensures (iget s inum) (· = .igetNoInodes) fun r ↦
      Holding sb (r.2 ::ₘ H) r.1 ∧ Steady H s r.1 ∧ r.1.blocks = s.blocks ∧
        (r.1.icache r.2).inum = inum := by
  have hspec := iget_spec h.consistent hl.1
  have hkey : Lib.Ensures (iget s inum) (· = .igetNoInodes) fun r ↦
      Steady H s r.1 ∧ ∀ ip, (r.1.icache ip).ref = (r.2 ::ₘ H).count ip := by
    unfold iget
    split
    · next ip hfind =>
      constructor
      · intro iq hq
        by_cases he : iq = ip
        · subst he
          dsimp only
          rw [icache_setInode_self]
          exact ⟨rfl, id⟩
        · dsimp only
          rw [icache_setInode_ne he]
          exact ⟨rfl, id⟩
      · intro iq
        by_cases he : iq = ip
        · subst he
          dsimp only
          rw [icache_setInode_self, Multiset.count_cons_self, ← h.count]
        · dsimp only
          rw [icache_setInode_ne he, Multiset.count_cons_of_ne he, h.count]
    · split
      · next ip hfind =>
        have hzero : (s.icache ip).ref = 0 := by simpa using List.find?_some hfind
        have hnot : ip ∉ H := fun hm ↦ by
          have hpos := h.ref_pos.mpr hm
          omega
        constructor
        · apply Steady.of_eq
          intro iq hq
          have hne : iq ≠ ip := by
            rintro rfl
            exact hnot hq
          exact icache_setInode_ne hne _
        · intro iq
          by_cases he : iq = ip
          · subst he
            dsimp only
            rw [icache_setInode_self, Multiset.count_cons_self, Multiset.count_eq_zero.mpr hnot]
          · dsimp only
            rw [icache_setInode_ne he, Multiset.count_cons_of_ne he, h.count]
      · rfl
  apply (hspec.and hkey).imp
  rintro ⟨t, ip⟩ ⟨⟨hc, hb, -, hinum⟩, hsteady, hcount⟩
  refine ⟨⟨hc, hcount, ?_⟩, hsteady, hb, hinum⟩
  intro iq hq
  dsimp only at hsteady hb hinum ⊢
  rw [hb]
  obtain rfl | hq := Multiset.mem_cons.mp hq
  · rwa [hinum]
  · rw [(hsteady iq hq).1]
    exact h.live iq hq

/-- `idup` adds a reference to the same slot. -/
theorem idup_refs (h : Holding sb H s) (hip : ip ∈ H) :
    Holding sb (ip ::ₘ H) (idup s ip) ∧ Steady H s (idup s ip) ∧
      (idup s ip).blocks = s.blocks ∧ ((idup s ip).icache ip).inum = (s.icache ip).inum := by
  have hinum : ∀ iq, ((idup s ip).icache iq).inum = (s.icache iq).inum := by
    intro iq
    by_cases he : iq = ip
    · rw [he, idup, icache_setInode_self]
    · rw [idup, icache_setInode_ne he]
  refine ⟨⟨idup_spec h.consistent (h.ref_pos.mpr hip), ?_, ?_⟩, ?_, blocks_setInode _ _, hinum ip⟩
  · intro iq
    by_cases he : iq = ip
    · rw [he, idup, icache_setInode_self, Multiset.count_cons_self, ← h.count]
    · rw [idup, icache_setInode_ne he, Multiset.count_cons_of_ne he, h.count]
  · intro iq hq
    rw [hinum, idup, blocks_setInode]
    obtain rfl | hq := Multiset.mem_cons.mp hq
    · exact h.live iq hip
    · exact h.live iq hq
  · intro iq hq
    refine ⟨hinum iq, fun hv ↦ ?_⟩
    by_cases he : iq = ip
    · rw [he] at hv ⊢
      rw [idup, icache_setInode_self]
      exact hv
    · rwa [idup, icache_setInode_ne he]

/-- `ilock` of a reference never fails, and changes neither the disk nor the references. -/
theorem ilock_refs (h : Holding sb H s) (hip : ip ∈ H) (err : Panic → Prop) :
    Lib.Ensures (ilock sb s ip) err fun t ↦
      Holding sb H t ∧ Steady H s t ∧ t.blocks = s.blocks ∧ (t.icache ip).valid = true := by
  have href := h.ref_pos.mpr hip
  have hspec := ilock_spec h.consistent href
  have hlive := h.live ip hip
  unfold ilock at hspec ⊢
  rw [if_neg (Nat.not_lt.mpr href)] at hspec ⊢
  split
  · next hv =>
    dsimp only at hspec ⊢
    rw [if_pos hv, if_neg hlive.2] at hspec
    rw [if_neg hlive.2]
    have hinum : ∀ iq, ((setInode s ip { s.icache ip with
        toDinode := dinode sb s.blocks (s.icache ip).inum, valid := true }).icache iq).inum =
          (s.icache iq).inum := by
      intro iq
      by_cases he : iq = ip
      · rw [he, icache_setInode_self]
      · rw [icache_setInode_ne he]
    refine ⟨h.keep hspec ?_ (fun iq _ ↦ hinum iq) fun _ hl ↦ hl, ?_, rfl, ?_⟩
    · intro iq
      by_cases he : iq = ip
      · rw [he, icache_setInode_self]
      · rw [icache_setInode_ne he]
    · intro iq hq
      refine ⟨hinum iq, fun hvq ↦ ?_⟩
      by_cases he : iq = ip
      · rw [he, icache_setInode_self]
      · rwa [icache_setInode_ne he]
    · rw [icache_setInode_self]
  · next hv => exact ⟨h, Steady.refl H s, rfl, Bool.eq_true_of_not_eq_false hv⟩

/-- An `iput` that frees nothing drops a reference. -/
private theorem iput_refs_of_not_frees (h : Holding sb (ip ::ₘ H) s) (hf : ¬Frees s ip)
    (err : Panic → Prop) :
    Lib.Ensures (iput sb s ip) err fun t ↦
      Holding sb H t ∧ Steady H s t ∧ t.blocks = s.blocks := by
  rw [iput_of_not_frees hf]
  have hkeep : ∀ iq, iq ∈ H → iq ∈ ip ::ₘ H := fun iq hq ↦ Multiset.mem_cons_of_mem hq
  refine ⟨⟨?_, ?_, ?_⟩, ?_, rfl⟩
  · exact h.consistent.setRef fun _ ↦ h.ref_pos.mpr (Multiset.mem_cons_self ip H)
  · intro iq
    by_cases he : iq = ip
    · rw [he, icache_setInode_self]
      dsimp only
      rw [h.count, Multiset.count_cons_self, Nat.add_sub_cancel]
    · rw [icache_setInode_ne he, h.count, Multiset.count_cons_of_ne he]
  · intro iq hq
    rw [blocks_setInode]
    by_cases he : iq = ip
    · rw [he, icache_setInode_self]
      exact h.live ip (Multiset.mem_cons_self ip H)
    · rw [icache_setInode_ne he]
      exact h.live iq (hkeep iq hq)
  · intro iq hq
    by_cases he : iq = ip
    · rw [he, icache_setInode_self]
      exact ⟨rfl, id⟩
    · rw [icache_setInode_ne he]
      exact ⟨rfl, id⟩

/-- Dropping a reference to an inode with links frees nothing. -/
theorem iput_refs (h : Holding sb (ip ::ₘ H) s) {nd : Node}
    (hnd : view sb s.blocks (s.icache ip).inum = some nd) (hlink : nd.nlink ≠ 0)
    (err : Panic → Prop) :
    Lib.Ensures (iput sb s ip) err fun t ↦
      Holding sb H t ∧ Steady H s t ∧ t.blocks = s.blocks := by
  apply iput_refs_of_not_frees h
  rintro ⟨hv, hz, -⟩
  rw [view_self h.consistent (h.held (Multiset.mem_cons_self ip H) hv)] at hnd
  cases hnd
  exact hlink hz

/-- The node of an inode is not touched when another inode is emptied. -/
private theorem Emptied.view_eq {v : Inode} (he : Emptied sb ip v s t) (h : Consistent sb s)
    (htype : v.type = 0) :
    view sb t.blocks = update (view sb s.blocks) (s.icache ip).inum none := by
  funext i
  by_cases hi : i = (s.icache ip).inum
  · subst hi
    rw [update_self, view_eq_none]
    rintro ⟨hlt, hne⟩
    rw [he.dinodes _ hlt, if_pos rfl] at hne
    exact hne htype
  · rw [update_of_ne hi]
    by_cases hlt : i < sb.ninodes
    · have hd : dinode sb t.blocks i = dinode sb s.blocks i := by rw [he.dinodes i hlt, if_neg hi]
      apply view_congr hd
      apply files_congr_self h (by rw [Live, Live, hd]) (fun _ ↦ by rw [hd]) _ he.data
      rintro P hP rfl
      refine Lib.ptr_congr ?_ ?_ (show (P.1, P.2) ∈ Places from hP)
      · unfold roots
        rw [hd]
      · intro j p hp hz
        have hrange := h.disk.owned.owns.range (P.1, p) (Lib.mem_positions_parent hp) hz
        exact congrArg (fun blk ↦ blk.word j) (he.data _ hrange.1)
    · rw [view_eq_none.mpr fun hl ↦ hlt hl.1, view_eq_none.mpr fun hl ↦ hlt hl.1]

/-- The last `iput` of an inode that has been read and has no links removes its node; any
other one leaves the disk alone. -/
theorem iput_last_refs (h : Holding sb (ip ::ₘ H) s) (hv : (s.icache ip).valid = true)
    (err : Panic → Prop) :
    Lib.Ensures (iput sb s ip) err fun t ↦
      Holding sb H t ∧ Steady H s t ∧ view sb t.blocks =
        if ip ∉ H ∧ (s.icache ip).nlink = 0 then
          update (view sb s.blocks) (s.icache ip).inum none
        else
          view sb s.blocks := by
  have hself := Multiset.mem_cons_self ip H
  have hiff : Frees s ip ↔ ip ∉ H ∧ (s.icache ip).nlink = 0 := by
    unfold Frees
    rw [h.count, Multiset.count_cons_self, Nat.succ_inj, Multiset.count_eq_zero]
    exact ⟨fun hf ↦ ⟨hf.2.2, hf.2.1⟩, fun hf ↦ ⟨hv, hf.2, hf.1⟩⟩
  by_cases hf : Frees s ip
  · have hip := h.held hself hv
    rw [if_pos (hiff.mp hf)]
    apply (iput_of_frees h.consistent hf err).imp
    rintro t ⟨v, htype, href, he⟩
    have hview := he.view_eq h.consistent htype
    have hnot := (hiff.mp hf).1
    have hothers : ∀ iq ∈ H, t.icache iq = s.icache iq := by
      intro iq hq
      apply he.others
      rintro rfl
      exact hnot hq
    refine ⟨⟨he.consistent h.consistent hip htype href, ?_, ?_⟩, Steady.of_eq hothers, hview⟩
    · intro iq
      by_cases hq : iq = ip
      · rw [hq, he.self, href, Multiset.count_eq_zero.mpr hnot]
      · rw [he.others iq hq, h.count, Multiset.count_cons_of_ne hq]
    · intro iq hq
      have hne : iq ≠ ip := by
        rintro rfl
        exact hnot hq
      have hmem : iq ∈ ip ::ₘ H := Multiset.mem_cons_of_mem hq
      obtain ⟨nd, hnd⟩ := h.node hmem
      rw [hothers iq hq]
      apply live_of_view
      rw [hview, update_of_ne (h.inum_ne hmem hself hne)]
      exact hnd
  · rw [if_neg (mt hiff.mpr hf)]
    apply (iput_refs_of_not_frees h hf err).imp
    rintro t ⟨hh, hs, hb⟩
    exact ⟨hh, hs, by rw [hb]⟩

/-- Writing to a locked inode changes the contents of its node. -/
theorem writei_refs (dev : Devsw) {off n : UInt32} (h : Holding sb H s) (hip : ip ∈ H)
    (hv : (s.icache ip).valid = true) (ht : (s.icache ip).type ≠ T_DEV) (src : Nat → UInt8)
    (hf : ¬WriteFails (s.icache ip).size off.toNat n.toNat) :
    Lib.Ensures (writei sb dev s ip src off n) (· = .outOfBlocks) fun r ↦
      r.2 = some n.toNat ∧ Holding sb H r.1 ∧ Steady H s r.1 ∧
        view sb r.1.blocks = update (view sb s.blocks) (s.icache ip).inum
          (some ⟨(s.icache ip).type, (s.icache ip).nlink,
            overwrite (files sb s.blocks (s.icache ip).inum) off.toNat
              ((List.range n.toNat).map src)⟩) := by
  have hheld := h.held hip hv
  have hspec := writei_spec h.consistent hheld dev ht src hf
  apply (hspec.and (writei_took h.consistent hheld dev ht src hf)).imp
  rintro ⟨t, r⟩ ⟨⟨hr, hc, hfiles, -⟩, s₁, hset, -, -, -, addrs, hself⟩
  dsimp only at hr hc hfiles hset hself ⊢
  have hview := hset.view_eq h.consistent hheld hfiles
  have hnlink : (t.icache ip).nlink = (s.icache ip).nlink := by rw [hself]
  rw [hnlink] at hview
  have hsame : ∀ iq, (t.icache iq).ref = (s.icache iq).ref ∧
      (t.icache iq).inum = (s.icache iq).inum ∧ (t.icache iq).valid = (s.icache iq).valid := by
    intro iq
    by_cases he : iq = ip
    · rw [he, hself]
      exact ⟨rfl, rfl, rfl⟩
    · rw [hset.others iq he]
      exact ⟨rfl, rfl, rfl⟩
  refine ⟨hr, h.keep hc (fun iq ↦ (hsame iq).1) (fun iq _ ↦ (hsame iq).2.1) ?_, ?_, hview⟩
  · exact fun i hl ↦ (hset.live_iff h.consistent hheld i).mpr hl
  · exact fun iq _ ↦ ⟨(hsame iq).2.1, fun hvq ↦ by rw [(hsame iq).2.2, hvq]⟩

/-- Assigning to the fields of a locked inode changes the link count of its node. -/
theorem setFields_refs (h : Holding sb H s) (hip : ip ∈ H) (hv : (s.icache ip).valid = true)
    (major minor nlink : Int16) :
    Holding sb H (setFields sb s ip major minor nlink) ∧
      Steady H s (setFields sb s ip major minor nlink) ∧
      view sb (setFields sb s ip major minor nlink).blocks =
        update (view sb s.blocks) (s.icache ip).inum
          (some ⟨(s.icache ip).type, nlink, files sb s.blocks (s.icache ip).inum⟩) ∧
      (setFields sb s ip major minor nlink).icache ip =
        { s.icache ip with major, minor, nlink } := by
  have hheld := h.held hip hv
  obtain ⟨hset, hself⟩ := settled_setFields h.consistent hheld major minor nlink
  have hfiles : files sb (setFields sb s ip major minor nlink).blocks = files sb s.blocks := by
    funext i
    apply files_congr_self h.consistent (hset.live_iff h.consistent hheld i)
    · intro hl
      by_cases hi : i = (s.icache ip).inum
      · rw [hi, hset.dinode_self h.consistent hheld, hself,
          ← h.consistent.cache.cached ip hheld]
      · rw [hset.dinode_other hl.1 hi]
    · intro P hP _
      rw [hset.diskAt_eq h.consistent hheld hP, h.consistent.pos_eq hheld]
    · exact fun b hb ↦ hset.blocks b (Nat.le_trans sb.bmapstart_lt.le hb)
  have hview := hset.view_eq h.consistent hheld
    (hfiles.trans (update_eq_self (s.icache ip).inum (files sb s.blocks)).symm)
  rw [hself] at hview
  have hsame : ∀ iq, ((setFields sb s ip major minor nlink).icache iq).ref = (s.icache iq).ref ∧
      ((setFields sb s ip major minor nlink).icache iq).inum = (s.icache iq).inum ∧
      ((setFields sb s ip major minor nlink).icache iq).valid = (s.icache iq).valid := by
    intro iq
    by_cases he : iq = ip
    · rw [he, hself]
      exact ⟨rfl, rfl, rfl⟩
    · rw [hset.others iq he]
      exact ⟨rfl, rfl, rfl⟩
  have hc := setFields_spec h.consistent hheld major minor nlink
  refine ⟨h.keep hc (fun iq ↦ (hsame iq).1) (fun iq _ ↦ (hsame iq).2.1) ?_, ?_, hview, hself⟩
  · exact fun i hl ↦ (hset.live_iff h.consistent hheld i).mpr hl
  · exact fun iq _ ↦ ⟨(hsame iq).2.1, fun hvq ↦ by rw [(hsame iq).2.2, hvq]⟩

/-- A free inode that is taken into use is an empty node. -/
theorem seed_refs (h : Holding sb H s) {inum : Nat} {d : Dinode} (hi : inum < sb.ninodes)
    (hfree : (dinode sb s.blocks inum).type = 0) (htype : d.type ≠ 0) (hsize : d.size = 0)
    (haddrs : ∀ k, d.addrs k = 0) (ht : t = logWrite s (sb.IBLOCK inum)
      (writeDinode (s.blocks (sb.IBLOCK inum)) (inum % IPB) d)) :
    Holding sb H t ∧ Steady H s t ∧ view sb s.blocks inum = none ∧
      view sb t.blocks = update (view sb s.blocks) inum (some ⟨d.type, d.nlink, []⟩) := by
  have hdinode := dinode_seed hsize haddrs ht
  have hnone : view sb s.blocks inum = none := view_eq_none.mpr fun hl ↦ hl.2 hfree
  have hview : view sb t.blocks = update (view sb s.blocks) inum (some ⟨d.type, d.nlink, []⟩) := by
    funext i
    by_cases he : i = inum
    · subst he
      have hl : Live sb t.blocks i := ⟨hi, by rw [hdinode, if_pos rfl]; exact htype⟩
      rw [update_self, view_of_live hl, files, if_pos hl, hdinode, if_pos rfl, hsize]
      rfl
    · rw [update_of_ne he]
      have hd : dinode sb t.blocks i = dinode sb s.blocks i := by rw [hdinode, if_neg he]
      apply view_congr hd
      apply files_congr h.consistent hd
      · exact fun P hP ↦ h.consistent.diskAt_seed hi hfree hsize haddrs ht hP
      · exact fun b hb ↦ blocks_seed hi ht (Nat.le_trans sb.bmapstart_lt.le hb)
  have hic : t.icache = s.icache := by rw [ht, icache_logWrite]
  refine ⟨⟨h.consistent.seed hi hfree hsize haddrs ht, fun ip ↦ by rw [hic, h.count], ?_⟩,
    Steady.of_eq fun iq _ ↦ by rw [hic], hnone, hview⟩
  intro ip hip
  obtain ⟨nd, hnd⟩ := h.node hip
  have hne : (s.icache ip).inum ≠ inum := by
    intro he
    rw [he, hnone] at hnd
    cases hnd
  apply live_of_view
  rw [hic, hview, update_of_ne hne]
  exact hnd

/-- `ialloc` takes a free inode and makes it an empty node without links. -/
theorem ialloc_refs (h : Holding sb H s) {type : Int16} (htype : type ≠ 0) :
    Lib.Ensures (ialloc sb s type) (fun e ↦ e = .iallocNoInodes ∨ e = .igetNoInodes) fun r ↦
      Holding sb (r.2 ::ₘ H) r.1 ∧ Steady H s r.1 ∧
        0 < (r.1.icache r.2).inum ∧ view sb s.blocks (r.1.icache r.2).inum = none ∧
        view sb r.1.blocks =
          update (view sb s.blocks) (r.1.icache r.2).inum (some ⟨type, 0, []⟩) := by
  unfold ialloc
  split
  · next inum hfind =>
    have hmem := List.mem_range'_1.mp (List.mem_of_find?_eq_some hfind)
    have hfree : (dinode sb s.blocks inum).type = 0 := by simpa using List.find?_some hfind
    have hi : inum < sb.ninodes := by omega
    dsimp only
    generalize ht : logWrite s (sb.IBLOCK inum) (writeDinode (s.blocks (sb.IBLOCK inum))
      (inum % IPB) (Dinode.fresh type)) = t
    obtain ⟨hh, hsame, hnone, hview⟩ :=
      seed_refs h hi hfree (d := Dinode.fresh type) htype rfl (fun _ ↦ rfl) ht.symm
    have hlive : Live sb t.blocks inum := live_of_view (by rw [hview, update_self])
    apply (iget_refs hh hlive).mono
    · rintro ⟨u, ip⟩ ⟨hhu, hsteady, hb, hinum⟩
      dsimp only at hhu hsteady hb hinum ⊢
      rw [hinum, hb]
      exact ⟨hhu, hsame.trans hsteady, by omega, hnone, hview⟩
    · exact fun e he ↦ Or.inr he
  · exact Or.inl rfl

end

end Xv6.Fs
