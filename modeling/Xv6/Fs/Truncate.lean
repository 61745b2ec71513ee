import Xv6.Fs.Consistent
import Xv6.Fs.Logged

/-!
# Truncation

`itrunc` frees the blocks of the four regions of an inode, children before parents. Every
block of the inode is freed once and no other: the nested loops visit the same list that
the ownership invariant speaks of, so `bfree` never meets a free block.
-/

namespace Xv6.Fs

open Function

variable {sb : Superblock} {ip : Slot} {s t u : State}

/-! ### Freeing a list of blocks -/

/-- The blocks of the list have been freed, and nothing else has changed. -/
structure FreedAll (sb : Superblock) (L : List Nat) (s t : State) : Prop where
  free : ∀ x, used sb t.blocks x = (!decide (x ∈ L) && used sb s.blocks x)
  rest : ∀ x, ¬(sb.bmapstart ≤ x ∧ x < sb.nmeta) → t.blocks x = s.blocks x
  icache : t.icache = s.icache

/-- The blocks of the list are different data blocks in use. -/
structure CanFree (sb : Superblock) (L : List Nat) (s : State) : Prop where
  nodup : L.Nodup
  data : ∀ b ∈ L, sb.nmeta ≤ b ∧ b < sb.size
  inUse : ∀ b ∈ L, used sb s.blocks b = true

theorem FreedAll.refl (s : State) : FreedAll sb [] s s where
  free := by simp
  rest := fun _ _ ↦ rfl
  icache := rfl

theorem FreedAll.trans {L L' : List Nat} (h : FreedAll sb L s t) (h' : FreedAll sb L' t u) :
    FreedAll sb (L ++ L') s u where
  free := by
    intro x
    rw [h'.free, h.free, ← Bool.and_assoc]
    congr 1
    by_cases h1 : x ∈ L <;> by_cases h2 : x ∈ L' <;> simp [h1, h2]
  rest := fun x hx ↦ (h'.rest x hx).trans (h.rest x hx)
  icache := h'.icache.trans h.icache

theorem FreedAll.data {L : List Nat} (h : FreedAll sb L s t) {x : Nat} (hx : sb.nmeta ≤ x) :
    t.blocks x = s.blocks x :=
  h.rest x fun hm ↦ Nat.not_lt.mpr hx hm.2

/-- After the first part of a list is freed, the second can still be. -/
theorem CanFree.right {L L' : List Nat} (h : CanFree sb (L ++ L') s)
    (hf : ∀ x, used sb t.blocks x = (!decide (x ∈ L) && used sb s.blocks x)) : CanFree sb L' t where
  nodup := (List.nodup_append.mp h.nodup).2.1
  data := fun b hb ↦ h.data b (List.mem_append_right L hb)
  inUse := by
    intro b hb
    have hn : b ∉ L := fun hL ↦ (List.nodup_append.mp h.nodup).2.2 b hL b hb rfl
    rw [hf, h.inUse b (List.mem_append_right L hb)]
    simp [hn]

theorem CanFree.left {L L' : List Nat} (h : CanFree sb (L ++ L') s) : CanFree sb L s where
  nodup := (List.nodup_append.mp h.nodup).1
  data := fun b hb ↦ h.data b (List.mem_append_left L' hb)
  inUse := fun b hb ↦ h.inUse b (List.mem_append_left L' hb)

/-- The blocks of the list have been freed, and for each the free map has been logged. -/
structure FreedLogged (sb : Superblock) (L : List Nat) (s t : State) : Prop
    extends FreedAll sb L s t where
  logs : Logs s t (L.map sb.BBLOCK)

private theorem FreedLogged.refl (s : State) : FreedLogged sb [] s s where
  toFreedAll := FreedAll.refl s
  logs := Logs.refl s

private theorem FreedLogged.trans {L L' : List Nat} (h : FreedLogged sb L s t)
    (h' : FreedLogged sb L' t u) : FreedLogged sb (L ++ L') s u where
  toFreedAll := h.toFreedAll.trans h'.toFreedAll
  logs := by
    rw [List.map_append]
    exact h.logs.trans h'.logs

private theorem bfree_one {b : Nat} (h : CanFree sb [b] s) (err : Panic → Prop) :
    Lib.Ensures (bfree sb s b) err (FreedLogged sb [b] s) := by
  have hb := List.mem_singleton_self b
  have hspec := bfree_spec (h.data b hb).2 (h.inUse b hb) err
  cases ht : bfree sb s b with
  | ok t =>
    have hf := hspec.of_ok ht
    exact ⟨⟨by simpa using hf.free, hf.rest, hf.icache⟩, bfree_logs ht⟩
  | error e => exact hspec.of_error ht

/-! ### Freeing a tree -/

/-- The nested loops of `itrunc` for `d` levels of indirect blocks. -/
def freeTree (sb : Superblock) : Nat → State → Nat → Except Panic State
  | 0, s, a => bfree sb s a
  | d + 1, s, a => do
    let s ← eachEntry s a (freeTree sb d)
    bfree sb s a

/-- The blocks of a tree, as the contents of the blocks show it. -/
abbrev tree (s : State) (d a : Nat) : List Nat := Lib.treeBlocks (words s.blocks) NINDIRECT d a

/-- Where the data blocks agree, so do the trees made of them. -/
private theorem tree_congr (sb : Superblock) (hb : ∀ x, sb.nmeta ≤ x → t.blocks x = s.blocks x) {d a : Nat}
    (hdata : ∀ b ∈ tree s d a, sb.nmeta ≤ b) : tree t d a = tree s d a := by
  apply Lib.treeBlocks_congr
  intro b hm j
  exact congrArg (fun blk ↦ blk.word j) (hb b (hdata b hm))

/-- One loop over the entries `l` of block `a`, each of which leads to a tree of depth `d`. -/
private theorem freeEach_spec {err : Panic → Prop} {d a : Nat} (ha : sb.nmeta ≤ a)
    (htree : ∀ (v : State) (b : Nat), b ≠ 0 → CanFree sb (tree v d b) v →
      Lib.Ensures (freeTree sb d v b) err (FreedLogged sb (tree v d b) v))
    (l : List Nat) (hl : CanFree sb (l.flatMap fun j ↦ tree s d (words s.blocks a j)) s) :
    Lib.Ensures (l.foldlM (fun s j ↦
      let addr := (s.blocks a).word j; if addr ≠ 0 then freeTree sb d s addr else .ok s) s) err
      (FreedLogged sb (l.flatMap fun j ↦ tree s d (words s.blocks a j)) s) := by
  induction l generalizing s with
  | nil => exact FreedLogged.refl s
  | cons j l ih =>
    rw [List.flatMap_cons] at hl ⊢
    rw [List.foldlM_cons]
    have hfirst : Lib.Ensures (if (s.blocks a).word j ≠ 0 then freeTree sb d s ((s.blocks a).word j)
        else .ok s) err (FreedLogged sb (tree s d (words s.blocks a j)) s) := by
      split
      · next hz => exact htree s _ hz hl.left
      · next hz =>
        have h0 : words s.blocks a j = 0 := not_not.mp hz
        rw [h0, tree, Lib.treeBlocks_zero]
        exact FreedLogged.refl s
    apply Lib.Ensures.bind hfirst
    intro v hv
    have hrest := hl.right hv.free
    have hsame : ∀ i, words v.blocks a i = words s.blocks a i := fun i ↦
      congrArg (fun blk ↦ blk.word i) (hv.data ha)
    -- the trees still to be freed have not changed
    have heq : (l.flatMap fun i ↦ tree v d (words v.blocks a i)) =
        l.flatMap fun i ↦ tree s d (words s.blocks a i) := by
      apply List.flatMap_congr
      intro i hi
      rw [hsame]
      apply tree_congr sb fun x hx ↦ hv.data hx
      intro b hb
      exact (hrest.data b (List.mem_flatMap.mpr ⟨i, hi, hb⟩)).1
    rw [← heq] at hrest ⊢
    apply (ih hrest).imp
    intro w hw
    exact hv.trans hw

/-- The loops free the blocks of the tree, each once, and never fail. -/
theorem freeTree_spec {err : Panic → Prop} (d : Nat) {a : Nat} (ha : a ≠ 0)
    (h : CanFree sb (tree s d a) s) :
    Lib.Ensures (freeTree sb d s a) err (FreedLogged sb (tree s d a) s) := by
  induction d generalizing s a with
  | zero =>
    rw [tree, Lib.treeBlocks, if_neg ha] at h ⊢
    exact bfree_one h err
  | succ d ih =>
    have hdata := (h.data a (Lib.self_mem_treeBlocks ha)).1
    rw [tree, Lib.treeBlocks, if_neg ha] at h ⊢
    apply Lib.Ensures.bind (freeEach_spec hdata (fun v b hb hv ↦ ih hb hv) _ h.left)
    intro v hv
    apply (bfree_one (h.right hv.free) err).imp
    intro w hw
    exact hv.trans hw

/-! ### `itrunc` -/

/-- The blocks of the trees at the entries `ks` of the inode of `ip`. -/
def treesAt (s : State) (ip : Slot) (ks : List (Fin (NDIRECT + 3))) : List Nat :=
  ks.flatMap fun k ↦ tree s (levels k) ((s.icache ip).addrs k)

/-- `itrunc` visits the thirteen entries in order, each with the loops for its levels. -/
theorem itrunc_eq : itrunc sb s ip = (do
    let s ← (List.finRange (NDIRECT + 3)).foldlM
      (fun s k ↦ truncRoot s ip k (freeTree sb (levels k))) s
    pure (iupdate sb (setInode s ip { s.icache ip with size := 0 }) ip)) := by
  have hl : List.finRange (NDIRECT + 3) = (List.finRange NDIRECT).map (Fin.castAdd 3) ++
      [⟨NDIRECT, by decide⟩, ⟨NDIRECT + 1, by decide⟩, ⟨NDIRECT + 2, by decide⟩] := by decide
  have hz : ∀ i : Fin NDIRECT, levels (i.castAdd 3) = 0 := by decide
  rw [hl, List.foldlM_append, List.foldlM_map]
  simp only [hz]
  simp only [itrunc, List.foldlM_cons, List.foldlM_nil, bind_assoc, bind_pure]
  rfl

/-- The entries `ks` have been truncated. -/
structure Truncated (sb : Superblock) (ip : Slot) (ks : List (Fin (NDIRECT + 3))) (s t : State) :
    Prop where
  free : ∀ x, used sb t.blocks x = (!decide (x ∈ treesAt s ip ks) && used sb s.blocks x)
  rest : ∀ x, ¬(sb.bmapstart ≤ x ∧ x < sb.nmeta) → t.blocks x = s.blocks x
  self : t.icache ip =
    { s.icache ip with addrs := fun k ↦ if k ∈ ks then 0 else (s.icache ip).addrs k }
  others : ∀ iq, iq ≠ ip → t.icache iq = s.icache iq

private theorem truncRoot_spec {err : Panic → Prop} {k : Fin (NDIRECT + 3)}
    (h : CanFree sb (tree s (levels k) ((s.icache ip).addrs k)) s) :
    Lib.Ensures (truncRoot s ip k (freeTree sb (levels k))) err fun t ↦
      Truncated sb ip [k] s t ∧ Logs s t ((treesAt s ip [k]).map sb.BBLOCK) := by
  have hone : treesAt s ip [k] = tree s (levels k) ((s.icache ip).addrs k) := by simp [treesAt]
  unfold truncRoot
  dsimp only
  split
  · next hz =>
    apply Lib.Ensures.bind (freeTree_spec (levels k) hz h)
    intro v hv
    have hic : v.icache ip = s.icache ip := by rw [hv.icache]
    refine ⟨⟨?_, ?_, ?_, ?_⟩, ?_⟩
    · rw [hone]
      exact hv.free
    · exact hv.rest
    · rw [icache_setInode_self, hic]
      congr
      funext j
      by_cases hj : j = k
      · subst hj
        simp
      · simp [hj]
    · intro iq hne
      rw [icache_setInode_ne hne, hv.icache]
    · rw [hone]
      exact hv.logs
  · next hz =>
    have h0 : (s.icache ip).addrs k = 0 := not_not.mp hz
    refine ⟨⟨?_, ?_, ?_, ?_⟩, ?_⟩
    · rw [hone, h0, tree, Lib.treeBlocks_zero]
      simp
    · exact fun _ _ ↦ rfl
    · have ha : (fun j ↦ if j ∈ [k] then 0 else (s.icache ip).addrs j) = (s.icache ip).addrs := by
        funext j
        by_cases hj : j = k
        · subst hj
          simp [h0]
        · simp [hj]
      rw [ha]
    · exact fun _ _ ↦ rfl
    · rw [hone, h0, tree, Lib.treeBlocks_zero]
      exact Logs.refl s

private theorem Truncated.cons {k : Fin (NDIRECT + 3)} {ks : List (Fin (NDIRECT + 3))}
    (h : Truncated sb ip [k] s t) (h' : Truncated sb ip ks t u)
    (ht : treesAt t ip ks = treesAt s ip ks) : Truncated sb ip (k :: ks) s u where
  free := by
    intro x
    have hsplit : treesAt s ip (k :: ks) = treesAt s ip [k] ++ treesAt s ip ks := by
      simp [treesAt]
    rw [h'.free, h.free, ht, hsplit, ← Bool.and_assoc]
    congr 1
    by_cases h1 : x ∈ treesAt s ip [k] <;> by_cases h2 : x ∈ treesAt s ip ks <;> simp [h1, h2]
  rest := fun x hx ↦ (h'.rest x hx).trans (h.rest x hx)
  self := by
    have hz : (fun j ↦ if j ∈ ks then 0 else if j ∈ [k] then 0 else (s.icache ip).addrs j) =
        fun j ↦ if j ∈ k :: ks then 0 else (s.icache ip).addrs j := by
      funext j
      by_cases h1 : j = k <;> by_cases h2 : j ∈ ks <;> simp [h1, h2]
    rw [h'.self, h.self, ← hz]
  others := fun iq hq ↦ (h'.others iq hq).trans (h.others iq hq)

/-- Truncating one entry leaves the trees at the others as they were. -/
private theorem Truncated.treesAt_eq {k : Fin (NDIRECT + 3)} {ks : List (Fin (NDIRECT + 3))}
    (h : Truncated sb ip [k] s t) (hk : k ∉ ks) (hdata : ∀ b ∈ treesAt s ip ks, sb.nmeta ≤ b) :
    treesAt t ip ks = treesAt s ip ks := by
  apply List.flatMap_congr
  intro j hj
  have hne : j ≠ k := fun he ↦ hk (he ▸ hj)
  have haddr : (t.icache ip).addrs j = (s.icache ip).addrs j := by
    rw [h.self]
    exact if_neg (by simpa using hne)
  rw [haddr]
  apply tree_congr sb fun x hx ↦ h.rest x fun hm ↦ Nat.not_lt.mpr hx hm.2
  intro b hb
  exact hdata b (List.mem_flatMap.mpr ⟨j, hj, hb⟩)

private theorem truncEach_spec {err : Panic → Prop} {ks : List (Fin (NDIRECT + 3))}
    (hks : ks.Nodup) (h : CanFree sb (treesAt s ip ks) s) :
    Lib.Ensures (ks.foldlM (fun s k ↦ truncRoot s ip k (freeTree sb (levels k))) s) err fun t ↦
      Truncated sb ip ks s t ∧ Logs s t ((treesAt s ip ks).map sb.BBLOCK) := by
  induction ks generalizing s with
  | nil => exact ⟨⟨by simp [treesAt], fun _ _ ↦ rfl, by simp, fun _ _ ↦ rfl⟩, Logs.refl s⟩
  | cons k ks ih =>
    obtain ⟨hk, hks⟩ := List.nodup_cons.mp hks
    have hsplit : treesAt s ip (k :: ks) =
        tree s (levels k) ((s.icache ip).addrs k) ++ treesAt s ip ks := List.flatMap_cons
    rw [hsplit] at h
    rw [List.foldlM_cons]
    apply Lib.Ensures.bind (truncRoot_spec h.left)
    rintro v ⟨hv, hlogs⟩
    have hone : treesAt s ip [k] = tree s (levels k) ((s.icache ip).addrs k) := by simp [treesAt]
    have hfree := hv.free
    rw [hone] at hfree hlogs
    have hrest := h.right hfree
    have heq := hv.treesAt_eq hk fun b hb ↦ (hrest.data b hb).1
    rw [← heq] at hrest
    apply (ih hks hrest).imp
    rintro w ⟨hw, hlogs'⟩
    refine ⟨hv.cons hw heq, ?_⟩
    rw [heq] at hlogs'
    rw [hsplit, List.map_append]
    exact hlogs.trans hlogs'

/-- The blocks of an inode in use are the blocks at its positions. -/
theorem mem_treesAt (hr : Ready sb ip s) {b : Nat} :
    b ∈ treesAt s ip (List.finRange (NDIRECT + 3)) ↔
      b ≠ 0 ∧ ∃ P ∈ Places, P.1.1 = (s.icache ip).inum ∧ pos sb ip s P = b := by
  simp only [treesAt, List.mem_flatMap, List.mem_finRange, true_and, ← pos_root hr.inUse]
  constructor
  · rintro ⟨k, hb⟩
    obtain ⟨hz, q, hq, hqw, he⟩ := Lib.mem_treeBlocks.mp hb
    rw [List.append_nil] at he
    exact ⟨hz, (((s.icache ip).inum, k), q), ⟨hq, hqw⟩, rfl, he⟩
  · rintro ⟨hz, ⟨⟨i, k⟩, q⟩, ⟨hq, hqw⟩, hi, he⟩
    refine ⟨k, Lib.mem_treeBlocks.mpr ⟨hz, q, hq, hqw, ?_⟩⟩
    subst hi
    rw [List.append_nil]
    exact he

/-- The blocks of an inode in use can be freed. -/
theorem canFree_treesAt (hr : Ready sb ip s) :
    CanFree sb (treesAt s ip (List.finRange (NDIRECT + 3))) s := by
  have howns := hr.owned.owns
  have hmem : ∀ b ∈ treesAt s ip (List.finRange (NDIRECT + 3)),
      (sb.nmeta ≤ b ∧ b < sb.size) ∧ used sb s.blocks b = true := by
    intro b hb
    obtain ⟨hz, P, hP, -, rfl⟩ := (mem_treesAt hr).mp hb
    have hrange := howns.range P hP hz
    exact ⟨hrange, (howns.used _ hrange.1 hrange.2).mpr ⟨P, hP, rfl⟩⟩
  refine ⟨?_, fun b hb ↦ (hmem b hb).1, fun b hb ↦ (hmem b hb).2⟩
  simp only [treesAt, ← pos_root hr.inUse]
  rw [List.nodup_flatMap]
  constructor
  · intro k _
    have hd : ([] : List Nat).length + levels k ≤ levels k := (Nat.zero_add _).le
    refine Lib.nodup_treeBlocks howns.sep (List.forall_mem_nil _) ?_
    exact hd
  · apply List.Pairwise.imp _ (List.nodup_finRange _)
    intro k k' hne b hb hb'
    obtain ⟨hz, q, hq, hqw, he⟩ := Lib.mem_treeBlocks.mp hb
    obtain ⟨-, q', hq', hqw', he'⟩ := Lib.mem_treeBlocks.mp hb'
    rw [List.append_nil] at he he'
    have hpe := howns.sep (((s.icache ip).inum, k), q) ⟨hq, hqw⟩ (((s.icache ip).inum, k'), q')
      ⟨hq', hqw'⟩ (he.trans he'.symm) (he.trans_ne hz)
    exact hne (Prod.mk.inj (Prod.mk.inj hpe).1).2

/-- The blocks of the inode of `ip` are free, no other data block has changed, and the inode
is now `v`, on the disk and in memory. -/
structure Emptied (sb : Superblock) (ip : Slot) (v : Inode) (s t : State) : Prop where
  free : ∀ x, sb.nmeta ≤ x → x < sb.size → (used sb t.blocks x = true ↔
    used sb s.blocks x = true ∧
      ∀ P ∈ Places, P.1.1 = (s.icache ip).inum → pos sb ip s P ≠ x)
  reserved : ∀ x < sb.nmeta, x < sb.size → used sb t.blocks x = true
  data : ∀ x, sb.nmeta ≤ x → t.blocks x = s.blocks x
  dinodes : ∀ i < sb.ninodes, dinode sb t.blocks i =
    if i = (s.icache ip).inum then v.toDinode else dinode sb s.blocks i
  self : t.icache ip = v
  others : ∀ iq, iq ≠ ip → t.icache iq = s.icache iq

/-- `itrunc` frees just the blocks of the inode and writes it back with size 0. -/
theorem itrunc_spec (hr : Ready sb ip s) (err : Panic → Prop) :
    Lib.Ensures (itrunc sb s ip) err
      (Emptied sb ip { s.icache ip with size := 0, addrs := fun _ ↦ 0 } s) := by
  rw [itrunc_eq]
  apply Lib.Ensures.bind (truncEach_spec (List.nodup_finRange _) (canFree_treesAt hr))
  rintro v ⟨hv, _⟩
  have hself : v.icache ip = { s.icache ip with addrs := fun _ ↦ 0 } := by
    have hz : (fun k ↦ if k ∈ List.finRange (NDIRECT + 3) then 0 else (s.icache ip).addrs k) =
        fun _ ↦ 0 := funext fun k ↦ if_pos (List.mem_finRange k)
    rw [hv.self, hz]
  have hcanfree := canFree_treesAt hr
  have hnew : ({ v.icache ip with size := 0 } : Inode) =
      { s.icache ip with size := 0, addrs := fun _ ↦ 0 } := by rw [hself]
  rw [hnew]
  have hhigh : ∀ x, sb.bmapstart ≤ x → (iupdate sb (setInode v ip
      { s.icache ip with size := 0, addrs := fun _ ↦ 0 }) ip).blocks x = v.blocks x := by
    intro x hx
    rw [blocks_iupdate _ hx, blocks_setInode]
    rw [icache_setInode_self]
    exact hr.inum
  have hused : ∀ x < sb.size, used sb (iupdate sb (setInode v ip
      { s.icache ip with size := 0, addrs := fun _ ↦ 0 }) ip).blocks x =
        (!decide (x ∈ treesAt s ip (List.finRange (NDIRECT + 3))) && used sb s.blocks x) := by
    intro x hx
    rw [used_congr (fun y hy _ ↦ hhigh y hy) hx, hv.free]
  constructor
  · intro x hlo hhi
    have hz : x ≠ 0 := Nat.ne_of_gt (Nat.lt_of_lt_of_le sb.nmeta_pos hlo)
    rw [hused x hhi, Bool.and_eq_true, Bool.not_eq_true', decide_eq_false_iff_not, mem_treesAt hr]
    constructor
    · rintro ⟨hn, hu⟩
      exact ⟨hu, fun P hP hi he ↦ hn ⟨hz, P, hP, hi, he⟩⟩
    · rintro ⟨hu, hn⟩
      exact ⟨fun ⟨_, P, hP, hi, he⟩ ↦ hn P hP hi he, hu⟩
  · intro x hm hx
    have hn : x ∉ treesAt s ip (List.finRange (NDIRECT + 3)) := fun hmem ↦
      Nat.not_lt.mpr (hcanfree.data x hmem).1 hm
    rw [hused x hx, hr.owned.reserved x hm hx]
    simp [hn]
  · intro x hx
    rw [hhigh x (Nat.le_trans sb.bmapstart_lt.le hx)]
    exact hv.rest x fun hm ↦ Nat.not_lt.mpr hx hm.2
  · intro i hi
    rw [dinode_iupdate]
    · rw [icache_setInode_self, blocks_setInode]
      rw [dinode_congr (fun x hx ↦ hv.rest x fun hm ↦ Nat.not_lt.mpr hm.1 hx) hi]
    · rw [icache_setInode_self]
      exact Nat.two_pow_pos 32
    · rw [icache_setInode_self]
      exact fun _ ↦ Nat.two_pow_pos 32
  · rw [icache_iupdate, icache_setInode_self]
  · intro iq hne
    rw [icache_iupdate, icache_setInode_ne hne, hv.others iq hne]

/-- `itrunc` logs the free map for each block of the inode, and then the inode. -/
theorem itrunc_logs (hr : Ready sb ip s) (ht : itrunc sb s ip = .ok t) : Logs s t
    ((treesAt s ip (List.finRange (NDIRECT + 3))).map sb.BBLOCK ++
      [sb.IBLOCK (s.icache ip).inum]) := by
  rw [itrunc_eq] at ht
  obtain ⟨v, hv, ht⟩ := Lib.bind_eq_ok.mp ht
  have hspec : Lib.Ensures _ (fun _ : Panic ↦ True) _ :=
    truncEach_spec (List.nodup_finRange _) (canFree_treesAt hr)
  obtain ⟨htrunc, hlogs⟩ := hspec.of_ok hv
  cases ht
  refine hlogs.trans ?_
  have hinum : (v.icache ip).inum = (s.icache ip).inum := by rw [htrunc.self]
  rw [← hinum]
  show Logs v _ [_]
  unfold Logs iupdate
  rw [icache_setInode_self]
  rfl

/-! ### `iput` -/

/-- Emptying an inode and giving it type 0 leaves the file system consistent. -/
theorem Emptied.consistent {v : Inode} (h : Emptied sb ip v s t) (hs : Consistent sb s)
    (hip : Held s ip) (htype : v.type = 0) (href : v.ref = 0) : Consistent sb t := by
  have hr := hs.ready hip
  have hother : ∀ i < sb.ninodes, i ≠ (s.icache ip).inum →
      dinode sb t.blocks i = dinode sb s.blocks i := by
    intro i hi hne
    rw [h.dinodes i hi, if_neg hne]
  have hself : (dinode sb t.blocks (s.icache ip).inum).type = 0 := by
    rw [h.dinodes _ hr.inum, if_pos rfl, htype]
  have hgone : ∀ P : Lib.Pos Root, P.1.1 = (s.icache ip).inum → diskAt sb t.blocks P = 0 := by
    intro P hi
    apply Lib.ptr_eq_zero_of_root
    rw [roots, hi, if_neg fun hc ↦ hc.2 hself]
  have hkept : ∀ P ∈ Places, P.1.1 ≠ (s.icache ip).inum →
      diskAt sb t.blocks P = pos sb ip s P := by
    intro P hP hne
    rw [hs.pos_eq hip]
    refine Lib.ptr_congr ?_ ?_ (show (P.1, P.2) ∈ Places from hP)
    · unfold roots
      by_cases hi : P.1.1 < sb.ninodes
      · rw [hother _ hi hne]
      · rw [if_neg fun hc ↦ hi hc.1, if_neg fun hc ↦ hi hc.1]
    · intro i p hp hz
      have hrange := hs.disk.owned.owns.range (P.1, p) (Lib.mem_positions_parent hp) hz
      exact congrArg (fun blk ↦ blk.word i) (h.data _ hrange.1)
  have hlive : ∀ i, Live sb t.blocks i → i ≠ (s.icache ip).inum ∧ Live sb s.blocks i := by
    rintro i ⟨hi, ht⟩
    have hne : i ≠ (s.icache ip).inum := by
      rintro rfl
      exact ht hself
    rw [hother i hi hne] at ht
    exact ⟨hne, hi, ht⟩
  have href' : ∀ iq, 0 < (t.icache iq).ref → iq ≠ ip ∧ 0 < (s.icache iq).ref := by
    intro iq hq
    have hne : iq ≠ ip := by
      rintro rfl
      rw [h.self, href] at hq
      exact Nat.lt_irrefl 0 hq
    rw [h.others iq hne] at hq
    exact ⟨hne, hq⟩
  have hheld : ∀ iq, Held t iq → iq ≠ ip ∧ Held s iq := by
    rintro iq ⟨hq, hv⟩
    have hne := (href' iq hq).1
    rw [h.others iq hne] at hq hv
    exact ⟨hne, hq, hv⟩
  constructor
  · constructor
    · constructor
      · apply hr.owned.owns.release (S := {P | P.1.1 = (s.icache ip).inum})
        · exact fun P _ hm ↦ hgone P hm
        · exact hkept
        · exact h.free
      · exact h.reserved
    · intro i hi k q hq
      obtain ⟨hne, hl⟩ := hlive i hi
      rw [hkept _ hq hne, hother i hi.1 hne, hs.pos_eq hip]
      exact hs.disk.mapped i hl k q hq
    · intro i hi
      obtain ⟨hne, hl⟩ := hlive i hi
      rw [hother i hi.1 hne]
      exact hs.disk.small i hl
  · constructor
    · intro iq hq
      obtain ⟨hne, hsq⟩ := hheld iq hq
      have hi : (s.icache iq).inum ≠ (s.icache ip).inum := fun he ↦
        hne (hs.cache.single iq ip hsq.1 hip.1 he)
      rw [h.others iq hne, hother _ (hs.cache.inum iq hsq.1) hi]
      exact hs.cache.cached iq hsq
    · intro iq hq
      obtain ⟨hne, hsq⟩ := hheld iq hq
      rw [h.others iq hne]
      exact hs.cache.typed iq hsq
    · intro iq hq
      obtain ⟨hne, hsq⟩ := href' iq hq
      rw [h.others iq hne]
      exact hs.cache.inum iq hsq
    · intro iq jq hi hj he
      obtain ⟨hni, hsi⟩ := href' iq hi
      obtain ⟨hnj, hsj⟩ := href' jq hj
      rw [h.others iq hni, h.others jq hnj] at he
      exact hs.cache.single iq jq hsi hsj he

/-- Writing the inode back once more with other contents. -/
private theorem Emptied.rewrite {v w w' : Inode} (h : Emptied sb ip v s t)
    (hr : (s.icache ip).inum < sb.ninodes) (hinum : w.inum = (s.icache ip).inum)
    (hsize : w.size < 2 ^ 32) (haddrs : ∀ k, w.addrs k < 2 ^ 32)
    (hw : w'.toDinode = w.toDinode) :
    Emptied sb ip w' s (setInode (iupdate sb (setInode t ip w) ip) ip w') := by
  have hhigh : ∀ x, sb.bmapstart ≤ x →
      (setInode (iupdate sb (setInode t ip w) ip) ip w').blocks x = t.blocks x := by
    intro x hx
    rw [blocks_setInode, blocks_iupdate _ hx, blocks_setInode]
    rw [icache_setInode_self, hinum]
    exact hr
  constructor
  · intro x hlo hhi
    rw [used_congr (fun y hy _ ↦ hhigh y hy) hhi]
    exact h.free x hlo hhi
  · intro x hm hx
    rw [used_congr (fun y hy _ ↦ hhigh y hy) hx]
    exact h.reserved x hm hx
  · intro x hx
    rw [hhigh x (Nat.le_trans sb.bmapstart_lt.le hx)]
    exact h.data x hx
  · intro i hi
    rw [blocks_setInode, dinode_iupdate]
    · rw [icache_setInode_self, blocks_setInode, hinum, hw]
      by_cases he : i = (s.icache ip).inum
      · rw [if_pos he, if_pos he]
      · rw [if_neg he, if_neg he, h.dinodes i hi, if_neg he]
    · rwa [icache_setInode_self]
    · rwa [icache_setInode_self]
  · rw [icache_setInode_self]
  · intro iq hne
    rw [icache_setInode_ne hne, icache_iupdate, icache_setInode_ne hne, h.others iq hne]

/-- `iput` drops the last reference to an unlinked inode. -/
def Frees (s : State) (ip : Slot) : Prop :=
  (s.icache ip).valid = true ∧ (s.icache ip).nlink = 0 ∧ (s.icache ip).ref = 1

instance (s : State) (ip : Slot) : Decidable (Frees s ip) :=
  inferInstanceAs (Decidable (_ ∧ _))

/-- The last `iput` of an unlinked inode never fails, and frees the inode and its blocks. -/
theorem iput_of_frees (hs : Consistent sb s) (hf : Frees s ip) (err : Panic → Prop) :
    Lib.Ensures (iput sb s ip) err fun t ↦
      ∃ v : Inode, v.type = 0 ∧ v.ref = 0 ∧ Emptied sb ip v s t := by
  obtain ⟨hvalid, hnlink, href⟩ := hf
  have hip : Held s ip := ⟨by rw [href]; exact Nat.one_pos, hvalid⟩
  unfold iput
  rw [if_pos ⟨hvalid, hnlink, href⟩]
  apply Lib.Ensures.bind (itrunc_spec (hs.ready hip) err)
  intro t ht
  show ∃ v : Inode, _
  dsimp only
  rw [icache_setInode_self, setInode_setInode, icache_iupdate, icache_setInode_self, ht.self]
  dsimp only
  rw [href]
  refine ⟨_, ?_, ?_, ht.rewrite (hs.cache.inum ip hip.1) rfl ?_ ?_ rfl⟩
  · rfl
  · rfl
  · exact Nat.two_pow_pos 32
  · exact fun _ ↦ Nat.two_pow_pos 32

theorem iput_of_not_frees (hf : ¬Frees s ip) : iput sb s ip =
    .ok (setInode s ip { s.icache ip with ref := (s.icache ip).ref - 1 }) := by
  unfold iput
  rw [if_neg (show ¬(_ ∧ _ ∧ _) from hf)]
  rfl

end Xv6.Fs
