import Xv6.Bio.Model
import Xv6.Lib.Outcome
import Xv6.Log.Basic

/-!
# The supply of buffers

`bget` panics exactly when every buffer is locked or dirty. The dirty buffers are those of the
blocks in the log, so the panic is a matter of how many blocks are logged and how many more the
process has at once.
-/

namespace Xv6.Bio

open Function Lib Log

variable {s t : State} {i j : Index} {b : Nat} {f : Buf → Buf}

/-! ### Assignments -/

@[simp] theorem modify_buf_self : (s.modify i f).buf i = f (s.buf i) := by
  simp [State.modify]

theorem modify_buf_of_ne (h : j ≠ i) : (s.modify i f).buf j = s.buf j := by
  simp [State.modify, h]

/-- What holds of the old buffers and of the new one holds of all buffers. -/
theorem modify_forall {p : Buf → Prop} (hi : p (f (s.buf i))) (h : ∀ j, p (s.buf j)) (j : Index) :
    p ((s.modify i f).buf j) := by
  by_cases hji : j = i
  · subst hji
    rw [modify_buf_self]
    exact hi
  · rw [modify_buf_of_ne hji]
    exact h j

@[simp] theorem modify_modify {f' : Buf → Buf} :
    (s.modify i f).modify i f' = s.modify i (f' ∘ f) := by
  simp [State.modify]

/-! ### The cache -/

/-- What holds of one buffer. -/
structure Buf.Ok (v : Buf) : Prop where
  refcnt : v.refcnt = if v.locked = true then 1 else 0
  valid : v.dev = ROOTDEV → v.valid = true
  used : v.locked = true ∨ v.dirty = true → v.dev = ROOTDEV

/-- What holds of the buffers whatever the log is. -/
structure Cache (s : State) : Prop where
  listed : ∀ i, i ∈ s.list
  unique : ∀ i j b, Holds (s.buf i) b → Holds (s.buf j) b → i = j
  ok : ∀ i, (s.buf i).Ok

/-- Buffer `i` is one that `bread` of block `b` can return. -/
structure Fetches (s : State) (b : Nat) (i : Index) : Prop where
  free : (s.buf i).locked = false
  same : (s.buf i).dirty = true → Holds (s.buf i) b
  only : ∀ j, Holds (s.buf j) b → j = i

/-- What `bread` makes of the buffer it returns. -/
def fetched (s : State) (b : Nat) (i : Index) : State :=
  s.modify i fun v ↦ ⟨ROOTDEV, b, true, v.dirty, 1, true⟩

/-- What `bwrite` makes of its buffer. -/
def written (s : State) (i : Index) : State :=
  s.modify i fun v ↦ { v with valid := true, dirty := false }

/-- What `brelse` makes of its buffer. -/
def released (s : State) (i : Index) : State :=
  { s.modify i fun v ↦ { v with locked := false, refcnt := 0 } with list := i :: s.list.erase i }

@[simp] theorem fetched_lh : (fetched s b i).lh = s.lh := rfl

theorem fetched_buf_of_ne (h : j ≠ i) : (fetched s b i).buf j = s.buf j := modify_buf_of_ne h

theorem written_buf_of_ne (h : j ≠ i) : (written s i).buf j = s.buf j := modify_buf_of_ne h

theorem released_buf_of_ne (h : j ≠ i) : (released s i).buf j = s.buf j := by
  simp [released, modify_buf_of_ne h]

/-- A cached block is found in its buffer. -/
private theorem bread_hit (h : Cache s) (hi : Holds (s.buf i) b)
    (hfind : s.list.find? (fun i ↦ Holds (s.buf i) b) = some i) (hl : (s.buf i).locked = false) :
    bread s b = .ok (fetched s b i, i) := by
  have hv := (h.ok i).valid hi.1
  have hr : (s.buf i).refcnt = 0 := by simp [(h.ok i).refcnt, hl]
  have hget : bget s b = .ok (fetched s b i, i) := by
    have heq : (s.modify i fun v ↦ { v with refcnt := v.refcnt + 1 }).modify i
        (fun v ↦ { v with locked := true }) = fetched s b i := by
      rw [modify_modify]
      unfold fetched State.modify
      congr 2
      simp [hr, hv, hi.1, hi.2]
    simp only [bget, hfind, acquiresleep, modify_buf_self, hl, heq]
    rfl
  unfold bread
  rw [hget]
  simp [fetched, bind, Except.bind, pure, Except.pure]

/-- A block that is not cached is read into the free buffer that was used least recently. -/
private theorem bread_recycle (h : Cache s)
    (hfind : s.list.find? (fun i ↦ Holds (s.buf i) b) = none)
    (hfree : s.list.reverse.find? (fun i ↦ (s.buf i).refcnt = 0 ∧ (s.buf i).dirty = false) =
      some i) : (s.buf i).locked = false ∧ (s.buf i).dirty = false ∧
      bread s b = .ok (fetched s b i, i) := by
  have hi : (s.buf i).refcnt = 0 ∧ (s.buf i).dirty = false := by simpa using List.find?_some hfree
  have hl : (s.buf i).locked = false := by
    have hr := (h.ok i).refcnt
    rw [hi.1] at hr
    by_contra hl
    simp [hl] at hr
  refine ⟨hl, hi.2, ?_⟩
  have hget : bget s b = .ok (s.modify i fun _ ↦ ⟨ROOTDEV, b, false, false, 1, true⟩, i) := by
    simp only [bget, hfind, hfree, acquiresleep, modify_buf_self, hl, modify_modify]
    rfl
  unfold bread
  rw [hget]
  simp [iderw, fetched, hi.2, bind, Except.bind, pure, Except.pure, State.modify]

/-- `bread` sleeps on a lock of its own process, finds all buffers in use, or returns. -/
theorem bread_cases (h : Cache s) (b : Nat) :
    (∃ i, Holds (s.buf i) b ∧ (s.buf i).locked = true ∧ bread s b = .error .asleep) ∨
    ((∀ i, ¬Holds (s.buf i) b) ∧ (∀ i, (s.buf i).locked = true ∨ (s.buf i).dirty = true) ∧
      bread s b = .error (.panic .noBuffers)) ∨
    ∃ i, Fetches s b i ∧ bread s b = .ok (fetched s b i, i) := by
  cases hfind : s.list.find? fun i ↦ Holds (s.buf i) b with
  | some i =>
    have hi : Holds (s.buf i) b := by simpa using List.find?_some hfind
    by_cases hl : (s.buf i).locked = true
    · left
      refine ⟨i, hi, hl, ?_⟩
      simp [bread, bget, hfind, acquiresleep, hl, bind, Except.bind]
    · right; right
      have hl : (s.buf i).locked = false := by simpa using hl
      exact ⟨i, ⟨hl, fun _ ↦ hi, fun j hj ↦ h.unique j i b hj hi⟩, bread_hit h hi hfind hl⟩
  | none =>
    have hnone : ∀ i, ¬Holds (s.buf i) b := by
      intro i
      simpa using List.find?_eq_none.mp hfind i (h.listed i)
    right
    cases hfree : s.list.reverse.find? fun i ↦ (s.buf i).refcnt = 0 ∧ (s.buf i).dirty = false with
    | some i =>
      obtain ⟨hl, hd, hb⟩ := bread_recycle h hfind hfree
      exact .inr ⟨i, ⟨hl, fun h ↦ absurd h (by simp [hd]), fun j hj ↦ absurd hj (hnone j)⟩, hb⟩
    | none =>
      refine .inl ⟨hnone, fun i ↦ ?_, ?_⟩
      · have hi := List.find?_eq_none.mp hfree i (List.mem_reverse.mpr (h.listed i))
        have hr := (h.ok i).refcnt
        by_cases hl : (s.buf i).locked = true
        · exact .inl hl
        · right
          simpa [hr, hl] using hi
      · simp only [bread, bget, hfind, hfree]
        rfl

theorem bwrite_eq (hl : (s.buf i).locked = true) : bwrite s i = .ok (written s i) := by
  simp [bwrite, iderw, hl, written, State.modify]

theorem brelse_eq (h : Cache s) (hl : (s.buf i).locked = true) :
    brelse s i = .ok (released s i) := by
  have hr : (s.buf i).refcnt = 1 := by simp [(h.ok i).refcnt, hl]
  simp [brelse, hl, hr, released, State.modify]

/-! ### What the calls preserve -/

theorem cache_fetched (h : Cache s) (hi : Fetches s b i) : Cache (fetched s b i) := by
  have hholds : ∀ j c, Holds ((fetched s b i).buf j) c → j = i ∧ c = b ∨ j ≠ i ∧ Holds (s.buf j) c := by
    intro j c hj
    by_cases hji : j = i
    · subst hji
      simp only [fetched, modify_buf_self] at hj
      exact .inl ⟨rfl, hj.2.symm⟩
    · simp only [fetched, modify_buf_of_ne hji] at hj
      exact .inr ⟨hji, hj⟩
  refine ⟨h.listed, fun j k c hj hk ↦ ?_, modify_forall ⟨rfl, fun _ ↦ rfl, fun _ ↦ rfl⟩ h.ok⟩
  rcases hholds j c hj with ⟨hji, hc⟩ | ⟨hji, hj⟩
  · rcases hholds k c hk with ⟨hki, -⟩ | ⟨hki, hk⟩
    · rw [hji, hki]
    · exact absurd (hi.only k (hc ▸ hk)) hki
  · rcases hholds k c hk with ⟨-, hc⟩ | ⟨-, hk⟩
    · exact absurd (hi.only j (hc ▸ hj)) hji
    · exact h.unique j k c hj hk

/-- An assignment that leaves the block of a buffer alone keeps the cache, if the buffer stays
in order. -/
private theorem cache_modify (h : Cache s) (hdev : (f (s.buf i)).dev = (s.buf i).dev)
    (hblock : (f (s.buf i)).blockno = (s.buf i).blockno) (hok : (f (s.buf i)).Ok) :
    Cache (s.modify i f) := by
  have hholds : ∀ j c, Holds ((s.modify i f).buf j) c → Holds (s.buf j) c := by
    intro j c hj
    by_cases hji : j = i
    · subst hji
      rw [modify_buf_self] at hj
      exact ⟨hdev ▸ hj.1, hblock ▸ hj.2⟩
    · rwa [modify_buf_of_ne hji] at hj
  exact ⟨h.listed, fun j k c hj hk ↦ h.unique j k c (hholds j c hj) (hholds k c hk),
    modify_forall hok h.ok⟩

theorem cache_written (h : Cache s) (hl : (s.buf i).locked = true) : Cache (written s i) :=
  cache_modify h rfl rfl
    ⟨(h.ok i).refcnt, fun _ ↦ rfl, fun _ ↦ (h.ok i).used (.inl hl)⟩

theorem cache_released (h : Cache s) : Cache (released s i) := by
  have hm : Cache (s.modify i fun v ↦ { v with locked := false, refcnt := 0 }) := by
    refine cache_modify h rfl rfl ⟨rfl, (h.ok i).valid, fun hu ↦ (h.ok i).used (.inr ?_)⟩
    simpa using hu
  refine ⟨fun j ↦ ?_, hm.unique, hm.ok⟩
  by_cases hji : j = i
  · exact List.mem_cons.mpr (.inl hji)
  · exact List.mem_cons_of_mem i ((List.mem_erase_of_ne hji).mpr (h.listed j))

/-! ### Locked buffers -/

/-- The buffers that the process has. -/
def lockedSet (s : State) : Finset Index := {i | (s.buf i).locked = true}

@[simp] theorem mem_lockedSet : i ∈ lockedSet s ↔ (s.buf i).locked = true := by
  simp [lockedSet]

theorem unlocked_iff : Unlocked s ↔ lockedSet s = ∅ := by
  simp [Unlocked, Finset.eq_empty_iff_forall_notMem]

theorem lockedSet_fetched : lockedSet (fetched s b i) = insert i (lockedSet s) := by
  ext j
  by_cases hji : j = i
  · subst hji
    simp [fetched]
  · simp [fetched, modify_buf_of_ne hji, hji]

theorem lockedSet_written : lockedSet (written s i) = lockedSet s := by
  ext j
  by_cases hji : j = i
  · subst hji
    simp [written]
  · simp [written, modify_buf_of_ne hji]

theorem lockedSet_released : lockedSet (released s i) = (lockedSet s).erase i := by
  ext j
  by_cases hji : j = i
  · subst hji
    simp [released]
  · have hj : (released s i).buf j = s.buf j := released_buf_of_ne hji
    simp [hj, hji]

/-! ### Pinned buffers -/

/-- The dirty buffers are those of the blocks of `l`. -/
structure Pinned (l : List Nat) (s : State) : Prop where
  mem : ∀ i, (s.buf i).dirty = true → (s.buf i).blockno ∈ l
  cached : ∀ b ∈ l, ∃ i, (s.buf i).dirty = true ∧ Holds (s.buf i) b

variable {l : List Nat}

theorem pinned_fetched (h : Pinned l s) (hi : Fetches s b i) : Pinned l (fetched s b i) := by
  refine ⟨fun j hj ↦ ?_, fun c hc ↦ ?_⟩
  · by_cases hji : j = i
    · subst hji
      have hd : (s.buf j).dirty = true := by simpa [fetched] using hj
      have hm := h.mem j hd
      rw [(hi.same hd).2] at hm
      simpa [fetched] using hm
    · have hb : (fetched s b i).buf j = s.buf j := fetched_buf_of_ne hji
      rw [hb] at hj ⊢
      exact h.mem j hj
  · obtain ⟨j, hd, hj⟩ := h.cached c hc
    refine ⟨j, ?_⟩
    by_cases hji : j = i
    · subst hji
      have hbc : b = c := (hi.same hd).2.symm.trans hj.2
      simp [fetched, hd, hbc, Holds]
    · have hb : (fetched s b i).buf j = s.buf j := fetched_buf_of_ne hji
      rw [hb]
      exact ⟨hd, hj⟩

theorem pinned_released (h : Pinned l s) : Pinned l (released s i) := by
  have hbuf : ∀ j, ((released s i).buf j).dirty = (s.buf j).dirty ∧
      ((released s i).buf j).blockno = (s.buf j).blockno ∧
      ((released s i).buf j).dev = (s.buf j).dev := by
    intro j
    by_cases hji : j = i
    · subst hji
      simp [released]
    · have hb : (released s i).buf j = s.buf j := released_buf_of_ne hji
      simp [hb]
  refine ⟨fun j hj ↦ ?_, fun c hc ↦ ?_⟩
  · rw [(hbuf j).1] at hj
    rw [(hbuf j).2.1]
    exact h.mem j hj
  · obtain ⟨j, hd, hj⟩ := h.cached c hc
    refine ⟨j, (hbuf j).1.trans hd, ?_⟩
    unfold Holds
    rw [(hbuf j).2.1, (hbuf j).2.2]
    exact hj

/-- `bwrite` unpins the block that it writes. -/
theorem pinned_written (hc : Cache s) (hn : l.Nodup) (h : Pinned l s) (hi : Holds (s.buf i) b) :
    Pinned (l.erase b) (written s i) := by
  refine ⟨fun j hj ↦ ?_, fun c hmem ↦ ?_⟩
  · by_cases hji : j = i
    · subst hji
      simp [written] at hj
    · have hb : (written s i).buf j = s.buf j := written_buf_of_ne hji
      rw [hb] at hj ⊢
      have hne : (s.buf j).blockno ≠ b :=
        fun he ↦ hji (hc.unique j i b ⟨(hc.ok j).used (.inr hj), he⟩ hi)
      exact (List.mem_erase_of_ne hne).mpr (h.mem j hj)
  · obtain ⟨hcb, hcl⟩ := (hn.mem_erase_iff).mp hmem
    obtain ⟨j, hd, hj⟩ := h.cached c hcl
    have hji : j ≠ i := by
      rintro rfl
      exact hcb (hj.2.symm.trans hi.2)
    have hb : (written s i).buf j = s.buf j := written_buf_of_ne hji
    exact ⟨j, by rw [hb]; exact hd, by rw [hb]; exact hj⟩

/-- There are as many dirty buffers as pinned blocks. -/
theorem card_dirty (hc : Cache s) (hn : l.Nodup) (h : Pinned l s) :
    (Finset.univ.filter fun i ↦ (s.buf i).dirty = true).card = l.length := by
  rw [← List.toFinset_card_of_nodup hn]
  apply Finset.card_bij fun i _ ↦ (s.buf i).blockno
  · intro i hi
    exact List.mem_toFinset.mpr (h.mem i (Finset.mem_filter.mp hi).2)
  · intro i hi j hj hij
    have hdi := (hc.ok i).used (.inr (Finset.mem_filter.mp hi).2)
    have hdj := (hc.ok j).used (.inr (Finset.mem_filter.mp hj).2)
    exact hc.unique i j _ ⟨hdi, hij⟩ ⟨hdj, rfl⟩
  · intro c hmem
    obtain ⟨i, hd, hi⟩ := h.cached c (List.mem_toFinset.mp hmem)
    exact ⟨i, Finset.mem_filter.mpr ⟨Finset.mem_univ i, hd⟩, hi.2⟩

/-- A block that the process does not have is found if it is pinned, or if the pinned blocks
and the buffers of the process are too few to fill the cache. -/
theorem bread_ok (hc : Cache s) (hn : l.Nodup) (h : Pinned l s)
    (hroom : b ∈ l ∨ l.length + (lockedSet s).card < NBUF)
    (hfree : ∀ i, Holds (s.buf i) b → (s.buf i).locked = false) :
    ∃ i, Fetches s b i ∧ bread s b = .ok (fetched s b i, i) := by
  rcases bread_cases hc b with ⟨i, hi, hl, -⟩ | ⟨hnone, hfull, -⟩ | hok
  · exact absurd (hfree i hi) (by simp [hl])
  · exfalso
    rcases hroom with hb | hlt
    · obtain ⟨i, -, hi⟩ := h.cached b hb
      exact hnone i hi
    · have huniv : (Finset.univ : Finset Index) ⊆
          (Finset.univ.filter fun i ↦ (s.buf i).dirty = true) ∪ lockedSet s := by
        intro i _
        rcases hfull i with hl | hd
        · exact Finset.mem_union_right _ (mem_lockedSet.mpr hl)
        · exact Finset.mem_union_left _ (Finset.mem_filter.mpr ⟨Finset.mem_univ i, hd⟩)
      have hcard := (Finset.card_le_card huniv).trans (Finset.card_union_le _ _)
      rw [card_dirty hc hn h, Finset.card_univ, Fintype.card_fin] at hcard
      omega
  · exact hok

/-! ### The log -/

/-- What holds of buffers and log between two rounds of a loop of `commit`, when `l` is still to
be written. -/
structure Rest (l : List Nat) (s : State) : Prop extends Cache s where
  pinned : Pinned l s
  unlocked : Unlocked s

/-- Two different blocks are read, and the process has the two buffers. -/
private theorem breads_ok {c : Nat} (h : Rest l s) (hn : l.Nodup) (hne : c ≠ b)
    (hroom : c ∈ l ∧ l.length < NBUF ∨ l.length + 1 < NBUF) :
    ∃ i j u, bread s b = .ok (fetched s b i, i) ∧ bread (fetched s b i) c = .ok (u, j) ∧ i ≠ j ∧
      Cache u ∧ Pinned l u ∧ lockedSet u = {i, j} ∧ Holds (u.buf i) b ∧ Holds (u.buf j) c ∧
      u.lh = s.lh := by
  have hempty := unlocked_iff.mp h.unlocked
  obtain ⟨i, hi, hbi⟩ := bread_ok (b := b) h.toCache hn h.pinned
    (.inr (by rw [hempty, Finset.card_empty]; omega)) fun j _ ↦ h.unlocked j
  have hc := cache_fetched h.toCache hi
  have hp := pinned_fetched h.pinned hi
  have hlock : lockedSet (fetched s b i) = {i} := by simp [lockedSet_fetched, hempty]
  have hib : Holds ((fetched s b i).buf i) b := by simp [fetched, Holds]
  obtain ⟨j, hj, hbj⟩ := bread_ok (b := c) hc hn hp
    (by
      rw [hlock, Finset.card_singleton]
      exact hroom.imp_left (·.1)) fun k hk ↦ by
      have hki : k ≠ i := by
        rintro rfl
        exact hne (hk.2.symm.trans hib.2)
      rw [fetched_buf_of_ne hki]
      exact h.unlocked k
  have hij : i ≠ j := by
    rintro rfl
    simpa [fetched] using hj.free
  refine ⟨i, j, _, hbi, hbj, hij, cache_fetched hc hj, pinned_fetched hp hj, ?_, ?_, ?_, rfl⟩
  · rw [lockedSet_fetched, hlock, Finset.pair_comm]
  · rwa [fetched_buf_of_ne hij]
  · simp [fetched, Holds]

/-- One of the two buffers is written, and both are released. -/
private theorem write_ok {u : State} {k : Index} (hc : Cache u) (hn : l.Nodup) (hp : Pinned l u)
    (hij : i ≠ j) (hlock : lockedSet u = {i, j}) (hk : k ∈ lockedSet u) (hb : Holds (u.buf k) b) :
    ∃ v w t, bwrite u k = .ok v ∧ brelse v i = .ok w ∧ brelse w j = .ok t ∧
      Rest (l.erase b) t ∧ t.lh = u.lh := by
  have hcv := cache_written hc (mem_lockedSet.mp hk)
  have hcw : Cache (released (written u k) i) := cache_released hcv
  have hlw : lockedSet (released (written u k) i) = {j} := by
    rw [lockedSet_released, lockedSet_written, hlock, Finset.erase_insert]
    simpa using hij
  have hi : i ∈ lockedSet (written u k) := by simp [lockedSet_written, hlock]
  have hj : j ∈ lockedSet (released (written u k) i) := by simp [hlw]
  refine ⟨_, _, _, bwrite_eq (mem_lockedSet.mp hk), brelse_eq hcv (mem_lockedSet.mp hi),
    brelse_eq hcw (mem_lockedSet.mp hj), ⟨cache_released hcw, ?_, ?_⟩, rfl⟩
  · exact pinned_released (pinned_released (pinned_written hc hn hp hb))
  · rw [unlocked_iff, lockedSet_released, hlw]
    simp

variable {g : Geometry} {tail : Nat}

/-- A round of `write_log` writes a log block, which is not pinned. -/
theorem writeLogRound_ok (h : Rest l s) (hn : l.Nodup) (hlen : l.length < NBUF)
    (hsrc : s.lh.getD tail 0 ∈ l) (hdst : g.start + tail + 1 ∉ l) :
    ∃ t, writeLogRound g s tail = .ok t ∧ Rest l t ∧ t.lh = s.lh := by
  have hne : s.lh.getD tail 0 ≠ g.start + tail + 1 := fun he ↦ hdst (he ▸ hsrc)
  obtain ⟨i, j, u, hi, hj, hij, hc, hp, hlock, hbi, -, hlh⟩ :=
    breads_ok h hn hne (.inl ⟨hsrc, hlen⟩)
  have hmem : i ∈ lockedSet u := by simp [hlock]
  obtain ⟨v, w, t, hv, hw, ht, hr, hlt⟩ :=
    write_ok hc hn hp hij.symm (by rw [hlock, Finset.pair_comm]) hmem hbi
  rw [List.erase_of_not_mem hdst] at hr
  refine ⟨t, ?_, hr, hlt.trans hlh⟩
  simp only [writeLogRound, hi, hj, hv, hw, ht, fetched_lh, bind, Except.bind]

/-- A round of `install_trans` writes a block home, and unpins it. -/
theorem installRound_ok (h : Rest l s) (hn : l.Nodup) (hne : s.lh.getD tail 0 ≠ g.start + tail + 1)
    (hroom : s.lh.getD tail 0 ∈ l ∧ l.length < NBUF ∨ l.length + 1 < NBUF) :
    ∃ t, installRound g s tail = .ok t ∧ Rest (l.erase (s.lh.getD tail 0)) t ∧ t.lh = s.lh := by
  obtain ⟨i, j, u, hi, hj, hij, hc, hp, hlock, -, hbj, hlh⟩ := breads_ok h hn hne hroom
  have hmem : j ∈ lockedSet u := by simp [hlock]
  obtain ⟨v, w, t, hv, hw, ht, hr, hlt⟩ := write_ok hc hn hp hij hlock hmem hbj
  refine ⟨t, ?_, hr, hlt.trans hlh⟩
  simp only [installRound, hi, hj, hv, hw, ht, fetched_lh, bind, Except.bind]

/-- `write_head` writes the header block. -/
theorem write_head_ok (h : Rest l s) (hn : l.Nodup) (hlen : l.length < NBUF) (hhead : g.start ∉ l) :
    ∃ t, write_head g s = .ok t ∧ Rest l t ∧ t.lh = s.lh := by
  obtain ⟨i, hi, hbi⟩ := bread_ok (b := g.start) h.toCache hn h.pinned
    (.inr (by rw [unlocked_iff.mp h.unlocked]; exact hlen)) fun j _ ↦ h.unlocked j
  have hl : ((fetched s g.start i).buf i).locked = true := by simp [fetched]
  have hb : Holds ((fetched s g.start i).buf i) g.start := by simp [fetched, Holds]
  have hc := cache_fetched h.toCache hi
  have hcw := cache_written hc hl
  have hlw : ((written (fetched s g.start i) i).buf i).locked = true := by simp [written, fetched]
  refine ⟨released (written (fetched s g.start i) i) i, ?_, ⟨cache_released hcw, ?_, ?_⟩, rfl⟩
  · simp only [write_head, hbi, bwrite_eq hl, brelse_eq hcw hlw, bind, Except.bind]
  · have hp := pinned_released (pinned_written hc hn (pinned_fetched h.pinned hi) hb) (i := i)
    rwa [List.erase_of_not_mem hhead] at hp
  · rw [unlocked_iff, lockedSet_released, lockedSet_written, lockedSet_fetched,
      unlocked_iff.mp h.unlocked]
    simp

/-- What holds in every reachable state. -/
structure Sound (g : Geometry) (s : State) : Prop extends Cache s where
  pinned : Pinned s.lh s
  nodup : s.lh.Nodup
  home : ∀ b ∈ s.lh, g.Home b
  room : s.lh.length < g.size

/-- A log block is not in the log. -/
theorem Sound.notMem (h : Sound g s) (ht : tail < s.lh.length) : g.start + tail + 1 ∉ s.lh := by
  intro hm
  obtain ⟨-, hb⟩ := h.home _ hm
  have hr := h.room
  omega

theorem Sound.head_notMem (h : Sound g s) : g.start ∉ s.lh := by
  intro hm
  obtain ⟨-, hb⟩ := h.home _ hm
  have hr := h.room
  omega

theorem write_log_spec (hg : g.size ≤ NBUF) (h : Sound g s) (hu : Unlocked s) :
    Ensures (write_log g s) (fun _ ↦ False) fun t ↦ Rest s.lh t ∧ t.lh = s.lh := by
  apply Ensures.foldlM (I := fun _ t ↦ Rest s.lh t ∧ t.lh = s.lh) ⟨⟨h.toCache, h.pinned, hu⟩, rfl⟩
  intro n hn t ht
  rw [List.length_range] at hn
  obtain ⟨hr, hlh⟩ := ht
  have hmem : t.lh.getD n 0 ∈ s.lh := by
    rw [hlh, List.getD_eq_getElem _ _ hn]
    exact List.getElem_mem hn
  obtain ⟨u, hu, hru, hlu⟩ := writeLogRound_ok hr h.nodup (h.room.trans_le hg) hmem (h.notMem hn)
  rw [List.getElem_range, hu]
  exact ⟨hru, hlu.trans hlh⟩

theorem install_trans_spec (hg : g.size ≤ NBUF) (h : Sound g s) {u : State} (hr : Rest s.lh u)
    (hlh : u.lh = s.lh) : Ensures (install_trans g u) (fun _ ↦ False) (Rest []) := by
  have hrounds : Ensures (install_trans g u) (fun _ ↦ False)
      fun t ↦ Rest (s.lh.drop (List.range u.lh.length).length) t ∧ t.lh = s.lh := by
    apply Ensures.foldlM (I := fun n t ↦ Rest (s.lh.drop n) t ∧ t.lh = s.lh) ⟨hr, hlh⟩
    intro n hn t ht
    rw [List.length_range, hlh] at hn
    obtain ⟨hrt, hlt⟩ := ht
    have hdrop : s.lh.drop n = s.lh[n] :: s.lh.drop (n + 1) := List.drop_eq_getElem_cons hn
    have hget : t.lh.getD n 0 = s.lh[n] := by rw [hlt, List.getD_eq_getElem _ _ hn]
    have hmem : s.lh[n] ∈ s.lh := List.getElem_mem hn
    have hne : t.lh.getD n 0 ≠ g.start + n + 1 := fun he ↦ h.notMem hn (he ▸ hget ▸ hmem)
    have hlen : (s.lh.drop n).length < NBUF := by
      have hroom := h.room.trans_le hg
      rw [List.length_drop]
      omega
    obtain ⟨v, hv, hrv, hlv⟩ := installRound_ok hrt (h.nodup.sublist (List.drop_sublist n _)) hne
      (.inl ⟨by rw [hget, hdrop]; exact List.mem_cons_self, hlen⟩)
    rw [List.getElem_range, hv]
    rw [hget, hdrop, List.erase_cons_head] at hrv
    exact ⟨hrv, hlv.trans hlt⟩
  apply hrounds.imp
  intro t ht
  have hnil : s.lh.drop (List.range u.lh.length).length = [] := by
    rw [List.length_range, hlh, List.drop_length]
  rw [hnil] at ht
  exact ht.1

/-- `commit` finds a buffer for every block, and leaves no dirty buffer. -/
theorem commit_spec (hg : g.size ≤ NBUF) (h : Sound g s) (hu : Unlocked s) :
    Ensures (commit g s) (fun _ ↦ False) (Sound g) := by
  unfold commit
  split
  · apply (write_log_spec hg h hu).bind
    rintro t ⟨hr, hlh⟩
    obtain ⟨u, hwrite, hru, hlu⟩ :=
      write_head_ok hr h.nodup (h.room.trans_le hg) h.head_notMem
    rw [hwrite]
    apply (install_trans_spec hg h hru (hlu.trans hlh)).bind
    intro v hv
    have hr' : Rest [] { v with lh := [] } := ⟨⟨hv.listed, hv.unique, hv.ok⟩, ⟨hv.pinned.mem,
      hv.pinned.cached⟩, hv.unlocked⟩
    obtain ⟨w, hw, hrw, hlw⟩ := write_head_ok (g := g) hr' List.nodup_nil
      (by decide) List.not_mem_nil
    rw [hw]
    refine ⟨hrw.toCache, ?_, ?_, ?_, ?_⟩
    · rw [hlw]
      exact hrw.pinned
    all_goals rw [hlw]
    · exact List.nodup_nil
    · simp
    · exact g.size_pos
  · exact h

/-! ### Steps -/

/-- The buffers that the process has for blocks that are not in the log. -/
def others (s : State) : Finset Index := {i | (s.buf i).locked = true ∧ (s.buf i).blockno ∉ s.lh}

/-- A `bread` is of a block in the cache, or the blocks in the log and the others that the
process has are fewer than the buffers. -/
def Spare (s : State) : Action → Prop
  | .bread b => (∃ i, Holds (s.buf i) b) ∨ s.lh.length + (others s).card < NBUF
  | _ => True

/-- The buffers in use are those of the blocks in the log and the others of the process. -/
theorem card_used (h : Sound g s) :
    (Finset.univ.filter fun i ↦ (s.buf i).locked = true ∨ (s.buf i).dirty = true).card =
      s.lh.length + (others s).card := by
  rw [← card_dirty h.toCache h.nodup h.pinned, ← Finset.card_union_of_disjoint]
  · congr 1
    ext i
    simp only [others, Finset.mem_union, Finset.mem_filter, Finset.mem_univ, true_and]
    constructor
    · rintro (hl | hd)
      · by_cases hm : (s.buf i).blockno ∈ s.lh
        · obtain ⟨j, hd, hj⟩ := h.pinned.cached _ hm
          have hij : i = j := h.unique i j _ ⟨(h.ok i).used (.inl hl), rfl⟩ hj
          exact .inl (hij ▸ hd)
        · exact .inr ⟨hl, hm⟩
      · exact .inl hd
    · rintro (hd | ⟨hl, -⟩)
      · exact .inr hd
      · exact .inl hl
  · unfold others
    rw [Finset.disjoint_filter]
    intro i _ hd hi
    exact hi.2 (h.pinned.mem i hd)

/-- `bread` keeps the invariant, and finds no buffer exactly when there is none to spare. -/
theorem bread_spec (h : Sound g s) :
    Ensures (bread s b) (fun e ↦ e = .panic .noBuffers ↔ ¬Spare s (.bread b))
      fun r ↦ Spare s (.bread b) ∧ Sound g r.1 := by
  have hused := card_used h
  rcases bread_cases h.toCache b with ⟨i, hi, -, he⟩ | ⟨hnone, hfull, he⟩ | ⟨i, hi, he⟩
  · rw [he]
    simp [Spare, (⟨i, hi⟩ : ∃ i, Holds (s.buf i) b)]
  · rw [he]
    have hall : Finset.univ.filter (fun i ↦ (s.buf i).locked = true ∨ (s.buf i).dirty = true) =
        Finset.univ := by
      ext i
      simpa using hfull i
    rw [hall, Finset.card_univ, Fintype.card_fin] at hused
    simp [Spare, hnone, ← hused]
  · rw [he]
    refine ⟨?_, cache_fetched h.toCache hi, pinned_fetched h.pinned hi, h.nodup, h.home, h.room⟩
    by_cases hd : (s.buf i).dirty = true
    · exact .inl ⟨i, hi.same hd⟩
    · right
      rw [← hused]
      refine (Finset.card_lt_univ_of_notMem (x := i) ?_).trans_eq (Fintype.card_fin NBUF)
      simp [hd, hi.free]

/-- `log_write` pins the block of its buffer. -/
theorem log_write_spec (h : Sound g s) (hi : Holds (s.buf i) b) (hb : g.Home b) :
    Ensures (log_write g s i) (fun e ↦ e ≠ .panic .noBuffers) (Sound g) := by
  unfold log_write
  split
  · simp
  · next hroom =>
    split
    · simp
    · have hc : Cache (s.modify i fun v ↦ { v with dirty := true }) :=
        cache_modify h.toCache rfl rfl ⟨(h.ok i).refcnt, (h.ok i).valid, fun _ ↦ hi.1⟩
      rw [hi.2]
      refine ⟨⟨hc.listed, hc.unique, hc.ok⟩, ⟨fun j hj ↦ ?_, fun c hm ↦ ?_⟩, nodup_absorb h.nodup,
        fun c hm ↦ ?_, ?_⟩
      · rw [mem_absorb]
        by_cases hji : j = i
        · subst hji
          right
          simpa [State.modify] using hi.2
        · left
          simp only [modify_buf_of_ne hji] at hj ⊢
          exact h.pinned.mem j hj
      · have hkeep : ∀ j, Holds (s.buf j) c →
            Holds ((s.modify i fun v ↦ { v with dirty := true }).buf j) c := by
          intro j hj
          by_cases hji : j = i
          · subst hji
            simpa [Holds] using hj
          · rwa [modify_buf_of_ne hji]
        rcases mem_absorb.mp hm with hm | rfl
        · obtain ⟨j, hd, hj⟩ := h.pinned.cached c hm
          refine ⟨j, ?_, hkeep j hj⟩
          by_cases hji : j = i
          · subst hji
            simp
          · simpa [modify_buf_of_ne hji] using hd
        · exact ⟨i, by simp, hkeep i hi⟩
      · rcases mem_absorb.mp hm with hm | rfl
        · exact h.home c hm
        · exact hb
      · have hle := length_absorb_le s.lh b
        change (absorb s.lh b).length < g.size
        omega

theorem of_held (h : held s b = some i) : (s.buf i).locked = true ∧ Holds (s.buf i) b := by
  simpa using List.find?_some h

private theorem brelse_spec (h : Sound g s) (hl : (s.buf i).locked = true) :
    Ensures (brelse s i) (fun _ ↦ False) (Sound g) := by
  rw [brelse_eq h.toCache hl]
  exact ⟨cache_released h.toCache, pinned_released h.pinned, h.nodup, h.home, h.room⟩

/-- A section that writes the log keeps the invariant, whatever it does to the counters. -/
private theorem commit_spec' (hg : g.size ≤ NBUF) (h : Sound g s) (hu : Unlocked s) {x : Int}
    {p : Option (List Nat)} : Ensures (do
      let s ← commit g { s with outstanding := x, op := p, committing := true }
      pure { s with committing := false }) (fun _ ↦ False) (Sound g) := by
  have hs : Sound g { s with outstanding := x, op := p, committing := true } :=
    ⟨⟨h.listed, h.unique, h.ok⟩, ⟨h.pinned.mem, h.pinned.cached⟩, h.nodup, h.home, h.room⟩
  apply (commit_spec hg hs hu).bind
  intro t ht
  exact ⟨⟨ht.listed, ht.unique, ht.ok⟩, ⟨ht.pinned.mem, ht.pinned.cached⟩, ht.nodup, ht.home,
    ht.room⟩

/-- Each call keeps the invariant, and finds no buffer exactly when there is none to spare. -/
theorem step_spec (hg : g.size ≤ NBUF) (h : Sound g s) (a : Action) :
    Ensures (step g s a) (fun e ↦ e = .panic .noBuffers ↔ ¬Spare s a)
      fun t ↦ Spare s a ∧ Sound g t := by
  have herr : ∀ {x : Except Stop State}, (∀ b, a ≠ .bread b) →
      Ensures x (fun e ↦ e ≠ .panic .noBuffers) (Sound g) →
      Ensures x (fun e ↦ e = .panic .noBuffers ↔ ¬Spare s a) fun t ↦ Spare s a ∧ Sound g t := by
    intro x ha hx
    have hspare : Spare s a := by
      cases a with
      | bread b => exact absurd rfl (ha b)
      | _ => trivial
    exact hx.mono (fun _ ht ↦ ⟨hspare, ht⟩) fun e he ↦
      ⟨fun h ↦ absurd h he, fun h ↦ absurd hspare h⟩
  have hsame : ∀ {x : Int} {p : Option (List Nat)}, Sound g { s with outstanding := x, op := p } :=
    ⟨⟨h.listed, h.unique, h.ok⟩, ⟨h.pinned.mem, h.pinned.cached⟩, h.nodup, h.home, h.room⟩
  cases a with
  | bread b =>
    unfold step
    exact (bread_spec h).bind fun r hr ↦ hr
  | begin_op =>
    apply herr (by simp)
    unfold step begin_op
    dsimp only
    split_ifs
    · simp
    · simp
    · exact hsame
    · simp
  | log_write b =>
    apply herr (by simp)
    unfold step
    dsimp only
    split
    · next i hi =>
      split
      · next hb => exact log_write_spec h (of_held hi).2 hb
      · simp
    · simp
  | brelse b =>
    apply herr (by simp)
    unfold step
    dsimp only
    split
    · next i hi => exact (brelse_spec h (of_held hi).1).mono (fun _ ↦ id) fun _ ↦ False.elim
    · simp
  | end_op =>
    apply herr (by simp)
    unfold step end_op
    dsimp only
    split_ifs with hu
    · simp
    · exact (commit_spec' hg h hu.2).mono (fun _ ↦ id) fun _ ↦ False.elim
    · exact hsame
    · simp
  | sync =>
    apply herr (by simp)
    unfold step sync
    dsimp only
    split_ifs with hu
    · simp
    · exact (commit_spec' hg h hu.2).mono (fun _ ↦ id) fun _ ↦ False.elim
    · simp

/-! ### The start -/

theorem rest_binit : Rest [] binit := by
  have hok : (⟨0, 0, false, false, 0, false⟩ : Buf).Ok := by constructor <;> decide
  refine ⟨⟨fun i ↦ List.mem_reverse.mpr (List.mem_finRange i), fun i j b hi ↦ ?_, fun _ ↦ hok⟩,
    ⟨fun i hi ↦ ?_, fun b hb ↦ ?_⟩, fun _ ↦ rfl⟩
  · exact absurd hi.1 Nat.zero_ne_one
  · exact absurd hi Bool.false_ne_true
  · exact absurd hb List.not_mem_nil

/-- A block is read and its buffer released, while the log is changed. -/
private theorem read_ok (h : Rest [] s) (b : Nat) (lh : List Nat) :
    ∃ i t, bread s b = .ok (fetched s b i, i) ∧ brelse { fetched s b i with lh } i = .ok t ∧
      Rest [] t ∧ t.lh = lh := by
  obtain ⟨i, hi, hbi⟩ := bread_ok (b := b) h.toCache List.nodup_nil h.pinned
    (.inr (by rw [unlocked_iff.mp h.unlocked]; decide)) fun j _ ↦ h.unlocked j
  have hc := cache_fetched h.toCache hi
  have hp := pinned_fetched h.pinned hi
  have hc' : Cache { fetched s b i with lh } := ⟨hc.listed, hc.unique, hc.ok⟩
  have hp' : Pinned [] { fetched s b i with lh } := ⟨hp.mem, hp.cached⟩
  refine ⟨i, _, hbi, brelse_eq hc' (by simp [fetched]),
    ⟨cache_released hc', pinned_released hp', ?_⟩, rfl⟩
  have hlock : lockedSet { fetched s b i with lh } = {i} := by
    change lockedSet (fetched s b i) = {i}
    simp [lockedSet_fetched, unlocked_iff.mp h.unlocked]
  rw [unlocked_iff, lockedSet_released, hlock]
  simp

/-- A round of the recovery returns, or waits for the buffer that it has. -/
private theorem installRound_recover (h : Rest [] s) :
    Ensures (installRound g s tail) (fun e ↦ e = .asleep) fun t ↦ Rest [] t ∧ t.lh = s.lh := by
  by_cases hne : s.lh.getD tail 0 = g.start + tail + 1
  · obtain ⟨i, hi, hbi⟩ := bread_ok (b := g.start + tail + 1) h.toCache List.nodup_nil h.pinned
      (.inr (by rw [unlocked_iff.mp h.unlocked]; decide)) fun j _ ↦ h.unlocked j
    have hib : Holds ((fetched s (g.start + tail + 1) i).buf i) (g.start + tail + 1) := by
      simp [fetched, Holds]
    unfold installRound
    rcases bread_cases (cache_fetched h.toCache hi) (g.start + tail + 1) with
      ⟨_, -, -, he⟩ | ⟨hnone, -, -⟩ | ⟨j, hj, -⟩
    · simp only [hbi, fetched_lh, hne, he, bind, Except.bind]
      exact rfl
    · exact absurd hib (hnone i)
    · have hij : i = j := hj.only i hib
      have hfree := hj.free
      rw [← hij] at hfree
      simp [fetched] at hfree
  · obtain ⟨t, ht, hr, hlh⟩ := installRound_ok h List.nodup_nil hne (.inr (by decide))
    rw [ht]
    exact ⟨hr, hlh⟩

/-- The boot finds a buffer for every block, and leaves an empty log. -/
theorem initlog_spec (header : List Nat) :
    Ensures (initlog g binit header) (fun e ↦ e = .asleep) (Sound g) := by
  obtain ⟨i, s, hi, hs, hr, -⟩ := read_ok rest_binit 1 []
  obtain ⟨j, t, hj, ht, hrt, -⟩ := read_ok hr g.start header
  have hinit : initlog g binit header =
      (install_trans g t >>= fun s ↦ write_head g { s with lh := [] }) := by
    have hs' : brelse (fetched binit 1 i) i = .ok s := hs
    simp only [initlog, recover_from_log, hi, hs', hj, ht, bind, Except.bind]
  rw [hinit]
  have hrounds : Ensures (install_trans g t) (fun e ↦ e = .asleep) (Rest []) := by
    apply Ensures.foldlM (I := fun _ u ↦ Rest [] u) hrt
    intro n _ u hu
    exact (installRound_recover hu).imp fun v hv ↦ hv.1
  apply hrounds.bind
  intro u hu
  have hu' : Rest [] { u with lh := [] } :=
    ⟨⟨hu.listed, hu.unique, hu.ok⟩, ⟨hu.pinned.mem, hu.pinned.cached⟩, hu.unlocked⟩
  obtain ⟨v, hv, hrv, hlv⟩ := write_head_ok (g := g) hu' List.nodup_nil (by decide)
    List.not_mem_nil
  rw [hv]
  exact ⟨hrv.toCache, hlv ▸ hrv.pinned, hlv ▸ List.nodup_nil, by rw [hlv]; simp,
    hlv ▸ g.size_pos⟩

/-! ### Runs -/

/-- In every run after a boot, a call finds no buffer exactly when there is none to spare. -/
theorem noBuffers_iff {header : List Nat} {s₀ : State} {a : Action}
    (h₀ : initlog mkfsGeometry binit header = .ok s₀)
    (h : Reaches (step mkfsGeometry) s₀ s) :
    step mkfsGeometry s a ≠ .error (.panic .noBuffers) ↔ Spare s a := by
  have hg : mkfsGeometry.size ≤ NBUF := le_refl _
  have hs : Sound mkfsGeometry s :=
    h.invariant (fun s a t hs hst ↦ ((step_spec hg hs a).of_ok hst).2)
      ((initlog_spec header).of_ok h₀)
  have hstep := step_spec hg hs a
  cases hst : step mkfsGeometry s a with
  | ok t =>
    rw [hst] at hstep
    simp [hstep.1]
  | error e =>
    rw [hst] at hstep
    have hiff : e = .panic .noBuffers ↔ ¬Spare s a := hstep
    simp [hiff]

/-- An operation stays within what the log allows it: at most `MAXOPBLOCKS` distinct blocks
logged, and at most four buffers at a time. -/
def Modest (s : State) : Action → Prop
  | .bread _ => (lockedSet s).card < 4
  | .log_write b => ∀ l, s.op = some l → (l.insert b).length ≤ MAXOPBLOCKS
  | _ => True

instance (s : State) (a : Action) : Decidable (Modest s a) :=
  match a with
  | .bread _ => inferInstanceAs (Decidable (_ < _))
  | .log_write b =>
    match h : s.op with
    | none => .isTrue fun l hl ↦ absurd (h.symm.trans hl) (by simp)
    | some l => decidable_of_iff ((l.insert b).length ≤ MAXOPBLOCKS) (by simp [Modest, h])
  | .begin_op | .brelse _ | .end_op | .sync => inferInstanceAs (Decidable True)

/-- An operation that logs `count` blocks from block `first` on, one after the other. -/
def logging (first count : Nat) : List Action :=
  .begin_op :: (List.range' first count).flatMap fun b ↦ [.bread b, .log_write b, .brelse b]

/-- Two operations log 20 blocks each; a third logs 18 and reads three more blocks. -/
def deferred : List Action :=
  logging 1000 20 ++ [.end_op] ++ logging 1020 20 ++ [.end_op] ++ logging 1040 18 ++
    [.bread 2000, .bread 2001, .bread 2002]

/-- With 58 deferred blocks and two other buffers held, a block that is logged is read, and a
block that is not in the cache finds no buffer. -/
theorem noBuffers_iff_deferred : ∃ s₀ s, initlog mkfsGeometry binit [] = .ok s₀ ∧
    exec (step mkfsGeometry) s₀ deferred.dropLast = .ok s ∧
    s.lh.length = 58 ∧ (others s).card = 2 ∧
    step mkfsGeometry s (.bread 1000) ≠ .error (.panic .noBuffers) ∧
    step mkfsGeometry s (.bread 2002) = .error (.panic .noBuffers) := by
  have hrun : ((initlog mkfsGeometry binit []).toOption.any fun s₀ ↦
      (exec (step mkfsGeometry) s₀ deferred.dropLast).toOption.any fun s ↦
        decide (s.lh.length = 58 ∧ (others s).card = 2 ∧ (∃ i, Holds (s.buf i) 1000) ∧
          ¬∃ i, Holds (s.buf i) 2002)) = true := by
    decide +kernel
  cases h₀ : initlog mkfsGeometry binit [] with
  | error e => simp [h₀, Except.toOption] at hrun
  | ok s₀ =>
    simp only [h₀, Except.toOption, Option.any_some] at hrun
    cases h : exec (step mkfsGeometry) s₀ deferred.dropLast with
    | error e => simp [h] at hrun
    | ok s =>
      simp only [h, Option.any_some, decide_eq_true_eq] at hrun
      obtain ⟨hlen, hothers, hcached, hnew⟩ := hrun
      refine ⟨s₀, s, rfl, h, hlen, hothers, (noBuffers_iff h₀ ⟨_, h⟩).mpr (.inl hcached), ?_⟩
      by_contra hne
      rcases (noBuffers_iff h₀ ⟨_, h⟩).mp hne with hcached | hroom
      · exact hnew hcached
      · rw [hlen, hothers] at hroom
        exact absurd hroom (by decide)

/-- The operations stay within what the log allows them, and the last `bread` finds no buffer. -/
theorem deferred_noBuffers : ∃ s₀, initlog mkfsGeometry binit [] = .ok s₀ ∧
    Along (step mkfsGeometry) Modest s₀ deferred ∧
    exec (step mkfsGeometry) s₀ deferred = .error (.panic .noBuffers) := by
  have hrun : (match initlog mkfsGeometry binit [] with
      | .ok s => decide (Along (step mkfsGeometry) Modest s deferred ∧
          exec (step mkfsGeometry) s deferred = .error (.panic .noBuffers))
      | .error _ => false) = true := by
    decide +kernel
  cases h : initlog mkfsGeometry binit [] with
  | ok s =>
    rw [h] at hrun
    exact ⟨s, rfl, of_decide_eq_true hrun⟩
  | error e =>
    rw [h] at hrun
    exact absurd hrun Bool.false_ne_true

end Xv6.Bio
