import Xv6.Log.Protocol

/-!
# Crash safety of commit and recovery

The invariant relating the on-disk header, the log blocks, the home blocks and the
pinned cache, at every disk write of `commit()` and of `recover_from_log()`.
Until the header write, the home blocks are the durable contents (`Logging`); after it,
the log blocks and the header are (`Installing`), and either way a crash leaves a disk
that recovery can complete (`Recoverable`).
-/

namespace Xv6.Log

open Function

variable {P : Type}

/-! ### The invariants -/

/-- A header list that the log area has room for, of blocks outside it. -/
structure Fits (g : Geometry) (lh : List Nat) : Prop where
  home : ∀ b ∈ lh, g.Home b
  logsize : lh.length ≤ LOGSIZE
  area : lh.length < g.size

/-- A clean buffer agrees with the disk, and only the blocks still to be installed
are pinned. -/
structure CacheOk (s : State P) (k : Nat) : Prop where
  clean : ∀ b, ¬Dirty s b → bread s b = s.disk b
  pinned : ∀ b, Dirty s b → b ∈ s.lh.drop k

/-- Before the header write: the disk has the durable contents and an empty header, and the
first `k` listed blocks are copied to the log. -/
structure Logging (g : Geometry) (s : State P) (k : Nat) : Prop where
  cacheOk : CacheOk s 0
  fits : Fits g s.lh
  head : readHead (s.disk g.start) = []
  home : ∀ b, g.Home b → s.disk b = s.hist.durable b
  copied : ∀ i < k, s.disk (g.start + i + 1) = bread s (s.lh.getD i 0)

/-- After the header write: the log holds the durable contents of the listed blocks, and the
first `k` of them are installed. -/
structure Installing (g : Geometry) (s : State P) (k : Nat) : Prop where
  cacheOk : CacheOk s k
  fits : Fits g s.lh
  head : readHead (s.disk g.start) = s.lh
  durable : ∀ b, g.Home b → bread s b = s.hist.durable b
  copied : ∀ i < s.lh.length, s.disk (g.start + i + 1) = s.hist.durable (s.lh.getD i 0)

/-- Recovery from this disk ends with the home blocks holding `durable`. -/
structure Recoverable (g : Geometry) (disk durable : Nat → Block) : Prop where
  fits : Fits g (readHead (disk g.start))
  copied : ∀ i < (readHead (disk g.start)).length,
    disk (g.start + i + 1) = durable ((readHead (disk g.start)).getD i 0)
  home : ∀ b, g.Home b → b ∉ readHead (disk g.start) → disk b = durable b

/-- Recovery has installed the first `k` blocks of the header it read. -/
structure Recovering (g : Geometry) (s : State P) (k : Nat) : Prop where
  cacheOk : CacheOk s s.lh.length
  head : readHead (s.disk g.start) = s.lh
  rest : Recoverable g s.disk s.hist.durable
  installed : ∀ i < k, s.disk (s.lh.getD i 0) = s.hist.durable (s.lh.getD i 0)

/-- What holds when a process is about to take the step `stage` of `commit()`. -/
def StageOk (g : Geometry) (s : State P) : Stage → Prop
  | .writeLog tail => Logging g s tail ∧ tail < s.lh.length
  | .writeHead => Logging g s s.lh.length ∧ s.lh ≠ []
  | .install tail => Installing g s tail ∧ tail < s.lh.length ∧ s.hist.pending = []
  | .clear => Installing g s s.lh.length ∧ s.lh ≠ [] ∧ s.hist.pending = []
  | .done => Logging g s 0 ∧ s.lh = [] ∧ s.hist.pending = []

/-- What holds between two steps of recovery. -/
def ModeOk (g : Geometry) (s : State P) : Mode → Prop
  | .readHead => CacheOk s 0 ∧ s.lh = [] ∧ Recoverable g s.disk s.hist.durable
  | .install tail => Recovering g s tail ∧ tail < s.lh.length
  | .clear => Recovering g s s.lh.length
  | .up => True

/-- The data invariant of every reachable state. -/
structure Contents (g : Geometry) (s : State P) : Prop where
  down : ModeOk g s s.mode
  fresh : s.mode ≠ .up → s.hist.pending = []
  quiet : s.mode = .up → s.committing = false →
    Logging g s 0 ∧ (s.lh = [] → s.hist.pending = [])
  stage : s.mode = .up → ∀ p st seen, s.procs p = .commit st seen → StageOk g s st

/-! ### Block numbers -/

variable {g : Geometry}

theorem Geometry.Home.ne_start {b : Nat} (h : g.Home b) : b ≠ g.start := by
  have := g.size_pos
  rcases h.2 with h | h <;> omega

theorem Geometry.Home.ne_log {b i : Nat} (h : g.Home b) (hi : i + 1 < g.size) :
    b ≠ g.start + i + 1 := by
  rcases h.2 with h | h <;> omega

theorem Fits.nil : Fits g [] where
  home := by simp
  logsize := by simp
  area := g.size_pos

theorem Fits.readHead_writeHead {lh : List Nat} (h : Fits g lh) (blk : Block) :
    readHead (writeHead blk lh) = lh := by
  apply Log.readHead_writeHead
  · have hl : lh.length ≤ 60 := h.logsize
    show lh.length < 128
    omega
  · exact fun b hb ↦ (h.home b hb).1

theorem Fits.home_getD {lh : List Nat} (h : Fits g lh) {i : Nat} (hi : i < lh.length) :
    g.Home (lh.getD i 0) := by
  rw [List.getD_eq_getElem _ _ hi]
  exact h.home _ (List.getElem_mem hi)

private theorem mem_drop_succ {lh : List Nat} {k b : Nat} (h : b ∈ lh.drop k)
    (hk : k < lh.length) (hne : b ≠ lh.getD k 0) : b ∈ lh.drop (k + 1) := by
  rw [List.drop_eq_getElem_cons hk, List.mem_cons] at h
  rcases h with rfl | h
  · rw [List.getD_eq_getElem _ _ hk] at hne
    exact absurd rfl hne
  · exact h

/-! ### What the invariants read -/

section Congr

variable {s t : State P} {k : Nat}

/-- Two states with the same disk, the same cached contents and pins, the same header list
and the same durable contents. -/
structure SameData (s t : State P) : Prop where
  bread : ∀ b, bread t b = bread s b
  disk : t.disk = s.disk
  dirty : ∀ b, Dirty t b ↔ Dirty s b
  lh : t.lh = s.lh
  durable : t.hist.durable = s.hist.durable

theorem SameData.of_eq (hc : t.cache = s.cache) (hd : t.disk = s.disk) (hl : t.lh = s.lh)
    (hh : t.hist.durable = s.hist.durable) : SameData s t where
  bread := fun b ↦ by simp only [Log.bread, hc, hd]
  disk := hd
  dirty := fun b ↦ by simp only [Dirty, hc]
  lh := hl
  durable := hh

theorem SameData.cacheOk (e : SameData s t) (h : CacheOk s k) : CacheOk t k where
  clean := by
    intro b hb
    rw [e.bread, e.disk]
    exact h.clean b (fun hd ↦ hb ((e.dirty b).mpr hd))
  pinned := by
    intro b hb
    rw [e.lh]
    exact h.pinned b ((e.dirty b).mp hb)

theorem SameData.logging (e : SameData s t) (h : Logging g s k) : Logging g t k where
  cacheOk := e.cacheOk h.cacheOk
  fits := by rw [e.lh]; exact h.fits
  head := by rw [e.disk]; exact h.head
  home := by rw [e.disk, e.durable]; exact h.home
  copied := by
    intro i hi
    rw [e.disk, e.bread, e.lh]
    exact h.copied i hi

theorem SameData.installing (e : SameData s t) (h : Installing g s k) : Installing g t k where
  cacheOk := e.cacheOk h.cacheOk
  fits := by rw [e.lh]; exact h.fits
  head := by rw [e.disk, e.lh]; exact h.head
  durable := by
    intro b hb
    rw [e.bread, e.durable]
    exact h.durable b hb
  copied := by rw [e.disk, e.lh, e.durable]; exact h.copied

theorem SameData.recovering (e : SameData s t) (h : Recovering g s k) : Recovering g t k where
  cacheOk := by rw [e.lh]; exact e.cacheOk h.cacheOk
  head := by rw [e.disk, e.lh]; exact h.head
  rest := by rw [e.disk, e.durable]; exact h.rest
  installed := by rw [e.disk, e.lh, e.durable]; exact h.installed

theorem SameData.stageOk {st : Stage} (e : SameData s t)
    (hp : t.hist.pending = s.hist.pending) (h : StageOk g s st) : StageOk g t st := by
  cases st <;> simp only [StageOk, e.lh, hp] at h ⊢
  · exact ⟨e.logging h.1, h.2⟩
  · exact ⟨e.logging h.1, h.2⟩
  · exact ⟨e.installing h.1, h.2⟩
  · exact ⟨e.installing h.1, h.2⟩
  · exact ⟨e.logging h.1, h.2⟩

theorem SameData.modeOk {m : Mode} (e : SameData s t) (h : ModeOk g s m) : ModeOk g t m := by
  cases m <;> simp only [ModeOk, e.lh] at h ⊢
  · refine ⟨e.cacheOk h.1, h.2.1, ?_⟩
    rw [e.disk, e.durable]
    exact h.2.2
  · exact ⟨e.recovering h.1, h.2⟩
  · exact e.recovering h

end Congr

/-! ### Crashing -/

section Crash

variable {s : State P} {k : Nat}

/-- A crash before the header write recovers the contents on the home blocks. -/
theorem Logging.recoverable (h : Logging g s k) : Recoverable g s.disk s.hist.durable where
  fits := by rw [h.head]; exact Fits.nil
  copied := by simp [h.head]
  home := fun b hb _ ↦ h.home b hb

/-- A crash after the header write recovers the contents in the log. -/
theorem Installing.recoverable (h : Installing g s k) : Recoverable g s.disk s.hist.durable where
  fits := by rw [h.head]; exact h.fits
  copied := by rw [h.head]; exact h.copied
  home := by
    intro b hb hn
    rw [h.head] at hn
    have hd : ¬Dirty s b := fun hd ↦ hn (List.mem_of_mem_drop (h.cacheOk.pinned b hd))
    rw [← h.cacheOk.clean b hd, h.durable b hb]

theorem StageOk.recoverable {st : Stage} (h : StageOk g s st) :
    Recoverable g s.disk s.hist.durable := by
  cases st with
  | writeLog tail => exact h.1.recoverable
  | writeHead => exact h.1.recoverable
  | install tail => exact h.1.recoverable
  | clear => exact h.1.recoverable
  | done => exact h.1.recoverable

/-- At every moment, the disk alone determines the durable contents. -/
theorem Contents.recoverable [Fintype P] (hp : Protocol s) (h : Contents g s) :
    Recoverable g s.disk s.hist.durable := by
  cases hm : s.mode with
  | readHead =>
    have hd := h.down
    rw [hm] at hd
    exact hd.2.2
  | install tail =>
    have hd := h.down
    rw [hm] at hd
    exact hd.1.rest
  | clear =>
    have hd := h.down
    rw [hm] at hd
    exact Recovering.rest hd
  | up =>
    cases hc : s.committing with
    | false => exact (h.quiet hm hc).1.recoverable
    | true =>
      obtain ⟨p, hin⟩ := hp.flag.mp hc
      obtain ⟨st, seen, hst⟩ := Pc.inCommit_iff.mp hin
      exact (h.stage hm p st seen hst).recoverable

theorem contents_crash (h : Recoverable g s.disk s.hist.durable) : Contents g (crash s) where
  down := by
    refine ⟨⟨fun b _ ↦ rfl, ?_⟩, rfl, h⟩
    rintro b ⟨buf, hb, _⟩
    simp [crash] at hb
  fresh := fun _ ↦ rfl
  quiet := by simp [crash]
  stage := by simp [crash]

end Crash

/-! ### The writes of `commit()` -/

section Commit

variable {s : State P} {k : Nat}

/-- `log_write` pins a home block. -/
theorem Logging.logged [DecidableEq P] {p : P} {op : Op} {b : Nat} {data : Block}
    (h : Logging g s 0) (home : g.Home b) (fits : s.lh.length < LOGSIZE)
    (area : s.lh.length < g.size - 1) : Logging g (logged s p op b data) 0 where
  cacheOk := by
    constructor
    · intro c hc
      by_cases he : c = b
      · subst he
        exact absurd ⟨_, by simp [Log.logged]; rfl, rfl⟩ hc
      · have hn : ¬Dirty s c := by simpa [Dirty, Log.logged, he] using hc
        have hb := h.cacheOk.clean c hn
        simpa [bread, Log.logged, he] using hb
    · intro c hc
      rw [List.drop_zero]
      show c ∈ absorb s.lh b
      rw [mem_absorb]
      by_cases he : c = b
      · exact Or.inr he
      · have hd : Dirty s c := by simpa [Dirty, Log.logged, he] using hc
        exact Or.inl (by simpa using h.cacheOk.pinned c hd)
  fits := by
    have hl := length_absorb_le s.lh b
    constructor
    · intro c hc
      rcases mem_absorb.mp hc with hc | rfl
      · exact h.fits.home c hc
      · exact home
    · show (absorb s.lh b).length ≤ LOGSIZE
      omega
    · show (absorb s.lh b).length < g.size
      omega
  head := h.head
  home := h.home
  copied := by simp

/-- One round of `write_log` copies one more block into the log. -/
theorem Logging.writeLogRound (h : Logging g s k) (hk : k < s.lh.length) :
    Logging g (writeLogRound g s k) (k + 1) := by
  have harea := h.fits.area
  have hne : ∀ c ∈ s.lh, c ≠ g.start + k + 1 :=
    fun c hc ↦ (h.fits.home c hc).ne_log (by omega)
  have hread : ∀ i < s.lh.length,
      bread (Log.writeLogRound g s k) (s.lh.getD i 0) = bread s (s.lh.getD i 0) := by
    intro i hi
    rw [Log.writeLogRound, bread_bwrite, if_neg]
    exact (h.fits.home_getD hi).ne_log (by omega)
  constructor
  · constructor
    · intro c hc
      simp only [Log.writeLogRound, dirty_bwrite, bread_bwrite, disk_bwrite] at hc ⊢
      split
      · rfl
      · next he => exact h.cacheOk.clean c fun hd ↦ hc ⟨he, hd⟩
    · intro c hc
      exact h.cacheOk.pinned c ((dirty_bwrite _ _ _ _).mp hc).2
  · exact h.fits
  · rw [Log.writeLogRound, disk_bwrite, if_neg (by omega)]
    exact h.head
  · intro c hc
    rw [Log.writeLogRound, disk_bwrite, if_neg (hc.ne_log (by omega))]
    exact h.home c hc
  · intro i hi
    show (Log.writeLogRound g s k).disk _ = bread (Log.writeLogRound g s k) (s.lh.getD i 0)
    rw [hread i (by omega), Log.writeLogRound, disk_bwrite]
    by_cases he : i = k
    · subst he
      rw [if_pos rfl]
    · rw [if_neg (by omega)]
      exact h.copied i (by omega)

/-- The header write makes the cached contents durable. -/
theorem Logging.commitPoint (h : Logging g s s.lh.length) :
    Installing g
      { putHead g s with hist := { s.hist with durable := bread s, pending := [] } } 0 where
  cacheOk := by
    constructor
    · intro c hc
      change ¬Dirty (putHead g s) c at hc
      change bread (putHead g s) c = (putHead g s).disk c
      rw [putHead, dirty_bwrite] at hc
      rw [putHead, bread_bwrite, disk_bwrite]
      split
      · rfl
      · next he => exact h.cacheOk.clean c fun hd ↦ hc ⟨he, hd⟩
    · intro c hc
      exact h.cacheOk.pinned c ((dirty_bwrite _ _ _ _).mp hc).2
  fits := h.fits
  head := by
    show readHead ((putHead g s).disk g.start) = s.lh
    rw [putHead, disk_bwrite, if_pos rfl, h.fits.readHead_writeHead]
  durable := by
    intro b hb
    show bread (putHead g s) b = bread s b
    rw [putHead, bread_bwrite, if_neg hb.ne_start]
  copied := by
    intro i hi
    show (putHead g s).disk (g.start + i + 1) = bread s (s.lh.getD i 0)
    rw [putHead, disk_bwrite, if_neg (by omega)]
    exact h.copied i hi

/-- One round of `install_trans` in `commit()` brings one more block home. -/
theorem Installing.installRound (h : Installing g s k) (hk : k < s.lh.length) :
    Installing g (installRound g s k) (k + 1) := by
  have harea := h.fits.area
  have hhome := h.fits.home_getD hk
  have hclean : bread s (g.start + k + 1) = s.disk (g.start + k + 1) := by
    apply h.cacheOk.clean
    intro hd
    exact (h.fits.home _ (List.mem_of_mem_drop (h.cacheOk.pinned _ hd))).ne_log
      (show k + 1 < g.size by omega) rfl
  have hval : bread s (g.start + k + 1) = s.hist.durable (s.lh.getD k 0) := by
    rw [hclean, h.copied k hk]
  constructor
  · constructor
    · intro c hc
      simp only [Log.installRound, dirty_bwrite, bread_bwrite, disk_bwrite] at hc ⊢
      split
      · rfl
      · next he => exact h.cacheOk.clean c fun hd ↦ hc ⟨he, hd⟩
    · intro c hc
      obtain ⟨hne, hd⟩ := (dirty_bwrite _ _ _ _).mp hc
      exact mem_drop_succ (h.cacheOk.pinned c hd) hk hne
  · exact h.fits
  · rw [Log.installRound, disk_bwrite, if_neg hhome.ne_start.symm]
    exact h.head
  · intro b hb
    rw [Log.installRound, bread_bwrite]
    split
    · next he => rw [hval, he]; rfl
    · exact h.durable b hb
  · intro i hi
    change i < s.lh.length at hi
    rw [Log.installRound, disk_bwrite, if_neg (hhome.ne_log (by omega)).symm]
    exact h.copied i hi

/-- Clearing the header when the home blocks hold the durable contents and nothing is
pinned. -/
private theorem logging_putHead_nil (hnd : ∀ c, ¬Dirty s c)
    (hclean : ∀ c, bread s c = s.disk c) (hdisk : ∀ b, g.Home b → s.disk b = s.hist.durable b) :
    Logging g (putHead g { s with lh := [] }) 0 := by
  constructor
  · constructor
    · intro c _
      rw [putHead, bread_bwrite, disk_bwrite]
      split
      · rfl
      · exact hclean c
    · intro c hc
      exact absurd ((dirty_bwrite _ _ _ _).mp hc).2 (hnd c)
  · exact Fits.nil
  · rw [putHead, disk_bwrite, if_pos rfl]
    exact (Fits.nil (g := g)).readHead_writeHead _
  · intro b hb
    rw [putHead, disk_bwrite, if_neg hb.ne_start]
    exact hdisk b hb
  · simp

/-- With every block home, the header is cleared. -/
theorem Installing.clear (h : Installing g s s.lh.length) :
    Logging g (putHead g { s with lh := [] }) 0 := by
  have hnd : ∀ c, ¬Dirty s c := by
    intro c hd
    simpa using h.cacheOk.pinned c hd
  have hclean := fun c ↦ h.cacheOk.clean c (hnd c)
  refine logging_putHead_nil hnd hclean ?_
  intro b hb
  rw [← hclean b, h.durable b hb]

end Commit

/-! ### The writes of `recover_from_log()` -/

section Recover

variable {s s' : State P} {k : Nat}

theorem Recovering.installRound (h : Recovering g s k) (hk : k < s.lh.length) :
    Recovering g (installRound g s k) (k + 1) := by
  have hrest := h.rest
  have hfits : Fits g s.lh := by
    rw [← h.head]
    exact hrest.fits
  have harea := hfits.area
  have hhome := hfits.home_getD hk
  have hnd : ∀ c, ¬Dirty s c := by
    intro c hd
    simpa using h.cacheOk.pinned c hd
  have hval : bread s (g.start + k + 1) = s.hist.durable (s.lh.getD k 0) := by
    have hc := hrest.copied k (by rw [h.head]; exact hk)
    rw [h.head] at hc
    rw [h.cacheOk.clean _ (hnd _), hc]
  have hhead : readHead ((Log.installRound g s k).disk g.start) = s.lh := by
    rw [Log.installRound, disk_bwrite, if_neg hhome.ne_start.symm, h.head]
  constructor
  · constructor
    · intro c _
      rw [Log.installRound, bread_bwrite, disk_bwrite]
      split
      · rfl
      · exact h.cacheOk.clean c (hnd c)
    · intro c hc
      exact absurd ((dirty_bwrite _ _ _ _).mp hc).2 (hnd c)
  · exact hhead
  · constructor
    · rw [hhead]; exact hfits
    · rw [hhead]
      intro i hi
      rw [Log.installRound, disk_bwrite, if_neg (hhome.ne_log (by omega)).symm]
      have hc := hrest.copied i (by rw [h.head]; exact hi)
      rwa [h.head] at hc
    · rw [hhead]
      intro b hb hn
      rw [Log.installRound, disk_bwrite, if_neg]
      · exact hrest.home b hb (by rw [h.head]; exact hn)
      · rintro rfl
        exact hn (by rw [List.getD_eq_getElem _ _ hk]; exact List.getElem_mem hk)
  · intro i hi
    change (Log.installRound g s k).disk (s.lh.getD i 0) = s.hist.durable (s.lh.getD i 0)
    rw [Log.installRound, disk_bwrite]
    split
    · next he => rw [hval, he]
    · next he =>
      refine h.installed i (Nat.lt_of_le_of_ne (by omega) ?_)
      rintro rfl
      exact he rfl

/-- A completed recovery has put the durable contents on the home blocks. -/
theorem Recovering.clear (h : Recovering g s s.lh.length) :
    Logging g (putHead g { s with lh := [] }) 0 := by
  have hnd : ∀ c, ¬Dirty s c := by
    intro c hd
    simpa using h.cacheOk.pinned c hd
  refine logging_putHead_nil hnd (fun c ↦ h.cacheOk.clean c (hnd c)) ?_
  intro b hb
  by_cases hm : b ∈ s.lh
  · obtain ⟨i, hi, rfl⟩ := List.getElem_of_mem hm
    have hin := h.installed i hi
    rwa [List.getD_eq_getElem _ _ hi] at hin
  · exact h.rest.home b hb (by rw [h.head]; exact hm)

theorem contents_recover [Fintype P] (hp : Protocol s) (h : Contents g s)
    (hr : recoverStep g s s.mode = .ok s') : Contents g s' := by
  have hdown := h.down
  have hidle : s.mode ≠ .up → ∀ st seen p, s.procs p ≠ .commit st seen := by
    intro hm st seen p hst
    simp [hp.down hm p] at hst
  cases hm : s.mode with
  | readHead =>
    rw [hm] at hdown
    obtain ⟨hc, hl, hrec⟩ := hdown
    have hnd : ∀ c, ¬Dirty s c := by
      intro c hd
      simpa [hl] using hc.pinned c hd
    simp only [hm, recoverStep, hc.clean _ (hnd _), Except.ok.injEq] at hr
    subst hr
    have key : ∀ m, Recovering g { s with lh := readHead (s.disk g.start), mode := m } 0 := fun m ↦
      ⟨⟨fun c _ ↦ hc.clean c (hnd c), fun c hd ↦ absurd hd (hnd c)⟩, rfl, hrec, by simp⟩
    constructor
    · dsimp only
      split
      · next hpos => exact ⟨key _, hpos⟩
      · next hpos =>
        have hz : (readHead (s.disk g.start)).length = 0 := by omega
        show Recovering g _ (readHead (s.disk g.start)).length
        rw [hz]
        exact key _
    · exact fun _ ↦ h.fresh (by simp [hm])
    · intro hup
      dsimp only at hup
      split at hup <;> cases hup
    · intro hup
      dsimp only at hup
      split at hup <;> cases hup
  | install tail =>
    rw [hm] at hdown
    obtain ⟨hrec, ht⟩ := hdown
    simp only [hm, recoverStep, Except.ok.injEq] at hr
    subst hr
    have key : ∀ m, Recovering g { installRound g s tail with mode := m } (tail + 1) := fun m ↦
      SameData.recovering (s := installRound g s tail) (.of_eq rfl rfl rfl rfl)
        (hrec.installRound ht)
    constructor
    · dsimp only
      split
      · next hpos => exact ⟨key _, hpos⟩
      · next hpos =>
        have hz : s.lh.length = tail + 1 := by omega
        show Recovering g _ s.lh.length
        rw [hz]
        exact key _
    · exact fun _ ↦ h.fresh (by simp [hm])
    · intro hup
      dsimp only at hup
      split at hup <;> cases hup
    · intro hup
      dsimp only at hup
      split at hup <;> cases hup
  | clear =>
    rw [hm] at hdown
    simp only [hm, recoverStep, Except.ok.injEq] at hr
    subst hr
    have key := SameData.logging (s := putHead g { s with lh := [] })
      (t := { putHead g { s with lh := [] } with mode := .up }) (.of_eq rfl rfl rfl rfl)
      (Recovering.clear hdown)
    constructor
    · trivial
    · exact fun _ ↦ h.fresh (by simp [hm])
    · exact fun _ _ ↦ ⟨key, fun _ ↦ h.fresh (by simp [hm])⟩
    · exact fun _ p st seen hst ↦ absurd hst (hidle (by simp [hm]) st seen p)
  | up =>
    simp [hm, recoverStep] at hr

end Recover

/-! ### Every step -/

section Step

variable {s s' : State P} {a : Action P}

/-- A step that leaves the data and the committing processes alone. -/
private theorem contents_same (h : Contents g s) (e : SameData s s') (hm : s'.mode = s.mode)
    (hc : s'.committing = s.committing) (hp : s'.hist.pending = s.hist.pending)
    (hst : ∀ p st seen, s'.procs p = .commit st seen → s.procs p = .commit st seen) :
    Contents g s' where
  down := by rw [hm]; exact e.modeOk h.down
  fresh := by rw [hm, hp]; exact h.fresh
  quiet := by
    intro hup hq
    rw [hm] at hup
    rw [hc] at hq
    rw [e.lh, hp]
    exact ⟨e.logging (h.quiet hup hq).1, (h.quiet hup hq).2⟩
  stage := by
    intro hup p st seen hpst
    rw [hm] at hup
    exact e.stageOk hp (h.stage hup p st seen (hst p st seen hpst))

private theorem commit_of_goto [DecidableEq P] {p : P} (pc : Pc) (hpc : ¬pc.InCommit) (q : P) (st : Stage)
    (seen : List Nat) (h : (s.goto p pc).procs q = .commit st seen) :
    s.procs q = .commit st seen := by
  by_cases he : q = p
  · subst he
    have hq : pc = .commit st seen := by simpa [State.goto] using h
    exact absurd (Pc.inCommit_iff.mpr ⟨_, _, hq⟩) hpc
  · simpa [State.goto, he] using h

private theorem contents_goto [DecidableEq P] {p : P} {pc : Pc} (h : Contents g s) (hpc : ¬pc.InCommit) :
    Contents g (s.goto p pc) :=
  contents_same h (SameData.of_eq rfl rfl rfl rfl) rfl rfl rfl (commit_of_goto pc hpc)

/-- The one process that may commit starts at the first stage. -/
private theorem contents_enterCommit [DecidableEq P] {p : P} {seen : List Nat}
    (hl : Logging g s 0) (hp : s.lh = [] → s.hist.pending = []) (up : s.mode = .up)
    (hno : ∀ q, ¬(s.procs q).InCommit) : Contents g (enterCommit s p seen) where
  down := by
    show ModeOk g _ s.mode
    rw [up]
    trivial
  fresh := fun hm ↦ absurd up hm
  quiet := by simp [enterCommit, State.goto]
  stage := by
    intro _ q st seen' hq
    have he : q = p := by
      by_contra he
      exact hno q (Pc.inCommit_iff.mpr ⟨st, seen', by
        simpa [enterCommit, State.goto, he] using hq⟩)
    subst he
    simp only [enterCommit, State.goto, update_self, Pc.commit.injEq] at hq
    rw [← hq.1]
    have e : SameData s (enterCommit s q seen) := .of_eq rfl rfl rfl rfl
    unfold commitStart
    split
    · next hpos => exact ⟨e.logging hl, hpos⟩
    · next hpos =>
      have hz : s.lh = [] := List.length_eq_zero_iff.mp (by omega)
      exact ⟨e.logging hl, hz, hp hz⟩

/-- The committer's step leads to the next stage. -/
private theorem contents_commitMove [Fintype P] [DecidableEq P] {p : P} {st st' : Stage}
    {seen : List Nat} {t : State P} (hp : Protocol s) (hpc : s.procs p = .commit st seen) (up : s.mode = .up)
    (hm : t.mode = s.mode) (hcom : t.committing = s.committing)
    (hprocs : t.procs = s.procs) (ht : StageOk g t st') :
    Contents g (t.goto p (.commit st' seen)) where
  down := by
    show ModeOk g _ t.mode
    rw [hm, up]
    trivial
  fresh := fun hn ↦ absurd (hm.trans up) hn
  quiet := by
    intro _ hq
    have hc := hp.flag.mpr ⟨p, Pc.inCommit_iff.mpr ⟨_, _, hpc⟩⟩
    rw [← hcom] at hc
    exact absurd (show t.committing = false from hq) (by simp [hc])
  stage := by
    intro _ q st'' seen' hq
    have he : q = p := by
      by_contra he
      refine he (hp.single q p (Pc.inCommit_iff.mpr ⟨st'', seen', ?_⟩)
        (Pc.inCommit_iff.mpr ⟨_, _, hpc⟩))
      simpa [State.goto, he, hprocs] using hq
    subst he
    simp only [State.goto, update_self, Pc.commit.injEq] at hq
    rw [← hq.1]
    exact SameData.stageOk (s := t) (.of_eq rfl rfl rfl rfl) rfl ht

private theorem contents_commit [Fintype P] [DecidableEq P] {p : P} {st : Stage}
    {seen : List Nat} (hp : Protocol s) (h : Contents g s) (up : s.mode = .up) (hpc : s.procs p = .commit st seen) :
    Contents g (commitStep g s p seen st) := by
  have hst := h.stage up p st seen hpc
  cases st with
  | writeLog tail =>
    obtain ⟨hl, ht⟩ := hst
    refine contents_commitMove hp hpc up rfl rfl rfl ?_
    have key := hl.writeLogRound ht
    split
    · next hlt => exact ⟨key, hlt⟩
    · next hlt =>
      have he : s.lh.length = tail + 1 := by omega
      exact ⟨by show Logging g _ s.lh.length; rwa [he], List.ne_nil_of_length_pos (by
        show 0 < s.lh.length; omega)⟩
  | writeHead =>
    obtain ⟨hl, hne⟩ := hst
    refine contents_commitMove (t := { putHead g s with
      hist := { s.hist with durable := bread s, pending := [] } }) hp hpc up rfl rfl rfl ?_
    exact ⟨hl.commitPoint, List.length_pos_of_ne_nil hne, rfl⟩
  | install tail =>
    obtain ⟨hi, ht, hpend⟩ := hst
    refine contents_commitMove hp hpc up rfl rfl rfl ?_
    have key := hi.installRound ht
    split
    · next hlt => exact ⟨key, hlt, hpend⟩
    · next hlt =>
      have he : s.lh.length = tail + 1 := by omega
      exact ⟨by show Installing g _ s.lh.length; rwa [he], List.ne_nil_of_length_pos (by
        show 0 < s.lh.length; omega), hpend⟩
  | clear =>
    obtain ⟨hi, _, hpend⟩ := hst
    exact contents_commitMove hp hpc up rfl rfl rfl ⟨hi.clear, rfl, hpend⟩
  | done =>
    obtain ⟨hl, hnil, hpend⟩ := hst
    constructor
    · show ModeOk g _ s.mode
      rw [up]
      trivial
    · exact fun hm ↦ absurd up hm
    · exact fun _ _ ↦ ⟨SameData.logging (s := s) (.of_eq rfl rfl rfl rfl) hl, fun _ ↦ hpend⟩
    · intro _ q st' seen' hq
      exfalso
      by_cases he : q = p
      · subst he; simp [commitStep, State.goto] at hq
      · refine he (hp.single q p (Pc.inCommit_iff.mpr ⟨st', seen', ?_⟩)
          (Pc.inCommit_iff.mpr ⟨_, _, hpc⟩))
        simpa [commitStep, State.goto, wakeup, he] using hq

private theorem contents_logged [Fintype P] [DecidableEq P] {p : P} {op : Op} {b : Nat}
    {data : Block} (hp : Protocol s) (h : Contents g s) (up : s.mode = .up) (pc : s.procs p = .inOp op) (home : g.Home b)
    (fits : s.lh.length < LOGSIZE) (area : s.lh.length < g.size - 1) :
    Contents g (logged s p op b data) := by
  have hq := hp.not_committing (p := p) (by simp [pc, Pc.InOp])
  constructor
  · show ModeOk g _ s.mode
    rw [up]
    trivial
  · exact fun hm ↦ absurd up hm
  · exact fun _ _ ↦ ⟨(h.quiet up hq).1.logged home fits area,
      fun hnil ↦ absurd hnil (absorb_ne_nil _ _)⟩
  · intro _ q st seen hst
    exfalso
    by_cases he : q = p
    · subst he; simp [logged] at hst
    · exact hp.not_inCommit hq q (Pc.inCommit_iff.mpr ⟨st, seen, by
        simpa [logged, he] using hst⟩)

private theorem sameData_fill {b : Nat} (absent : s.cache b = none) :
    SameData s { s with cache := update s.cache b (some ⟨s.disk b, false⟩) } := by
  refine ⟨fun c ↦ ?_, rfl, fun c ↦ ?_, rfl, rfl⟩
  · by_cases he : c = b
    · subst he; simp [bread, absent]
    · simp [bread, he]
  · by_cases he : c = b
    · subst he; simp [Dirty, absent]
    · simp [Dirty, he]

private theorem sameData_evict {b : Nat} {data : Block} (clean : s.cache b = some ⟨data, false⟩)
    (hb : bread s b = s.disk b) : SameData s { s with cache := update s.cache b none } := by
  refine ⟨fun c ↦ ?_, rfl, fun c ↦ ?_, rfl, rfl⟩
  · by_cases he : c = b
    · subst he; rw [hb]; simp [bread]
    · simp [bread, he]
  · by_cases he : c = b
    · subst he; simp [Dirty, clean]
    · simp [Dirty, he]

/-- In every reachable state a clean buffer agrees with the disk. -/
theorem Contents.clean [Fintype P] (hp : Protocol s) (h : Contents g s) {b : Nat} (hb : ¬Dirty s b) :
    bread s b = s.disk b := by
  have hdown := h.down
  cases hm : s.mode with
  | readHead => rw [hm] at hdown; exact hdown.1.clean b hb
  | install tail => rw [hm] at hdown; exact hdown.1.cacheOk.clean b hb
  | clear => rw [hm] at hdown; exact (Recovering.cacheOk hdown).clean b hb
  | up =>
    cases hc : s.committing with
    | false => exact (h.quiet hm hc).1.cacheOk.clean b hb
    | true =>
      obtain ⟨p, hin⟩ := hp.flag.mp hc
      obtain ⟨st, seen, hst⟩ := Pc.inCommit_iff.mp hin
      have hk := h.stage hm p st seen hst
      cases st with
      | writeLog tail => exact hk.1.cacheOk.clean b hb
      | writeHead => exact hk.1.cacheOk.clean b hb
      | install tail => exact hk.1.cacheOk.clean b hb
      | clear => exact hk.1.cacheOk.clean b hb
      | done => exact hk.1.cacheOk.clean b hb

/-- Every step preserves the data invariant. -/
theorem contents_step [Fintype P] [DecidableEq P] (hp : Protocol s) (h : Contents g s)
    (hs : step g s a = .ok s') : Contents g s' := by
  cases stepTo_of_step hs with
  | beginSleep p up pc full => exact contents_goto h id
  | beginAdmit p up pc quiet room =>
    refine contents_same h (.of_eq rfl rfl rfl rfl) rfl rfl rfl ?_
    exact commit_of_goto (s := s) (p := p) (.inOp ⟨s.hist.nextOp, []⟩) id
  | logWrite p op b data up pc home fits area => exact contents_logged hp h up pc home fits area
  | endCommit p op up pc quiet last full =>
    have hl := h.quiet up quiet
    exact contents_enterCommit (s := ended s op)
      (SameData.logging (s := s) (.of_eq rfl rfl rfl rfl) hl.1) hl.2 up (hp.not_inCommit quiet)
  | endWake p op up pc quiet room =>
    refine contents_same h (.of_eq rfl rfl rfl rfl) rfl rfl rfl ?_
    intro q st seen hq
    have hq' := commit_of_goto (s := wakeup (ended s op)) (p := p) .idle id q st seen hq
    exact Pc.wake_eq_commit.mp hq'
  | syncSleep p seen up pc busy => exact contents_goto h id
  | syncCommit p seen up pc quiet none =>
    have hl := h.quiet up quiet
    exact contents_enterCommit hl.1 hl.2 up (hp.not_inCommit quiet)
  | commit p stage seen up pc => exact contents_commit hp h up pc
  | kill p =>
    refine contents_same h (.of_eq rfl rfl rfl rfl) rfl rfl rfl ?_
    intro q st seen hq
    by_cases he : q = p
    · subst he
      exact Pc.wake_eq_commit.mp (by simpa [State.goto] using hq)
    · simpa [State.goto, he] using hq
  | fill b absent => exact contents_same h (sameData_fill absent) rfl rfl rfl fun _ _ _ hq ↦ hq
  | evict b data clean =>
    refine contents_same h (sameData_evict clean ?_) rfl rfl rfl fun _ _ _ hq ↦ hq
    refine h.clean hp ?_
    rintro ⟨buf, hb, hd⟩
    rw [clean] at hb
    cases hb
    cases hd
  | crash => exact contents_crash (h.recoverable hp)
  | recover s' hr => exact contents_recover hp h hr

/-- A disk with an empty log header is a first boot. -/
theorem contents_boot {disk : Nat → Block} (hd : readHead (disk g.start) = []) :
    Contents g (boot disk : State P) where
  down := by
    refine ⟨⟨fun b _ ↦ rfl, ?_⟩, rfl, ?_⟩
    · rintro b ⟨buf, hb, _⟩
      simp [boot] at hb
    · have he : readHead ((boot disk : State P).disk g.start) = [] := hd
      constructor
      · rw [he]; exact Fits.nil
      · simp [he]
      · exact fun b _ _ ↦ rfl
  fresh := fun _ ↦ rfl
  quiet := by simp [boot]
  stage := by simp [boot]

end Step

end Xv6.Log
