import Xv6.Log.Steps

/-!
# The group-commit protocol

Who may be inside an operation and who may be committing, in any interleaving of any
number of processes, with crashes anywhere. `Protocol` is the invariant of the fields
that `log.lock` protects; `protocol_step` shows that every step preserves it.
-/

namespace Xv6.Log

open Function

/-- One for a process inside an operation. -/
def opCount : Pc → Int
  | .inOp _ => 1
  | _ => 0

@[simp] theorem opCount_idle : opCount .idle = 0 := rfl
@[simp] theorem opCount_inOp (op : Op) : opCount (.inOp op) = 1 := rfl
@[simp] theorem opCount_commit (stage : Stage) (seen : List Nat) :
    opCount (.commit stage seen) = 0 := rfl

@[simp] theorem opCount_wake (pc : Pc) : opCount pc.wake = opCount pc := by
  cases pc <;> rfl

theorem opCount_nonneg (pc : Pc) : 0 ≤ opCount pc := by
  cases pc <;> simp [opCount]

theorem opCount_eq_zero {pc : Pc} (h : ¬pc.InOp) : opCount pc = 0 := by
  cases pc <;> first | rfl | exact absurd trivial h

variable {P : Type} [Fintype P]

/-- The fields under `log.lock` agree with where the processes are. -/
structure Protocol (s : State P) : Prop where
  counted : s.outstanding = ∑ p, opCount (s.procs p)
  flag : s.committing = true ↔ ∃ p, (s.procs p).InCommit
  single : ∀ p q, (s.procs p).InCommit → (s.procs q).InCommit → p = q
  drained : s.committing = true → s.outstanding = 0
  cleared : ∀ p seen, s.procs p = .commit .done seen → s.lh = []
  down : s.mode ≠ .up → ∀ p, s.procs p = .idle
  room : s.mode = .up → s.committing = false → s.outstanding = 0 →
    s.lh.length + MAXOPBLOCKS ≤ LOGSIZE
  awake : s.committing = false → s.outstanding = 0 → ∀ p, ¬(s.procs p).Asleep

/-- Nothing has happened yet. -/
theorem protocol_idle {s : State P} (ho : s.outstanding = 0) (hc : s.committing = false)
    (hl : s.lh = []) (hp : ∀ p, s.procs p = .idle) : Protocol s where
  counted := by simp [ho, hp, opCount]
  flag := by simp [hc, hp, Pc.InCommit]
  single := fun p q h ↦ by simp [hp, Pc.InCommit] at h
  drained := fun _ ↦ ho
  cleared := fun p seen h ↦ by simp [hp] at h
  down := fun _ ↦ hp
  room := fun _ _ _ ↦ by simp [hl]
  awake := fun _ _ p ↦ by simp [hp, Pc.Asleep]

namespace Protocol

variable {s : State P} (h : Protocol s)

include h

/-- While some process is inside an operation, nobody is committing. -/
theorem not_committing {p : P} (hp : (s.procs p).InOp) : s.committing = false := by
  by_contra hc
  have hd := h.drained (by simpa using hc)
  obtain ⟨op, hop⟩ := Pc.inOp_iff.mp hp
  have hle := Finset.single_le_sum (f := fun q ↦ opCount (s.procs q))
    (fun q _ ↦ opCount_nonneg _) (Finset.mem_univ p)
  rw [← h.counted, hd] at hle
  simp [hop, opCount] at hle

/-- A process inside an operation is counted. -/
theorem one_le {p : P} (hp : (s.procs p).InOp) : 1 ≤ s.outstanding := by
  obtain ⟨op, hop⟩ := Pc.inOp_iff.mp hp
  have hle := Finset.single_le_sum (f := fun q ↦ opCount (s.procs q))
    (fun q _ ↦ opCount_nonneg _) (Finset.mem_univ p)
  rw [← h.counted] at hle
  simpa [hop, opCount] using hle

/-- With `log.outstanding` zero, no process is inside an operation. -/
theorem not_inOp (ho : s.outstanding = 0) (p : P) : ¬(s.procs p).InOp := by
  intro hp
  have h1 := h.one_le hp
  omega

theorem not_inCommit (hc : s.committing = false) (p : P) : ¬(s.procs p).InCommit := by
  intro hp
  have ht := h.flag.mpr ⟨p, hp⟩
  simp [hc] at ht

theorem outstanding_nonneg : 0 ≤ s.outstanding := by
  rw [h.counted]
  exact Finset.sum_nonneg fun p _ ↦ opCount_nonneg _

end Protocol

section Update

variable [DecidableEq P] {g : Geometry} {s : State P} {p : P}

private theorem sum_opCount_update (procs : P → Pc) (p : P) (pc : Pc) :
    ∑ q, opCount (update procs p pc q) = ∑ q, opCount (procs q) + opCount pc - opCount (procs p) := by
  have h := Lib.sum_update_add opCount procs p pc
  omega

/-- A process that is neither in an operation nor committing moves to another such place,
and may fall asleep only while somebody else has work to finish. -/
theorem protocol_goto (pc : Pc) (h : Protocol s) (hp : ¬(s.procs p).InOp) (hpc : ¬(s.procs p).InCommit)
    (hq : ¬pc.InOp) (hqc : ¬pc.InCommit) (hd : s.mode ≠ .up → pc = .idle)
    (hs : s.committing = false → s.outstanding = 0 → ¬pc.Asleep) : Protocol (s.goto p pc) where
  counted := by
    show s.outstanding = ∑ q, opCount (update s.procs p pc q)
    rw [sum_opCount_update, opCount_eq_zero hp, opCount_eq_zero hq, h.counted]
    omega
  flag := by
    show s.committing = true ↔ ∃ q, (update s.procs p pc q).InCommit
    rw [h.flag]
    constructor
    · rintro ⟨q, hq'⟩
      have hne : q ≠ p := fun he ↦ hpc (he ▸ hq')
      exact ⟨q, by simpa [hne] using hq'⟩
    · rintro ⟨q, hq'⟩
      by_cases he : q = p
      · subst he
        exact absurd (by simpa using hq') hqc
      · exact ⟨q, by simpa [he] using hq'⟩
  single := by
    intro q r hq' hr
    have hne : ∀ t, (update s.procs p pc t).InCommit → (s.procs t).InCommit := by
      intro t ht
      by_cases he : t = p
      · subst he
        exact absurd (by simpa using ht) hqc
      · simpa [he] using ht
    exact h.single q r (hne q hq') (hne r hr)
  drained := h.drained
  cleared := by
    intro q seen hq'
    by_cases he : q = p
    · subst he
      have hc : pc = .commit .done seen := by simpa [State.goto] using hq'
      exact absurd (Pc.inCommit_iff.mpr ⟨_, _, hc⟩) hqc
    · exact h.cleared q seen (by simpa [State.goto, he] using hq')
  down := by
    intro hm q
    by_cases he : q = p
    · subst he
      simpa [State.goto] using hd hm
    · simpa [State.goto, he] using h.down hm q
  room := h.room
  awake := by
    intro hc ho q
    by_cases he : q = p
    · subst he
      simpa [State.goto] using hs hc ho
    · simpa [State.goto, he] using h.awake hc ho q

theorem protocol_admit (h : Protocol s) (hp : ¬(s.procs p).InOp) (up : s.mode = .up)
    (quiet : s.committing = false) : Protocol (admitted s p) where
  counted := by
    show s.outstanding + 1 = ∑ q, opCount (update s.procs p _ q)
    rw [sum_opCount_update, opCount_eq_zero hp, opCount_inOp, h.counted]
    omega
  flag := by
    simp only [admitted, quiet, Bool.false_eq_true, false_iff, not_exists]
    intro q
    by_cases he : q = p
    · subst he; simp [Pc.InCommit]
    · simpa [he] using h.not_inCommit quiet q
  single := by
    intro q r hq
    exfalso
    by_cases he : q = p
    · subst he; simp [admitted, Pc.InCommit] at hq
    · exact h.not_inCommit quiet q (by simpa [admitted, he] using hq)
  drained := by simp [admitted, quiet]
  cleared := by
    intro q seen hq
    exfalso
    by_cases he : q = p
    · subst he; simp [admitted] at hq
    · have hq' : s.procs q = .commit .done seen := by simpa [admitted, he] using hq
      exact h.not_inCommit quiet q (Pc.inCommit_iff.mpr ⟨_, _, hq'⟩)
  down := fun hm ↦ absurd up hm
  room := by
    intro _ _ ho
    have hn := h.outstanding_nonneg
    simp only [admitted] at ho
    omega
  awake := by
    intro _ ho
    have hn := h.outstanding_nonneg
    simp only [admitted] at ho
    omega

/-- `p` leaves its operation, with every sleeper woken. -/
theorem protocol_endWake {op : Op} (h : Protocol s) (hp : s.procs p = .inOp op) (up : s.mode = .up)
    (quiet : s.committing = false)
    (room : s.outstanding = 1 → (s.lh.length : Int) + MAXOPBLOCKS ≤ LOGSIZE) :
    Protocol ((wakeup (ended s op)).goto p .idle) where
  counted := by
    show s.outstanding - 1 = ∑ q, opCount (update (fun r ↦ (s.procs r).wake) p .idle q)
    rw [sum_opCount_update, h.counted]
    simp only [opCount_wake, hp, opCount_inOp, opCount_idle]
    omega
  flag := by
    simp only [State.goto, wakeup, ended, quiet, Bool.false_eq_true, false_iff, not_exists]
    intro q
    by_cases he : q = p
    · subst he; simp [Pc.InCommit]
    · simpa [he] using h.not_inCommit quiet q
  single := by
    intro q r hq
    exfalso
    by_cases he : q = p
    · subst he; simp [State.goto, Pc.InCommit] at hq
    · exact h.not_inCommit quiet q (by simpa [State.goto, wakeup, ended, he] using hq)
  drained := by simp [State.goto, wakeup, ended, quiet]
  cleared := by
    intro q seen hq
    exfalso
    by_cases he : q = p
    · subst he; simp [State.goto] at hq
    · have hq' : s.procs q = .commit .done seen := by
        simpa [State.goto, wakeup, ended, he] using hq
      exact h.not_inCommit quiet q (Pc.inCommit_iff.mpr ⟨_, _, hq'⟩)
  down := fun hm ↦ absurd up hm
  room := by
    intro _ _ ho
    simp only [State.goto, wakeup, ended] at ho ⊢
    have hr := room (by omega)
    omega
  awake := by
    intro _ _ q
    by_cases he : q = p
    · subst he; simp [State.goto, Pc.Asleep]
    · simp [State.goto, wakeup, he]

/-- The one process that may commit enters `commit()`. -/
theorem protocol_enterCommit {seen : List Nat} (hcount : ∑ q, opCount (s.procs q) = opCount (s.procs p))
    (ho : s.outstanding = 0) (hc : ∀ q, ¬(s.procs q).InCommit) (up : s.mode = .up) :
    Protocol (enterCommit s p seen) where
  counted := by
    show s.outstanding = ∑ q, opCount (update s.procs p _ q)
    rw [sum_opCount_update, hcount, ho, opCount_commit]
    omega
  flag := by
    simp only [enterCommit, State.goto, true_iff]
    exact ⟨p, by simp [Pc.InCommit]⟩
  single := by
    have hne : ∀ q, ((enterCommit s p seen).procs q).InCommit → q = p := by
      intro q hq
      by_contra he
      exact hc q (by simpa [enterCommit, State.goto, he] using hq)
    intro q r hq hr
    rw [hne q hq, hne r hr]
  drained := fun _ ↦ ho
  cleared := by
    intro q seen' hq
    by_cases he : q = p
    · subst he
      simp only [enterCommit, State.goto, update_self, Pc.commit.injEq] at hq ⊢
      unfold commitStart at hq
      split at hq
      · simp at hq
      · next hl => exact List.length_eq_zero_iff.mp (by omega)
    · have hq' : s.procs q = .commit .done seen' := by
        simpa [enterCommit, State.goto, he] using hq
      exact absurd (Pc.inCommit_iff.mpr ⟨_, _, hq'⟩) (hc q)
  down := fun hm ↦ absurd up hm
  room := by simp [enterCommit, State.goto]
  awake := by simp [enterCommit, State.goto]

/-- The committer moves on to its next stage; only `done` needs an empty log. -/
theorem protocol_commitMove {s' : State P} {st st' : Stage} {seen : List Nat} (h : Protocol s)
    (hp : s.procs p = .commit st seen) (up : s'.mode = .up) (ho : s'.outstanding = s.outstanding)
    (hc : s'.committing = s.committing)
    (hpr : s'.procs = update s.procs p (.commit st' seen)) (hl : st' = .done → s'.lh = []) :
    Protocol s' := by
  have hcom : s.committing = true := h.flag.mpr ⟨p, Pc.inCommit_iff.mpr ⟨_, _, hp⟩⟩
  have hiff : ∀ q, (s'.procs q).InCommit ↔ (s.procs q).InCommit := by
    intro q
    by_cases he : q = p
    · subst he; simp [hpr, hp, Pc.InCommit]
    · simp [hpr, he]
  constructor
  · rw [ho, hpr, sum_opCount_update, hp, opCount_commit, opCount_commit, h.counted]
    omega
  · simp only [hc, hiff, h.flag]
  · intro q r hq hr
    exact h.single q r ((hiff q).mp hq) ((hiff r).mp hr)
  · intro _
    rw [ho]
    exact h.drained hcom
  · intro q seen' hq
    have he : q = p := h.single q p ((hiff q).mp (Pc.inCommit_iff.mpr ⟨_, _, hq⟩))
      (Pc.inCommit_iff.mpr ⟨_, _, hp⟩)
    subst he
    rw [hpr, update_self, Pc.commit.injEq] at hq
    exact hl hq.1
  · exact fun hm ↦ absurd up hm
  · intro _ hf
    rw [hc, hcom] at hf
    cases hf
  · intro hf
    rw [hc, hcom] at hf
    cases hf

/-- The committer clears `log.committing` and wakes every sleeper. -/
theorem protocol_commitDone {seen : List Nat} (h : Protocol s)
    (hp : s.procs p = .commit .done seen) (up : s.mode = .up) {s' : State P}
    (hs' : s' = commitStep g s p seen .done) : Protocol s' := by
  subst hs'
  have hcom : s.committing = true := h.flag.mpr ⟨p, Pc.inCommit_iff.mpr ⟨_, _, hp⟩⟩
  have hno : ∀ q, ¬((commitStep g s p seen .done).procs q).InCommit := by
    intro q hq
    by_cases he : q = p
    · subst he; simp [commitStep, State.goto, Pc.InCommit] at hq
    · refine he (h.single q p ?_ (Pc.inCommit_iff.mpr ⟨_, _, hp⟩))
      simpa [commitStep, State.goto, wakeup, he] using hq
  constructor
  · show s.outstanding = ∑ q, opCount (update (fun r ↦ (s.procs r).wake) p .idle q)
    rw [sum_opCount_update]
    simp only [opCount_wake, hp, opCount_commit, opCount_idle, h.counted]
    omega
  · simp only [hno, exists_false, iff_false]
    simp [commitStep, State.goto, wakeup]
  · exact fun q r hq ↦ absurd hq (hno q)
  · exact fun _ ↦ h.drained hcom
  · exact fun q seen' hq ↦ absurd (Pc.inCommit_iff.mpr ⟨_, _, hq⟩) (hno q)
  · exact fun hm ↦ absurd up hm
  · intro _ _ _
    have hl := h.cleared p seen hp
    simp [commitStep, State.goto, wakeup, hl]
  · intro _ _ q
    by_cases he : q = p
    · subst he; simp [commitStep, State.goto, Pc.Asleep]
    · simp [commitStep, State.goto, wakeup, he]

omit [DecidableEq P] in
/-- What the protocol does not read may change freely. -/
theorem protocol_congr {s' : State P} (h : Protocol s) (ho : s'.outstanding = s.outstanding)
    (hc : s'.committing = s.committing) (hp : s'.procs = s.procs) (hl : s'.lh = s.lh)
    (hm : s'.mode = s.mode) : Protocol s' := by
  constructor
  · rw [ho, hp, h.counted]
  · rw [hc, hp, h.flag]
  · rw [hp]; exact h.single
  · rw [hc, ho]; exact h.drained
  · rw [hp, hl]; exact h.cleared
  · rw [hm, hp]; exact h.down
  · rw [hm, hc, ho, hl]; exact h.room
  · rw [hc, ho, hp]; exact h.awake

omit [Fintype P] in
private theorem inOp_update {procs : P → Pc} {op op' : Op} (hp : procs p = .inOp op) (q : P) :
    opCount (update procs p (.inOp op') q) = opCount (procs q) := by
  by_cases he : q = p
  · subst he; simp [hp]
  · simp [he]

theorem protocol_logged {op : Op} {b : Nat} {data : Block} (h : Protocol s)
    (hp : s.procs p = .inOp op) (up : s.mode = .up) : Protocol (logged s p op b data) := by
  have hin : (s.procs p).InOp := Pc.inOp_iff.mpr ⟨op, hp⟩
  have hq := h.not_committing hin
  have h1 := h.one_le hin
  have hno : ∀ q, ¬((logged s p op b data).procs q).InCommit := by
    intro q hc
    by_cases he : q = p
    · subst he; simp [logged, Pc.InCommit] at hc
    · exact h.not_inCommit hq q (by simpa [logged, he] using hc)
  constructor
  · show s.outstanding = ∑ q, opCount (update s.procs p _ q)
    rw [h.counted]
    exact Finset.sum_congr rfl fun q _ ↦ (inOp_update hp q).symm
  · simp only [hno, exists_false, iff_false]
    simp [logged, hq]
  · exact fun q r hc ↦ absurd hc (hno q)
  · simp [logged, hq]
  · exact fun q seen hc ↦ absurd (Pc.inCommit_iff.mpr ⟨_, _, hc⟩) (hno q)
  · exact fun hm ↦ absurd up hm
  · intro _ _ ho
    simp only [logged] at ho
    omega
  · intro _ ho
    simp only [logged] at ho
    omega

omit [DecidableEq P] in
/-- While the system is down nobody is anywhere, and recovery may do as it likes with the
log as long as it ends with an empty one. -/
theorem protocol_recover {s' : State P} (h : Protocol s) (hr : recoverStep g s s.mode = .ok s') :
    Protocol s' := by
  have hkeep := recoverKeeps_of_step hr
  have hidle := h.down hkeep.down
  have hp' : ∀ p, s'.procs p = .idle := fun p ↦ by rw [hkeep.procs, hidle p]
  have ho' : s'.outstanding = 0 := by rw [hkeep.outstanding, h.counted]; simp [hidle]
  have hc' : s'.committing = false := by
    rw [hkeep.committing]
    by_contra hc
    obtain ⟨p, hp⟩ := h.flag.mp (by simpa using hc)
    simp [hidle, Pc.InCommit] at hp
  constructor
  · simp [ho', hp']
  · simp [hc', hp', Pc.InCommit]
  · intro p q hp
    simp [hp', Pc.InCommit] at hp
  · exact fun _ ↦ ho'
  · intro p seen hp
    simp [hp'] at hp
  · exact fun _ ↦ hp'
  · intro hup _ _
    simp [hkeep.lh hup]
  · intro _ _ p
    simp [hp', Pc.Asleep]

/-- A killed sleeper only becomes runnable. -/
theorem protocol_kill (h : Protocol s) : Protocol (s.goto p (s.procs p).wake) := by
  by_cases hw : (s.procs p).wake = s.procs p
  · have he : s.goto p (s.procs p).wake = s := by
      rw [hw, State.goto, update_eq_self]
    rwa [he]
  · have hn : ¬(s.procs p).InOp ∧ ¬(s.procs p).InCommit ∧ ¬(s.procs p).wake.InOp := by
      cases hp : s.procs p <;> simp [hp, Pc.wake, Pc.InOp, Pc.InCommit] at hw ⊢
    refine protocol_goto _ h hn.1 hn.2.1 hn.2.2 (by simpa using hn.2.1) ?_ fun _ _ ↦ Pc.not_asleep_wake _
    intro hm
    simp [h.down hm p, Pc.wake] at hw

/-- Every step preserves the protocol. -/
theorem protocol_step {a : Action P} {s' : State P} (h : Protocol s) (hs : step g s a = .ok s') :
    Protocol s' := by
  cases stepTo_of_step hs with
  | beginSleep p up pc full =>
    refine protocol_goto (.beginWait true) h ?_ ?_ id id (fun hm ↦ absurd up hm) ?_
    · rcases pc with hp | hp <;> simp [hp, Pc.InOp]
    · rcases pc with hp | hp <;> simp [hp, Pc.InCommit]
    · intro hc ho
      exfalso
      have hr := h.room up hc ho
      rcases full with hf | hf
      · simp [hc] at hf
      · rw [ho] at hf
        omega
  | beginAdmit p up pc quiet room =>
    refine protocol_admit h ?_ up quiet
    rcases pc with hp | hp <;> simp [hp, Pc.InOp]
  | logWrite p op b data up pc home fits area => exact protocol_logged h pc up
  | endCommit p op up pc quiet last full =>
    refine protocol_enterCommit (s := ended s op) ?_ ?_ (h.not_inCommit quiet) up
    · show ∑ q, opCount (s.procs q) = opCount (s.procs p)
      rw [← h.counted, last, pc, opCount_inOp]
    · show s.outstanding - 1 = 0
      omega
  | endWake p op up pc quiet room => exact protocol_endWake h pc up quiet room
  | syncSleep p seen up pc busy =>
    refine protocol_goto (.syncWait true seen) h ?_ ?_ id id (fun hm ↦ absurd up hm) ?_
    · rcases pc with hp | hp <;> simp [hp, Pc.InOp]
    · rcases pc with hp | hp <;> simp [hp, Pc.InCommit]
    · intro hc ho
      exfalso
      rcases busy with hb | hb
      · simp [hc] at hb
      · exact hb ho
  | syncCommit p seen up pc quiet none =>
    refine protocol_enterCommit ?_ none (h.not_inCommit quiet) up
    rw [← h.counted, none, opCount_eq_zero (h.not_inOp none p)]
  | commit p stage seen up pc =>
    cases stage with
    | writeLog tail => exact protocol_commitMove h pc up rfl rfl rfl (by split <;> simp)
    | writeHead => exact protocol_commitMove h pc up rfl rfl rfl (by simp)
    | install tail => exact protocol_commitMove h pc up rfl rfl rfl (by split <;> simp)
    | clear => exact protocol_commitMove h pc up rfl rfl rfl (fun _ ↦ rfl)
    | done => exact protocol_commitDone h pc up rfl
  | kill p => exact protocol_kill h
  | fill b absent => exact protocol_congr h rfl rfl rfl rfl rfl
  | evict b data clean => exact protocol_congr h rfl rfl rfl rfl rfl
  | crash => exact protocol_idle rfl rfl rfl fun _ ↦ rfl
  | recover s' hr => exact protocol_recover h hr

end Update

end Xv6.Log
