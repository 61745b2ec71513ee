import Xv6.Log.Basic

/-!
# What a step of the logging layer can do

`StepTo` lists the outcomes of `step` with their guards, one constructor for each
branch of the source; every invariant below is proved by cases on it.
-/

namespace Xv6.Log

open Function

variable {P : Type} [DecidableEq P]

/-- `begin_op` admits `p`'s next operation. -/
def admitted (s : State P) (p : P) : State P :=
  { s with
    outstanding := s.outstanding + 1
    procs := update s.procs p (.inOp ⟨s.hist.nextOp, []⟩)
    hist := { s.hist with nextOp := s.hist.nextOp + 1 } }

/-- `log_write` records block `b`. -/
def logged (s : State P) (p : P) (op : Op) (b : Nat) (data : Block) : State P :=
  { s with
    lh := absorb s.lh b
    cache := update s.cache b (some ⟨data, true⟩)
    procs := update s.procs p (.inOp ⟨op.id, op.blocks.insert b⟩)
    hist := { s.hist with pending := s.hist.pending.insert op.id } }

omit [DecidableEq P] in
/-- `end_op` has taken the lock and counted the operation out. -/
def ended (s : State P) (op : Op) : State P :=
  { s with
    outstanding := s.outstanding - 1
    hist := { s.hist with ended := s.hist.ended.insert op.id } }

/-- `p` has set `log.committing` and is about to call `commit()`. -/
def enterCommit (s : State P) (p : P) (seen : List Nat) : State P :=
  { s with committing := true }.goto p (.commit (commitStart s.lh) seen)

/-- The outcomes of a step, branch by branch. -/
inductive StepTo (g : Geometry) (s : State P) : Action P → State P → Prop where
  | beginSleep (p : P) (up : s.mode = .up)
      (pc : s.procs p = .idle ∨ s.procs p = .beginWait false)
      (full : s.committing = true ∨
        (s.lh.length : Int) + (s.outstanding + 1) * MAXOPBLOCKS > LOGSIZE) :
      StepTo g s (.beginOp p) (s.goto p (.beginWait true))
  | beginAdmit (p : P) (up : s.mode = .up)
      (pc : s.procs p = .idle ∨ s.procs p = .beginWait false) (quiet : s.committing = false)
      (room : (s.lh.length : Int) + (s.outstanding + 1) * MAXOPBLOCKS ≤ LOGSIZE) :
      StepTo g s (.beginOp p) (admitted s p)
  | logWrite (p : P) (op : Op) (b : Nat) (data : Block) (up : s.mode = .up)
      (pc : s.procs p = .inOp op) (home : g.Home b) (fits : s.lh.length < LOGSIZE)
      (area : s.lh.length < g.size - 1) :
      StepTo g s (.logWrite p b data) (logged s p op b data)
  | endCommit (p : P) (op : Op) (up : s.mode = .up) (pc : s.procs p = .inOp op)
      (quiet : s.committing = false) (last : s.outstanding = 1)
      (full : (s.lh.length : Int) + MAXOPBLOCKS > LOGSIZE) :
      StepTo g s (.endOp p) (enterCommit (ended s op) p [])
  | endWake (p : P) (op : Op) (up : s.mode = .up) (pc : s.procs p = .inOp op)
      (quiet : s.committing = false)
      (room : s.outstanding = 1 → (s.lh.length : Int) + MAXOPBLOCKS ≤ LOGSIZE) :
      StepTo g s (.endOp p) ((wakeup (ended s op)).goto p .idle)
  | syncSleep (p : P) (seen : List Nat) (up : s.mode = .up)
      (pc : s.procs p = .idle ∧ seen = s.hist.ended ∨ s.procs p = .syncWait false seen)
      (busy : s.committing = true ∨ s.outstanding ≠ 0) :
      StepTo g s (.sync p) (s.goto p (.syncWait true seen))
  | syncCommit (p : P) (seen : List Nat) (up : s.mode = .up)
      (pc : s.procs p = .idle ∧ seen = s.hist.ended ∨ s.procs p = .syncWait false seen)
      (quiet : s.committing = false) (none : s.outstanding = 0) :
      StepTo g s (.sync p) (enterCommit s p seen)
  | commit (p : P) (stage : Stage) (seen : List Nat) (up : s.mode = .up)
      (pc : s.procs p = .commit stage seen) :
      StepTo g s (.commit p) (commitStep g s p seen stage)
  | kill (p : P) : StepTo g s (.kill p) (s.goto p (s.procs p).wake)
  | fill (b : Nat) (absent : s.cache b = none) :
      StepTo g s (.fill b) { s with cache := update s.cache b (some ⟨s.disk b, false⟩) }
  | evict (b : Nat) (data : Block) (clean : s.cache b = some ⟨data, false⟩) :
      StepTo g s (.evict b) { s with cache := update s.cache b none }
  | crash : StepTo g s .crash (crash s)
  | recover (s' : State P) (h : recoverStep g s s.mode = .ok s') : StepTo g s .recover s'

variable {g : Geometry} {s s' : State P} {a : Action P}

private theorem stepTo_beginOp {p : P} (up : s.mode = .up)
    (pc : s.procs p = .idle ∨ s.procs p = .beginWait false) :
    StepTo g s (.beginOp p) (beginOp s p) := by
  unfold beginOp
  split
  · next hc => exact .beginSleep p up pc (Or.inl hc)
  · next hc =>
    have hq : s.committing = false := by simpa using hc
    split
    · next hf => exact .beginSleep p up pc (Or.inr hf)
    · next hf => exact .beginAdmit p up pc hq (by omega)

private theorem stepTo_sync {p : P} {seen : List Nat} (up : s.mode = .up)
    (pc : s.procs p = .idle ∧ seen = s.hist.ended ∨ s.procs p = .syncWait false seen) :
    StepTo g s (.sync p) (sync s p seen) := by
  unfold sync
  split
  · next hb => exact .syncSleep p seen up pc hb
  · next hb =>
    rw [not_or, not_not] at hb
    exact .syncCommit p seen up pc (by simpa using hb.1) hb.2

private theorem stepTo_endOp {p : P} {op : Op} (up : s.mode = .up) (pc : s.procs p = .inOp op)
    (h : endOp s p op = .ok s') : StepTo g s (.endOp p) s' := by
  unfold endOp at h
  split at h
  · cases h
  · next hc =>
    have hq : s.committing = false := by simpa using hc
    dsimp only at h
    split at h
    · next hl =>
      cases h
      exact .endCommit p op up pc hq (by omega) hl.2
    · next hl =>
      cases h
      exact .endWake p op up pc hq (fun ho ↦ by
        by_contra hr
        exact hl ⟨by omega, by omega⟩)

private theorem stepTo_logWrite {p : P} {op : Op} {b : Nat} {data : Block} (up : s.mode = .up)
    (pc : s.procs p = .inOp op) (home : g.Home b) (h : logWrite g s p op b data = .ok s') :
    StepTo g s (.logWrite p b data) s' := by
  unfold logWrite at h
  split at h
  · cases h
  · next hf =>
    split at h
    · cases h
    · cases h
      exact .logWrite p op b data up pc home (by omega) (by omega)

/-- What every step of recovery leaves alone; it brings the system up with an empty list. -/
structure RecoverKeeps (s t : State P) : Prop where
  down : s.mode ≠ .up
  procs : t.procs = s.procs
  hist : t.hist = s.hist
  committing : t.committing = s.committing
  outstanding : t.outstanding = s.outstanding
  lh : t.mode = .up → t.lh = []

omit [DecidableEq P] in
theorem recoverKeeps_of_step (h : recoverStep g s s.mode = .ok s') : RecoverKeeps s s' := by
  cases hm : s.mode with
  | readHead =>
    simp only [hm, recoverStep, Except.ok.injEq] at h
    subst h
    refine ⟨by simp [hm], rfl, rfl, rfl, rfl, ?_⟩
    dsimp only
    split <;> simp
  | install tail =>
    simp only [hm, recoverStep, Except.ok.injEq] at h
    subst h
    refine ⟨by simp [hm], rfl, rfl, rfl, rfl, ?_⟩
    dsimp only
    split <;> simp
  | clear =>
    simp only [hm, recoverStep, Except.ok.injEq] at h
    subst h
    exact ⟨by simp [hm], rfl, rfl, rfl, rfl, fun _ ↦ rfl⟩
  | up => simp [hm, recoverStep] at h

/-- Every successful step is one of the listed outcomes. -/
theorem stepTo_of_step (h : step g s a = .ok s') : StepTo g s a s' := by
  cases a with
  | beginOp p =>
    simp only [step] at h
    split at h
    · next hm hp => cases h; exact stepTo_beginOp hm (Or.inl hp)
    · next hm hp => cases h; exact stepTo_beginOp hm (Or.inr hp)
    · cases h
  | logWrite p b data =>
    simp only [step] at h
    split at h
    · next hm hp =>
      split at h
      · next hb => exact stepTo_logWrite hm hp hb h
      · cases h
    · cases h
  | endOp p =>
    simp only [step] at h
    split at h
    · next hm hp => exact stepTo_endOp hm hp h
    · cases h
  | sync p =>
    simp only [step] at h
    split at h
    · next hm hp => cases h; exact stepTo_sync hm (Or.inl ⟨hp, rfl⟩)
    · next hm hp => cases h; exact stepTo_sync hm (Or.inr hp)
    · cases h
  | commit p =>
    simp only [step] at h
    split at h
    · next hm hp => cases h; exact .commit p _ _ hm hp
    · cases h
  | kill p => cases h; exact .kill p
  | fill b =>
    simp only [step] at h
    split at h
    · cases h
    · next hb => cases h; exact .fill b hb
  | evict b =>
    simp only [step] at h
    split at h
    · next hb => cases h; exact .evict b _ hb
    · cases h
  | crash => cases h; exact .crash
  | recover => exact .recover s' h

/-- Every panic, with the test that raises it. -/
inductive PanicAt (g : Geometry) (s : State P) : Action P → Panic → Prop where
  | committing (p : P) (op : Op) (pc : s.procs p = .inOp op) (busy : s.committing = true) :
      PanicAt g s (.endOp p) .committing
  | tooBig (p : P) (op : Op) (b : Nat) (data : Block) (up : s.mode = .up)
      (pc : s.procs p = .inOp op) (full : s.lh.length ≥ LOGSIZE ∨ s.lh.length ≥ g.size - 1) :
      PanicAt g s (.logWrite p b data) .tooBig
  | outsideTrans (p : P) (op : Op) (b : Nat) (data : Block) (pc : s.procs p = .inOp op)
      (none : s.outstanding < 1) : PanicAt g s (.logWrite p b data) .outsideTrans

private theorem panicAt_logWrite {p : P} {op : Op} {b : Nat} {data : Block} {e : Panic}
    (up : s.mode = .up) (pc : s.procs p = .inOp op)
    (h : logWrite g s p op b data = .error (.panic e)) : PanicAt g s (.logWrite p b data) e := by
  unfold logWrite at h
  split at h
  · next hf =>
    cases h
    exact .tooBig p op b data up pc hf
  · split at h
    · next ho =>
      cases h
      exact .outsideTrans p op b data pc ho
    · cases h

private theorem panicAt_endOp {p : P} {op : Op} {e : Panic} (pc : s.procs p = .inOp op)
    (h : endOp s p op = .error (.panic e)) : PanicAt g s (.endOp p) e := by
  unfold endOp at h
  split at h
  · next hc =>
    cases h
    exact .committing p op pc hc
  · dsimp only at h
    split at h <;> cases h

/-- Every step that panics does so at one of the listed tests. -/
theorem panicAt_of_step {e : Panic} (h : step g s a = .error (.panic e)) : PanicAt g s a e := by
  cases a with
  | logWrite p b data =>
    simp only [step] at h
    split at h
    · next hm hp =>
      split at h
      · exact panicAt_logWrite hm hp h
      · cases h
    · cases h
  | endOp p =>
    simp only [step] at h
    split at h
    · next hm hp => exact panicAt_endOp hp h
    · cases h
  | recover => cases hm : s.mode <;> simp [step, hm, recoverStep] at h
  | kill p => cases h
  | crash => cases h
  | _ =>
    simp only [step] at h
    split at h <;> cases h

end Xv6.Log
