import Xv6.Log.Durability

/-!
# Group commit

What the processes that share the log may rely on: while one of them commits, no
operation is in progress and none starts; what an operation logged is on disk when the
next commit finishes; and nobody waits for a commit that will not come.
-/

namespace Xv6.Log

open Function

variable {P : Type} [DecidableEq P]

/-! ### The run of one commit -/

/-- A commit that began in `s`, when `log.committing` was clear, is still in progress. -/
inductive CommitSince (g : Geometry) (s : State P) : State P → Prop where
  | start {a : Action P} {u : State P} (quiet : s.committing = false)
      (move : step g s a = .ok u) (busy : u.committing = true) : CommitSince g s u
  | next {a : Action P} {u v : State P} (since : CommitSince g s u) (move : step g u a = .ok v)
      (alive : a ≠ .crash) (busy : v.committing = true) : CommitSince g s v

/-- A commit that began in `s` has just finished in `t`. -/
def CommitRun (g : Geometry) (s t : State P) : Prop :=
  ∃ u a, CommitSince g s u ∧ step g u a = .ok t ∧ a ≠ .crash ∧ t.committing = false

variable {g : Geometry} {s t u v : State P} {a : Action P}

theorem CommitSince.committing (h : CommitSince g s u) : u.committing = true := by
  cases h with
  | start quiet move busy => exact busy
  | next since move alive busy => exact busy

/-- The section that sets `log.committing` changes no block. -/
private theorem bread_start (hq : s.committing = false) (hs : step g s a = .ok u)
    (hb : u.committing = true) (b : Nat) : bread u b = bread s b := by
  cases stepTo_of_step hs with
  | endCommit p op up pc quiet last full => rfl
  | syncCommit p seen up pc quiet none => rfl
  | commit p stage seen up pc =>
    cases stage with
    | done => cases hb
    | _ => simp [commitStep, State.goto, writeLogRound, installRound, putHead, hq] at hb
  | crash => cases hb
  | recover t hr => simp [(recoverKeeps_of_step hr).committing, hq] at hb
  | _ => simp [State.goto, admitted, logged, ended, wakeup, hq] at hb

/-- A process enters `commit()` only when `log.committing` was clear. -/
private theorem inCommit_of_step {p : P} (hs : step g s a = .ok t) (hc : s.committing = true)
    (hp : (t.procs p).InCommit) : (s.procs p).InCommit := by
  have hgoto : ∀ (v : State P) (q : P) (pc : Pc), ¬pc.InCommit → ((v.goto q pc).procs p).InCommit →
      (v.procs p).InCommit := by
    intro v q pc hpc hin
    by_cases he : p = q
    · subst he
      exact absurd (by simpa [State.goto] using hin) hpc
    · simpa [State.goto, he] using hin
  cases stepTo_of_step hs with
  | beginSleep q up pc full => exact hgoto s q _ id hp
  | beginAdmit q up pc quiet room => simp [hc] at quiet
  | logWrite q op b data up pc home fits area => exact hgoto s q (.inOp _) id hp
  | endCommit q op up pc quiet last full => simp [hc] at quiet
  | endWake q op up pc quiet room => simp [hc] at quiet
  | syncSleep q seen up pc busy => exact hgoto s q _ id hp
  | syncCommit q seen up pc quiet none => simp [hc] at quiet
  | commit q stage seen up pc =>
    by_cases he : p = q
    · subst he
      rw [pc]
      trivial
    · cases stage with
      | done =>
        have hw : ((wakeup s).procs p).InCommit := by
          simpa [commitStep, State.goto, wakeup, he] using hp
        simpa [wakeup] using hw
      | _ => simpa [commitStep, State.goto, writeLogRound, installRound, putHead, he] using hp
  | kill q =>
    by_cases he : p = q
    · subst he
      simpa [State.goto] using hp
    · simpa [State.goto, he] using hp
  | fill b absent => exact hp
  | evict b data clean => exact hp
  | crash => simp [crash, Pc.InCommit] at hp
  | recover t hr => rwa [(recoverKeeps_of_step hr).procs] at hp

section Committing

variable [Fintype P]

omit [DecidableEq P] in
/-- While committing, the system is up. -/
private theorem Good.up (h : Good g s) (hc : s.committing = true) : s.mode = .up := by
  by_contra hm
  obtain ⟨p, hp⟩ := h.protocol.flag.mp hc
  simp [h.protocol.down hm p, Pc.InCommit] at hp

omit [DecidableEq P] in
/-- While committing, nobody is inside an operation. -/
private theorem Good.not_inOp (h : Good g s) (hc : s.committing = true) {p : P} {op : Op} :
    s.procs p ≠ .inOp op := fun hp ↦
  h.protocol.not_inOp (h.protocol.drained hc) p (Pc.inOp_iff.mpr ⟨op, hp⟩)

/-- The writes of `commit()` leave the cached contents of every home block as they were. -/
private theorem bread_commitStep (h : Good g s) {p : P} {stage : Stage} {seen : List Nat}
    (pc : s.procs p = .commit stage seen) (hs : step g s (.commit p) = .ok t)
    (ht : t = commitStep g s p seen stage) {b : Nat} (hb : g.Home b) :
    bread t b = bread s b := by
  have hc : s.committing = true := h.protocol.flag.mpr ⟨p, by rw [pc]; trivial⟩
  have hst := h.contents.stage (h.up hc) p stage seen pc
  cases stage with
  | writeLog tail =>
    have hlt := hst.1.fits.area
    have htail := hst.2
    rw [ht]
    show bread (bwrite s (g.start + tail + 1) _) b = bread s b
    rw [bread_bwrite, if_neg (hb.ne_log (by omega))]
  | writeHead =>
    rw [ht]
    show bread (bwrite s g.start _) b = bread s b
    rw [bread_bwrite, if_neg hb.ne_start]
  | install tail =>
    -- before and after the write, the cached contents are the durable ones
    have hgt := good_step h hs
    have hd : t.hist.durable = s.hist.durable := by rw [ht]; rfl
    have hup : t.mode = .up := by rw [ht]; exact h.up hc
    have hpc : t.procs p = .commit (if tail + 1 < s.lh.length then .install (tail + 1) else .clear)
        seen := by
      rw [ht]
      simp [commitStep, State.goto]
    have hst' := hgt.contents.stage hup p _ seen hpc
    have hdur : bread t b = t.hist.durable b := by
      split at hst'
      · exact hst'.1.durable b hb
      · exact hst'.1.durable b hb
    rw [hdur, hd, hst.1.durable b hb]
  | clear =>
    rw [ht]
    show bread (bwrite { s with lh := [] } g.start _) b = bread s b
    rw [bread_bwrite, if_neg hb.ne_start]
    rfl
  | done =>
    rw [ht]
    rfl

/-- While a commit is in progress, no step changes the cached contents of a home block. -/
private theorem bread_committing (h : Good g s) (hc : s.committing = true)
    (hs : step g s a = .ok t) (ha : a ≠ .crash) {b : Nat} (hb : g.Home b) :
    bread t b = bread s b := by
  cases stepTo_of_step hs with
  | beginAdmit p up pc quiet room => simp [hc] at quiet
  | logWrite p op b data up pc home fits area => exact absurd pc (h.not_inOp hc)
  | endCommit p op up pc quiet last full => simp [hc] at quiet
  | endWake p op up pc quiet room => simp [hc] at quiet
  | syncCommit p seen up pc quiet none => simp [hc] at quiet
  | commit p stage seen up pc => exact bread_commitStep h pc hs rfl hb
  | fill c absent =>
    by_cases he : b = c
    · subst he
      simp [bread, absent]
    · simp [bread, he]
  | evict c data clean =>
    have hclean : bread s c = s.disk c := by
      refine h.contents.clean h.protocol ?_
      rintro ⟨buf, hbuf, hd⟩
      rw [clean] at hbuf
      cases hbuf
      cases hd
    by_cases he : b = c
    · subst he
      rw [hclean]
      simp [bread]
    · simp [bread, he]
  | crash => exact absurd rfl ha
  | recover t hr => simp [h.up hc, recoverStep] at hr
  | _ => rfl

/-- The invariants hold while a commit is in progress, and the cached contents of the home
blocks are those it began with. -/
private theorem CommitSince.good (h : CommitSince g s u) (hg : Good g s) :
    Good g u ∧ ∀ b, g.Home b → bread u b = bread s b := by
  induction h with
  | start quiet move busy =>
    exact ⟨good_step hg move, fun b _ ↦ bread_start quiet move busy b⟩
  | next since move alive busy ih =>
    obtain ⟨hu, hb⟩ := ih
    refine ⟨good_step hu move, fun b hh ↦ ?_⟩
    rw [bread_committing hu since.committing move alive hh, hb b hh]

/-- A commit that finishes leaves on every home block the contents cached when it began. -/
theorem CommitRun.disk_eq (h : CommitRun g s t) (hg : Good g s) {b : Nat} (hb : g.Home b) :
    t.disk b = bread s b := by
  obtain ⟨u, a, hsince, hs, ha, ht⟩ := h
  obtain ⟨hu, hbread⟩ := hsince.good hg
  have hgt := good_step hu hs
  have hup := hu.up hsince.committing
  have hnil : t.lh = [] ∧ t.mode = .up := by
    cases stepTo_of_step hs with
    | commit p stage seen up pc =>
      cases stage with
      | done => exact ⟨hu.protocol.cleared p seen pc, up⟩
      | _ => simp [commitStep, State.goto, writeLogRound, installRound, putHead,
          hsince.committing] at ht
    | beginAdmit p up pc quiet room => simp [hsince.committing] at quiet
    | endWake p op up pc quiet room => simp [hsince.committing] at quiet
    | crash => exact absurd rfl ha
    | recover t hr => simp [hup, recoverStep] at hr
    | _ => simp [State.goto, logged, enterCommit, hsince.committing] at ht
  have hlog := (hgt.contents.quiet hnil.2 ht).1
  have hclean : ¬Dirty t b := fun hdirty ↦ by
    have hmem := hlog.cacheOk.pinned b hdirty
    simp [hnil.1] at hmem
  rw [← hlog.cacheOk.clean b hclean, bread_committing hu hsince.committing hs ha hb, hbread b hb]

/-- A process that was not committing in `s` and is in `u` began its commit in between. -/
private theorem commitSince_of_exec (hg : Good g s) {as : List (Action P)} {p : P}
    (hs : Lib.exec (step g) s as = .ok u) (ha : .crash ∉ as) (hp : ¬(s.procs p).InCommit)
    (hu : (u.procs p).InCommit) :
    ∃ v, Lib.Reaches (step g) s v ∧ CommitSince g v u := by
  induction as using List.reverseRecOn generalizing u with
  | nil =>
    cases hs
    exact absurd hu hp
  | append_singleton as a ih =>
    obtain ⟨w, hw, hlast⟩ := Lib.exec_append_eq_ok.mp hs
    obtain ⟨u', hmove, hnil⟩ := Lib.exec_cons_eq_ok.mp hlast
    cases hnil
    have hgw : Good g w := good_exec hg hw
    have hgu := good_step hgw hmove
    have hbusy : u.committing = true := hgu.protocol.flag.mpr ⟨p, hu⟩
    have hna : a ≠ .crash := fun he ↦ ha (by simp [he])
    by_cases hc : w.committing = true
    · obtain ⟨v, hv, hsince⟩ := ih hw (fun hm ↦ ha (by simp [hm])) (inCommit_of_step hmove hc hu)
      exact ⟨v, hv, hsince.next hmove hna hbusy⟩
    · exact ⟨w, ⟨as, hw⟩, .start (by simpa using hc) hmove hbusy⟩

end Committing

/-! ### What an operation has logged -/

/-- An operation in progress has logged distinct blocks, all in the header list. -/
def Listed (s : State P) : Prop :=
  ∀ p op, s.procs p = .inOp op → op.blocks.Nodup ∧ op.blocks ⊆ s.lh

omit [DecidableEq P] in
theorem listed_idle (h : ∀ p, s.procs p = .idle) : Listed s := by
  intro p op hp
  rw [h p] at hp
  cases hp

private theorem listed_goto {p : P} {pc : Pc} (h : Listed s) (hpc : ¬pc.InOp) :
    Listed (s.goto p pc) := by
  intro q op hq
  by_cases he : q = p
  · subst he
    exact absurd (Pc.inOp_iff.mpr ⟨op, by simpa [State.goto] using hq⟩) hpc
  · exact h q op (by simpa [State.goto, he] using hq)

private theorem listed_logged {p : P} {op : Op} {b : Nat} {data : Block} (h : Listed s)
    (hp : s.procs p = .inOp op) : Listed (logged s p op b data) := by
  intro q op' hq
  by_cases he : q = p
  · subst he
    simp only [logged, update_self, Pc.inOp.injEq] at hq
    subst hq
    refine ⟨(h q op hp).1.insert, fun c hc ↦ mem_absorb.mpr ?_⟩
    rcases List.mem_insert_iff.mp hc with rfl | hc
    · exact Or.inr rfl
    · exact Or.inl ((h q op hp).2 hc)
  · obtain ⟨hnd, hsub⟩ := h q op' (by simpa [logged, he] using hq)
    exact ⟨hnd, fun c hc ↦ mem_absorb.mpr (Or.inl (hsub hc))⟩

/-- Every step keeps the logged blocks listed: the list only shrinks when nobody is inside an
operation. -/
theorem listed_step [Fintype P] (hg : Good g s) (h : Listed s) (hs : step g s a = .ok t) :
    Listed t := by
  have hgt := good_step hg hs
  cases stepTo_of_step hs with
  | beginSleep p up pc full => exact listed_goto h id
  | beginAdmit p up pc quiet room =>
    intro q op hq
    by_cases he : q = p
    · subst he
      simp only [admitted, update_self, Pc.inOp.injEq] at hq
      subst hq
      simp
    · exact h q op (by simpa [admitted, he] using hq)
  | logWrite p op b data up pc home fits area => exact listed_logged h pc
  | endCommit p op up pc quiet last full => exact listed_goto (s := { s with committing := true }) h id
  | endWake p op up pc quiet room =>
    have hw : Listed (wakeup s) := fun q op' hq ↦ h q op' (Pc.wake_eq_inOp.mp hq)
    exact listed_goto hw id
  | syncSleep p seen up pc busy => exact listed_goto h id
  | syncCommit p seen up pc quiet none => exact listed_goto (s := { s with committing := true }) h id
  | commit p stage seen up pc =>
    intro q op hq
    have hc : s.committing = true := hg.protocol.flag.mpr ⟨p, by rw [pc]; trivial⟩
    by_cases he : q = p
    · subst he
      cases stage <;> simp [commitStep, State.goto] at hq
    · have hno : s.procs q ≠ .inOp op := hg.not_inOp hc
      refine absurd ?_ hno
      cases stage with
      | done =>
        have hw : (wakeup s).procs q = .inOp op := by
          simpa [commitStep, State.goto, wakeup, he] using hq
        exact Pc.wake_eq_inOp.mp hw
      | _ => simpa [commitStep, State.goto, writeLogRound, installRound, putHead, he] using hq
  | kill p =>
    intro q op hq
    by_cases he : q = p
    · subst he
      exact h q op (Pc.wake_eq_inOp.mp (by simpa [State.goto] using hq))
    · exact h q op (by simpa [State.goto, he] using hq)
  | fill b absent => exact h
  | evict b data clean => exact h
  | crash => exact listed_idle fun _ ↦ rfl
  | recover t hr =>
    have hkeep := recoverKeeps_of_step hr
    exact listed_idle fun p ↦ by rw [hkeep.procs, hg.protocol.down hkeep.down p]

/-! ### The main results -/

section Main

variable [Fintype P] {disk : Nat → Block}

/-- The invariants hold in every state that a first boot reaches. -/
theorem good_reaches (hd : readHead (disk g.start) = [])
    (h : Lib.Reaches (step g) (boot disk : State P) s) : Good g s ∧ Listed s :=
  Lib.Reaches.invariant (I := fun v ↦ Good g v ∧ Listed v)
    (fun _ _ _ hi hs ↦ ⟨good_step hi.1 hs, listed_step hi.1 hi.2 hs⟩)
    ⟨good_boot hd, listed_idle fun _ ↦ rfl⟩ h

/-- The panics about the protocol do not happen where the protocol holds. -/
private theorem no_protocol_panic (h : Protocol s) (a : Action P) :
    step g s a ≠ .error (.panic .committing) ∧ step g s a ≠ .error (.panic .outsideTrans) := by
  constructor
  · intro hs
    cases panicAt_of_step hs with
    | committing p op pc busy =>
      have hq := h.not_committing (p := p) (by rw [pc]; trivial)
      simp [hq] at busy
  · intro hs
    cases panicAt_of_step hs with
    | outsideTrans p op b data pc none =>
      have hone := h.one_le (p := p) (by rw [pc]; trivial)
      omega

/-- While `log.committing` is set exactly one process commits, no operation is in progress
and none is admitted or logs a block; the panics about this are unreachable; and each block
an operation logged is on disk, as it was when the commit began, once a commit that starts
with or after its `end_op` finishes, such as the commit of a later `sync`. -/
theorem group_commit (hd : readHead (disk g.start) = [])
    (h : Lib.Reaches (step g) (boot disk : State P) s) :
    (s.committing = true → s.outstanding = 0 ∧ ∃! p, (s.procs p).InCommit) ∧
    (s.committing = true → ∀ p t, (∀ b data, step g s (.logWrite p b data) ≠ .ok t) ∧
      (step g s (.beginOp p) = .ok t → ¬(t.procs p).InOp)) ∧
    (∀ a, step g s a ≠ .error (.panic .committing) ∧
      step g s a ≠ .error (.panic .outsideTrans)) ∧
    (∀ p op s₁, s.procs p = .inOp op → step g s (.endOp p) = .ok s₁ →
      ∀ s₂ t, s₂ = s ∨ Lib.Reaches (step g) s₁ s₂ → CommitRun g s₂ t →
        ∀ b ∈ op.blocks, t.disk b = bread s₂ b) ∧
    (∀ q as u seen t, ¬(s.procs q).InCommit → .crash ∉ as → Lib.exec (step g) s as = .ok u →
      u.procs q = .commit .done seen → step g u (.commit q) = .ok t →
        ∃ s₂, Lib.Reaches (step g) s s₂ ∧ CommitRun g s₂ t) := by
  obtain ⟨hg, hlisted⟩ := good_reaches hd h
  refine ⟨fun hc ↦ ⟨hg.protocol.drained hc, ?_⟩, fun hc p t ↦ ⟨fun b data hs ↦ ?_, fun hs hin ↦ ?_⟩,
    no_protocol_panic hg.protocol, ?_, ?_⟩
  · obtain ⟨p, hp⟩ := hg.protocol.flag.mp hc
    exact ⟨p, hp, fun q hq ↦ hg.protocol.single q p hq hp⟩
  · cases stepTo_of_step hs with
    | logWrite p op b data up pc home fits area => exact hg.not_inOp hc pc
  · cases stepTo_of_step hs with
    | beginSleep p up pc full => simp [State.goto, Pc.InOp] at hin
    | beginAdmit p up pc quiet room => simp [hc] at quiet
  · intro p op s₁ hp hs s₂ t hreach hrun b hb
    have hup : s.mode = .up := by
      by_contra hm
      rw [hg.protocol.down hm p] at hp
      cases hp
    have hquiet := hg.protocol.not_committing (p := p) (by rw [hp]; trivial)
    have hhome := (hg.contents.quiet hup hquiet).1.fits.home b ((hlisted p op hp).2 hb)
    rcases hreach with rfl | hreach
    · exact hrun.disk_eq hg hhome
    · obtain ⟨as, has⟩ := hreach
      exact hrun.disk_eq (good_exec (good_step hg hs) has) hhome
  · intro q as u seen t hq has hs hu hlast
    obtain ⟨v, hv, hsince⟩ := commitSince_of_exec hg hs has hq (by rw [hu]; trivial)
    refine ⟨v, hv, u, .commit q, hsince, hlast, by simp, ?_⟩
    cases stepTo_of_step hlast with
    | commit p stage seen' up pc =>
      rw [hu] at pc
      cases pc
      rfl

/-- Between commits, with no operation in progress, the next operation is admitted and nobody
is asleep on the log without a wakeup. -/
theorem no_stranded_waiter (h : Lib.Reaches (step g) (boot disk : State P) s) (up : s.mode = .up)
    (hc : s.committing = false) (ho : s.outstanding = 0) :
    s.lh.length + MAXOPBLOCKS ≤ LOGSIZE ∧ (∀ p, ¬(s.procs p).Asleep) ∧
      ∀ p, s.procs p = .idle ∨ s.procs p = .beginWait false →
        ∃ t, step g s (.beginOp p) = .ok t ∧ (t.procs p).InOp := by
  have hp : Protocol s := Lib.Reaches.invariant (fun _ _ _ ↦ protocol_step)
    (protocol_idle rfl rfl rfl fun _ ↦ rfl) h
  have hroom := hp.room up hc ho
  refine ⟨hroom, hp.awake hc ho, fun p hpc ↦ ⟨admitted s p, ?_, by simp [admitted, Pc.InOp]⟩⟩
  have hadmit : beginOp s p = admitted s p := by
    unfold beginOp
    have hone : (s.outstanding + 1) * (MAXOPBLOCKS : Int) = MAXOPBLOCKS := by rw [ho]; simp
    rw [if_neg (by simp [hc]), hone, if_neg (by omega)]
    rfl
  rcases hpc with hpc | hpc
  · simp only [step, up, hpc, hadmit]
  · simp only [step, up, hpc, hadmit]

end Main

/-- An operation logs two blocks. -/
def logRun : List (Action (Fin 2)) :=
  [.recover, .recover, .beginOp 0, .logWrite 0 100 (Block.zero.setByte 0 1),
    .logWrite 0 101 (Block.zero.setByte 0 2)]

/-- The operation of `logRun` ends, and another process calls `sync` and returns from it. -/
def syncRun : List (Action (Fin 2)) :=
  [.endOp 0, .sync 1, .commit 1, .commit 1, .commit 1, .commit 1, .commit 1, .commit 1, .commit 1]

/-- With the log of two blocks half written, one process commits and no operation is in progress
or admitted; when `sync` returns, both blocks are on disk as they were when its commit began. -/
theorem group_commit_mkfs :
    ((after (logRun ++ syncRun.take 3)).lh = [100, 101] ∧
      (after (logRun ++ syncRun.take 3)).outstanding = 0 ∧
      (∃! p, ((after (logRun ++ syncRun.take 3)).procs p).InCommit) ∧
      ∀ t, step mkfsGeometry (after (logRun ++ syncRun.take 3)) (.beginOp 0) = .ok t →
        ¬(t.procs 0).InOp) ∧
    ∃ s, Lib.Reaches (step mkfsGeometry) (after (logRun ++ syncRun.take 1)) s ∧
      (after (logRun ++ syncRun)).disk 100 = bread s 100 ∧
      (after (logRun ++ syncRun)).disk 101 = bread s 101 := by
  have hreach : ∀ as, (Lib.exec (step mkfsGeometry) (boot fun _ ↦ Block.zero) as).isOk = true →
      Lib.Reaches (step mkfsGeometry) (boot fun _ ↦ Block.zero) (after as) :=
    fun as h ↦ ⟨as, exec_after as h⟩
  constructor
  · have h := @group_commit (Fin 2) _ mkfsGeometry _ _ (fun _ ↦ Block.zero) readHead_zero
      (hreach (logRun ++ syncRun.take 3) (by decide +kernel))
    have hbusy : (after (logRun ++ syncRun.take 3)).committing = true := by decide +kernel
    exact ⟨by decide +kernel, (h.1 hbusy).1, (h.1 hbusy).2, fun t ↦ (h.2.1 hbusy 0 t).2⟩
  · have hlogged := @group_commit (Fin 2) _ mkfsGeometry _ _ (fun _ ↦ Block.zero) readHead_zero
      (hreach logRun (by decide +kernel))
    have hended := @group_commit (Fin 2) _ mkfsGeometry _ _ (fun _ ↦ Block.zero) readHead_zero
      (hreach (logRun ++ syncRun.take 1) (by decide +kernel))
    have hop : (after logRun).procs 0 = .inOp ⟨0, [101, 100]⟩ := by decide +kernel
    have hend := step_after logRun (.endOp 0) (by decide +kernel)
    have hwait := exec_after_append (logRun ++ syncRun.take 1) ((syncRun.drop 1).take 7)
      (by decide +kernel)
    have hlast := step_after (logRun ++ syncRun.take 8) (.commit 1) (by decide +kernel)
    have hidle : ¬((after (logRun ++ syncRun.take 1)).procs 1).InCommit := by
      have he : (after (logRun ++ syncRun.take 1)).procs 1 = .idle := by decide +kernel
      rw [he]
      exact id
    obtain ⟨s, hs, hrun⟩ := hended.2.2.2.2 1 ((syncRun.drop 1).take 7) _ [0] _ hidle
      (by simp [syncRun]) hwait (by decide +kernel) hlast
    have hdisk := hlogged.2.2.2.1 0 _ _ hop hend s _ (.inr hs) hrun
    exact ⟨s, hs, hdisk 100 (by decide), hdisk 101 (by decide)⟩

/-- An operation is committed by a `sync`, and another process sleeps in `begin_op` meanwhile. -/
def sleepRun : List (Action (Fin 2)) :=
  [.recover, .recover, .beginOp 0, .logWrite 0 100 (Block.zero.setByte 0 1), .endOp 0, .sync 0,
    .beginOp 1, .commit 0, .commit 0, .commit 0, .commit 0, .commit 0]

/-- The process that slept during the commit is awake after it, and is admitted. -/
theorem no_stranded_waiter_mkfs :
    (after (sleepRun.take 7)).procs 1 = .beginWait true ∧
      (∀ p, ¬((after sleepRun).procs p).Asleep) ∧
      ∃ t, step mkfsGeometry (after sleepRun) (.beginOp 1) = .ok t ∧ (t.procs 1).InOp := by
  have hrun := exec_after sleepRun (by decide +kernel)
  have h := @no_stranded_waiter (Fin 2) _ mkfsGeometry _ _ _ ⟨_, hrun⟩ (by decide +kernel)
    (by decide +kernel) (by decide +kernel)
  exact ⟨by decide +kernel, h.2.1, h.2.2 1 (.inr (by decide +kernel))⟩

end Xv6.Log
