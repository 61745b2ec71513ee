import Xv6.Pipe.Stream

/-!
# Sleeping on a pipe

Whoever sleeps on a pipe has a reason to: a reader that it is empty, a writer that it is full.
The one way to leave a reader asleep on a pipe that holds bytes is the `return -1` of a killed
writer, which comes without a `wakeup`.
-/

namespace Xv6.Pipe

open Function

variable {P : Type} [DecidableEq P] {s t : State P} {a : Action P} {p q : P} {pc pc' : Pc}
  {n i : Nat} {addr got : List UInt8}

omit [DecidableEq P] in
private theorem wakeReader_ne (pc : Pc) (n : Nat) : pc.wakeReader ≠ .readWait true n := by
  cases pc <;> exact nofun

omit [DecidableEq P] in
private theorem wakeWriter_ne (pc : Pc) (addr : List UInt8) (i : Nat) :
    pc.wakeWriter ≠ .writeWait true addr i := by
  cases pc <;> exact nofun

theorem Pc.Like.of_readWait (h : pc.Like pc') (hpc : pc = .readWait true n) :
    pc' = .readWait true n := by
  rcases h with rfl | ⟨n, rfl, -⟩ | ⟨addr, i, rfl, -⟩
  · exact hpc
  · cases hpc
  · cases hpc

theorem Pc.Like.of_writeWait (h : pc.Like pc') (hpc : pc = .writeWait true addr i) :
    pc' = .writeWait true addr i := by
  rcases h with rfl | ⟨n, rfl, -⟩ | ⟨addr, i, rfl, -⟩
  · exact hpc
  · cases hpc
  · cases hpc

/-- A place that no wakeup changes. -/
theorem Pc.Like.of_locked (h : pc.Like pc') (hpc : pc'.Locked) : pc = pc' := by
  rcases h with rfl | ⟨n, -, rfl⟩ | ⟨addr, i, -, rfl⟩
  · rfl
  · exact hpc.elim
  · exact hpc.elim

/-- Who sleeps for bytes slept before or has just found the pipe empty. -/
private theorem readWait_before (hs : StepTo s a t) (hq : t.procs q = .readWait true n) :
    s.procs q = .readWait true n ∨ a = .run q ∧ s.procs q = .readSleep n := by
  by_cases he : q = a.actor
  · subst he
    cases hs with
    | readRest p m pc =>
      have hm : Pc.readWait true m = .readWait true n := (update_self ..).symm.trans hq
      cases hm
      exact .inr ⟨rfl, pc⟩
    | close p writable pc free => exact .inl ((pipeclose_like s writable p).of_readWait hq)
    | kill p => exact .inl ((kill_like s p p).of_readWait hq)
    | _ => exact absurd ((update_self ..).symm.trans hq) nofun
  · exact .inl ((others_like hs he).of_readWait hq)

/-- Who sleeps for room slept before or has just found the pipe full. -/
private theorem writeWait_before (hs : StepTo s a t) (hq : t.procs q = .writeWait true addr i) :
    s.procs q = .writeWait true addr i ∨ a = .run q ∧ s.procs q = .writeSleep addr i := by
  by_cases he : q = a.actor
  · subst he
    cases hs with
    | writeRest p addr' i' pc =>
      have hm : Pc.writeWait true addr' i' = .writeWait true addr i :=
        (update_self ..).symm.trans hq
      cases hm
      exact .inr ⟨rfl, pc⟩
    | close p writable pc free => exact .inl ((pipeclose_like s writable p).of_writeWait hq)
    | kill p => exact .inl ((kill_like s p p).of_writeWait hq)
    | _ => exact absurd ((update_self ..).symm.trans hq) nofun
  · exact .inl ((others_like hs he).of_writeWait hq)

/-! ### Nobody is forgotten -/

/-- A sleeper has a reason to sleep, or the holder of the lock is going to wake it; a killed writer
may have left a reader behind. -/
structure Alert (s : State P) : Prop where
  readers : ∀ q n, s.procs q = .readWait true n → s.hist.abandoned = true ∨
    (Empty s ∧ s.writeopen = true) ∨ ∃ r addr i, s.procs r = .write addr i
  writers : ∀ q addr i, s.procs q = .writeWait true addr i →
    (Full s ∧ s.readopen = true) ∨ ∃ r n got, s.procs r = .copy n got

private theorem abandoned_step (hs : StepTo s a t) (h : s.hist.abandoned = true) :
    t.hist.abandoned = true := by
  cases hs with
  | writeFail p addr i pc more full fails =>
    show (s.hist.abandoned || s.readopen) = true
    rw [h]
    rfl
  | close p writable pc free => rwa [pipeclose_hist]
  | _ => exact h

/-- A writer at work still is, has woken the readers, or has left them behind. -/
private theorem readers_of_write {r : P} (hb : Books s) (hs : StepTo s a t)
    (hr : s.procs r = .write addr i) (hq : t.procs q = .readWait true n) :
    t.hist.abandoned = true ∨ ∃ r addr i, t.procs r = .write addr i := by
  by_cases he : r = a.actor
  · subst he
    cases hs with
    | writePut p addr' i' pc more room => exact .inr ⟨p, addr', i' + 1, update_self ..⟩
    | writeBlock p addr' i' pc more full isOpen alive =>
      by_cases hqp : q = p
      · subst hqp
        exact absurd ((update_self ..).symm.trans hq) nofun
      · exact absurd ((update_of_ne hqp ..).symm.trans hq) (wakeReader_ne _ n)
    | writeDone p addr' i' pc all =>
      by_cases hqp : q = p
      · subst hqp
        exact absurd ((update_self ..).symm.trans hq) nofun
      · exact absurd ((update_of_ne hqp ..).symm.trans hq) (wakeReader_ne _ n)
    | writeFail p addr' i' pc more full fails =>
      -- if the read end is closed, nobody sleeps on it
      left
      have hold : s.procs q = .readWait true n := by
        by_cases hqp : q = p
        · subst hqp
          exact absurd ((update_self ..).symm.trans hq) nofun
        · exact (update_of_ne hqp ..).symm.trans hq
      show (s.hist.abandoned || s.readopen) = true
      rw [hb.reading q (hold ▸ trivial), Bool.or_true]
    | kill p =>
      have hwake : (s.procs p).wakeReader.wakeWriter = .write addr i := by
        rw [show s.procs p = .write addr i from hr]
        rfl
      exact .inr ⟨p, addr, i, (update_self ..).trans hwake⟩
    | _ => simp_all only [Action.actor, reduceCtorEq]
  · have hlocked : (s.procs r).Locked := by
      rw [hr]
      trivial
    exact .inr ⟨r, addr, i, ((others_like hs he).of_locked hlocked).trans hr⟩

/-- An empty pipe stays empty, or a writer is at work, as long as the reader sleeps. -/
private theorem readers_of_empty (hs : StepTo s a t) (hempty : Empty s)
    (hopen : s.writeopen = true) (hq : t.procs q = .readWait true n) :
    (Empty t ∧ t.writeopen = true) ∨ ∃ r addr i, t.procs r = .write addr i := by
  cases hs with
  | writePut p addr i pc more room => exact .inr ⟨p, addr, i + 1, update_self ..⟩
  | copyTake p n got pc more some' => exact absurd hempty some'
  | close p writable pc free =>
    cases writable with
    | false => exact .inl ⟨hempty, hopen⟩
    | true => exact absurd hq (wakeReader_ne _ n)
  | _ => exact .inl ⟨hempty, hopen⟩

private theorem readers_step (hb : Books s) (h : Alert s) (hs : StepTo s a t)
    (hq : t.procs q = .readWait true n) : t.hist.abandoned = true ∨
      (Empty t ∧ t.writeopen = true) ∨ ∃ r addr i, t.procs r = .write addr i := by
  rcases readWait_before hs hq with hold | ⟨rfl, hold⟩
  · rcases h.readers q n hold with hab | ⟨hempty, hopen⟩ | ⟨r, addr, i, hr⟩
    · exact .inl (abandoned_step hs hab)
    · exact .inr (readers_of_empty hs hempty hopen hq)
    · exact (readers_of_write hb hs hr hq).imp_right Or.inr
  · have hsees := hb.sees q
    rw [hold] at hsees
    exact .inr (readers_of_empty hs hsees.1 hsees.2 hq)

/-- A reader at work still is, or has woken the writers. -/
private theorem writers_of_copy {r : P} (hs : StepTo s a t) (hr : s.procs r = .copy n got)
    (hq : t.procs q = .writeWait true addr i) : ∃ r n got, t.procs r = .copy n got := by
  by_cases he : r = a.actor
  · subst he
    cases hs with
    | copyTake p n' got' pc more some' => exact ⟨p, n', _, update_self ..⟩
    | copyDone p n' got' pc stop =>
      by_cases hqp : q = p
      · subst hqp
        exact absurd ((update_self ..).symm.trans hq) nofun
      · exact absurd ((update_of_ne hqp ..).symm.trans hq) (wakeWriter_ne _ addr i)
    | kill p =>
      have hwake : (s.procs p).wakeReader.wakeWriter = .copy n got := by
        rw [show s.procs p = .copy n got from hr]
        rfl
      exact ⟨p, n, got, (update_self ..).trans hwake⟩
    | _ => simp_all only [Action.actor, reduceCtorEq]
  · have hlocked : (s.procs r).Locked := by
      rw [hr]
      trivial
    exact ⟨r, n, got, ((others_like hs he).of_locked hlocked).trans hr⟩

/-- A full pipe stays full, or a reader is at work, as long as the writer sleeps. -/
private theorem writers_of_full (hs : StepTo s a t) (hfull : Full s) (hopen : s.readopen = true)
    (hq : t.procs q = .writeWait true addr i) :
    (Full t ∧ t.readopen = true) ∨ ∃ r n got, t.procs r = .copy n got := by
  cases hs with
  | writePut p addr i pc more room => exact absurd hfull room
  | copyTake p n got pc more some' => exact .inr ⟨p, n, _, update_self ..⟩
  | close p writable pc free =>
    cases writable with
    | false => exact absurd hq (wakeWriter_ne _ addr i)
    | true => exact .inl ⟨hfull, hopen⟩
  | _ => exact .inl ⟨hfull, hopen⟩

private theorem writers_step (hb : Books s) (h : Alert s) (hs : StepTo s a t)
    (hq : t.procs q = .writeWait true addr i) :
    (Full t ∧ t.readopen = true) ∨ ∃ r n got, t.procs r = .copy n got := by
  rcases writeWait_before hs hq with hold | ⟨rfl, hold⟩
  · rcases h.writers q addr i hold with ⟨hfull, hopen⟩ | ⟨r, n, got, hr⟩
    · exact writers_of_full hs hfull hopen hq
    · exact .inr (writers_of_copy hs hr hq)
  · have hsees := hb.sees q
    rw [hold] at hsees
    exact writers_of_full hs hsees.1 hsees.2 hq

theorem alert_of_reaches {data : Nat → UInt8} {killed : P → Bool}
    (h : Lib.ReachesVia step Allowed (pipealloc data killed) s) : Alert s := by
  have hinv : Books s ∧ Alert s := by
    apply h.invariant
    · intro s a t ⟨hb, hal⟩ ha hstep
      have hs := stepTo_of_step hstep
      exact ⟨books_step hb ha hs, ⟨fun _ _ ↦ readers_step hb hal hs,
        fun _ _ _ ↦ writers_step hb hal hs⟩⟩
    · exact ⟨books_of_reaches ⟨[], trivial, rfl⟩, ⟨fun _ _ ↦ nofun, fun _ _ _ ↦ nofun⟩⟩
  exact hinv.2

omit [DecidableEq P] in
private theorem not_locked_of_free (h : Exclusive s) (hfree : s.lock = none) (p : P) :
    ¬(s.procs p).Locked := by
  intro hp
  have hlock := (h p).mp hp
  rw [hfree] at hlock
  cases hlock

/-- No wakeup is lost among processes without threads. Between two critical sections, a reader
sleeps on an empty pipe whose write end is open, or a killed writer has returned from a full pipe;
a writer sleeps on a full pipe whose read end is open. So without such a kill no reader and writer
ever sleep at once. -/
theorem sleepers_have_reason {data : Nat → UInt8} {killed : P → Bool}
    (h : Lib.ReachesVia step Allowed (pipealloc data killed) s) (hfree : s.lock = none) :
    (∀ p n, s.procs p = .readWait true n → s.hist.abandoned = true ∨
        s.hist.put.length = s.hist.taken.length ∧ s.writeopen = true) ∧
      (∀ p addr i, s.procs p = .writeWait true addr i →
        s.hist.put.length = s.hist.taken.length + PIPESIZE ∧ s.readopen = true) ∧
      (s.hist.abandoned = false → ∀ p q n addr i, s.procs p = .readWait true n →
        s.procs q ≠ .writeWait true addr i) := by
  have hb := books_of_reaches h
  have hal := alert_of_reaches h
  have nobody := not_locked_of_free hb.exclusive hfree
  have readers : ∀ p n, s.procs p = .readWait true n → s.hist.abandoned = true ∨
      s.hist.put.length = s.hist.taken.length ∧ s.writeopen = true := by
    intro p n hp
    rcases hal.readers p n hp with hab | ⟨hempty, hopen⟩ | ⟨r, addr, i, hr⟩
    · exact .inl hab
    · exact .inr ⟨hb.empty_iff.mp hempty, hopen⟩
    · exact absurd (hr ▸ trivial) (nobody r)
  have writers : ∀ p addr i, s.procs p = .writeWait true addr i →
      s.hist.put.length = s.hist.taken.length + PIPESIZE ∧ s.readopen = true := by
    intro p addr i hp
    rcases hal.writers p addr i hp with ⟨hfull, hopen⟩ | ⟨r, n, got, hr⟩
    · exact ⟨hb.full_iff.mp hfull, hopen⟩
    · exact absurd (hr ▸ trivial) (nobody r)
  refine ⟨readers, writers, ?_⟩
  intro hab p q n addr i hp hq
  obtain ⟨hfull, -⟩ := writers q addr i hq
  rcases readers p n hp with habandoned | ⟨hempty, -⟩
  · exact Bool.false_ne_true (hab.symm.trans habandoned)
  · have hsize : PIPESIZE = 0 := by omega
    exact absurd hsize (by decide)

/-! ### What the calls return -/

/-- What a call that returns has done, among processes without threads. A write returns its length
when all its bytes are in the stream, and -1 when the process is killed or the read end closed; a
read returns the last bytes taken, fewer than asked only if the pipe is empty then, none at all only
if also the write end is closed or none were asked for, and -1 only when the process is killed. -/
theorem calls_return {data : Nat → UInt8} {killed : P → Bool}
    (h : Lib.ReachesVia step Allowed (pipealloc data killed) s)
    (hstep : step s (.run p) = .ok t) (hidle : t.procs p = .idle) :
    (∃ addr i, s.procs p = .write addr i ∧
        (t.hist.ret p = some addr ∧ bytesOf t.hist.put p = s.hist.sent p ++ addr ∨
          t.hist.ret p = none ∧ (s.readopen = false ∨ s.killed p = true))) ∨
      (∃ n got, s.procs p = .copy n got ∧ t.hist.ret p = some got ∧ got <:+ t.hist.taken ∧
        got.length ≤ n ∧ (got.length < n → s.hist.put.length = s.hist.taken.length) ∧
        (got = [] → n = 0 ∨ s.writeopen = false)) ∨
      (∃ n, s.procs p = .read n ∧ t.hist.ret p = none ∧ s.killed p = true) := by
  have hb := books_of_reaches h
  have hs := stepTo_of_step hstep
  cases hs with
  | writeFail p addr i pc more full fails =>
    exact .inl ⟨addr, i, pc, .inr ⟨update_self .., fails⟩⟩
  | writeDone p addr i pc all =>
    have hsent := hb.sends p
    rw [pc] at hsent
    have htake : (Pc.write addr i).written = addr := List.take_of_length_le all
    rw [htake] at hsent
    exact .inl ⟨addr, i, pc, .inl ⟨update_self .., hsent⟩⟩
  | readFail p n pc empty isOpen dead => exact .inr (.inr ⟨n, pc, update_self .., dead⟩)
  | copyDone p n got pc stop =>
    have hsees := hb.sees p
    rw [pc] at hsees
    obtain ⟨hsuffix, hlen, hsome⟩ := hsees
    refine .inr (.inl ⟨n, got, pc, update_self .., hsuffix, hlen, ?_, ?_⟩)
    · intro hlt
      exact hb.empty_iff.mp (by_contra fun hne ↦ stop ⟨hlt, hne⟩)
    · intro hnil
      by_cases hn : n = 0
      · exact .inl hn
      · right
        have hempty : Empty s := by
          by_contra hne
          apply stop
          rw [hnil]
          exact ⟨Nat.pos_of_ne_zero hn, hne⟩
        exact Bool.eq_false_of_not_eq_true fun hopen ↦ hsome hnil ⟨hempty, hopen⟩
  | _ => exact absurd ((update_self ..).symm.trans hidle) nofun

/-- A reader finds the pipe empty and sleeps. -/
def sleepsFirst : List (Action (Fin 2)) := [.piperead 1 5, .run 1, .run 1]

theorem sleepers_have_reason_sleepsFirst :
    let s := Lib.final step (pipealloc (fun _ ↦ 0) fun _ ↦ false) sleepsFirst
    s.procs 1 = .readWait true 5 ∧
      (s.hist.abandoned = true ∨
        s.hist.put.length = s.hist.taken.length ∧ s.writeopen = true) := by
  have hok : (Lib.exec step (pipealloc (fun _ ↦ 0) fun _ ↦ false) sleepsFirst).isOk = true := by
    decide
  have hc : Lib.Along step Allowed (pipealloc (fun _ ↦ 0) fun _ ↦ false) sleepsFirst := by decide
  have hp : (Lib.final step (pipealloc (fun _ ↦ 0) fun _ ↦ false) sleepsFirst).procs 1 =
      .readWait true 5 := by decide
  exact ⟨hp, (sleepers_have_reason ⟨sleepsFirst, hc, Lib.exec_final hok⟩ (by decide)).1 1 5 hp⟩

/-- A process writes a byte and reads it back; the next step returns it. -/
def writesAndReads : List (Action (Fin 1)) :=
  [.pipewrite 0 [7], .run 0, .run 0, .piperead 0 1, .run 0, .run 0]

theorem calls_return_writesAndReads :
    let s := Lib.final step (pipealloc (fun _ ↦ 0) fun _ ↦ false) writesAndReads
    (copyRound s 0 1 [7]).hist.ret 0 = some [7] ∧ [7] <:+ (copyRound s 0 1 [7]).hist.taken := by
  have hok : (Lib.exec step (pipealloc (fun _ ↦ 0) fun _ ↦ false) writesAndReads).isOk = true := by
    decide
  have hc : Lib.Along step Allowed (pipealloc (fun _ ↦ 0) fun _ ↦ false) writesAndReads := by
    decide
  have hpc : (Lib.final step (pipealloc (fun _ ↦ 0) fun _ ↦ false) writesAndReads).procs 0 =
      .copy 1 [7] := by decide
  have hstep : step (Lib.final step (pipealloc (fun _ ↦ 0) fun _ ↦ false) writesAndReads) (.run 0) =
      .ok (copyRound (Lib.final step (pipealloc (fun _ ↦ 0) fun _ ↦ false) writesAndReads)
        0 1 [7]) := by
    simp only [step, hpc]
  have hidle : (copyRound (Lib.final step (pipealloc (fun _ ↦ 0) fun _ ↦ false) writesAndReads)
      0 1 [7]).procs 0 = .idle := by decide
  rcases calls_return ⟨writesAndReads, hc, Lib.exec_final hok⟩ hstep hidle with
    ⟨addr, i, hp, -⟩ | ⟨n, got, hp, hret, hsuffix, -⟩ | ⟨n, hp, -⟩
  · cases hpc.symm.trans hp
  · cases hpc.symm.trans hp
    exact ⟨hret, hsuffix⟩
  · cases hpc.symm.trans hp

end Xv6.Pipe
