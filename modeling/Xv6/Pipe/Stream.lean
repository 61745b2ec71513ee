import Xv6.Pipe.Steps

/-!
# The stream of a pipe

What is read from a pipe is what was written to it, in the order in which it was put there, in
any interleaving and with counters that wrap. Each writer's bytes stay in order, each read takes
consecutive bytes, and the pipe is freed once.
-/

namespace Xv6.Pipe

open Function

variable {P : Type} [DecidableEq P] {s t : State P} {a : Action P} {p : P}

/-- The counters are the lengths of the two streams, and the pipe holds the bytes between them. -/
structure Flow (s : State P) : Prop where
  nread : s.nread = UInt32.ofNat s.hist.taken.length
  nwrite : s.nwrite = UInt32.ofNat s.hist.put.length
  taken_le : s.hist.taken.length ≤ s.hist.put.length
  fits : s.hist.put.length ≤ s.hist.taken.length + PIPESIZE
  stream : s.hist.put.map Prod.snd = s.hist.taken ++
    Lib.window PIPESIZE s.data s.hist.taken.length s.hist.put.length

namespace Flow

omit [DecidableEq P]

variable (h : Flow s)

include h

private theorem near : s.hist.put.length < s.hist.taken.length + 2 ^ 32 :=
  lt_of_le_of_lt h.fits (Nat.add_lt_add_left (by decide) _)

theorem full_iff : Full s ↔ s.hist.put.length = s.hist.taken.length + PIPESIZE := by
  unfold Full
  rw [h.nread, h.nwrite]
  exact Lib.ofNat_eq_add_iff h.taken_le h.fits (by decide)

theorem empty_iff : Empty s ↔ s.hist.put.length = s.hist.taken.length := by
  unfold Empty
  rw [h.nread, h.nwrite, eq_comm]
  exact Lib.ofNat_eq_iff h.taken_le h.near

/-- The counters do not tell the streams apart from ones that never wrap. -/
theorem count : (s.nwrite - s.nread).toNat = s.hist.put.length - s.hist.taken.length := by
  rw [h.nread, h.nwrite]
  exact Lib.toNat_ofNat_sub h.taken_le h.near

private theorem put (hroom : ¬Full s) (p : P) (b : UInt8) : Flow (put s p b) := by
  have hlen : (s.hist.put ++ [(p, b)]).length = s.hist.put.length + 1 := by simp
  have hroom : s.hist.put.length < s.hist.taken.length + PIPESIZE := by
    have hfits := h.fits
    have hne := mt h.full_iff.mpr hroom
    omega
  have hplace : (s.nwrite % UInt32.ofNat PIPESIZE).toNat = s.hist.put.length % PIPESIZE := by
    rw [h.nwrite]
    exact Lib.toNat_ofNat_mod (by decide) (by decide) _
  constructor
  · exact h.nread
  · show s.nwrite + 1 = UInt32.ofNat (s.hist.put ++ [(p, b)]).length
    rw [hlen, h.nwrite]
    exact Lib.ofNat_succ _
  · show s.hist.taken.length ≤ (s.hist.put ++ [(p, b)]).length
    have hle := h.taken_le
    omega
  · show (s.hist.put ++ [(p, b)]).length ≤ s.hist.taken.length + PIPESIZE
    omega
  · show (s.hist.put ++ [(p, b)]).map Prod.snd = s.hist.taken ++ Lib.window PIPESIZE
      (update s.data (s.nwrite % UInt32.ofNat PIPESIZE).toNat b) s.hist.taken.length
      (s.hist.put ++ [(p, b)]).length
    rw [hlen, hplace, Lib.window_push h.taken_le hroom, List.map_append, h.stream,
      List.append_assoc]
    rfl

private theorem take (hsome : ¬Empty s) : Flow (take s).1 := by
  have hlt : s.hist.taken.length < s.hist.put.length := by
    have hle := h.taken_le
    have hne := mt h.empty_iff.mpr hsome
    omega
  have hplace : (s.nread % UInt32.ofNat PIPESIZE).toNat = s.hist.taken.length % PIPESIZE := by
    rw [h.nread]
    exact Lib.toNat_ofNat_mod (by decide) (by decide) _
  have hlen : ∀ b, (s.hist.taken ++ [b]).length = s.hist.taken.length + 1 := fun b ↦ by simp
  constructor
  · show s.nread + 1 = UInt32.ofNat (s.hist.taken ++ [_]).length
    rw [hlen, h.nread]
    exact Lib.ofNat_succ _
  · exact h.nwrite
  · show (s.hist.taken ++ [_]).length ≤ s.hist.put.length
    rw [hlen]
    exact hlt
  · show s.hist.put.length ≤ (s.hist.taken ++ [_]).length + PIPESIZE
    have hfits := h.fits
    rw [hlen]
    omega
  · show s.hist.put.map Prod.snd = s.hist.taken ++ [s.data (s.nread % _).toNat] ++
      Lib.window PIPESIZE s.data (s.hist.taken ++ [_]).length s.hist.put.length
    rw [hlen, hplace, h.stream, Lib.window_pop hlt, List.append_assoc]
    rfl

end Flow

private theorem flow_step (h : Flow s) (hs : StepTo s a t) : Flow t := by
  cases hs with
  | writePut p addr i pc more room =>
    have hput := h.put room p addr[i]
    exact ⟨hput.nread, hput.nwrite, hput.taken_le, hput.fits, hput.stream⟩
  | copyTake p n got pc more some' =>
    have htake := h.take some'
    exact ⟨htake.nread, htake.nwrite, htake.taken_le, htake.fits, htake.stream⟩
  | close p writable pc free =>
    cases writable <;> exact ⟨h.nread, h.nwrite, h.taken_le, h.fits, h.stream⟩
  | _ => exact ⟨h.nread, h.nwrite, h.taken_le, h.fits, h.stream⟩

/-- The bytes that a process has put into the pipe. -/
def bytesOf (put : List (P × UInt8)) (p : P) : List UInt8 :=
  (put.filter fun x ↦ x.1 = p).map Prod.snd

private theorem bytesOf_append_self (put : List (P × UInt8)) (p : P) (b : UInt8) :
    bytesOf (put ++ [(p, b)]) p = bytesOf put p ++ [b] := by
  simp [bytesOf]

private theorem bytesOf_append_other {put : List (P × UInt8)} {p q : P} (hq : q ≠ p) (b : UInt8) :
    bytesOf (put ++ [(p, b)]) q = bytesOf put q := by
  simp [bytesOf, hq.symm]

/-- Each writer's bytes are in the pipe in its own order, up to the byte it is at. -/
def Sends (s : State P) : Prop :=
  ∀ p, bytesOf s.hist.put p = s.hist.sent p ++ (s.procs p).written

private theorem Sends.others (h : Sends s) (hs : StepTo s a t) {q : P} (hq : q ≠ a.actor)
    (hput : bytesOf t.hist.put q = bytesOf s.hist.put q) (hsent : t.hist.sent q = s.hist.sent q) :
    bytesOf t.hist.put q = t.hist.sent q ++ (t.procs q).written := by
  rw [hput, hsent, (others_like hs hq).written]
  exact h q

private theorem Sends.self (h : Sends s) {pc pc' : Pc} (hp : s.procs p = pc) (hp' : t.procs p = pc')
    (hput : t.hist.put = s.hist.put)
    (hsent : s.hist.sent p ++ pc.written = t.hist.sent p ++ pc'.written) :
    bytesOf t.hist.put p = t.hist.sent p ++ (t.procs p).written := by
  rw [hput, hp', ← hsent, ← hp]
  exact h p

private theorem sends_step (h : Sends s) (hs : StepTo s a t) : Sends t := by
  intro q
  by_cases hq : q = a.actor
  · subst hq
    cases hs with
    | close p writable pc free =>
      rw [(pipeclose_like s writable _).written, pipeclose_hist]
      exact h _
    | kill p =>
      have hlike := (kill_like s p p).written
      exact h.self rfl rfl rfl (congrArg _ hlike.symm)
    | writePut p addr i pc more room =>
      have hp := h p
      rw [pc] at hp
      show bytesOf (s.hist.put ++ [(p, addr[i])]) p = s.hist.sent p ++
        (update s.procs p (.write addr (i + 1)) p).written
      rw [bytesOf_append_self, hp, update_self, List.append_assoc]
      congr 1
      exact List.take_concat_get' addr i more
    | writeFail p addr i pc more full fails =>
      have hsent : (abandon s p addr i).hist.sent p = s.hist.sent p ++ addr.take i :=
        update_self ..
      refine h.self pc (update_self ..) rfl ?_
      show s.hist.sent p ++ addr.take i = (abandon s p addr i).hist.sent p ++ []
      rw [hsent, List.append_nil]
    | writeDone p addr i pc all =>
      have hsent : (sentBy (wakeReaders s) p addr).hist.sent p = s.hist.sent p ++ addr :=
        update_self ..
      refine h.self pc (update_self ..) rfl ?_
      show s.hist.sent p ++ addr.take i = (sentBy (wakeReaders s) p addr).hist.sent p ++ []
      rw [hsent, List.append_nil, List.take_of_length_le all]
    | writeStart p addr pc free => exact h.self pc (update_self ..) rfl rfl
    | readStart p n pc free => exact h.self pc (update_self ..) rfl rfl
    | writeBlock p addr i pc more full isOpen alive => exact h.self pc (update_self ..) rfl rfl
    | writeRest p addr i pc => exact h.self pc (update_self ..) rfl rfl
    | writeResume p addr i pc free => exact h.self pc (update_self ..) rfl rfl
    | readFail p n pc empty isOpen dead => exact h.self pc (update_self ..) rfl rfl
    | readBlock p n pc empty isOpen alive => exact h.self pc (update_self ..) rfl rfl
    | readCopy p n pc ready => exact h.self pc (update_self ..) rfl rfl
    | readRest p n pc => exact h.self pc (update_self ..) rfl rfl
    | readResume p n pc free => exact h.self pc (update_self ..) rfl rfl
    | copyTake p n got pc more some' => exact h.self pc (update_self ..) rfl rfl
    | copyDone p n got pc stop => exact h.self pc (update_self ..) rfl rfl
  · apply h.others hs hq
    · cases hs with
      | writePut p addr i pc more room => exact bytesOf_append_other hq _
      | close p writable pc free => rw [pipeclose_hist]
      | _ => rfl
    · cases hs with
      | writeFail p addr i pc more full fails => exact update_of_ne hq ..
      | writeDone p addr i pc all => exact update_of_ne hq ..
      | close p writable pc free => rw [pipeclose_hist]
      | _ => rfl

/-- What the holder of the lock has found out: a reader has taken consecutive bytes, and at least
one if there was one; who is about to sleep has a reason to. -/
def Sees (s : State P) : Pc → Prop
  | .copy n got => got <:+ s.hist.taken ∧ got.length ≤ n ∧
    (got = [] → ¬(Empty s ∧ s.writeopen = true))
  | .readSleep _ => Empty s ∧ s.writeopen = true
  | .writeSleep _ _ => Full s ∧ s.readopen = true
  | _ => True

omit [DecidableEq P] in
private theorem sees_of_not_locked {pc : Pc} (h : ¬pc.Locked) : Sees s pc := by
  cases pc with
  | copy n got => exact absurd trivial h
  | readSleep n => exact absurd trivial h
  | writeSleep addr i => exact absurd trivial h
  | _ => trivial

private theorem sees_step (hex : Exclusive s) (h : ∀ q, Sees s (s.procs q)) (hs : StepTo s a t)
    (q : P) : Sees t (t.procs q) := by
  by_cases hq : q = a.actor
  · subst hq
    have self : ∀ {p pc}, Sees t pc → Sees t (update s.procs p pc p) := by
      intro p pc hpc
      rwa [update_self]
    cases hs with
    | close p writable pc free =>
      apply sees_of_not_locked
      rw [(pipeclose_like s writable _).locked]
      show ¬(s.procs p).Locked
      rw [pc]
      exact id
    | kill p =>
      have hp := h p
      show Sees _ (update s.procs p (s.procs p).wakeReader.wakeWriter p)
      rw [update_self]
      cases hpc : s.procs p <;> rw [hpc] at hp <;> exact hp
    | writeBlock p addr i pc more full isOpen alive =>
      show Sees _ (update (wakeReaders s).procs p (.writeSleep addr i) p)
      rw [update_self]
      exact ⟨full, isOpen⟩
    | readBlock p n pc empty isOpen alive => exact self ⟨empty, isOpen⟩
    | readCopy p n pc ready =>
      exact self ⟨List.nil_suffix, Nat.zero_le n, fun _ ↦ ready⟩
    | copyTake p n got pc more some' =>
      have hp := h p
      rw [pc] at hp
      obtain ⟨⟨l, hl⟩, -, -⟩ := hp
      apply self
      refine ⟨⟨l, ?_⟩, ?_, fun he ↦ ?_⟩
      · show l ++ (got ++ [_]) = s.hist.taken ++ [_]
        rw [← List.append_assoc, hl]
        rfl
      · rw [List.length_append]
        exact more
      · exact absurd (congrArg List.length he) (by simp)
    | writeDone p addr i pc all =>
      show Sees _ (update (wakeReaders s).procs p .idle p)
      rw [update_self]
      trivial
    | copyDone p n got pc stop =>
      show Sees _ (update (wakeWriters s).procs p .idle p)
      rw [update_self]
      trivial
    | _ => exact self trivial
  · by_cases hlocked : (s.procs q).Locked
    · -- the lock is held elsewhere, so nothing the holder has seen changes
      have hkill := hex.holder hs hlocked hq
      rw [hkill] at hs
      cases hs with
      | kill p =>
        have hq' := h q
        show Sees _ (update s.procs _ _ q)
        rw [update_of_ne hq]
        cases hpc : s.procs q <;> rw [hpc] at hq' <;> exact hq'
    · apply sees_of_not_locked
      rwa [(others_like hs hq).locked]

/-! ### The two ends -/

/-- A call is on an open end, and the page of the pipe is freed when both are closed. -/
structure Ends (s : State P) : Prop where
  writing : ∀ p, (s.procs p).Writing → s.writeopen = true
  reading : ∀ p, (s.procs p).Reading → s.readopen = true
  frees : s.frees = if s.readopen = false ∧ s.writeopen = false then 1 else 0

private theorem Ends.of_same (h : Ends s)
    (hothers : ∀ q, q ≠ p → (t.procs q).Like (s.procs q)) (hr : t.readopen = s.readopen)
    (hw : t.writeopen = s.writeopen) (hf : t.frees = s.frees)
    (hwrites : (t.procs p).Writing → s.writeopen = true)
    (hreads : (t.procs p).Reading → s.readopen = true) : Ends t := by
  constructor
  · intro q hq
    rw [hw]
    by_cases he : q = p
    · exact hwrites (he ▸ hq)
    · rw [(hothers q he).writing] at hq
      exact h.writing q hq
  · intro q hq
    rw [hr]
    by_cases he : q = p
    · exact hreads (he ▸ hq)
    · rw [(hothers q he).reading] at hq
      exact h.reading q hq
  · rw [hf, hr, hw]
    exact h.frees

/-- A process that goes on in its call stays on the end it is on. -/
private theorem Ends.goes_on (h : Ends s)
    (hothers : ∀ q, q ≠ p → (t.procs q).Like (s.procs q)) (hr : t.readopen = s.readopen)
    (hw : t.writeopen = s.writeopen) (hf : t.frees = s.frees)
    {pc pc' : Pc} (hp : s.procs p = pc) (hp' : t.procs p = pc')
    (hwrites : pc'.Writing → pc.Writing) (hreads : pc'.Reading → pc.Reading) : Ends t := by
  apply h.of_same hothers hr hw hf
  · show (t.procs p).Writing → s.writeopen = true
    rw [hp']
    exact fun hpc ↦ h.writing p (hp ▸ hwrites hpc)
  · show (t.procs p).Reading → s.readopen = true
    rw [hp']
    exact fun hpc ↦ h.reading p (hp ▸ hreads hpc)

omit [DecidableEq P] in
private theorem Ends.close (h : Ends s) {w : Bool} (ha : Allowed s (.pipeclose p w)) :
    Ends (pipeclose s w) := by
  have hlike := pipeclose_like s w
  have hfrees := h.frees
  cases w with
  | false =>
    obtain ⟨hopen, hnone⟩ := ha
    constructor
    · intro q hq
      rw [(hlike q).writing] at hq
      exact h.writing q hq
    · intro q hq
      rw [(hlike q).reading] at hq
      exact absurd hq (hnone q)
    · rw [hopen] at hfrees
      show (if false = false ∧ s.writeopen = false then s.frees + 1 else s.frees) = _
      rw [hfrees]
      rfl
  | true =>
    obtain ⟨hopen, hnone⟩ := ha
    constructor
    · intro q hq
      rw [(hlike q).writing] at hq
      exact absurd hq (hnone q)
    · intro q hq
      rw [(hlike q).reading] at hq
      exact h.reading q hq
    · rw [hopen] at hfrees
      rw [if_neg fun hc ↦ Bool.false_ne_true hc.2.symm] at hfrees
      show (if s.readopen = false ∧ false = false then s.frees + 1 else s.frees) = _
      rw [hfrees]
      rfl

private theorem ends_step (h : Ends s) (ha : Allowed s a) (hs : StepTo s a t) : Ends t := by
  have hothers := fun q (hq : q ≠ a.actor) ↦ others_like hs hq
  cases hs with
  | close p writable pc free => exact h.close ha
  | kill p =>
    have hlike := kill_like s p p
    apply h.of_same hothers rfl rfl rfl
    · intro hq
      exact h.writing p (hlike.writing ▸ hq)
    · intro hq
      exact h.reading p (hlike.reading ▸ hq)
  | writeStart p addr pc free =>
    apply h.of_same hothers rfl rfl rfl
    · exact fun _ ↦ ha
    · show (update s.procs p _ p).Reading → _
      rw [update_self]
      exact False.elim
  | readStart p n pc free =>
    apply h.of_same hothers rfl rfl rfl
    · show (update s.procs p _ p).Writing → _
      rw [update_self]
      exact False.elim
    · exact fun _ ↦ ha
  | writePut p addr i pc more room => exact h.goes_on hothers rfl rfl rfl pc (update_self ..) id id
  | writeBlock p addr i pc more full isOpen alive =>
    exact h.goes_on hothers rfl rfl rfl pc (update_self ..) id id
  | writeFail p addr i pc more full fails =>
    exact h.goes_on hothers rfl rfl rfl pc (update_self ..) False.elim False.elim
  | writeDone p addr i pc all =>
    exact h.goes_on hothers rfl rfl rfl pc (update_self ..) False.elim False.elim
  | writeRest p addr i pc => exact h.goes_on hothers rfl rfl rfl pc (update_self ..) id id
  | writeResume p addr i pc free => exact h.goes_on hothers rfl rfl rfl pc (update_self ..) id id
  | readFail p n pc empty isOpen dead =>
    exact h.goes_on hothers rfl rfl rfl pc (update_self ..) False.elim False.elim
  | readBlock p n pc empty isOpen alive =>
    exact h.goes_on hothers rfl rfl rfl pc (update_self ..) id id
  | readCopy p n pc ready => exact h.goes_on hothers rfl rfl rfl pc (update_self ..) id id
  | readRest p n pc => exact h.goes_on hothers rfl rfl rfl pc (update_self ..) id id
  | readResume p n pc free => exact h.goes_on hothers rfl rfl rfl pc (update_self ..) id id
  | copyTake p n got pc more some' => exact h.goes_on hothers rfl rfl rfl pc (update_self ..) id id
  | copyDone p n got pc stop =>
    exact h.goes_on hothers rfl rfl rfl pc (update_self ..) False.elim False.elim

/-! ### Runs -/

/-- What holds of a pipe between any two steps. -/
structure Books (s : State P) : Prop extends Flow s, Ends s where
  exclusive : Exclusive s
  sends : Sends s
  sees : ∀ p, Sees s (s.procs p)

omit [DecidableEq P] in
private theorem books_pipealloc (data : Nat → UInt8) (killed : P → Bool) [DecidableEq P] :
    Books (pipealloc data killed) where
  nread := rfl
  nwrite := rfl
  taken_le := Nat.le_refl 0
  fits := Nat.zero_le _
  stream := rfl
  writing := fun _ h ↦ h.elim
  reading := fun _ h ↦ h.elim
  frees := rfl
  exclusive := fun _ ↦ iff_of_false id nofun
  sends := fun _ ↦ rfl
  sees := fun _ ↦ trivial

theorem books_step (h : Books s) (ha : Allowed s a) (hs : StepTo s a t) : Books t where
  toFlow := flow_step h.toFlow hs
  toEnds := ends_step h.toEnds ha hs
  exclusive := exclusive_step h.exclusive hs
  sends := sends_step h.sends hs
  sees := sees_step h.exclusive h.sees hs

theorem books_of_reaches {data : Nat → UInt8} {killed : P → Bool}
    (h : Lib.ReachesVia step Allowed (pipealloc data killed) s) : Books s :=
  h.invariant (fun _ _ _ hi ha hstep ↦ books_step hi ha (stepTo_of_step hstep))
    (books_pipealloc data killed)

/-- In any interleaving of any number of readers and writers without threads, with processes
killed at any time: what was put into the pipe is what was taken out of it followed by what is in
it, at most `PIPESIZE` bytes, and the counters give their number though they wrap; the bytes of
each writer are in the stream in its own order, those of a finished write in full and of an
abandoned one up to where it stopped; what a read has copied are the last bytes taken; and the pipe
is freed exactly once, when both ends are closed and nobody is in a call. -/
theorem stream_in_order {data : Nat → UInt8} {killed : P → Bool}
    (h : Lib.ReachesVia step Allowed (pipealloc data killed) s) :
    s.hist.put.map Prod.snd = s.hist.taken ++
        Lib.window PIPESIZE s.data s.hist.taken.length s.hist.put.length ∧
      s.hist.put.length ≤ s.hist.taken.length + PIPESIZE ∧
      (s.nwrite - s.nread).toNat = s.hist.put.length - s.hist.taken.length ∧
      (∀ p, bytesOf s.hist.put p = s.hist.sent p ++ (s.procs p).written) ∧
      (∀ p n got, s.procs p = .copy n got → got <:+ s.hist.taken ∧ got.length ≤ n) ∧
      (s.frees = if s.readopen = false ∧ s.writeopen = false then 1 else 0) ∧
      (0 < s.frees → ∀ p, ¬(s.procs p).Writing ∧ ¬(s.procs p).Reading) := by
  have hb := books_of_reaches h
  refine ⟨hb.stream, hb.fits, hb.count, hb.sends, ?_, hb.frees, ?_⟩
  · intro p n got hp
    have hsees := hb.sees p
    rw [hp] at hsees
    exact ⟨hsees.1, hsees.2.1⟩
  · intro hfrees p
    rw [hb.frees] at hfrees
    split at hfrees
    · next hclosed =>
      constructor
      · intro hw
        exact Bool.false_ne_true (hclosed.2.symm.trans (hb.writing p hw))
      · intro hr
        exact Bool.false_ne_true (hclosed.1.symm.trans (hb.reading p hr))
    · exact absurd hfrees (Nat.lt_irrefl 0)

/-- Process 0 writes two bytes and process 1 reads the first of them. -/
def sevenEight : List (Action (Fin 2)) :=
  [.pipewrite 0 [7, 8], .run 0, .run 0, .run 0, .piperead 1 1, .run 1, .run 1]

theorem stream_in_order_sevenEight :
    let s := Lib.final step (pipealloc (fun _ ↦ 0) fun _ ↦ false) sevenEight
    s.hist.taken = [7] ∧ s.hist.put.map Prod.snd =
      s.hist.taken ++ Lib.window PIPESIZE s.data s.hist.taken.length s.hist.put.length := by
  have hok : (Lib.exec step (pipealloc (fun _ ↦ 0) fun _ ↦ false) sevenEight).isOk = true := by
    decide
  have hc : Lib.Along step Allowed (pipealloc (fun _ ↦ 0) fun _ ↦ false) sevenEight := by decide
  exact ⟨by decide, (stream_in_order ⟨sevenEight, hc, Lib.exec_final hok⟩).1⟩

end Xv6.Pipe
