import Xv6.Pipe.Model

/-!
# What a step of a pipe can do

`StepTo` lists the outcomes of `step`, one constructor for each branch of the source. A step
wakes other processes and changes nothing else of them, and one process at most is in a critical
section.
-/

namespace Xv6.Pipe

open Function

variable {P : Type} [DecidableEq P]

/-! ### What a step can do -/

/-- The outcomes of a step, branch by branch. -/
inductive StepTo (s : State P) : Action P → State P → Prop where
  | writeStart (p : P) (addr : List UInt8) (pc : s.procs p = .idle) (free : s.lock = none) :
      StepTo s (.pipewrite p addr) (s.goto p (.write addr 0))
  | readStart (p : P) (n : Nat) (pc : s.procs p = .idle) (free : s.lock = none) :
      StepTo s (.piperead p n) (s.goto p (.read n))
  | close (p : P) (writable : Bool) (pc : s.procs p = .idle) (free : s.lock = none) :
      StepTo s (.pipeclose p writable) (pipeclose s writable)
  | writePut (p : P) (addr : List UInt8) (i : Nat) (pc : s.procs p = .write addr i)
      (more : i < addr.length) (room : ¬Full s) :
      StepTo s (.run p) ((put s p addr[i]).goto p (.write addr (i + 1)))
  | writeBlock (p : P) (addr : List UInt8) (i : Nat) (pc : s.procs p = .write addr i)
      (more : i < addr.length) (full : Full s) (isOpen : s.readopen = true)
      (alive : s.killed p = false) :
      StepTo s (.run p) ((wakeReaders s).goto p (.writeSleep addr i))
  | writeFail (p : P) (addr : List UInt8) (i : Nat) (pc : s.procs p = .write addr i)
      (more : i < addr.length) (full : Full s) (fails : s.readopen = false ∨ s.killed p = true) :
      StepTo s (.run p) (abandon s p addr i)
  | writeDone (p : P) (addr : List UInt8) (i : Nat) (pc : s.procs p = .write addr i)
      (all : addr.length ≤ i) :
      StepTo s (.run p) ((sentBy (wakeReaders s) p addr).done p (some addr))
  | writeRest (p : P) (addr : List UInt8) (i : Nat) (pc : s.procs p = .writeSleep addr i) :
      StepTo s (.run p) (s.rest p (.writeWait true addr i))
  | writeResume (p : P) (addr : List UInt8) (i : Nat) (pc : s.procs p = .writeWait false addr i)
      (free : s.lock = none) : StepTo s (.run p) (s.goto p (.write addr i))
  | readFail (p : P) (n : Nat) (pc : s.procs p = .read n) (empty : Empty s)
      (isOpen : s.writeopen = true) (dead : s.killed p = true) : StepTo s (.run p) (s.done p none)
  | readBlock (p : P) (n : Nat) (pc : s.procs p = .read n) (empty : Empty s)
      (isOpen : s.writeopen = true) (alive : s.killed p = false) :
      StepTo s (.run p) (s.goto p (.readSleep n))
  | readCopy (p : P) (n : Nat) (pc : s.procs p = .read n)
      (ready : ¬(Empty s ∧ s.writeopen = true)) : StepTo s (.run p) (s.goto p (.copy n []))
  | readRest (p : P) (n : Nat) (pc : s.procs p = .readSleep n) :
      StepTo s (.run p) (s.rest p (.readWait true n))
  | readResume (p : P) (n : Nat) (pc : s.procs p = .readWait false n) (free : s.lock = none) :
      StepTo s (.run p) (s.goto p (.read n))
  | copyTake (p : P) (n : Nat) (got : List UInt8) (pc : s.procs p = .copy n got)
      (more : got.length < n) (some' : ¬Empty s) :
      StepTo s (.run p) ((take s).1.goto p (.copy n (got ++ [(take s).2])))
  | copyDone (p : P) (n : Nat) (got : List UInt8) (pc : s.procs p = .copy n got)
      (stop : ¬(got.length < n ∧ ¬Empty s)) : StepTo s (.run p) ((wakeWriters s).done p (some got))
  | kill (p : P) :
      StepTo s (.kill p) { s with
        killed := update s.killed p true
        procs := update s.procs p (s.procs p).wakeReader.wakeWriter }

private theorem stepTo_writeRound (s : State P) (p : P) (addr : List UInt8) (i : Nat)
    (pc : s.procs p = .write addr i) : StepTo s (.run p) (writeRound s p addr i) := by
  by_cases hi : i < addr.length
  · by_cases hfull : Full s
    · by_cases hfail : s.readopen = false ∨ s.killed p = true
      · unfold writeRound
        rw [dif_pos hi, if_pos hfull, if_pos hfail]
        exact .writeFail p addr i pc hi hfull hfail
      · unfold writeRound
        rw [dif_pos hi, if_pos hfull, if_neg hfail]
        obtain ⟨hopen, halive⟩ := not_or.mp hfail
        exact .writeBlock p addr i pc hi hfull (Bool.eq_true_of_not_eq_false hopen)
          (Bool.eq_false_of_not_eq_true halive)
    · unfold writeRound
      rw [dif_pos hi, if_neg hfull]
      exact .writePut p addr i pc hi hfull
  · unfold writeRound
    rw [dif_neg hi]
    exact .writeDone p addr i pc (Nat.le_of_not_lt hi)

private theorem stepTo_readRound (s : State P) (p : P) (n : Nat) (pc : s.procs p = .read n) :
    StepTo s (.run p) (readRound s p n) := by
  unfold readRound
  split
  · next h =>
    split
    · next hk => exact .readFail p n pc h.1 h.2 hk
    · next hk => exact .readBlock p n pc h.1 h.2 (Bool.eq_false_of_not_eq_true hk)
  · next h => exact .readCopy p n pc h

private theorem stepTo_copyRound (s : State P) (p : P) (n : Nat) (got : List UInt8)
    (pc : s.procs p = .copy n got) : StepTo s (.run p) (copyRound s p n got) := by
  unfold copyRound
  split
  · next h => exact .copyTake p n got pc h.1 h.2
  · next h => exact .copyDone p n got pc h

/-- Every step is one of the outcomes. -/
theorem stepTo_of_step {s t : State P} {a : Action P} (h : step s a = .ok t) : StepTo s a t := by
  cases a with
  | pipewrite p addr =>
    simp only [step] at h
    split at h
    · next pc free =>
      cases h
      exact .writeStart p addr pc free
    · cases h
  | piperead p n =>
    simp only [step] at h
    split at h
    · next pc free =>
      cases h
      exact .readStart p n pc free
    · cases h
  | pipeclose p writable =>
    simp only [step] at h
    split at h
    · next pc free =>
      cases h
      exact .close p writable pc free
    · cases h
  | run p =>
    simp only [step] at h
    split at h
    · cases h
    · next addr i pc =>
      cases h
      exact stepTo_writeRound s p addr i pc
    · next addr i pc =>
      cases h
      exact .writeRest p addr i pc
    · cases h
    · next addr i pc =>
      split at h
      · next free =>
        cases h
        exact .writeResume p addr i pc free
      · cases h
    · next n pc =>
      cases h
      exact stepTo_readRound s p n pc
    · next n pc =>
      cases h
      exact .readRest p n pc
    · cases h
    · next n pc =>
      split at h
      · next free =>
        cases h
        exact .readResume p n pc free
      · cases h
    · next n got pc =>
      cases h
      exact stepTo_copyRound s p n got pc
  | kill p =>
    cases h
    exact .kill p

/-! ### The lock -/

/-- The process holds the lock. -/
def Pc.Locked : Pc → Prop
  | .write _ _ | .writeSleep _ _ | .read _ | .readSleep _ | .copy _ _ => True
  | _ => False

/-- What a write has put into the pipe so far. -/
def Pc.written : Pc → List UInt8
  | .write addr i | .writeSleep addr i | .writeWait _ addr i => addr.take i
  | _ => []

/-- The two places differ at most in whether a sleeper has been woken. -/
def Pc.Like (pc pc' : Pc) : Prop :=
  pc = pc' ∨ (∃ n, pc = .readWait false n ∧ pc' = .readWait true n) ∨
    ∃ addr i, pc = .writeWait false addr i ∧ pc' = .writeWait true addr i

namespace Pc

variable {pc pc' : Pc}

theorem like_refl (pc : Pc) : pc.Like pc := .inl rfl

theorem wakeReader_like (pc : Pc) : pc.wakeReader.Like pc := by
  cases pc with
  | readWait asleep n =>
    cases asleep with
    | false => exact .inl rfl
    | true => exact .inr (.inl ⟨n, rfl, rfl⟩)
  | _ => exact .inl rfl

theorem wakeWriter_like (pc : Pc) : pc.wakeWriter.Like pc := by
  cases pc with
  | writeWait asleep addr i =>
    cases asleep with
    | false => exact .inl rfl
    | true => exact .inr (.inr ⟨addr, i, rfl, rfl⟩)
  | _ => exact .inl rfl

/-- What does not tell a woken sleeper from one asleep is the same for both. -/
theorem Like.congr {β : Sort*} (f : Pc → β) (hr : ∀ n, f (.readWait false n) = f (.readWait true n))
    (hw : ∀ addr i, f (.writeWait false addr i) = f (.writeWait true addr i)) (h : pc.Like pc') :
    f pc = f pc' := by
  rcases h with rfl | ⟨n, rfl, rfl⟩ | ⟨addr, i, rfl, rfl⟩
  · rfl
  · exact hr n
  · exact hw addr i

theorem Like.locked (h : pc.Like pc') : pc.Locked = pc'.Locked :=
  h.congr Locked (fun _ ↦ rfl) fun _ _ ↦ rfl

theorem Like.writing (h : pc.Like pc') : pc.Writing = pc'.Writing :=
  h.congr Writing (fun _ ↦ rfl) fun _ _ ↦ rfl

theorem Like.reading (h : pc.Like pc') : pc.Reading = pc'.Reading :=
  h.congr Reading (fun _ ↦ rfl) fun _ _ ↦ rfl

theorem Like.written (h : pc.Like pc') : pc.written = pc'.written :=
  h.congr Pc.written (fun _ ↦ rfl) fun _ _ ↦ rfl

theorem Like.copy {n : Nat} {got : List UInt8} (h : pc.Like pc') (hpc : pc = .copy n got) :
    pc' = .copy n got := by
  rcases h with rfl | ⟨n, rfl, -⟩ | ⟨addr, i, rfl, -⟩
  · exact hpc
  · cases hpc
  · cases hpc

end Pc

variable {s t : State P} {a : Action P} {p : P}

/-- The process that acts. -/
def Action.actor : Action P → P
  | .pipewrite p _ | .piperead p _ | .pipeclose p _ | .run p | .kill p => p

omit [DecidableEq P] in
private theorem wakeReaders_like (s : State P) (q : P) :
    ((wakeReaders s).procs q).Like (s.procs q) := (s.procs q).wakeReader_like

omit [DecidableEq P] in
private theorem wakeWriters_like (s : State P) (q : P) :
    ((wakeWriters s).procs q).Like (s.procs q) := (s.procs q).wakeWriter_like

omit [DecidableEq P] in
@[simp] theorem pipeclose_lock (s : State P) (w : Bool) : (pipeclose s w).lock = s.lock := by
  cases w <;> rfl

omit [DecidableEq P] in
@[simp] theorem pipeclose_hist (s : State P) (w : Bool) : (pipeclose s w).hist = s.hist := by
  cases w <;> rfl

omit [DecidableEq P] in
theorem pipeclose_like (s : State P) (w : Bool) (q : P) :
    ((pipeclose s w).procs q).Like (s.procs q) := by
  cases w with
  | false => exact wakeWriters_like s q
  | true => exact wakeReaders_like s q

theorem kill_like (s : State P) (p q : P) :
    (update s.procs p (s.procs p).wakeReader.wakeWriter q).Like (s.procs q) := by
  by_cases hq : q = p
  · rw [hq, update_self]
    cases s.procs p with
    | readWait asleep n => exact (Pc.readWait asleep n).wakeReader_like
    | writeWait asleep addr i => exact (Pc.writeWait asleep addr i).wakeWriter_like
    | _ => exact Pc.like_refl _
  · rw [update_of_ne hq]
    exact Pc.like_refl _

private theorem like_update {procs : P → Pc} {q : P} {pc pc' : Pc} (hq : q ≠ p)
    (h : (procs q).Like pc') : (update procs p pc q).Like pc' := by
  rwa [update_of_ne hq]

/-- A step wakes other processes and does nothing else to them. -/
theorem others_like (h : StepTo s a t) {q : P} (hq : q ≠ a.actor) :
    (t.procs q).Like (s.procs q) := by
  cases h with
  | close p writable pc free => exact pipeclose_like s writable q
  | kill p => exact kill_like s p q
  | writeBlock p addr i pc more full isOpen alive => exact like_update hq (wakeReaders_like s q)
  | writeDone p addr i pc all => exact like_update hq (wakeReaders_like s q)
  | copyDone p n got pc stop => exact like_update hq (wakeWriters_like s q)
  | _ => exact like_update hq (Pc.like_refl _)

/-- One process at most is in a critical section, the one that holds the lock. -/
def Exclusive (s : State P) : Prop := ∀ p, (s.procs p).Locked ↔ s.lock = some p

omit [DecidableEq P] in
private theorem Exclusive.of_like (h : Exclusive s) (hp : ∀ q, (t.procs q).Like (s.procs q))
    (hl : t.lock = s.lock) : Exclusive t := by
  intro q
  rw [(hp q).locked, hl]
  exact h q

omit [DecidableEq P] in
private theorem Exclusive.of_goto {pc : Pc} (h : Exclusive s)
    (hothers : ∀ q, q ≠ p → (t.procs q).Like (s.procs q))
    (hbefore : s.lock = none ∨ s.lock = some p) (hl : t.lock = some p) (hp : t.procs p = pc)
    (hpc : pc.Locked) : Exclusive t := by
  intro q
  by_cases hq : q = p
  · rw [hq, hl, hp]
    exact iff_of_true hpc rfl
  · rw [(hothers q hq).locked, hl, h q]
    apply iff_of_false
    · rcases hbefore with hb | hb
      · rw [hb]
        exact nofun
      · rw [hb]
        exact fun he ↦ hq (Option.some.inj he).symm
    · exact fun he ↦ hq (Option.some.inj he).symm

omit [DecidableEq P] in
private theorem Exclusive.of_rest {pc pc' : Pc} (h : Exclusive s)
    (hothers : ∀ q, q ≠ p → (t.procs q).Like (s.procs q)) (hbefore : s.procs p = pc)
    (hpc : pc.Locked) (hl : t.lock = none) (hp : t.procs p = pc') (hpc' : ¬pc'.Locked) :
    Exclusive t := by
  have hheld : s.lock = some p := (h p).mp (hbefore ▸ hpc)
  intro q
  rw [hl]
  apply iff_of_false
  · by_cases hq : q = p
    · rwa [hq, hp]
    · rw [(hothers q hq).locked, h q, hheld]
      exact fun he ↦ hq (Option.some.inj he).symm
  · exact nofun

theorem exclusive_step (h : Exclusive s) (hs : StepTo s a t) : Exclusive t := by
  have hothers := fun q (hq : q ≠ a.actor) ↦ others_like hs hq
  have held : ∀ {p pc}, s.procs p = pc → pc.Locked → s.lock = some p :=
    fun {p _} hp hpc ↦ (h p).mp (hp ▸ hpc)
  cases hs with
  | close p writable pc free => exact h.of_like (pipeclose_like s writable) (pipeclose_lock ..)
  | kill p => exact h.of_like (kill_like s p) rfl
  | writeStart p addr pc free => exact h.of_goto hothers (.inl free) rfl (update_self ..) trivial
  | readStart p n pc free => exact h.of_goto hothers (.inl free) rfl (update_self ..) trivial
  | writeResume p addr i pc free => exact h.of_goto hothers (.inl free) rfl (update_self ..) trivial
  | readResume p n pc free => exact h.of_goto hothers (.inl free) rfl (update_self ..) trivial
  | writePut p addr i pc more room =>
    exact h.of_goto hothers (.inr (held pc trivial)) rfl (update_self ..) trivial
  | writeBlock p addr i pc more full isOpen alive =>
    exact h.of_goto hothers (.inr (held pc trivial)) rfl (update_self ..) trivial
  | readBlock p n pc empty isOpen alive =>
    exact h.of_goto hothers (.inr (held pc trivial)) rfl (update_self ..) trivial
  | readCopy p n pc ready =>
    exact h.of_goto hothers (.inr (held pc trivial)) rfl (update_self ..) trivial
  | copyTake p n got pc more some' =>
    exact h.of_goto hothers (.inr (held pc trivial)) rfl (update_self ..) trivial
  | writeFail p addr i pc more full fails =>
    exact h.of_rest hothers pc trivial rfl (update_self ..) id
  | writeDone p addr i pc all => exact h.of_rest hothers pc trivial rfl (update_self ..) id
  | writeRest p addr i pc => exact h.of_rest hothers pc trivial rfl (update_self ..) id
  | readFail p n pc empty isOpen dead => exact h.of_rest hothers pc trivial rfl (update_self ..) id
  | readRest p n pc => exact h.of_rest hothers pc trivial rfl (update_self ..) id
  | copyDone p n got pc stop => exact h.of_rest hothers pc trivial rfl (update_self ..) id

omit [DecidableEq P] in
/-- While a process holds the lock, the others can only be killed. -/
theorem Exclusive.holder (h : Exclusive s) [DecidableEq P] (hs : StepTo s a t) {q : P}
    (hq : (s.procs q).Locked) (hne : q ≠ a.actor) : a = .kill a.actor := by
  have hlock := (h q).mp hq
  have other : ∀ {p pc}, s.procs p = pc → pc.Locked → q ≠ p → False := by
    intro p pc hp hpc hne
    have hp := (h p).mp (hp ▸ hpc)
    exact hne (Option.some.inj (hlock.symm.trans hp))
  have nobody : s.lock ≠ none := by
    rw [hlock]
    exact nofun
  cases hs with
  | kill p => rfl
  | writeStart p addr pc free => exact absurd free nobody
  | readStart p n pc free => exact absurd free nobody
  | close p writable pc free => exact absurd free nobody
  | writeResume p addr i pc free => exact absurd free nobody
  | readResume p n pc free => exact absurd free nobody
  | writePut p addr i pc more room => exact (other pc trivial hne).elim
  | writeBlock p addr i pc more full isOpen alive => exact (other pc trivial hne).elim
  | writeFail p addr i pc more full fails => exact (other pc trivial hne).elim
  | writeDone p addr i pc all => exact (other pc trivial hne).elim
  | writeRest p addr i pc => exact (other pc trivial hne).elim
  | readFail p n pc empty isOpen dead => exact (other pc trivial hne).elim
  | readBlock p n pc empty isOpen alive => exact (other pc trivial hne).elim
  | readCopy p n pc ready => exact (other pc trivial hne).elim
  | readRest p n pc => exact (other pc trivial hne).elim
  | copyTake p n got pc more some' => exact (other pc trivial hne).elim
  | copyDone p n got pc stop => exact (other pc trivial hne).elim

end Xv6.Pipe
