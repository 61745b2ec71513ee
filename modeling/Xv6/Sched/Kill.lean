import Xv6.Sched.Fields

/-!
# What `kill` leaves of a group

`kill` marks one process. If that is in a group with threads, it turns all workers of the group
into zombies, the target and those that are executing included, and leaves the master alone. The
group ends later, in the `exit` of a marked member that comes back to user space, if one does.
-/

namespace Xv6.Sched

open Function Lib

section

variable {n : Nat}

/-- `q` belongs to the group of `m`. -/
def InGroup (s : State n) (m q : Slot) : Prop :=
  (s.proc q).master = some m ∧ (s.proc q).state ≠ .UNUSED

/-- `q` may still wake up what sleeps on `m`: as a thread of the group in `thread_exit`, as a child
or, where `m` is the first process, as any process in `exit`. -/
def MayWake (s : State n) (m q : Slot) : Prop :=
  q ≠ m ∧ (s.proc q).state ≠ .UNUSED ∧ (s.proc q).state ≠ .ZOMBIE ∧
    ((s.proc q).master = some m ∨ (s.proc q).parent = some m ∨ s.initproc = some m)

/-- `m` sleeps in `thread_join` or `wait` and nobody is left to wake it up. -/
def Stranded (s : State n) (m : Slot) : Prop :=
  (s.proc m).state = .SLEEPING ∧ (s.proc m).chan = some (.proc m) ∧ ∀ q, ¬MayWake s m q

/-- A `kill` that turns `s` into `t` ends the group of `m`: a marked member comes to the test in
`trap`, the master is not stranded, and what is executing goes on. -/
structure EndsGroup (s t : State n) (m : Slot) : Prop where
  marked : ∃ q, InGroup t m q ∧ (t.proc q).killed = true ∧
    ((t.proc q).state = .RUNNABLE ∨ (t.proc q).state = .RUNNING)
  awake : ¬Stranded t m
  running : ∀ c q, (s.cpu c).proc = some q → (s.proc q).state = .RUNNING →
    (t.proc q).state = .RUNNING

/-- Before a `kill` of `p`: no worker that it ends is executing, and some member that it does not
end is `p`, not yet dead, or has been marked before and is ready or executing. -/
structure KillSuffices (s : State n) (m p : Slot) : Prop where
  running : ∀ c q, (s.cpu c).proc = some q → Doomed s p q → (s.proc q).state ≠ .RUNNING
  marked : ∃ q, (s.proc q).master = some m ∧ ¬Doomed s p q ∧
    (q = p ∧ (s.proc q).state = .SLEEPING ∨ (q = p ∨ (s.proc q).killed = true) ∧
      ((s.proc q).state = .RUNNABLE ∨ (s.proc q).state = .RUNNING))

/-- What `kill` of `p` makes of the entry of `q`. -/
def killedEntry (s : State n) (p q : Slot) : Proc :=
  { s.proc q with
    killed := if q = p then true else (s.proc q).killed
    state :=
      if Doomed s p q then .ZOMBIE
      else if q = p ∧ (s.proc q).state = .SLEEPING then .RUNNABLE
      else (s.proc q).state }

variable {s t : State n} {m p q : Slot} {pid : Nat}

private theorem doomed_iff (hi : (s.proc p).isthread = true) (hm : (s.proc p).master = some m) :
    Doomed s p q ↔ IsWorker s m q := by
  unfold Doomed
  constructor
  · rintro ⟨-, m', hm', hq⟩
    rw [hm] at hm'
    cases hm'
    exact hq
  · intro hq
    exact ⟨hi, m, hm, hq⟩

/-- What the last test of `kill` does to a state in which the marks and the zombies are set. -/
private theorem wake_proc {u : State n}
    (hu : ∀ q, u.proc q = { s.proc q with
      killed := if q = p then true else (s.proc q).killed
      state := if Doomed s p q then .ZOMBIE else (s.proc q).state })
    (h : (if (u.proc p).state = .SLEEPING then
      (.ok (u.modify p fun v ↦ { v with state := .RUNNABLE }) : Except Fault (State n))
      else .ok u) = .ok t) (q : Slot) : t.proc q = killedEntry s p q := by
  unfold killedEntry
  split at h
  · next hs =>
    cases h
    rw [hu p] at hs
    by_cases hq : q = p
    · subst hq
      have hd : ¬Doomed s q q := by
        intro hd
        simp [hd] at hs
      simp only [hd, if_false] at hs
      simp [hu, hd, hs]
    · rw [modify_proc_of_ne hq, hu]
      simp [hq]
  · next hs =>
    cases h
    rw [hu]
    by_cases hd : Doomed s p q
    · simp [hd]
    · by_cases hq : q = p
      · subst hq
        rw [hu] at hs
        simp only [hd, if_false] at hs
        simp [hd, hs]
      · simp [hq, hd]

theorem kill_proc (hp : findPid s pid = some p) (h : kill s pid = .ok t) (q : Slot) :
    t.proc q = killedEntry s p q := by
  unfold findPid at hp
  unfold kill at h
  rw [hp] at h
  dsimp only at h
  rw [modify_proc_self] at h
  have hmark : ∀ q, (s.modify p fun v ↦ { v with killed := true }).proc q =
      { s.proc q with killed := if q = p then true else (s.proc q).killed } := by
    intro q
    rw [modify_proc]
    split
    · next hq => rw [hq]
    · rfl
  by_cases hi : (s.proc p).isthread = true
  · rw [if_pos hi] at h
    cases hm : (s.proc p).master with
    | none => simp [hm, bind, Except.bind] at h
    | some m =>
      rw [hm] at h
      apply wake_proc _ h
      intro q
      have hworker : IsWorker (s.modify p fun v ↦ { v with killed := true }) m q ↔
          IsWorker s m q := by
        unfold IsWorker
        simp only [modify_threads, implies_true]
      simp only [hworker, doomed_iff hi hm, hmark]
      split <;> rfl
  · rw [if_neg hi] at h
    apply wake_proc _ h
    intro q
    have hd : ¬Doomed s p q := fun hd ↦ hi hd.1
    rw [hmark, if_neg hd]

/-- The state that `kill` leaves to a process that it does not end. -/
private theorem state_of_spared (hp : findPid s pid = some p) (h : kill s pid = .ok t)
    (hd : ¬Doomed s p q) : (t.proc q).state =
      if q = p ∧ (s.proc q).state = .SLEEPING then .RUNNABLE else (s.proc q).state := by
  rw [kill_proc hp h, killedEntry, if_neg hd]

private theorem state_of_doomed (hp : findPid s pid = some p) (h : kill s pid = .ok t)
    (hd : Doomed s p q) : (t.proc q).state = .ZOMBIE := by
  rw [kill_proc hp h, killedEntry, if_pos hd]

private theorem master_of_kill (hp : findPid s pid = some p) (h : kill s pid = .ok t) :
    (t.proc q).master = (s.proc q).master := by
  rw [kill_proc hp h, killedEntry]

/-- A marked member that is ready or executing after the `kill` was so before, or slept. -/
private theorem marked_iff (hp : findPid s pid = some p) (h : kill s pid = .ok t) :
    (InGroup t m q ∧ (t.proc q).killed = true ∧
      ((t.proc q).state = .RUNNABLE ∨ (t.proc q).state = .RUNNING)) ↔
    (s.proc q).master = some m ∧ ¬Doomed s p q ∧
      (q = p ∧ (s.proc q).state = .SLEEPING ∨ (q = p ∨ (s.proc q).killed = true) ∧
        ((s.proc q).state = .RUNNABLE ∨ (s.proc q).state = .RUNNING)) := by
  have hkilled : (t.proc q).killed = true ↔ q = p ∨ (s.proc q).killed = true := by
    rw [kill_proc hp h, killedEntry]
    by_cases hq : q = p <;> simp [hq]
  unfold InGroup
  rw [master_of_kill hp h, hkilled]
  by_cases hd : Doomed s p q
  · rw [state_of_doomed hp h hd]
    simp [hd]
  · rw [state_of_spared hp h hd]
    by_cases hs : q = p ∧ (s.proc q).state = .SLEEPING
    · obtain ⟨rfl, hsleep⟩ := hs
      simp [hd, hsleep]
    · rw [if_neg hs]
      simp only [hs, false_or, hd, not_false_iff, true_and]
      constructor
      · rintro ⟨⟨hm, -⟩, hq⟩
        exact ⟨hm, hq⟩
      · rintro ⟨hm, hk, hq⟩
        refine ⟨⟨hm, ?_⟩, hk, hq⟩
        rcases hq with hq | hq <;> simp [hq]

/-- A successful `kill` of `p` ends the group of `m` if and only if no worker that it ends is
executing and a marked member is left that comes to the test in `trap`. -/
theorem kill_ends_group (hp : findPid s pid = some p) (h : kill s pid = .ok t) :
    EndsGroup s t m ↔ KillSuffices s m p := by
  refine ⟨fun hends ↦ ⟨?_, ?_⟩, fun hs ↦ ⟨?_, ?_, ?_⟩⟩
  · intro c x hc hd hr
    have hrun := hends.running c x hc hr
    rw [state_of_doomed hp h hd] at hrun
    cases hrun
  · obtain ⟨x, hx⟩ := hends.marked
    exact ⟨x, (marked_iff hp h).mp hx⟩
  · obtain ⟨x, hx⟩ := hs.marked
    exact ⟨x, (marked_iff hp h).mpr hx⟩
  · obtain ⟨x, hx⟩ := hs.marked
    obtain ⟨⟨hm, hu⟩, -, hr⟩ := (marked_iff hp h).mpr hx
    rintro ⟨hsleep, -, hnone⟩
    by_cases hxm : x = m
    · rw [hxm, hsleep] at hr
      rcases hr with hr | hr <;> cases hr
    · apply hnone x
      refine ⟨hxm, hu, ?_, .inl hm⟩
      rcases hr with hr | hr <;> simp [hr]
  · intro c x hc hr
    have hd : ¬Doomed s p x := fun hd ↦ hs.running c x hc hd hr
    rw [state_of_spared hp h hd, hr]
    simp

end

section

/-- The first process creates two threads, and goes on executing. -/
def threaded : List (Action 1) :=
  [.scheduler cpu0, .thread_create cpu0, .threadReady cpu0, .thread_create cpu0, .threadReady cpu0]

example : Doomed (final (step float) (boot 1) threaded) 0 1 ∧
    Doomed (final (step float) (boot 1) threaded) 0 2 ∧
    ((final (step float) (boot 1) threaded).proc 2).state = .RUNNABLE := by
  decide +kernel

/-- `kill` of the master, which executes while its two threads wait, ends the group: the threads are
zombies, and the master comes to the test in `trap`. -/
theorem kill_ends_group_threaded :
    ∃ t, kill (final (step float) (boot 1) threaded) 1 = .ok t ∧
      EndsGroup (final (step float) (boot 1) threaded) t 0 ∧
      (t.proc 1).state = .ZOMBIE ∧ (t.proc 2).state = .ZOMBIE := by
  have hp : findPid (final (step float) (boot 1) threaded) 1 = some 0 := by decide +kernel
  have hok : (kill (final (step float) (boot 1) threaded) 1).isOk = true := by decide +kernel
  have hfree : (∀ c q, ((final (step float) (boot 1) threaded).cpu c).proc = some q →
      Doomed (final (step float) (boot 1) threaded) 0 q →
        ((final (step float) (boot 1) threaded).proc q).state ≠ .RUNNING) ∧
      ((final (step float) (boot 1) threaded).proc 0).master = some 0 ∧
      ¬Doomed (final (step float) (boot 1) threaded) 0 0 ∧
      ((final (step float) (boot 1) threaded).proc 0).state = .RUNNING := by
    decide +kernel
  have hdoomed : Doomed (final (step float) (boot 1) threaded) 0 1 ∧
      Doomed (final (step float) (boot 1) threaded) 0 2 := by
    decide +kernel
  generalize final (step float) (boot 1) threaded = s at *
  cases h : kill s 1 with
  | error e =>
    rw [h] at hok
    cases hok
  | ok t =>
    refine ⟨t, rfl, (kill_ends_group hp h).mpr ⟨hfree.1, ?_⟩, state_of_doomed hp h hdoomed.1,
      state_of_doomed hp h hdoomed.2⟩
    exact ⟨0, hfree.2.1, hfree.2.2.1, .inr ⟨.inl rfl, .inr hfree.2.2.2⟩⟩

/-- The first process creates a thread, which gets the CPU and kills itself. -/
def killSelf : List (Action 1) :=
  [.scheduler cpu0, .thread_create cpu0, .threadReady cpu0, .yield cpu0]

/-- The thread is a zombie that goes on executing, and no other member is marked. -/
theorem killSelf_fails : (exec (step float) (boot 1) killSelf).isOk = true ∧
    ((final (step float) (boot 1) killSelf).proc 1).master = some 0 ∧
    ((final (step float) (boot 1) killSelf).proc 1).pid = 2 ∧
    ((final (step float) (boot 1) killSelf).proc 1).state = .RUNNING ∧
    ∃ t, kill (final (step float) (boot 1) killSelf) 2 = .ok t ∧
      ¬EndsGroup (final (step float) (boot 1) killSelf) t 0 := by
  refine ⟨by decide +kernel, by decide +kernel, by decide +kernel, by decide +kernel, ?_⟩
  have hok : (kill (final (step float) (boot 1) killSelf) 2).isOk = true := by decide +kernel
  have hp : findPid (final (step float) (boot 1) killSelf) 2 = some 1 := by decide +kernel
  have hd : Doomed (final (step float) (boot 1) killSelf) 1 1 := by decide +kernel
  have hcpu : ∀ c, ((final (step float) (boot 1) killSelf).cpu c).proc = some 1 := by decide +kernel
  have hr : ((final (step float) (boot 1) killSelf).proc 1).state = .RUNNING := by decide +kernel
  generalize final (step float) (boot 1) killSelf = s at *
  cases h : kill s 2 with
  | error e =>
    rw [h] at hok
    cases hok
  | ok t =>
    refine ⟨t, rfl, fun hends ↦ ?_⟩
    have hrun := hends.running cpu0 1 (hcpu cpu0) hr
    rw [state_of_doomed hp h hd] at hrun
    cases hrun

end

end Xv6.Sched
