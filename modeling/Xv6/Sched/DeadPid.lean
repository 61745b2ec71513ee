import Xv6.Sched.Links

/-!
# `kill` of a pid that nobody has

`kill` goes by `pid` alone, whatever the state of the entry. Of the steps that free an entry only
`wait` clears its `pid`.
-/

namespace Xv6.Sched

open Function Lib

section

variable {n : Nat}

/-- `kill` with its result; `proc.c:604-633`. No entry has a negative `pid`. -/
def sys_kill (s : State n) : Int → Except Fault (State n × Int)
  | .negSucc _ => .ok (s, -1)
  | .ofNat pid => do
    let t ← kill s pid
    .ok (t, if findPid s pid = none then -1 else 0)

/-- No process has the pid. -/
def Dead (s : State n) (pid : Int) : Prop := ∀ p, (s.proc p).state ≠ .UNUSED → (s.proc p).pid ≠ pid

/-- A free entry has the pid. -/
def Stale (s : State n) (pid : Int) : Prop := ∃ p, (s.proc p).state = .UNUSED ∧ (s.proc p).pid = pid

instance (s : State n) (pid : Int) : Decidable (Dead s pid) := inferInstanceAs (Decidable (∀ _, _))

instance (s : State n) (pid : Int) : Decidable (Stale s pid) := inferInstanceAs (Decidable (∃ _, _))

/-- The step frees no entry but in `wait`: it is no `thread_join` that returns, no `exit` of a
process with workers, and no `fork` that fails after it has found an entry. -/
def Clears (s : State n) : Action n → Prop
  | .fork _ false => findUnused s = none
  | .forkDone _ false => False
  | .exit c => ∀ p ∈ (s.cpu c).proc, ∀ m ∈ exiting s p, (s.proc m).isthread = true →
    ∀ q, ¬IsWorker s m q
  | .thread_join c thread => ∀ p ∈ (s.cpu c).proc, ∀ i : Fin (MAXTHREAD + 1), i.val = thread →
    ∀ t ∈ (s.proc p).threads i, (s.proc t).state ≠ .ZOMBIE
  | _ => True

instance (s : State n) (a : Action n) : Decidable (Clears s a) :=
  match a with
  | .fork _ false => inferInstanceAs (Decidable (_ = none))
  | .forkDone _ false => inferInstanceAs (Decidable False)
  | .exit _ | .thread_join _ _ => inferInstanceAs (Decidable (∀ _, _))
  | .fork _ true | .forkDone _ true | .scheduler _ | .tick _ | .boost _ | .yield _ | .sleep _ _
  | .wakeup _ | .kill _ | .wait _ | .set_cpu_share _ _ | .thread_create _ | .threadReady _
  | .thread_exit _ => inferInstanceAs (Decidable True)

/-- Free entries have no pid. -/
def Cleared (l : Links) : Prop := ∀ q, (l q).life = .unused → (l q).pid = 0

variable {round : Int → Int} {s t u : State n} {a : Action n} {r : Next n} {c : Fin n}
  {p q m w : Slot} {f : Proc → Proc}

/-! ### One call -/

/-- A call for a pid that nobody has changes nothing unless a free entry has it. -/
private theorem sys_kill_dead {pid : Int} (hd : Dead s pid) :
    sys_kill s pid = .ok (s, -1) ↔ ¬Stale s pid := by
  cases pid with
  | negSucc k =>
    constructor
    · rintro _ ⟨p, _, hp⟩
      exact absurd hp (Int.natCast_nonneg _ |>.trans_lt' (Int.negSucc_lt_zero k)).ne'
    · exact fun _ ↦ rfl
  | ofNat k =>
    have hstale : Stale s (Int.ofNat k) ↔ findPid s k ≠ none := by
      constructor
      · rintro ⟨p, _, hp⟩ hnone
        apply List.find?_eq_none.mp hnone p (List.mem_finRange p)
        exact decide_eq_true (Int.ofNat.inj hp)
      · intro hsome
        obtain ⟨p, hp⟩ := Option.ne_none_iff_exists'.mp hsome
        unfold findPid at hp
        have hpid : ((s.proc p).pid : Int) = Int.ofNat k := by
          simpa using List.find?_some hp
        exact ⟨p, not_not.mp fun hs ↦ hd p hs hpid, hpid⟩
    rw [hstale, not_not]
    constructor
    · intro h
      obtain ⟨t, _, h⟩ := bind_eq_ok.mp h
      by_contra hsome
      rw [if_neg hsome] at h
      cases h
    · intro hnone
      have hkill : kill s k = .ok s := by
        unfold findPid at hnone
        unfold kill
        rw [hnone]
      apply bind_eq_ok.mpr
      exact ⟨s, hkill, by rw [if_pos hnone]⟩

/-! ### Entries that are freed -/

private theorem cleared_modify (h : Cleared s.links)
    (hf : (f (s.proc p)).state = .UNUSED → (f (s.proc p)).pid = 0) :
    Cleared (s.modify p f).links := by
  intro q
  rw [links_apply, modify_proc]
  split
  · intro hl
    apply hf
    revert hl
    unfold Proc.link
    cases (f (s.proc p)).state with
    | UNUSED => exact fun _ ↦ rfl
    | _ => exact nofun
  · exact h q

/-- A process gets another state, or a field that is no link. -/
private theorem cleared_state (h : Cleared s.links) (hf : ∀ v, (f v).state ≠ .UNUSED) :
    Cleared (s.modify p f).links := cleared_modify h fun hs ↦ absurd hs (hf _)

private theorem cleared_field (h : Cleared s.links) (hs : ∀ v, (f v).state = v.state)
    (hp : ∀ v, (f v).pid = v.pid) : Cleared (s.modify p f).links := by
  apply cleared_modify h
  rw [hs, hp]
  intro hu
  exact h p (life_of_state hu)

private theorem cleared_yield (h : Cleared s.links) : Cleared (yield s c p).state.links := by
  unfold yield Next.state
  exact cleared_state h fun _ ↦ nofun

private theorem cleared_sleep {chan : Chan} (h : Cleared s.links) :
    Cleared (sleep s c p chan).state.links := by
  unfold sleep Next.state
  exact cleared_state h fun _ ↦ nofun

private theorem cleared_kill {pid : Nat} (h : Cleared s.links) (hk : kill s pid = .ok t) :
    Cleared t.links := by
  rcases kill_ok hk with rfl | ⟨p, _, _, hw⟩
  · exact h
  · intro q
    obtain ⟨b, x, hq, hx⟩ := hw q
    rw [links_apply, hq]
    rcases hx with rfl | ⟨rfl, _⟩ | ⟨_, rfl, _⟩
    · exact h q
    · exact nofun
    · exact nofun

private theorem cleared_fork {b : Bool} (h : Cleared s.links) (hc : Clears s (.fork c b)) :
    Cleared (fork s p b).links := by
  unfold fork
  obtain ha | ⟨w, hw, rfl, _⟩ | ⟨w, _, rfl, ha⟩ := allocproc_cases s b
  · rw [ha]
    exact cleared_field h (fun _ ↦ rfl) fun _ ↦ rfl
  · cases hw.symm.trans hc
  · rw [ha]
    have hfresh : Cleared (s.modify w (Proc.fresh w s.nextpid)).links :=
      cleared_state h fun _ ↦ nofun
    exact cleared_field (s := { s.modify w (Proc.fresh w s.nextpid) with nextpid := s.nextpid + 1 })
      hfresh (fun _ ↦ rfl) fun _ ↦ rfl

private theorem cleared_allocthread (h : Cleared s.links) (ha : allocthread s m = .ok (t, w)) :
    Cleared t.links := by
  obtain ⟨_, _, th, i, rfl⟩ := allocthread_ok ha
  have hnew : Cleared (s.modify w fun v ↦ { v with
      state := .EMBRYO, pid := s.nextpid, qlev := 0, qticks := 0, tickets := 0, pass := 0,
      np := none, trapped := false }).links := cleared_state h fun _ ↦ nofun
  refine cleared_field ?_ (fun _ ↦ rfl) fun _ ↦ rfl
  refine cleared_field ?_ (fun _ ↦ rfl) fun _ ↦ rfl
  refine cleared_field ?_ (fun _ ↦ rfl) fun _ ↦ rfl
  refine cleared_field ?_ (fun _ ↦ rfl) fun _ ↦ rfl
  exact hnew

private theorem cleared_exit (h : Cleared s.links) (hp : caller s c = .ok p)
    (hm : exiting s p = some m) (hc : Clears s (.exit c)) : Cleared (exited s m).links := by
  rw [links_exited]
  intro q
  simp only [Links.exit]
  split
  · intro hunused
    cases hunused
  · split
    · next hw => exact absurd hw.2 (hc p (cpu_of_caller hp) m hm hw.1 q)
    · exact h q

/-- What a step frees has no pid. -/
private theorem cleared_enters (h : Cleared s.links) (hc : Clears s a) (he : Enters round s a r) :
    Cleared r.state.links := by
  cases he with
  | scheduler hs =>
    unfold Next.state
    rw [links_scheduler hs]
    exact h
  | tickIdle => exact h
  | tickYield =>
    apply cleared_yield
    refine cleared_field ?_ (fun _ ↦ rfl) fun _ ↦ rfl
    rw [links_charged]
    exact h
  | tickStay =>
    unfold Next.state
    rw [links_boost, links_charged]
    exact h
  | tickGroup =>
    apply cleared_yield
    rw [links_check_on_timer]
    refine cleared_field ?_ (fun _ ↦ rfl) fun _ ↦ rfl
    rw [links_strode]
    exact h
  | tickStride =>
    apply cleared_yield
    rw [links_strode]
    exact h
  | boost =>
    unfold Next.state
    rw [links_boost]
    exact h
  | yield => exact cleared_yield h
  | sleep => exact cleared_sleep h
  | wakeup =>
    unfold Next.state
    rw [links_wakeup1]
    exact h
  | kill hk => exact cleared_kill h hk
  | fork => exact cleared_fork h hc
  | forkReady =>
    unfold Next.state mlfq_enqueue
    rw [links_enqueue]
    refine cleared_state ?_ fun _ ↦ nofun
    exact cleared_field h (fun _ ↦ rfl) fun _ ↦ rfl
  | forkFail => exact hc.elim
  | exit hp hm => exact cleared_exit h hp hm hc
  | reap =>
    unfold Next.state
    exact cleared_modify h fun _ ↦ rfl
  | childless => exact h
  | wait => exact cleared_sleep h
  | refused => exact h
  | granted =>
    unfold Next.state
    rw [links_granted]
    exact h
  | thread_create _ _ ha =>
    unfold Next.state
    exact cleared_field (cleared_allocthread h ha) (fun _ ↦ rfl) fun _ ↦ rfl
  | threadReady =>
    unfold Next.state
    refine cleared_state ?_ fun _ ↦ nofun
    refine cleared_field ?_ (fun _ ↦ rfl) fun _ ↦ rfl
    refine cleared_field ?_ (fun _ ↦ rfl) fun _ ↦ rfl
    exact cleared_field h (fun _ ↦ rfl) fun _ ↦ rfl
  | thread_exit =>
    unfold Next.state
    refine cleared_field ?_ (fun _ ↦ rfl) fun _ ↦ rfl
    refine cleared_state ?_ fun _ ↦ nofun
    rw [links_wakeup1]
    exact h
  | join => exact cleared_sleep h
  | joined hp hi ht hz => exact absurd hz (hc _ (cpu_of_caller hp) _ (congrArg Fin.val hi) _ ht)

private theorem cleared_step (h : Cleared s.links) (hc : Clears s a) (hs : step round s a = .ok t) :
    Cleared t.links := by
  rcases step_cases hs with he | ⟨u, c, p, v, back, he, _, hl, hv⟩
  · exact cleared_enters h hc he
  · have hu : Cleared u.links := cleared_enters h hc he
    have hv' : t.links = v.links := by
      rcases hv with ⟨_, rfl⟩ | ⟨_, hv⟩
      · rfl
      · exact links_leave hv
    rw [hv']
    rcases links_leaves hl with hv | ⟨m, _, _, _, hv⟩
    · rw [hv]
      exact hu
    · intro q
      rw [hv]
      simp only [Links.rouse]
      split
      · intro hunused
        cases hunused
      · exact hu q

private theorem cleared_boot : Cleared (boot n).links := by
  intro q
  rw [links_apply, boot_proc]
  split
  · exact nofun
  · exact fun _ ↦ rfl

/-- `kill` of a pid that no process has returns -1 and changes nothing if and only if no free entry
has the pid; and but for pid 0 none has it as long as entries are freed in `wait` only. -/
theorem kill_of_dead {as : List (Action n)} {pid : Int}
    (h : exec (step round) (boot n) as = .ok s) (hd : Dead s pid) :
    (sys_kill s pid = .ok (s, -1) ↔ ¬Stale s pid) ∧
      (Along (step round) Clears (boot n) as → pid ≠ 0 → ¬Stale s pid) := by
  refine ⟨sys_kill_dead hd, fun hc h0 ⟨p, hp, hpid⟩ ↦ h0 ?_⟩
  have hcleared : Cleared s.links :=
    hc.invariant (I := fun s ↦ Cleared s.links) (fun _ _ _ hi hc hs ↦ cleared_step hi hc hs)
      cleared_boot h
  rw [← hpid]
  exact congrArg Int.ofNat (hcleared p (life_of_state hp))

end

section

/-- The first process creates two threads; the first one exits and is joined. -/
def joinsFirst : List (Action 1) :=
  [.scheduler cpu0, .thread_create cpu0, .threadReady cpu0, .thread_create cpu0, .threadReady cpu0,
    .yield cpu0, .thread_exit cpu0, .yield cpu0, .thread_join cpu0 1]

/-- `kill` of the thread that was joined returns 0 and ends the other one. -/
theorem joinsFirst_kills : (exec (step float) (boot 1) joinsFirst).isOk = true ∧
    Dead (final (step float) (boot 1) joinsFirst) 2 ∧
    ((final (step float) (boot 1) joinsFirst).proc 2).state = .RUNNABLE ∧
    ∃ t, sys_kill (final (step float) (boot 1) joinsFirst) 2 = .ok (t, 0) ∧
      (t.proc 2).state = .ZOMBIE := by
  refine ⟨by decide +kernel, by decide +kernel, by decide +kernel, ?_⟩
  have h : (match sys_kill (final (step float) (boot 1) joinsFirst) 2 with
      | .ok (t, x) => decide (x = 0 ∧ (t.proc 2).state = .ZOMBIE)
      | .error _ => false) = true := by decide +kernel
  split at h
  · next t x hk =>
    obtain ⟨rfl, hz⟩ := of_decide_eq_true h
    exact ⟨t, hk, hz⟩
  · cases h

/-- The first process forks, the child exits and is waited for. -/
def waitsForChild : List (Action 1) :=
  [.scheduler cpu0, .fork cpu0 true, .forkDone cpu0 true, .sleep cpu0 (.object 0), .scheduler cpu0,
    .exit cpu0, .wakeup (.object 0), .scheduler cpu0, .wait cpu0]

/-- The entry of the child has been freed in `wait`. -/
theorem kill_of_dead_waitsForChild :
    sys_kill (final (step float) (boot 1) waitsForChild) 2 =
      .ok (final (step float) (boot 1) waitsForChild, -1) := by
  have hrun : (exec (step float) (boot 1) waitsForChild).isOk = true := by decide +kernel
  have hd : Dead (final (step float) (boot 1) waitsForChild) 2 := by decide +kernel
  have hc : Along (step float) Clears (boot 1) waitsForChild := by decide +kernel
  obtain ⟨hiff, hstale⟩ := kill_of_dead (exec_final hrun) hd
  exact hiff.mpr (hstale hc (by decide))

end

end Xv6.Sched
