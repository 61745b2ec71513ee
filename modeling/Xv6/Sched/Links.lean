import Xv6.Sched.Kill

/-!
# How processes and threads are linked

The fields of an entry that say whether it is in use, whose child it is and whose thread, apart
from those of the schedulers. `Relinks` lists what the calls do to them. What follows in `sched`
leaves them alone, but for the master of a group without threads, which is switched to in
whatever state it is.
-/

namespace Xv6.Sched

open Function Lib

/-- What the links depend on of `enum procstate`. -/
inductive Life where
  | unused | embryo | alive | zombie
  deriving DecidableEq

/-- The life of a process in a given state. -/
def ProcState.life : ProcState → Life
  | .UNUSED => .unused
  | .EMBRYO => .embryo
  | .SLEEPING | .RUNNABLE | .RUNNING => .alive
  | .ZOMBIE => .zombie

/-- The links of an entry of `ptable.proc`. -/
structure Link where
  life : Life
  pid : Nat
  parent : Ptr
  threads : Fin (MAXTHREAD + 1) → Ptr
  t_cnt : Int
  isthread : Bool
  tid : Fin (MAXTHREAD + 1)
  master : Ptr
  np : Ptr

def Proc.link (v : Proc) : Link :=
  ⟨v.state.life, v.pid, v.parent, v.threads, v.t_cnt, v.isthread, v.tid, v.master, v.np⟩

/-- The links of all entries. -/
abbrev Links := Slot → Link

def State.links {n : Nat} (s : State n) : Links := fun p ↦ (s.proc p).link

/-! ### What the calls do -/

namespace Links

variable (l : Links)

/-- `q` is in `threads` of `m` at index `i`, where the workers are. -/
def Lists (m : Slot) (i : Fin (MAXTHREAD + 1)) (q : Slot) : Prop :=
  i ≠ 0 ∧ (l m).threads i = some q

/-- `q` is a worker of `m`. -/
def Worker (m q : Slot) : Prop := ∃ i, l.Lists m i q

instance (m q : Slot) : Decidable (l.Worker m q) :=
  inferInstanceAs (Decidable (∃ i, i ≠ 0 ∧ (l m).threads i = some q))

/-- `allocproc` takes `w` and fails. -/
def lost (w : Slot) (pid : Nat) : Links := fun q ↦
  { l q with pid := if q = w then pid else (l q).pid }

/-- `allocproc` takes `w` for the `fork` of `p`. -/
def fork (p w : Slot) (pid : Nat) : Links := fun q ↦
  { l q with
    life := if q = w then .embryo else (l q).life
    pid := if q = w then pid else (l q).pid
    threads := fun i ↦ if q = w then if i = 0 then some w else none else (l q).threads i
    t_cnt := if q = w then 0 else (l q).t_cnt
    isthread := if q = w then false else (l q).isthread
    master := if q = w then some w else (l q).master
    np := if q = p then some w else if q = w then none else (l q).np }

/-- `fork` returns with the child `w` of `p`. -/
def forkReady (p w : Slot) : Links := fun q ↦
  { l q with
    life := if q = w then .alive else (l q).life
    parent := if q = w then some p else (l q).parent
    np := if q = p then none else (l q).np }

/-- `fork` gives `w` back. -/
def forkFail (p w : Slot) : Links := fun q ↦
  { l q with
    life := if q = w then .unused else (l q).life
    np := if q = p then none else (l q).np }

/-- `allocthread` takes `w` for a `thread_create` of `p` in the group of `m`, and puts it at index
`i`, if there is a free one. -/
def create (p m w : Slot) (i : Option (Fin (MAXTHREAD + 1))) (pid : Nat) : Links := fun q ↦
  { l q with
    life := if q = w then .embryo else (l q).life
    pid := if q = w then pid else (l q).pid
    threads := fun j ↦ if q = m ∧ i = some j then some w else (l q).threads j
    t_cnt := if q = m then (l q).t_cnt + 1 else (l q).t_cnt
    isthread := if q = w then true else (l q).isthread
    tid := if q = w then i.getD (l q).tid else (l q).tid
    np := if q = p then some w else if q = w then none else (l q).np }

/-- `thread_create` returns with the worker `w` of `m`. -/
def ready (p m w : Slot) : Links := fun q ↦
  { l q with
    life := if q = w then .alive else (l q).life
    master := if q = w then some m else (l q).master
    isthread := if q = m then true else (l q).isthread
    np := if q = p then none else (l q).np }

/-- `p` ends in `thread_exit`, as a thread of `m`. -/
def quit (p m : Slot) : Links := fun q ↦
  { l q with
    life := if q = p then .zombie else (l q).life
    t_cnt := if q = m then (l q).t_cnt - 1 else (l q).t_cnt }

/-- `p` joins its worker `t`. -/
def join (p t : Slot) : Links := fun q ↦
  { l q with
    life := if q = t then .unused else (l q).life
    threads := fun j ↦ if q = p ∧ j = (l t).tid then none else (l q).threads j
    isthread := if q = p ∧ (l q).t_cnt = 0 then false else (l q).isthread }

/-- `kill` marks `p`. -/
def kill (p : Slot) : Links := fun q ↦
  { l q with
    life := if (l p).isthread = true ∧ ∃ m, (l p).master = some m ∧ l.Worker m q then .zombie
      else (l q).life }

/-- `m` ends in `exit`, and its children are given to `init`. -/
def exit (m : Slot) (init : Ptr) : Links := fun q ↦
  { l q with
    life := if q = m then .zombie
      else if (l m).isthread = true ∧ l.Worker m q then .unused
      else (l q).life
    parent := if (l q).parent = some m then init else (l q).parent
    threads := fun j ↦ if q = m ∧ (l m).isthread = true ∧ j ≠ 0 then none else (l q).threads j
    t_cnt := if q = m ∧ (l m).isthread = true then 0 else (l q).t_cnt }

/-- `wait` frees `q`. -/
def reap (w : Slot) : Links := fun q ↦
  { l q with
    life := if q = w then .unused else (l q).life
    pid := if q = w then 0 else (l q).pid
    parent := if q = w then none else (l q).parent }

/-- `m` is switched to. -/
def rouse (m : Slot) : Links := fun q ↦ { l q with life := if q = m then .alive else (l q).life }

theorem rouse_of_alive {l : Links} {m : Slot} (h : (l m).life = .alive) : l.rouse m = l := by
  funext q
  unfold rouse
  split
  · next hq =>
    subst hq
    rw [← h]
  · rfl

end Links

/-! ### Calls -/

section

variable {n : Nat}

/-- The CPU on which a system call is made. -/
def Action.call : Action n → Option (Fin n)
  | .yield c | .sleep c _ | .fork c _ | .forkDone c _ | .exit c | .wait c | .set_cpu_share c _
  | .thread_create c | .threadReady c | .thread_exit c | .thread_join c _ => some c
  | _ => none

/-- The process that makes the call has not been ended while it executes. -/
def CallerLives (s : State n) (a : Action n) : Prop :=
  ∀ c ∈ a.call, ∀ p ∈ (s.cpu c).proc, (s.proc p).state.life = .alive

instance (s : State n) (a : Action n) : Decidable (CallerLives s a) :=
  inferInstanceAs (Decidable (∀ c ∈ a.call, ∀ p ∈ (s.cpu c).proc, _))

/-- The steps that do not touch the links. -/
def Action.Quiet : Action n → Prop
  | .scheduler _ | .tick _ | .boost _ | .yield _ | .sleep _ _ | .wakeup _ | .set_cpu_share _ _ =>
    True
  | _ => False

/-- What a step up to its call of `sched` makes of the links, if its caller is alive. -/
inductive Relinks (s : State n) : Action n → Links → Prop
  | quiet {a : Action n} (ha : a.Quiet) : Relinks s a s.links
  | full {c p b} (hp : caller s c = .ok p) (hw : findUnused s = none) :
      Relinks s (.fork c b) s.links
  | lost {c p w} (hp : caller s c = .ok p) (hw : findUnused s = some w) :
      Relinks s (.fork c false) (s.links.lost w s.nextpid)
  | fork {c p w} (hp : caller s c = .ok p) (hw : findUnused s = some w) :
      Relinks s (.fork c true) (s.links.fork p w s.nextpid)
  | forkReady {c p w} (hp : current s c = .ok p) (hnp : (s.proc p).np = some w) :
      Relinks s (.forkDone c true) (s.links.forkReady p w)
  | forkFail {c p w} (hp : current s c = .ok p) (hnp : (s.proc p).np = some w) :
      Relinks s (.forkDone c false) (s.links.forkFail p w)
  | create {c p m w i} (hp : caller s c = .ok p) (hm : (s.proc p).master = some m)
      (hw : findUnused s = some w) (hcnt : (s.proc m).t_cnt < MAXTHREAD)
      (hi : ∀ j, i = some j → j ≠ 0 ∧ (s.proc m).threads j = none)
      (hfull : i = none → ∀ j, j ≠ 0 → (s.proc m).threads j ≠ none) :
      Relinks s (.thread_create c) (s.links.create p m w i s.nextpid)
  | ready {c p m w} (hp : current s c = .ok p) (hm : (s.proc p).master = some m)
      (hnp : (s.proc p).np = some w) : Relinks s (.threadReady c) (s.links.ready p m w)
  | quit {c p m} (hp : caller s c = .ok p) (hm : (s.proc p).master = some m) :
      Relinks s (.thread_exit c) (s.links.quit p m)
  | awaits {c p t} {thread : Nat} {i : Fin (MAXTHREAD + 1)} (hp : caller s c = .ok p)
      (hi : i = thread) (ht : (s.proc p).threads i = some t) (hz : (s.proc t).state ≠ .ZOMBIE) :
      Relinks s (.thread_join c thread) s.links
  | join {c p t} {thread : Nat} {i : Fin (MAXTHREAD + 1)} (hp : caller s c = .ok p)
      (hi : i = thread) (ht : (s.proc p).threads i = some t) (hz : (s.proc t).state = .ZOMBIE) :
      Relinks s (.thread_join c thread) (s.links.join p t)
  | nobody {pid} (hp : findPid s pid = none) : Relinks s (.kill pid) s.links
  | kill {pid p} (hp : findPid s pid = some p) : Relinks s (.kill pid) (s.links.kill p)
  | exit {c p m} (hp : caller s c = .ok p) (hm : exiting s p = some m) (hi : s.initproc ≠ some m) :
      Relinks s (.exit c) (s.links.exit m s.initproc)
  | waits {c p} (hp : caller s c = .ok p) (hq : zombieChild s p = none) :
      Relinks s (.wait c) s.links
  | reap {c p q} (hp : caller s c = .ok p) (hq : zombieChild s p = some q) :
      Relinks s (.wait c) (s.links.reap q)

/-! ### The functions of the kernel -/

variable {s t u : State n} {a : Action n} {r : Next n} {c : Fin n} {p q m w : Slot}

theorem links_apply : s.links p = (s.proc p).link := rfl

theorem life_of_state {x : ProcState} (h : (s.proc p).state = x) :
    (s.links p).life = x.life := by
  rw [← h]
  rfl

theorem links_modify {f : Proc → Proc} (h : (f (s.proc p)).link = (s.proc p).link) :
    (s.modify p f).links = s.links := by
  funext q
  exact modify_field Proc.link h

/-- `wakeup1` makes ready what sleeps, and both are alive. -/
theorem links_wakeup1 {chan : Option Chan} : (wakeup1 s chan).links = s.links := by
  funext q
  rw [links_apply, links_apply]
  rcases wakeup1_wakes s chan q with h | ⟨hs, _, h⟩
  · rw [h]
  · rw [h]
    simp [Proc.link, hs, ProcState.life]

theorem links_get_next_thread : (get_next_thread s m).1.links = s.links := by
  funext q
  exact get_next_thread_field Proc.link fun _ _ ↦ rfl

theorem links_check_on_timer : (check_on_timer s m).links = s.links := by
  funext q
  exact check_on_timer_field Proc.link fun _ _ _ _ ↦ rfl

theorem links_boost : (boost s p).links = s.links := by
  funext q
  exact boost_field Proc.link (fun _ _ _ ↦ rfl) fun _ _ ↦ rfl

theorem links_charged {round : Int → Int} : (charged round s m).links = s.links := by
  unfold charged
  dsimp only
  rw [links_check_on_timer]
  funext q
  rw [links_apply, links_apply]
  dsimp only
  exact modify_field Proc.link rfl

theorem links_strode {round : Int → Int} : (strode round s p).links = s.links := by
  funext q
  rw [links_apply, links_apply]
  dsimp only [strode]
  exact modify_field Proc.link rfl

theorem links_enqueue {k : Class} : (enqueue s k p).1.links = s.links := by
  unfold State.links
  rw [enqueue_proc]

theorem links_dequeue {k : Class} : (dequeue s k).1.links = s.links := by
  unfold State.links
  rw [dequeue_proc]

theorem links_swtchScheduler : (swtchScheduler s c).links = s.links := by
  unfold State.links
  rw [swtchScheduler_proc]

theorem links_granted {round : Int → Int} {x : Int} : (granted round s p x).links = s.links := by
  unfold granted
  dsimp only [stride_enqueue]
  rw [links_enqueue]
  funext q
  rw [links_apply, links_apply]
  exact modify_field Proc.link rfl

/-- A process that is alive goes on in another state. -/
theorem links_yield (h : (s.proc p).state.life = .alive) : (yield s c p).state.links = s.links := by
  dsimp only [yield, Next.state]
  apply links_modify
  unfold Proc.link
  rw [h]
  rfl

theorem links_sleep {chan : Chan} (h : (s.proc p).state.life = .alive) :
    (sleep s c p chan).state.links = s.links := by
  dsimp only [sleep, Next.state]
  apply links_modify
  unfold Proc.link
  rw [h]
  rfl

theorem links_switchTo : (switchTo s c q).links = s.links.rouse q := by
  funext x
  rw [links_apply, switchTo_proc, modify_proc, Links.rouse, links_apply]
  split
  · next h =>
    subst h
    rfl
  · rfl

private theorem links_park {k : Class} (hu : park (dequeue s k).1 k p = .ok u) :
    (enqueue u k p).1.links = s.links := by
  obtain ⟨_, _, _, rfl, _⟩ := park_ok hu
  rw [links_enqueue, links_modify rfl, links_dequeue]

/-- `scheduler()` switches to a process that is alive. -/
theorem links_scheduler (h : scheduler s c = .ok t) : t.links = s.links := by
  obtain ⟨_, _, h⟩ := picks h
  cases h with
  | empty => rfl
  | drop => exact links_dequeue
  | parked _ _ _ _ hu => exact links_park hu
  | asleep _ _ _ _ hu =>
    rw [links_get_next_thread]
    exact links_park hu
  | @worker p q u _ _ _ hs hu _ hn =>
    have hlinks := links_park hu
    have hq : (s.links q).life = .alive := by
      rcases get_next_thread_snd hn with ⟨_, rfl⟩ | ⟨_, hr, _⟩
      · simp [links_apply, Proc.link, hs, ProcState.life]
      · rw [← hlinks]
        simp only [links_apply, Proc.link, hr, ProcState.life]
    show (switchTo _ c q).links = _
    rw [links_switchTo, links_get_next_thread, hlinks, Links.rouse_of_alive hq]
  | @run p _ _ _ hr =>
    show (switchTo _ c p).links = _
    rw [links_switchTo, links_dequeue]
    apply Links.rouse_of_alive
    simp [links_apply, Proc.link, hr, ProcState.life]

theorem links_freeThreads : (freeThreads s m).links = fun q ↦
    { s.links q with
      life := if s.links.Worker m q then .unused else (s.links q).life
      threads := fun i ↦ if q = m ∧ i ≠ 0 then none else (s.links q).threads i
      t_cnt := if q = m then 0 else (s.links q).t_cnt } := by
  have hworker : ∀ q, IsWorker s m q ↔ s.links.Worker m q := fun _ ↦ Iff.rfl
  funext q
  unfold freeThreads
  rw [links_apply, modify_proc]
  by_cases hq : q = m
  · subst hq
    by_cases hw : IsWorker s q q
    · simp [hw, (hworker q).mp hw, Proc.link, ProcState.life, links_apply, ite_not]
    · simp [hw, (hworker q).not.mp hw, Proc.link, links_apply, ite_not]
  · by_cases hw : IsWorker s m q
    · simp [hq, hw, (hworker q).mp hw, Proc.link, ProcState.life, links_apply]
    · simp [hq, hw, (hworker q).not.mp hw, Proc.link, links_apply]

theorem links_abandonChildren : (abandonChildren s m).links = fun q ↦
    { s.links q with
      parent := if (s.links q).parent = some m then s.initproc else (s.links q).parent } := by
  have hgive : ∀ q, (if (s.proc q).parent = some m then { s.proc q with parent := s.initproc }
      else s.proc q).link = { s.links q with
        parent := if (s.links q).parent = some m then s.initproc else (s.links q).parent } := by
    intro q
    by_cases hq : (s.proc q).parent = some m
    · simp [hq, links_apply, Proc.link]
    · simp [hq, links_apply, Proc.link]
  funext q
  unfold abandonChildren
  dsimp only
  split
  · rw [links_wakeup1]
    exact hgive q
  · exact hgive q

private theorem links_end : (s.modify m fun v ↦ { v with state := .ZOMBIE }).links = fun q ↦
    { s.links q with life := if q = m then .zombie else (s.links q).life } := by
  funext q
  rw [links_apply, modify_proc]
  split
  · next hq =>
    subst hq
    rfl
  · rfl

theorem links_exited : (exited s m).links = s.links.exit m s.initproc := by
  have hi : (s.links m).isthread = (s.proc m).isthread := rfl
  unfold exited
  dsimp only
  rw [links_end, links_abandonChildren, wakeup1_initproc, links_wakeup1]
  by_cases hth : (s.proc m).isthread = true
  · rw [if_pos hth, links_freeThreads, freeThreads_initproc]
    funext q
    simp [Links.exit, hi, hth]
  · rw [if_neg hth]
    funext q
    simp [Links.exit, hi, hth]

/-! ### Allocation -/

theorem links_fork (hp : (s.proc p).state.life = .alive) (hw : findUnused s = some w) :
    (fork s p true).links = s.links.fork p w s.nextpid := by
  have hpw : p ≠ w := by
    rintro rfl
    rw [state_of_findUnused hw] at hp
    cases hp
  unfold fork
  obtain ha | ⟨x, hx, hf, ha⟩ | ⟨x, hx, _, ha⟩ := allocproc_cases s true
  · simp [allocproc, hw] at ha
  · cases hf
  · rw [hw] at hx
    cases hx
    rw [ha]
    funext q
    rw [links_apply]
    dsimp only
    by_cases hq : q = p
    · subst hq
      simp [modify_proc, hpw, Links.fork, links_apply, Proc.link]
    · by_cases hqw : q = w
      · subst hqw
        simp [modify_proc, hq, Links.fork, links_apply, Proc.link, Proc.fresh, ProcState.life]
      · simp [modify_proc, hq, hqw, Links.fork, links_apply, Proc.link]

private theorem links_np (h : (s.proc p).np = none) :
    (s.modify p fun v ↦ { v with np := none }).links = s.links := by
  apply links_modify
  unfold Proc.link
  rw [h]

theorem links_full {b : Bool} (hnp : (s.proc p).np = none) (hw : findUnused s = none) :
    (fork s p b).links = s.links := by
  unfold fork allocproc
  rw [hw]
  exact links_np hnp

theorem links_lost (hnp : (s.proc p).np = none) (hw : findUnused s = some w) :
    (fork s p false).links = s.links.lost w s.nextpid := by
  have hnp' : ((s.modify w fun v ↦ { v with pid := s.nextpid }).proc p).np = none := by
    rw [modify_field (·.np) rfl, hnp]
  unfold fork allocproc
  rw [hw]
  apply (links_np hnp').trans
  funext q
  rw [links_apply, modify_proc, Links.lost, links_apply]
  split
  · next hq =>
    subst hq
    rfl
  · rfl

private theorem modify_at {f : Proc → Proc} :
    (s.modify p f).proc q = if q = p then f (s.proc q) else s.proc q := by
  rw [modify_proc]
  split
  · next hq => rw [hq]
  · rfl

theorem links_create (hw : allocthread s m = .ok (t, w)) :
    findUnused s = some w ∧ (s.proc m).t_cnt < MAXTHREAD ∧
    ∃ i, (∀ j, i = some j → j ≠ 0 ∧ (s.proc m).threads j = none) ∧
      (i = none → ∀ j, j ≠ 0 → (s.proc m).threads j ≠ none) ∧
      (t.modify p fun v ↦ { v with np := some w }).links = s.links.create p m w i s.nextpid := by
  unfold allocthread at hw
  split at hw
  · cases hw
  · next hcnt =>
    cases hf : findUnused s with
    | none => simp [hf] at hw
    | some x =>
      rw [hf] at hw
      dsimp only [modify_threads] at hw
      generalize hi : ((List.finRange (MAXTHREAD + 1)).find? fun i ↦
        i ≠ 0 ∧ ((s.modify x fun v ↦ { v with
        state := .EMBRYO, pid := s.nextpid, qlev := 0, qticks := 0, tickets := 0, pass := 0,
        np := none, trapped := false }).proc m).threads i = none) = i at hw
      have hth : ∀ j, ((s.modify x fun v ↦ { v with
          state := .EMBRYO, pid := s.nextpid, qlev := 0, qticks := 0, tickets := 0, pass := 0,
          np := none, trapped := false }).proc m).threads j = (s.proc m).threads j := by
        intro j
        rw [modify_field (·.threads) rfl]
      cases hw
      refine ⟨rfl, lt_of_not_ge hcnt, i, ?_, ?_, ?_⟩
      · rintro j rfl
        simpa [hth] using List.find?_some hi
      · rintro rfl j hj
        have hnone := List.find?_eq_none.mp hi j (List.mem_finRange j)
        simpa [hth, hj] using hnone
      · have hput : ∀ (th : Fin (MAXTHREAD + 1) → Ptr) j x,
            update th j x = fun k ↦ if j = k then x else th k := by
          intro th j x
          funext k
          simp [update_apply, eq_comm]
        clear hi hth hcnt
        funext q
        cases i with
        | none =>
          simp only [links_apply, modify_at, Links.create]
          split_ifs <;> simp_all [Proc.link, ProcState.life]
        | some j =>
          simp only [links_apply, modify_at, Links.create, hput]
          split_ifs <;> simp_all [Proc.link, ProcState.life]

/-! ### The steps -/

private theorem links_ready : ((((s.modify p fun v ↦ { v with np := none }).modify w fun v ↦
    { v with master := some m }).modify m fun v ↦ { v with isthread := true }).modify w
      fun v ↦ { v with state := .RUNNABLE }).links = s.links.ready p m w := by
  funext q
  simp only [links_apply, modify_at, Links.ready]
  split_ifs <;> simp_all [Proc.link, ProcState.life]

private theorem links_forkReady : ((s.modify p fun v ↦ { v with np := none }).modify w fun v ↦
    { v with parent := some p, state := .RUNNABLE }).links = s.links.forkReady p w := by
  funext q
  simp only [links_apply, modify_at, Links.forkReady]
  split_ifs <;> simp_all [Proc.link, ProcState.life]

private theorem links_forkFail : ((s.modify p fun v ↦ { v with np := none }).modify w fun v ↦
    { v with state := .UNUSED }).links = s.links.forkFail p w := by
  funext q
  simp only [links_apply, modify_at, Links.forkFail]
  split_ifs <;> simp_all [Proc.link, ProcState.life]

private theorem links_quit {chan : Option Chan} :
    (((wakeup1 s chan).modify p fun v ↦ { v with state := .ZOMBIE }).modify m
      fun v ↦ { v with t_cnt := v.t_cnt - 1 }).links = s.links.quit p m := by
  have hwakeup : (wakeup1 s chan).links = s.links := links_wakeup1
  rw [← hwakeup]
  generalize wakeup1 s chan = u
  funext q
  simp only [links_apply, modify_at, Links.quit]
  split_ifs <;> simp_all [Proc.link, ProcState.life]

private theorem links_join : ((s.modify p fun v ↦ { v with
    threads := update v.threads (s.proc w).tid none
    isthread := if v.t_cnt = 0 then false else v.isthread }).modify w fun v ↦
      { v with state := .UNUSED }).links = s.links.join p w := by
  have hput : ∀ (th : Fin (MAXTHREAD + 1) → Ptr) j x,
      update th j x = fun k ↦ if k = j then x else th k := by
    intro th j x
    funext k
    simp [update_apply]
  funext q
  simp only [links_apply, modify_at, Links.join, hput]
  split_ifs <;> simp_all [Proc.link, ProcState.life]

private theorem links_reap : (s.modify q fun v ↦ { v with
    pid := 0, parent := none, killed := false, state := .UNUSED }).links = s.links.reap q := by
  funext x
  simp only [links_apply, modify_at, Links.reap]
  split_ifs <;> simp_all [Proc.link, ProcState.life]

private theorem links_kill {pid : Nat} (hp : findPid s pid = some p) (h : kill s pid = .ok t) :
    t.links = s.links.kill p := by
  funext q
  rw [links_apply, kill_proc hp h]
  unfold killedEntry Links.kill
  by_cases hq : Doomed s p q
  · have hd : (s.links p).isthread = true ∧
        ∃ m, (s.links p).master = some m ∧ s.links.Worker m q := hq
    rw [if_pos hq, if_pos hd]
    rfl
  · have hd : ¬((s.links p).isthread = true ∧
        ∃ m, (s.links p).master = some m ∧ s.links.Worker m q) := hq
    rw [if_neg hq, if_neg hd]
    by_cases hs : q = p ∧ (s.proc q).state = .SLEEPING
    · rw [if_pos hs]
      unfold Proc.link
      simp [links_apply, Proc.link, ProcState.life, hs.2]
    · rw [if_neg hs]
      rfl

private theorem nobody_of_kill {pid : Nat} (hp : findPid s pid = none) (h : kill s pid = .ok t) :
    t = s := by
  unfold findPid at hp
  unfold kill at h
  rw [hp] at h
  cases h
  rfl

private theorem relinks_fork {kalloc : Bool} (hp : caller s c = .ok p)
    (hl : (s.proc p).state.life = .alive) :
    Relinks s (.fork c kalloc) (fork s p kalloc).links := by
  have hnp := (caller_eq_ok.mp hp).2
  cases hw : findUnused s with
  | none =>
    rw [links_full hnp hw]
    exact .full hp hw
  | some w =>
    cases kalloc with
    | false =>
      rw [links_lost hnp hw]
      exact .lost hp hw
    | true =>
      rw [links_fork hl hw]
      exact .fork hp hw

private theorem relinks_kill {pid : Nat} (h : kill s pid = .ok t) :
    Relinks s (.kill pid) t.links := by
  cases hp : findPid s pid with
  | none =>
    rw [nobody_of_kill hp h]
    exact .nobody hp
  | some p =>
    rw [links_kill hp h]
    exact .kill hp

private theorem relinks_wait {round : Int → Int} (hl : CallerLives s (.wait c))
    (h : enter round s (.wait c) = .ok r) : Relinks s (.wait c) r.state.links := by
  obtain ⟨p, hp, hr⟩ := bind_eq_ok.mp h
  cases hr
  unfold wait
  split
  · next q hq =>
    rw [Next.state, links_reap]
    exact .reap hp hq
  · next hq =>
    split
    · exact .waits hp hq
    · rw [links_sleep (hl c rfl p (cpu_of_caller hp))]
      exact .waits hp hq

private theorem relinks_join {round : Int → Int} {thread : Nat} (hl : CallerLives s (.thread_join c thread))
    (h : enter round s (.thread_join c thread) = .ok r) :
    Relinks s (.thread_join c thread) r.state.links := by
  obtain ⟨p, hp, h⟩ := bind_eq_ok.mp h
  unfold thread_join at h
  split at h
  · split at h
    · cases h
    · next t ht =>
      split at h
      · next hz =>
        cases h
        rw [links_sleep (hl c rfl p (cpu_of_caller hp))]
        exact .awaits hp rfl ht hz
      · next hz =>
        cases h
        rw [Next.state, links_join]
        exact .join hp rfl ht (not_not.mp hz)
  · cases h

/-- A timer interrupt ends in `yield` for a process that is running. -/
private theorem links_tick (hr : (s.proc p).state = .RUNNING) (ht : t.links = s.links) :
    (yield t c p).state.links = s.links := by
  have hp : (t.links p).life = .alive := by
    rw [ht, links_apply, Proc.link, hr]
    rfl
  rw [links_yield hp, ht]

/-- The links after the part of a step before its call of `sched`. -/
theorem relinks {round : Int → Int} (hl : CallerLives s a) (h : enter round s a = .ok r) :
    Relinks s a r.state.links := by
  cases enters h with
  | scheduler hs =>
    rw [Next.state, links_scheduler hs]
    exact .quiet trivial
  | tickIdle => exact .quiet trivial
  | tickYield _ hr =>
    rw [links_tick hr ((links_modify rfl).trans links_charged)]
    exact .quiet trivial
  | tickStay =>
    rw [Next.state, links_boost, links_charged]
    exact .quiet trivial
  | tickGroup _ hr =>
    rw [links_tick hr ((links_check_on_timer.trans (links_modify rfl)).trans links_strode)]
    exact .quiet trivial
  | tickStride _ hr =>
    rw [links_tick hr links_strode]
    exact .quiet trivial
  | boost =>
    rw [Next.state, links_boost]
    exact .quiet trivial
  | yield hp =>
    rw [links_yield (hl _ rfl _ (cpu_of_caller hp))]
    exact .quiet trivial
  | sleep hp =>
    rw [links_sleep (hl _ rfl _ (cpu_of_caller hp))]
    exact .quiet trivial
  | wakeup =>
    rw [Next.state, links_wakeup1]
    exact .quiet trivial
  | kill hk => exact relinks_kill hk
  | fork hp => exact relinks_fork hp (hl _ rfl _ (cpu_of_caller hp))
  | forkReady hp hnp =>
    rw [Next.state, mlfq_enqueue, links_enqueue, links_forkReady]
    exact .forkReady hp hnp
  | forkFail hp hnp =>
    rw [Next.state, links_forkFail]
    exact .forkFail hp hnp
  | exit hp hm hi =>
    rw [Next.state, links_exited]
    exact .exit hp hm hi
  | reap => exact relinks_wait hl h
  | childless => exact relinks_wait hl h
  | wait => exact relinks_wait hl h
  | refused => exact .quiet trivial
  | granted =>
    rw [Next.state, links_granted]
    exact .quiet trivial
  | thread_create hp hm ha =>
    obtain ⟨hw, hcnt, i, hi, hfull, hlinks⟩ := links_create ha
    rw [Next.state, hlinks]
    exact .create hp hm hw hcnt hi hfull
  | threadReady hp hnp hm =>
    rw [Next.state, links_ready]
    exact .ready hp hm hnp
  | thread_exit hp hm =>
    rw [Next.state, links_quit]
    exact .quit hp hm
  | join => exact relinks_join hl h
  | joined => exact relinks_join hl h

/-- A call of `sched` changes at most the life of the master, if its group has no threads. -/
theorem links_leaves {back : Bool} (h : Leaves s c p t back) : t.links = s.links ∨
    ∃ m, (s.links p).master = some m ∧ (s.links p).isthread = true ∧ (s.links m).t_cnt = 0 ∧
      t.links = s.links.rouse m := by
  cases h with
  | exhausted =>
    left
    rw [links_swtchScheduler, links_modify rfl]
  | plain => exact .inl links_swtchScheduler
  | idle =>
    left
    rw [links_swtchScheduler, links_get_next_thread]
  | back => exact .inl links_get_next_thread
  | @next m q hm _ hi hn _ =>
    rw [links_switchTo, links_get_next_thread]
    rcases get_next_thread_snd hn with ⟨h0, rfl⟩ | ⟨_, hr, _⟩
    · exact .inr ⟨q, hm, hi, h0, rfl⟩
    · left
      apply Links.rouse_of_alive
      rw [links_apply, Proc.link, hr]
      rfl

theorem links_leave (h : leave s p a = .ok t) : t.links = s.links := by
  unfold leave at h
  split at h
  · cases h
  · cases h
  · split at h
    · cases h
      exact links_boost
    · cases h
      rfl
  · cases h
    exact links_modify rfl
  · cases h
    exact links_modify rfl
  · cases h
    exact links_modify rfl
  · cases h
    rfl

/-- A call of `sched` is made on the CPU of the step. -/
theorem cpu_of_call {round : Int → Int} {c' : Fin n}
    (h : Enters round s a (.sched t c p)) (ha : a.call = some c') : c' = c := by
  cases h <;> cases ha <;> rfl

/-- A `wait` that calls `sched` has freed nothing. -/
private theorem links_of_wait {round : Int → Int} {c' : Fin n} (hl : CallerLives s (.wait c'))
    (h : Enters round s (.wait c') (.sched t c p)) : t.links = s.links := by
  cases h with
  | wait hp => exact links_sleep (c := c) (hl _ rfl _ (cpu_of_caller hp))

/-- A process that calls `sched` is alive, unless the call ends it. -/
private theorem life_of_sched {round : Int → Int}
    (h : Enters round s a (.sched t c p)) :
    (t.links p).life = .alive ∨ (∃ c, a = .exit c) ∨ ∃ c, a = .thread_exit c := by
  cases h with
  | exit => exact .inr (.inl ⟨_, rfl⟩)
  | thread_exit => exact .inr (.inr ⟨_, rfl⟩)
  | _ =>
    left
    simp [links_apply, Proc.link, ProcState.life]

/-- What `sched` does to the links `l` when `p` calls it on CPU `c`: it switches to the master of a
group without threads. -/
structure Rouses (s : State n) (a : Action n) (l : Links) (p m : Slot) : Prop where
  cpu : ∃ c, (∀ c', a.call = some c' → c' = c) ∧ (s.cpu c).proc = some p
  master : (l p).master = some m
  isthread : (l p).isthread = true
  t_cnt : (l m).t_cnt = 0
  waits : ∀ c, a = .wait c → l = s.links
  alive : (l p).life = .alive ∨ (∃ c, a = .exit c) ∨ ∃ c, a = .thread_exit c

/-- The links after a step. -/
theorem step_links {round : Int → Int} (hl : CallerLives s a) (h : step round s a = .ok u) :
    ∃ l, Relinks s a l ∧ (u.links = l ∨ ∃ p m, Rouses s a l p m ∧ u.links = l.rouse m) := by
  obtain ⟨r, hr, h⟩ := bind_eq_ok.mp h
  refine ⟨_, relinks hl hr, ?_⟩
  cases r with
  | done t =>
    cases h
    exact .inl rfl
  | sched t c p =>
    obtain ⟨⟨v, back⟩, hv, h⟩ := bind_eq_ok.mp h
    have hu : u.links = v.links := by
      cases back with
      | false =>
        cases h
        rfl
      | true => exact links_leave h
    rw [hu]
    have he := enters hr
    rcases links_leaves (leaves hv).2 with hv | ⟨m, hm, hi, h0, hv⟩
    · exact .inl hv
    · refine .inr ⟨p, m, ⟨⟨c, fun _ ↦ cpu_of_call he, cpu_of_sched he⟩, hm, hi, h0, ?_, ?_⟩, hv⟩
      · rintro c rfl
        exact links_of_wait hl he
      · exact life_of_sched he

/-! ### The first process -/

private theorem park_initproc {k : Class} (hu : park (dequeue s k).1 k p = .ok u) :
    u.initproc = s.initproc := by
  obtain ⟨_, _, _, rfl, _⟩ := park_ok hu
  simp

private theorem scheduler_initproc (h : scheduler s c = .ok t) : t.initproc = s.initproc := by
  obtain ⟨_, _, h⟩ := picks h
  cases h with
  | empty => rfl
  | drop => simp
  | parked _ _ _ _ hu => simp [park_initproc hu]
  | asleep _ _ _ _ hu => simp [park_initproc hu]
  | worker _ _ _ _ hu => simp [park_initproc hu]
  | run => simp

private theorem enters_initproc {round : Int → Int} (h : Enters round s a r) :
    r.state.initproc = s.initproc := by
  cases h with
  | scheduler h => exact scheduler_initproc h
  | kill h =>
    obtain rfl | ⟨p, _, h, _⟩ := kill_ok h
    · rfl
    · rw [Next.state, h]
  | fork =>
    unfold fork
    obtain h | ⟨q, _, _, h⟩ | ⟨q, _, _, h⟩ := allocproc_cases _ _
    all_goals
      rw [h]
      rfl
  | thread_create _ _ h =>
    obtain ⟨_, _, th, i, rfl⟩ := allocthread_ok h
    rfl
  | exit =>
    dsimp only [Next.state, exited]
    split <;> simp
  | _ => simp [Next.state, yield, sleep, mlfq_enqueue, charged, strode, granted, stride_enqueue]

/-- No step changes the first process. -/
theorem step_initproc {round : Int → Int} (h : step round s a = .ok u) :
    u.initproc = s.initproc := by
  rcases step_cases h with h | ⟨t, c, p, v, back, h, _, hl, hu⟩
  · exact enters_initproc h
  · have hv : v.initproc = s.initproc := by
      rw [← enters_initproc h]
      cases hl <;> simp [Next.state]
    rcases hu with ⟨_, rfl⟩ | ⟨_, hu⟩
    · exact hv
    · rw [← hv]
      unfold leave at hu
      split at hu
      · cases hu
      · cases hu
      · split at hu
        · cases hu
          simp
        · cases hu
          rfl
      all_goals
        cases hu
        rfl

end

end Xv6.Sched
