import Xv6.Lib.Outcome
import Xv6.Sched.Basic

/-!
# What a step does

`Enters` lists the branches of the locked parts of the calls with the state each one leaves, and
`sched_cases` the three ways out of a call of `sched`. Facts about single fields follow, one
lemma for each field; invariants are proved from these and do not unfold the calls.
-/

namespace Xv6.Sched

open Function Lib

section

variable {n : Nat} (round : Int → Int) (s : State n)

/-- The state in which a step reaches its end or its call of `sched`. -/
def Next.state : Next n → State n
  | .done s => s
  | .sched s _ _ => s

/-- The state that `exit` leaves when the process it ends is `m`. -/
def exited (m : Slot) : State n :=
  let s := if (s.proc m).isthread = true then freeThreads s m else s
  let s := wakeup1 s ((s.proc m).parent.map .proc)
  (abandonChildren s m).modify m fun v ↦ { v with state := .ZOMBIE }

/-- The state after a tick is charged to the group of `m` as MLFQ time. -/
def charged (m : Slot) : State n :=
  let s := s.modify m fun v ↦ { v with qticks := v.qticks + 1 }
  let s := { s with
    mlfqticks := (s.mlfqticks + 1) % 2 ^ 32
    sched := update s.sched .mlfq ((s.sched .mlfq).advance round) }
  check_on_timer s m

/-- The state after a tick is charged to `p` as time of the stride scheduler. -/
def strode (p : Slot) : State n :=
  let s := s.modify p fun v ↦ { v with pass := round (v.pass + v.stride) }
  { s with sched := update s.sched .stride ((s.sched .stride).advance round) }

/-- The tickets that a share stands for. -/
def ticketsOf (share : Int) : Int := int32 (TOTALTICKETS * share) |>.tdiv 100

/-- `set_cpu_share` does not refuse the share. -/
def Grants (share : Int) : Prop :=
  int32 ((s.sched .stride).tickets + ticketsOf share) ≤ TOTALTICKETS * MAXSHARE / 100

instance (share : Int) : Decidable (Grants s share) := inferInstanceAs (Decidable (_ ≤ _))

/-- The state after `set_cpu_share` has granted `tickets` to `p`. -/
def granted (p : Slot) (tickets : Int) : State n :=
  let mlfq := s.sched .mlfq
  let stride := s.sched .stride
  let mlfqTickets := int32 (mlfq.tickets - tickets)
  let strideTickets := int32 (stride.tickets + tickets)
  let stride := { stride with
    tickets := strideTickets
    pass := if stride.stride = 0 then mlfq.pass else stride.pass
    stride := round (TOTALTICKETS.tdiv strideTickets) }
  let mlfq := { mlfq with
    tickets := mlfqTickets
    stride := round (TOTALTICKETS.tdiv mlfqTickets) }
  let s := { s with sched := update (update s.sched .mlfq mlfq) .stride stride }
  let pass := if stride.count > 0 then key s .stride (stride.heap 1) else 0
  let s := s.modify p fun v ↦ { v with
    tickets, stride := round (strideTickets.tdiv tickets), qticks := 0, qlev := 0, pass }
  (stride_enqueue s p).1

end

section

variable {n : Nat} {round : Int → Int} {s : State n}

/-- The branches of `enter`. -/
inductive Enters (round : Int → Int) (s : State n) : Action n → Next n → Prop
  | scheduler {c t} (h : scheduler s c = .ok t) : Enters round s (.scheduler c) (.done t)
  | tickIdle {c p} (hp : current s c = .ok p) (hr : (s.proc p).state ≠ .RUNNING) :
      Enters round s (.tick c) (.done s)
  | tickYield {c p m} (hp : current s c = .ok p) (hr : (s.proc p).state = .RUNNING)
      (hm : (s.proc p).master = some m) (ht : (s.proc m).tickets = 0)
      (hy : ((charged round s m).proc p).isthread = true ∨
        ((charged round s m).proc p).isexhausted = true) :
      Enters round s (.tick c) (yield
        ((charged round s m).modify p fun v ↦ { v with trapped := true }) c p)
  | tickStay {c p m} (hp : current s c = .ok p) (hr : (s.proc p).state = .RUNNING)
      (hm : (s.proc p).master = some m) (ht : (s.proc m).tickets = 0)
      (hi : ((charged round s m).proc p).isthread = false)
      (he : ((charged round s m).proc p).isexhausted = false) :
      Enters round s (.tick c) (.done (Sched.boost (charged round s m) p))
  | tickGroup {c p m} (hp : current s c = .ok p) (hr : (s.proc p).state = .RUNNING)
      (hm : (s.proc p).master = some m) (ht : (s.proc m).tickets ≠ 0)
      (hi : (s.proc p).isthread = true) :
      Enters round s (.tick c) (yield (check_on_timer
        ((strode round s p).modify m fun v ↦ { v with qticks := v.qticks + 1 }) m) c p)
  | tickStride {c p m} (hp : current s c = .ok p) (hr : (s.proc p).state = .RUNNING)
      (hm : (s.proc p).master = some m) (ht : (s.proc m).tickets ≠ 0)
      (hi : (s.proc p).isthread = false) :
      Enters round s (.tick c) (yield (strode round s p) c p)
  | boost {c p} (hp : (s.cpu c).proc = some p) (ht : (s.proc p).trapped = true) :
      Enters round s (.boost c) (.done (boost s p))
  | yield {c p} (hp : caller s c = .ok p) : Enters round s (.yield c) (yield s c p)
  | sleep {c p chan} (hp : caller s c = .ok p) : Enters round s (.sleep c chan) (sleep s c p chan)
  | wakeup {chan} : Enters round s (.wakeup chan) (.done (wakeup1 s (some chan)))
  | kill {pid t} (h : kill s pid = .ok t) : Enters round s (.kill pid) (.done t)
  | fork {c p kalloc} (hp : caller s c = .ok p) :
      Enters round s (.fork c kalloc) (.done (fork s p kalloc))
  | forkReady {c p np} (hp : current s c = .ok p) (hnp : (s.proc p).np = some np) :
      Enters round s (.forkDone c true) (.done (mlfq_enqueue
        ((s.modify p fun v ↦ { v with np := none }).modify np fun v ↦
          { v with parent := some p, state := .RUNNABLE }) np).1)
  | forkFail {c p np} (hp : current s c = .ok p) (hnp : (s.proc p).np = some np) :
      Enters round s (.forkDone c false) (.done
        ((s.modify p fun v ↦ { v with np := none }).modify np fun v ↦ { v with state := .UNUSED }))
  | exit {c p m} (hp : caller s c = .ok p) (hm : exiting s p = some m)
      (hi : s.initproc ≠ some m) : Enters round s (.exit c) (.sched (exited s m) c p)
  | reap {c p q} (hp : caller s c = .ok p) (hq : zombieChild s p = some q) :
      Enters round s (.wait c) (.done (s.modify q fun v ↦
        { v with pid := 0, parent := none, killed := false, state := .UNUSED }))
  | childless {c p} (hp : caller s c = .ok p) : Enters round s (.wait c) (.done s)
  | wait {c p} (hp : caller s c = .ok p) : Enters round s (.wait c) (sleep s c p (.proc p))
  | refused {c p share} (hp : caller s c = .ok p) (hmax : ¬Grants s share) :
      Enters round s (.set_cpu_share c share) (.done s)
  | granted {c p share} (hp : caller s c = .ok p)
      (hmax : Grants s share)
      (h0 : int32 ((s.sched .mlfq).tickets - ticketsOf share) ≠ 0)
      (h1 : int32 ((s.sched .stride).tickets + ticketsOf share) ≠ 0) (h2 : ticketsOf share ≠ 0) :
      Enters round s (.set_cpu_share c share) (.done (granted round s p (ticketsOf share)))
  | thread_create {c p m t new} (hp : caller s c = .ok p) (hm : (s.proc p).master = some m)
      (h : allocthread s m = .ok (t, new)) :
      Enters round s (.thread_create c) (.done (t.modify p fun v ↦ { v with np := some new }))
  | threadReady {c p new m} (hp : current s c = .ok p) (hnp : (s.proc p).np = some new)
      (hm : (s.proc p).master = some m) :
      Enters round s (.threadReady c) (.done
        ((((s.modify p fun v ↦ { v with np := none }).modify new fun v ↦
          { v with master := some m }).modify m fun v ↦ { v with isthread := true }).modify new
            fun v ↦ { v with state := .RUNNABLE }))
  | thread_exit {c p m} (hp : caller s c = .ok p) (hm : (s.proc p).master = some m) :
      Enters round s (.thread_exit c) (.sched
        (((wakeup1 s (some (.proc m))).modify p fun v ↦ { v with state := .ZOMBIE }).modify m
          fun v ↦ { v with t_cnt := v.t_cnt - 1 }) c p)
  | join {c p thread} (hp : caller s c = .ok p) :
      Enters round s (.thread_join c thread) (sleep s c p (.proc p))
  | joined {c p t thread} {i : Fin (MAXTHREAD + 1)} (hp : caller s c = .ok p) (hi : i = thread)
      (ht : (s.proc p).threads i = some t) (hz : (s.proc t).state = .ZOMBIE) :
      Enters round s (.thread_join c thread) (.done
        ((s.modify p fun v ↦ { v with
          threads := update v.threads (s.proc t).tid none
          isthread := if v.t_cnt = 0 then false else v.isthread }).modify t fun v ↦
            { v with state := .UNUSED }))

variable {a : Action n} {r : Next n} {c : Fin n} {p : Slot}

private theorem enters_tick (hp : current s c = .ok p) (h : tick round s c p = .ok r) :
    Enters round s (.tick c) r := by
  unfold tick at h
  split at h
  · next hr =>
    cases h
    exact .tickIdle hp hr
  · next hr =>
    rw [not_not] at hr
    split at h
    · cases h
    · next m hm =>
      split at h
      · next ht =>
        dsimp only at h
        split at h
        · next hy =>
          cases h
          exact .tickYield hp hr hm ht hy
        · next hy =>
          cases h
          simp only [not_or, Bool.not_eq_true] at hy
          exact .tickStay hp hr hm ht hy.1 hy.2
      · next ht =>
        dsimp only at h
        split at h
        · next hi =>
          cases h
          apply Enters.tickGroup hp hr hm ht
          simpa [strode] using hi
        · next hi =>
          cases h
          apply Enters.tickStride hp hr hm ht
          simpa [strode] using hi

private theorem enters_exit (hp : caller s c = .ok p) (h : exit s c p = .ok r) :
    Enters round s (.exit c) r := by
  unfold exit at h
  split at h
  · cases h
  · next m hm =>
    split at h
    · cases h
    · next hi =>
      cases h
      exact .exit hp hm hi

private theorem enters_wait (hp : caller s c = .ok p) : Enters round s (.wait c) (wait s c p) := by
  unfold wait
  split
  · next q hq => exact .reap hp hq
  · split
    · exact .childless hp
    · exact .wait hp

private theorem enters_share {share : Int} {t : State n × Int} (hp : caller s c = .ok p)
    (h : set_cpu_share round s p share = .ok t) :
    Enters round s (.set_cpu_share c share) (.done t.1) := by
  unfold set_cpu_share at h
  dsimp only at h
  split at h
  · next hmax =>
    cases h
    exact .refused hp (not_le.mpr hmax)
  · next hmax =>
    split at h
    · cases h
    · next h0 =>
      cases h
      simp only [not_or] at h0
      exact .granted hp (not_lt.mp hmax) h0.1 h0.2.1 h0.2.2.1

private theorem enters_join {thread : Nat} (hp : caller s c = .ok p)
    (h : thread_join s c p thread = .ok r) : Enters round s (.thread_join c thread) r := by
  unfold thread_join at h
  split at h
  · split at h
    · cases h
    · next t ht =>
      split at h
      · cases h
        exact .join hp
      · next hz =>
        cases h
        exact .joined hp rfl ht (not_not.mp hz)
  · cases h

/-- Every result of `enter` is that of one of its branches. -/
theorem enters (h : enter round s a = .ok r) : Enters round s a r := by
  cases a with
  | scheduler c =>
    obtain ⟨t, ht, hr⟩ := bind_eq_ok.mp h
    cases hr
    exact .scheduler ht
  | tick c =>
    obtain ⟨p, hp, hr⟩ := bind_eq_ok.mp h
    exact enters_tick hp hr
  | boost c =>
    simp only [enter] at h
    split at h
    · cases h
    · next p hp =>
      split at h
      · next ht =>
        cases h
        exact .boost hp ht
      · cases h
  | yield c =>
    obtain ⟨p, hp, hr⟩ := bind_eq_ok.mp h
    cases hr
    exact .yield hp
  | sleep c chan =>
    obtain ⟨p, hp, hr⟩ := bind_eq_ok.mp h
    cases hr
    exact .sleep hp
  | wakeup chan =>
    cases h
    exact .wakeup
  | kill pid =>
    obtain ⟨t, ht, hr⟩ := bind_eq_ok.mp h
    cases hr
    exact .kill ht
  | fork c kalloc =>
    obtain ⟨p, hp, hr⟩ := bind_eq_ok.mp h
    cases hr
    exact .fork hp
  | forkDone c copyuvm =>
    obtain ⟨p, hp, h⟩ := bind_eq_ok.mp h
    obtain ⟨t, ht, hr⟩ := bind_eq_ok.mp h
    cases hr
    unfold forkDone at ht
    split at ht
    · cases ht
    · next np hnp =>
      cases copyuvm with
      | false =>
        cases ht
        exact .forkFail hp hnp
      | true =>
        cases ht
        exact .forkReady hp hnp
  | exit c =>
    obtain ⟨p, hp, hr⟩ := bind_eq_ok.mp h
    exact enters_exit hp hr
  | wait c =>
    obtain ⟨p, hp, hr⟩ := bind_eq_ok.mp h
    cases hr
    exact enters_wait hp
  | set_cpu_share c share =>
    obtain ⟨p, hp, h⟩ := bind_eq_ok.mp h
    obtain ⟨t, ht, hr⟩ := bind_eq_ok.mp h
    cases hr
    exact enters_share hp ht
  | thread_create c =>
    obtain ⟨p, hp, h⟩ := bind_eq_ok.mp h
    obtain ⟨t, ht, hr⟩ := bind_eq_ok.mp h
    cases hr
    unfold thread_create at ht
    split at ht
    · cases ht
    · next m hm =>
      obtain ⟨u, hu, ht⟩ := bind_eq_ok.mp ht
      cases ht
      exact .thread_create hp hm hu
  | threadReady c =>
    obtain ⟨p, hp, h⟩ := bind_eq_ok.mp h
    obtain ⟨t, ht, hr⟩ := bind_eq_ok.mp h
    cases hr
    unfold threadReady at ht
    split at ht
    · next new m hnew hm =>
      cases ht
      exact .threadReady hp hnew hm
    · cases ht
  | thread_exit c =>
    obtain ⟨p, hp, hr⟩ := bind_eq_ok.mp h
    unfold thread_exit at hr
    split at hr
    · cases hr
    · next m hm =>
      cases hr
      exact .thread_exit hp hm
  | thread_join c thread =>
    obtain ⟨p, hp, hr⟩ := bind_eq_ok.mp h
    exact enters_join hp hr

end

/-! ### Allocation and `kill` -/

section

variable {n : Nat} {s t : State n} {p q m new : Slot} {kalloc : Bool}

/-- The slot that an allocation takes is free. -/
theorem state_of_findUnused (h : findUnused s = some q) : (s.proc q).state = .UNUSED := by
  unfold findUnused at h
  simpa using List.find?_some h

theorem allocproc_cases (s : State n) (kalloc : Bool) :
    allocproc s kalloc = (s, none) ∨
    (∃ q, findUnused s = some q ∧ kalloc = false ∧ allocproc s kalloc =
      ({ s.modify q fun v ↦ { v with pid := s.nextpid } with nextpid := s.nextpid + 1 }, none)) ∨
    ∃ q, findUnused s = some q ∧ kalloc = true ∧ allocproc s kalloc =
      ({ s.modify q (Proc.fresh q s.nextpid) with nextpid := s.nextpid + 1 }, some q) := by
  unfold allocproc
  cases hf : findUnused s with
  | none => exact .inl rfl
  | some q =>
    right
    cases kalloc with
    | false => exact .inl ⟨q, rfl, rfl, rfl⟩
    | true => exact .inr ⟨q, rfl, rfl, rfl⟩

/-- What `allocthread` writes. -/
theorem allocthread_ok (h : allocthread s m = .ok (t, new)) :
    findUnused s = some new ∧ (s.proc m).t_cnt < MAXTHREAD ∧ ∃ th i, t =
      (((({ s.modify new fun v ↦ { v with
        state := .EMBRYO, pid := s.nextpid, qlev := 0, qticks := 0, tickets := 0, pass := 0,
        np := none, trapped := false } with nextpid := s.nextpid + 1 }).modify m fun v ↦
          { v with threads := th }).modify new fun v ↦ { v with tid := i }).modify m fun v ↦
            { v with t_cnt := v.t_cnt + 1 }).modify new fun v ↦ { v with isthread := true } := by
  unfold allocthread at h
  split at h
  · cases h
  · next hcnt =>
    cases hf : findUnused s with
    | none => simp [hf] at h
    | some q =>
      rw [hf] at h
      dsimp only at h
      split at h
      · cases h
        exact ⟨rfl, lt_of_not_ge hcnt, _, _, rfl⟩
      · cases h
        refine ⟨rfl, lt_of_not_ge hcnt, ?_⟩
        generalize ({ s.modify new fun v ↦ { v with
          state := .EMBRYO, pid := s.nextpid, qlev := 0, qticks := 0, tickets := 0, pass := 0,
          np := none, trapped := false } with nextpid := s.nextpid + 1 } : State n) = u
        have hm : (u.modify m fun v ↦ { v with threads := (u.proc m).threads }) = u :=
          modify_eq_self rfl
        have hnew : (u.modify new fun v ↦ { v with tid := (u.proc new).tid }) = u :=
          modify_eq_self rfl
        exact ⟨(u.proc m).threads, (u.proc new).tid, by rw [hm, hnew]⟩

/-- The workers that a `kill` of `p` ends. -/
def Doomed (s : State n) (p q : Slot) : Prop :=
  (s.proc p).isthread = true ∧ ∃ m, (s.proc p).master = some m ∧ IsWorker s m q

instance (s : State n) (p q : Slot) : Decidable (Doomed s p q) := inferInstanceAs (Decidable (_ ∧ _))

/-- The process with a given pid. -/
def findPid (s : State n) (pid : Nat) : Ptr :=
  (List.finRange NPROC).find? fun p ↦ (s.proc p).pid = pid

/-- What `kill` of `p` may do to the entry of `q`. -/
def KillWrites (s : State n) (p q : Slot) (v : Proc) : Prop :=
  ∃ b x, v = { s.proc q with killed := b, state := x } ∧
    (x = (s.proc q).state ∨ (x = .ZOMBIE ∧ Doomed s p q) ∨
      ((s.proc q).state = .SLEEPING ∧ x = .RUNNABLE ∧ q = p))

private theorem killWrites_killed :
    KillWrites s p q ((s.modify p fun v ↦ { v with killed := true }).proc q) := by
  rw [modify_proc]
  split
  · next hq =>
    subst hq
    exact ⟨true, _, rfl, .inl rfl⟩
  · exact ⟨_, _, rfl, .inl rfl⟩

private theorem killWrites_wake (h : KillWrites s p p (t.proc p))
    (hs : (t.proc p).state = .SLEEPING) :
    KillWrites s p p { t.proc p with state := .RUNNABLE } := by
  obtain ⟨b, x, hv, hx⟩ := h
  rw [hv] at hs ⊢
  refine ⟨b, .RUNNABLE, rfl, ?_⟩
  rcases hx with hx | ⟨hx, _⟩ | ⟨_, hx, _⟩
  · exact .inr (.inr ⟨hx ▸ hs, rfl, rfl⟩)
  · rw [hx] at hs
    cases hs
  · rw [hx] at hs
    cases hs

private theorem kill_wake {u : State n} (hu : u = { s with proc := u.proc })
    (hw : ∀ q, KillWrites s p q (u.proc q))
    (h : (if (u.proc p).state = .SLEEPING then
      (.ok (u.modify p fun v ↦ { v with state := .RUNNABLE }) : Except Fault (State n))
      else .ok u) = .ok t) :
    t = { s with proc := t.proc } ∧ ∀ q, KillWrites s p q (t.proc q) := by
  split at h
  · next hs =>
    cases h
    constructor
    · rw [hu]
      rfl
    · intro q
      rw [modify_proc]
      split
      · next hq =>
        subst hq
        exact killWrites_wake (hw q) hs
      · exact hw q
  · cases h
    exact ⟨hu, hw⟩

/-- What `kill` writes. -/
theorem kill_ok {pid : Nat} (h : kill s pid = .ok t) :
    t = s ∨ ∃ p, findPid s pid = some p ∧ t = { s with proc := t.proc } ∧
      ∀ q, KillWrites s p q (t.proc q) := by
  unfold kill at h
  split at h
  · cases h
    exact .inl rfl
  · next p hp =>
    refine .inr ⟨p, hp, ?_⟩
    simp only [modify_proc_self] at h
    split at h
    · next hi =>
      split at h
      · cases h
      · next m hm =>
        apply kill_wake (p := p) _ _ h
        · rfl
        · intro q
          dsimp only
          split
          · next hq =>
            obtain ⟨b, x, hv, _⟩ := killWrites_killed (s := s) (p := p) (q := q)
            obtain ⟨i, hi0, hiq⟩ := hq
            rw [hv]
            refine ⟨b, .ZOMBIE, rfl, .inr (.inl ⟨rfl, hi, m, hm, i, hi0, ?_⟩)⟩
            simpa using hiq
          · exact killWrites_killed
    · exact kill_wake rfl (fun q ↦ killWrites_killed) h

end

/-! ### `sched` and `scheduler` -/

section

variable {n : Nat} {s t : State n} {c : Fin n} {p : Slot} {k : Class} {back : Bool}

/-- The ways out of a call of `sched` by `p` on CPU `c`. -/
inductive Leaves (s : State n) (c : Fin n) (p : Slot) : State n → Bool → Prop
  | exhausted {m} (hm : (s.proc p).master = some m) (he : (s.proc m).isexhausted = true) :
      Leaves s c p (swtchScheduler (s.modify m fun v ↦ { v with isexhausted := false }) c) false
  | plain {m} (hm : (s.proc p).master = some m) (he : (s.proc m).isexhausted = false)
      (hi : (s.proc p).isthread = false) : Leaves s c p (swtchScheduler s c) false
  | idle {m} (hm : (s.proc p).master = some m) (he : (s.proc m).isexhausted = false)
      (hi : (s.proc p).isthread = true) (hn : (get_next_thread s m).2 = none) :
      Leaves s c p (swtchScheduler (get_next_thread s m).1 c) false
  | back {m} (hm : (s.proc p).master = some m) (he : (s.proc m).isexhausted = false)
      (hi : (s.proc p).isthread = true) (hn : (get_next_thread s m).2 = some p) :
      Leaves s c p (get_next_thread s m).1 true
  | next {m q} (hm : (s.proc p).master = some m) (he : (s.proc m).isexhausted = false)
      (hi : (s.proc p).isthread = true) (hn : (get_next_thread s m).2 = some q) (hq : q ≠ p) :
      Leaves s c p (switchTo (get_next_thread s m).1 c q) false

theorem leaves (h : sched s c p = .ok (t, back)) :
    (s.proc p).state ≠ .RUNNING ∧ Leaves s c p t back := by
  unfold sched at h
  split at h
  · cases h
  · next hr =>
    refine ⟨hr, ?_⟩
    split at h
    · cases h
    · next m hm =>
      split at h
      · next he =>
        cases h
        exact .exhausted hm he
      · next he =>
        rw [Bool.not_eq_true] at he
        split at h
        · next hi =>
          unfold run_next_thread at h
          split at h
          · next u hu =>
            cases h
            have hn : (get_next_thread s m).2 = none := by rw [hu]
            have hfst : (get_next_thread s m).1 = u := by rw [hu]
            rw [← hfst]
            exact .idle hm he hi hn
          · next u q hu =>
            have hn : (get_next_thread s m).2 = some q := by rw [hu]
            have hfst : (get_next_thread s m).1 = u := by rw [hu]
            split at h
            · next hq =>
              cases h
              rw [← hfst]
              exact .back hm he hi (hq ▸ hn)
            · next hq =>
              cases h
              rw [← hfst]
              exact .next hm he hi hn hq
        · next hi =>
          cases h
          exact .plain hm he (Bool.not_eq_true _ ▸ hi)

/-- The branches of an iteration of `scheduler()` in class `k`. -/
inductive Picks (s : State n) (c : Fin n) (k : Class) : State n → Prop
  | empty (h0 : (s.sched k).count = 0) : Picks s c k s
  | drop (h0 : 0 < (s.sched k).count)
      (hp : ∀ p, (s.sched k).heap 1 = some p → Misplaced k (s.proc p) ∨
        (s.proc p).state ≠ .SLEEPING ∧ (s.proc p).state ≠ .RUNNABLE) :
      Picks s c k (dequeue s k).1
  | parked {p : Slot} {u : State n} (h0 : 0 < (s.sched k).count) (hp : (s.sched k).heap 1 = some p)
      (hm : ¬ Misplaced k (s.proc p)) (hs : (s.proc p).state = .SLEEPING)
      (hu : park (dequeue s k).1 k p = .ok u) : Picks s c k (enqueue u k p).1
  | asleep {p : Slot} {u : State n} (h0 : 0 < (s.sched k).count) (hp : (s.sched k).heap 1 = some p)
      (hm : ¬ Misplaced k (s.proc p)) (hs : (s.proc p).state = .SLEEPING)
      (hu : park (dequeue s k).1 k p = .ok u) (hi : (s.proc p).isthread = true)
      (hn : (get_next_thread (enqueue u k p).1 p).2 = none) :
      Picks s c k (get_next_thread (enqueue u k p).1 p).1
  | worker {p q : Slot} {u : State n} (h0 : 0 < (s.sched k).count) (hp : (s.sched k).heap 1 = some p)
      (hm : ¬ Misplaced k (s.proc p)) (hs : (s.proc p).state = .SLEEPING)
      (hu : park (dequeue s k).1 k p = .ok u) (hi : (s.proc p).isthread = true)
      (hn : (get_next_thread (enqueue u k p).1 p).2 = some q) :
      Picks s c k (dispatch (get_next_thread (enqueue u k p).1 p).1 c k q)
  | run {p : Slot} (h0 : 0 < (s.sched k).count) (hp : (s.sched k).heap 1 = some p)
      (hm : ¬ Misplaced k (s.proc p)) (hr : (s.proc p).state = .RUNNABLE) :
      Picks s c k (dispatch (dequeue s k).1 c k p)

/-- `park` writes the key of the process and, in MLFQ, `qticks`. -/
theorem park_ok (h : park s k p = .ok t) :
    ∃ l i x, t = s.modify p (fun v ↦ { v with qlev := l, qticks := i, pass := x }) ∧
      (k = .mlfq → x = (s.proc p).pass) ∧
      (k = .stride → l = (s.proc p).qlev ∧ i = (s.proc p).qticks) := by
  cases k with
  | mlfq =>
    cases h
    refine ⟨_, _, _, rfl, fun _ ↦ rfl, ?_⟩
    intro hk
    cases hk
  | stride =>
    unfold park at h
    dsimp only at h
    split at h
    · cases h
    · cases h
      refine ⟨_, _, _, rfl, ?_, fun _ ↦ ⟨rfl, rfl⟩⟩
      intro hk
      cases hk

private theorem picks_branch (h : branch s c k = .ok t) : Picks s c k t := by
  unfold branch at h
  rcases Nat.eq_zero_or_pos (s.sched k).count with h0 | h0
  · rw [dequeue_of_empty h0] at h
    cases h
    exact .empty h0
  · have hsnd := dequeue_snd h0
    have hproc : (dequeue s k).1.proc = s.proc := dequeue_proc
    split at h
    · next u hu =>
      cases h
      rw [hu] at hsnd
      have hfst : (dequeue s k).1 = t := by rw [hu]
      rw [← hfst]
      apply Picks.drop h0
      intro p hp
      rw [← hsnd] at hp
      cases hp
    · next u p hu =>
      have hfst : (dequeue s k).1 = u := by rw [hu]
      rw [hu] at hsnd
      rw [← hfst, hproc] at h
      have hp := hsnd.symm
      split at h
      · next hm =>
        cases h
        apply Picks.drop h0
        intro q hq
        rw [hp] at hq
        cases hq
        exact .inl hm
      · next hm =>
        split at h
        · next hs =>
          obtain ⟨v, hv, h⟩ := bind_eq_ok.mp h
          obtain ⟨l, i, x, rfl, _⟩ := park_ok hv
          have hi : ((enqueue ((dequeue s k).1.modify p fun v ↦
              { v with qlev := l, qticks := i, pass := x }) k p).1.proc p).isthread =
              (s.proc p).isthread := by simp
          dsimp only at h
          rw [hi] at h
          split at h
          · next hi =>
            split at h
            · cases h
            · split at h
              · next w hw =>
                cases h
                have hw1 := congrArg Prod.fst hw
                dsimp only at hw1
                rw [← hw1]
                exact .asleep h0 hp hm hs hv hi (congrArg Prod.snd hw)
              · next w q hw =>
                cases h
                have hw1 := congrArg Prod.fst hw
                dsimp only at hw1
                rw [← hw1]
                exact .worker h0 hp hm hs hv hi (congrArg Prod.snd hw)
          · cases h
            exact .parked h0 hp hm hs hv
        · next hs =>
          split at h
          · next hr =>
            cases h
            apply Picks.drop h0
            intro q hq
            rw [hp] at hq
            cases hq
            exact .inr ⟨hs, hr⟩
          · next hr =>
            cases h
            exact .run h0 hp hm (not_not.mp hr)

/-- An iteration of `scheduler()` takes a branch of the chosen class on an idle CPU. -/
theorem picks (h : scheduler s c = .ok t) :
    (s.cpu c).proc = none ∧ (s.cpu c).dispatched = none ∧ Picks s c (chosen s) t := by
  unfold scheduler at h
  split at h
  · cases h
  · next hidle =>
    simp only [not_or, not_not] at hidle
    exact ⟨hidle.1, hidle.2, picks_branch h⟩

end

end Xv6.Sched
