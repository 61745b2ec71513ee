import Xv6.Sched.Sleepers
import Xv6.Sched.Threads

/-!
# What `thread_join` returns

`thread_exit` leaves its argument in `t_retval` of the master, at the index of the thread, and
`thread_join` reads it there. The history beside the state numbers the threads in the order in
which they are created. It says for which thread an id was last returned, what each thread has
passed to `thread_exit` and which have been joined.
-/

namespace Xv6.Sched

open Function Lib

section

variable {n : Nat} (round : Int → Int)

/-- The history of the threads. `born` is the number of those that have been created, and `serial`
the number under which the thread in a slot was. `last` is the thread for which an id was last
returned to the group of a master, `passed` what a thread has passed to `thread_exit`. -/
structure Record where
  born : Nat
  serial : Slot → Nat
  last : Slot → Nat → Option Nat
  passed : Nat → Option Nat
  joined : List Nat

/-- `thread_create` returns `id` for the new thread `w` of `m`. -/
def Record.create (h : Record) (m w : Slot) (id : Nat) : Record :=
  { h with
    born := h.born + 1
    serial := update h.serial w h.born
    last := update h.last m (update (h.last m) id (some h.born)) }

/-- `p` passes `v` to `thread_exit`. -/
def Record.exit (h : Record) (p : Slot) (v : Nat) : Record :=
  { h with passed := update h.passed (h.serial p) (some v) }

/-- `t` is joined. -/
def Record.join (h : Record) (t : Slot) : Record := { h with joined := h.serial t :: h.joined }

/-- A machine with the results of its threads, `t_retval` of `struct proc`. Beside it stand the
history and, for a process that has gone to sleep in `thread_join`, the thread it waits for. -/
structure Returns (n : Nat) extends Groups n where
  t_retval : Slot → Fin (MAXTHREAD + 1) → Nat
  record : Record
  joining : Slot → Ptr

/-- The master and the new thread of a `thread_create` that turns `s` into `t`. -/
def created (s t : State n) : Action n → Option (Slot × Slot)
  | .thread_create c => do
    let p ← (s.cpu c).proc
    let m ← (s.proc p).master
    let w ← (t.proc p).np
    pure (m, w)
  | _ => none

/-- The master and the thread of a `thread_exit`. -/
def exits (s : State n) : Action n → Option (Slot × Slot)
  | .thread_exit c => do
    let p ← (s.cpu c).proc
    let m ← (s.proc p).master
    pure (m, p)
  | _ => none

/-- The caller of a `thread_join` and the thread it asks for. -/
def asks (s : State n) : Action n → Option (Slot × Slot)
  | .thread_join c thread =>
    (s.cpu c).proc.bind fun p ↦
      if h : thread < MAXTHREAD + 1 then ((s.proc p).threads ⟨thread, h⟩).map fun t ↦ (p, t)
      else none
  | _ => none

/-- The caller and the thread of a `thread_join` that returns. -/
def joins (s : State n) (a : Action n) : Option (Slot × Slot) :=
  (asks s a).filter fun x ↦ (s.proc x.2).state = .ZOMBIE

/-- The caller and the thread of a `thread_join` that goes to sleep. -/
def awaits (s : State n) (a : Action n) : Option (Slot × Slot) :=
  (asks s a).filter fun x ↦ (s.proc x.2).state ≠ .ZOMBIE

/-- `t_retval` after a step: `allocproc` clears that of a new process, and `thread_exit` stores its
argument `v`; `proc.c:125-129`, `thread.c:246`. -/
def retvals (s : State n) (a : Action n) (v : Nat) (f : Slot → Fin (MAXTHREAD + 1) → Nat) :
    Slot → Fin (MAXTHREAD + 1) → Nat :=
  match a with
  | .fork _ true =>
    match findUnused s with
    | some w => update f w fun i ↦ if i = 0 then f w 0 else 0
    | none => f
  | a =>
    match exits s a with
    | some (m, p) => update f m (update (f m) (s.proc p).tid v)
    | none => f

/-- The return value of a `thread_join` and what it stores in `*retval`; `thread.c:211,220`. -/
def Returns.result (r : Returns n) (a : Action n) : Option (Int × Nat) :=
  (joins r.state a).map fun x ↦ (0, r.t_retval x.1 (r.state.proc x.2).tid)

/-- The history after the step `a` from `s` to `t`. -/
def Record.next (h : Record) (s t : State n) (a : Action n) (v : Nat) : Record :=
  match created s t a, exits s a, joins s a with
  | some (m, w), _, _ => h.create m w (t.proc w).tid
  | none, some (_, p), _ => h.exit p v
  | none, none, some (_, w) => h.join w
  | none, none, none => h

/-- One step with its history; `v` is the argument of `thread_exit`. -/
def Returns.step (r : Returns n) (x : Action n × Nat) : Except Fault (Returns n) := do
  let (a, v) := x
  let s := r.state
  let g ← r.toGroups.step round a
  pure {
    toGroups := g
    t_retval := retvals s a v r.t_retval
    record := r.record.next s g.state a v
    joining :=
      match a.call >>= fun c ↦ (s.cpu c).proc with
      | some p => update r.joining p ((awaits s a).map Prod.snd)
      | none => r.joining }

/-- The machine when the CPUs enter `scheduler()`. -/
def Returns.boot (n : Nat) : Returns n where
  toGroups := .boot n
  t_retval := fun _ _ ↦ 0
  record := ⟨0, fun _ ↦ 0, fun _ _ ↦ none, fun _ ↦ none, []⟩
  joining := fun _ ↦ none

/-- The workers of `m` that have not been joined. -/
def Groups.unjoined (g : Groups n) (m : Slot) : Finset Slot :=
  Finset.univ.filter fun w ↦ g.made w = some m

/-- The calls of groups in which nobody is killed and nobody exits: workers end in `thread_exit`,
one is created when fewer than `MAXTHREAD` are left to join, and a process joins what was created
for it and has not been joined. `fork` and `thread_create` end as what they began. -/
def Returns.Usual (r : Returns n) (a : Action n) : Prop :=
  match a with
  | .kill _ | .exit _ => False
  | .forkDone c _ =>
    ∀ p ∈ (r.state.cpu c).proc, ∀ w ∈ (r.state.proc p).np, (r.state.proc w).isthread = false
  | .threadReady c =>
    ∀ p ∈ (r.state.cpu c).proc, ∀ w ∈ (r.state.proc p).np, (r.state.proc w).isthread = true
  | .thread_create c =>
    ∀ p ∈ (r.state.cpu c).proc, ∀ m ∈ (r.state.proc p).master, (r.unjoined m).card < MAXTHREAD
  | .thread_exit c => ∀ p ∈ (r.state.cpu c).proc, (r.state.proc p).master ≠ some p
  | .thread_join c thread =>
    ∀ p ∈ (r.state.cpu c).proc, ∃ k ∈ r.record.last p thread, k ∉ r.record.joined
  | _ => True

instance (r : Returns n) (a : Action n) : Decidable (r.Usual a) :=
  match a with
  | .kill _ | .exit _ => .isFalse id
  | .forkDone c _ =>
    inferInstanceAs (Decidable (∀ p ∈ (r.state.cpu c).proc, ∀ w ∈ (r.state.proc p).np, _))
  | .threadReady c =>
    inferInstanceAs (Decidable (∀ p ∈ (r.state.cpu c).proc, ∀ w ∈ (r.state.proc p).np, _))
  | .thread_create c =>
    inferInstanceAs (Decidable (∀ p ∈ (r.state.cpu c).proc, ∀ m ∈ (r.state.proc p).master, _))
  | .thread_exit c => inferInstanceAs (Decidable (∀ p ∈ (r.state.cpu c).proc, _))
  | .thread_join c thread =>
    inferInstanceAs (Decidable (∀ p ∈ (r.state.cpu c).proc, ∃ k ∈ r.record.last p thread, _))
  | .scheduler _ | .tick _ | .boost _ | .yield _ | .sleep _ _ | .wakeup _ | .fork _ _ | .wait _
  | .set_cpu_share _ _ => .isTrue trivial

/-- The joins of a machine are right: one that returns now returns 0 and what the thread that the
id stands for has passed to `thread_exit`; none has been joined twice; and who sleeps in
`thread_join` waits for a thread that has not exited. -/
structure Returns.Delivers (r : Returns n) : Prop where
  value : ∀ c thread p x, r.Usual (.thread_join c thread) → CallerLives r.state (.thread_join c thread) →
    (r.state.cpu c).proc = some p → r.result (.thread_join c thread) = some x →
      ∃ k v, r.record.last p thread = some k ∧ k ∉ r.record.joined ∧ r.record.passed k = some v ∧
        x = (0, v)
  once : r.record.joined.Nodup
  awake : ∀ p t, r.joining p = some t → (r.state.proc p).state = .SLEEPING →
    (r.state.proc t).state ≠ .ZOMBIE

end

/-! ### Entries in the making -/

section

variable {n : Nat} {s t u : State n} {a : Action n} {l l' : Links} {made : Slot → Ptr}
  {c : Fin n} {p q m w : Slot}

/-- The entry that a process has taken and not yet made ready is nobody else's, and listed in its
group if it is a thread. -/
structure Making (l : Links) : Prop where
  embryo : ∀ p w, (l p).life = .alive → (l p).np = some w → (l w).life = .embryo
  listed : ∀ p w, (l p).life = .alive → (l p).np = some w → (l w).isthread = true →
    ∃ m, (l p).master = some m ∧ l.Worker m w
  apart : ∀ p q w, (l p).life = .alive → (l q).life = .alive → (l p).np = some w →
    (l q).np = some w → p = q
  fresh : ∀ w, (l w).life = .embryo → (l w).np = none

/-- `p` takes an entry. -/
private theorem Making.take (h : Making l) (hp : (l p).life = .alive) (hnp : (l p).np = none)
    (hw : (l w).life = .unused)
    (hlife : ∀ q, (l' q).life = if q = w then .embryo else (l q).life)
    (hnew : ∀ q, (l' q).np = if q = p then some w else if q = w then none else (l q).np)
    (hmaster : ∀ q, q ≠ w → (l' q).master = (l q).master)
    (hth : ∀ q, q ≠ w → (l' q).isthread = (l q).isthread)
    (hlist : ∀ m q, (l m).life = .alive → q ≠ w → l.Worker m q → l'.Worker m q)
    (hlisted : (l' w).isthread = true → ∃ m, (l p).master = some m ∧ l'.Worker m w)
    (hled : ∀ p m, (l p).life = .alive → (l p).master = some m → (l m).life = .alive) :
    Making l' := by
  have hpw : p ≠ w := by
    rintro rfl
    rw [hp] at hw
    cases hw
  have hold : ∀ {q}, (l' q).life = .alive → q ≠ w ∧ (l q).life = .alive := by
    intro q hq
    rw [hlife] at hq
    split at hq
    · cases hq
    · next hqw => exact ⟨hqw, hq⟩
  have hnpw : ∀ {q}, (l q).life = .alive → (l q).np ≠ some w := by
    intro q hq hnq
    rw [h.embryo q w hq hnq] at hw
    cases hw
  constructor
  · intro q x hq hx
    obtain ⟨hqw, hq⟩ := hold hq
    rw [hnew] at hx
    rw [hlife]
    split at hx
    · cases hx
      rw [if_pos rfl]
    · rw [h.embryo q x hq hx, ite_self]
  · intro q x hq hx hi
    obtain ⟨hqw, hq⟩ := hold hq
    rw [hnew] at hx
    rw [hmaster q hqw]
    split at hx
    · next hqp =>
      cases hx
      rw [hqp]
      exact hlisted hi
    · have hxw : x ≠ w := by
        rintro rfl
        exact hnpw hq hx
      rw [hth x hxw] at hi
      obtain ⟨m, hm, hworker⟩ := h.listed q x hq hx hi
      exact ⟨m, hm, hlist m x (hled q m hq hm) hxw hworker⟩
  · intro q q' x hq hq' hx hx'
    obtain ⟨hqw, hq⟩ := hold hq
    obtain ⟨hqw', hq'⟩ := hold hq'
    rw [hnew, if_neg hqw] at hx
    rw [hnew, if_neg hqw'] at hx'
    split at hx
    · next hqp =>
      cases hx
      split at hx'
      · next hqp' => rw [hqp, hqp']
      · exact absurd hx' (hnpw hq')
    · split at hx'
      · cases hx'
        exact absurd hx (hnpw hq)
      · exact h.apart q q' x hq hq' hx hx'
  · intro q hq
    rw [hlife] at hq
    rw [hnew]
    by_cases hqw : q = w
    · rw [if_neg (hqw ▸ Ne.symm hpw), if_pos hqw]
    · rw [if_neg hqw] at hq
      have hqp : q ≠ p := by
        rintro rfl
        rw [hp] at hq
        cases hq
      rw [if_neg hqp, if_neg hqw]
      exact h.fresh q hq

/-- `p` makes the entry it has taken ready, or gives it back. -/
private theorem Making.give {x : Life} (h : Making l) (hp : (l p).life = .alive)
    (hnp : (l p).np = some w) (hx : x ≠ .embryo)
    (hlife : ∀ q, (l' q).life = if q = w then x else (l q).life)
    (hnew : ∀ q, (l' q).np = if q = p then none else (l q).np)
    (hmaster : ∀ q, q ≠ w → (l' q).master = (l q).master)
    (hth : ∀ q, (l q).life = .embryo → q ≠ w → (l' q).isthread = (l q).isthread)
    (hlist : ∀ m, (l' m).threads = (l m).threads) : Making l' := by
  have hnone : (l w).np = none := h.fresh w (h.embryo p w hp hnp)
  have hold : ∀ {q y}, (l' q).life = .alive → (l' q).np = some y →
      q ≠ w ∧ q ≠ p ∧ (l q).life = .alive ∧ (l q).np = some y ∧ y ≠ w := by
    intro q y hq hy
    rw [hnew] at hy
    split at hy
    · cases hy
    · next hqp =>
      have hqw : q ≠ w := by
        rintro rfl
        rw [hnone] at hy
        cases hy
      rw [hlife, if_neg hqw] at hq
      refine ⟨hqw, hqp, hq, hy, ?_⟩
      rintro rfl
      exact hqp (h.apart q p y hq hp hy hnp)
  constructor
  · intro q y hq hy
    obtain ⟨_, _, hq, hy, hyw⟩ := hold hq hy
    rw [hlife, if_neg hyw]
    exact h.embryo q y hq hy
  · intro q y hq hy hi
    obtain ⟨hqw, _, hq, hy, hyw⟩ := hold hq hy
    rw [hth y (h.embryo q y hq hy) hyw] at hi
    obtain ⟨m, hm, i, hi0, hworker⟩ := h.listed q y hq hy hi
    exact ⟨m, (hmaster q hqw).trans hm, i, hi0, by rwa [hlist]⟩
  · intro q q' y hq hq' hy hy'
    obtain ⟨_, _, hq, hy, _⟩ := hold hq hy
    obtain ⟨_, _, hq', hy', _⟩ := hold hq' hy'
    exact h.apart q q' y hq hq' hy hy'
  · intro q hq
    rw [hlife] at hq
    rw [hnew]
    split
    · rfl
    · split at hq
      · exact absurd hq hx
      · exact h.fresh q hq

/-- Entries that are neither alive nor embryos end up unused, or alive ones as zombies. -/
private theorem Making.drop (h : Making l) (hlife : ∀ q, (l' q).life = .alive → (l q).life = .alive)
    (hembryo : ∀ q, (l' q).life = .embryo ↔ (l q).life = .embryo)
    (hnp : ∀ q, (l' q).np = (l q).np) (hmaster : ∀ q, (l' q).master = (l q).master)
    (hth : ∀ q, (l q).life = .embryo → (l' q).isthread = (l q).isthread)
    (hlist : ∀ m q, (l q).life = .embryo → l.Worker m q → l'.Worker m q) : Making l' := by
  constructor
  · intro q w hq hw
    rw [hnp] at hw
    exact (hembryo w).mpr (h.embryo q w (hlife q hq) hw)
  · intro q w hq hw hi
    rw [hnp] at hw
    have he := h.embryo q w (hlife q hq) hw
    rw [hth w he] at hi
    obtain ⟨m, hm, hworker⟩ := h.listed q w (hlife q hq) hw hi
    exact ⟨m, (hmaster q).trans hm, hlist m w he hworker⟩
  · intro q q' w hq hq' hw hw'
    rw [hnp] at hw hw'
    exact h.apart q q' w (hlife q hq) (hlife q' hq') hw hw'
  · intro q hq
    rw [hnp]
    exact h.fresh q ((hembryo q).mp hq)

/-- The entries in the making are kept apart by a step in which nothing is killed and nothing
exits. -/
theorem Making.relinks (h : Making s.links) (hb : Booked s.links made) (hc : Kept s a)
    (ha : ∀ c, a ≠ .exit c) (hr : Relinks s a l) : Making l := by
  obtain ⟨hl, hc⟩ := hc
  have hled := fun p m ↦ hb.master_alive (p := p) (m := m)
  cases hr with
  | quiet => exact h
  | full => exact h
  | awaits => exact h
  | nobody => exact h
  | waits => exact h
  | lost => exact ⟨h.embryo, h.listed, h.apart, h.fresh⟩
  | @fork c p w hp hw =>
    have hlive : (s.links p).life = .alive := hl c rfl p (cpu_of_caller hp)
    have hfree := life_of_state (state_of_findUnused hw)
    refine h.take hlive (caller_eq_ok.mp hp).2 hfree (fun _ ↦ rfl) (fun _ ↦ rfl) ?_ ?_ ?_ ?_ hled
    · intro q hq
      simp [Links.fork, hq]
    · intro q hq
      simp [Links.fork, hq]
    · rintro m q hm - ⟨i, hi, hq⟩
      have hmw : m ≠ w := by
        rintro rfl
        rw [hm] at hfree
        cases hfree
      exact ⟨i, hi, by simpa [Links.fork, hmw] using hq⟩
    · intro hi
      simp [Links.fork] at hi
  | @create c p m w i hp hm hw _ hi hfull =>
    have hlive : (s.links p).life = .alive := hl c rfl p (cpu_of_caller hp)
    have hfree := life_of_state (state_of_findUnused hw)
    cases i with
    | none =>
      obtain ⟨j, hj, hjm⟩ := hc p (cpu_of_caller hp) m hm
      exact absurd hjm (hfull rfl j hj)
    | some i =>
      obtain ⟨hi0, him⟩ := hi i rfl
      refine h.take hlive (caller_eq_ok.mp hp).2 hfree (fun _ ↦ rfl) (fun _ ↦ rfl) ?_ ?_ ?_ ?_ hled
      · exact fun _ _ ↦ rfl
      · intro q hq
        simp [Links.create, hq]
      · rintro x q - - ⟨j, hj, hq⟩
        refine ⟨j, hj, ?_⟩
        have htaken : ¬(x = m ∧ some i = some j) := by
          rintro ⟨rfl, hij⟩
          cases hij
          have hnone : (s.links x).threads i = none := him
          rw [hnone] at hq
          cases hq
        simp only [Links.create, if_neg htaken]
        exact hq
      · exact fun _ ↦ ⟨m, hm, i, hi0, by simp [Links.create]⟩
  | @forkReady c p w hp hw =>
    exact h.give (hl c rfl p (cpu_of_current hp)) hw Life.noConfusion (fun _ ↦ rfl) (fun _ ↦ rfl)
      (fun _ _ ↦ rfl) (fun _ _ _ ↦ rfl) fun _ ↦ rfl
  | @forkFail c p w hp hw =>
    exact h.give (hl c rfl p (cpu_of_current hp)) hw Life.noConfusion (fun _ ↦ rfl) (fun _ ↦ rfl)
      (fun _ _ ↦ rfl) (fun _ _ _ ↦ rfl) fun _ ↦ rfl
  | @ready c p m w hp hm hw =>
    have hlive : (s.links p).life = .alive := hl c rfl p (cpu_of_current hp)
    refine h.give hlive hw Life.noConfusion (fun _ ↦ rfl) (fun _ ↦ rfl) ?_ ?_ fun _ ↦ rfl
    · intro q hq
      simp [Links.ready, hq]
    · intro q hq _
      have hqm : q ≠ m := by
        rintro rfl
        rw [hled p q hlive hm] at hq
        cases hq
      simp [Links.ready, hqm]
  | @quit c p m hp hm =>
    have hlive : (s.links p).life = .alive := hl c rfl p (cpu_of_caller hp)
    refine h.drop ?_ ?_ (fun _ ↦ rfl) (fun _ ↦ rfl) (fun _ _ ↦ rfl) fun _ _ _ hq ↦ hq
    · intro q hq
      simp only [Links.quit] at hq
      split at hq
      · cases hq
      · exact hq
    · intro q
      by_cases hq : q = p
      · simp [Links.quit, hq, hlive]
      · simp [Links.quit, hq]
  | @join c p t thread i hp hi ht hz =>
    have hlive : (s.links p).life = .alive := hl c rfl p (cpu_of_caller hp)
    have hzombie := life_of_state hz
    refine h.drop ?_ ?_ (fun _ ↦ rfl) (fun _ ↦ rfl) ?_ ?_
    · intro q hq
      simp only [Links.join] at hq
      split at hq
      · cases hq
      · exact hq
    · intro q
      by_cases hq : q = t
      · simp [Links.join, hq, hzombie, ProcState.life]
      · simp [Links.join, hq]
    · intro q hq
      have hqp : q ≠ p := by
        rintro rfl
        rw [hlive] at hq
        cases hq
      simp [Links.join, hqp]
    · rintro m q hq ⟨j, hj, hmq⟩
      refine ⟨j, hj, ?_⟩
      have hother : ¬(m = p ∧ j = (s.links t).tid) := by
        rintro ⟨rfl, rfl⟩
        have hmade := made_of_zombie hb hlive ht hz
        rw [(hb.placed t m hmade).2] at hmq
        cases hmq
        rw [hzombie] at hq
        cases hq
      simp only [Links.join, if_neg hother]
      exact hmq
  | kill hp =>
    rw [Links.kill_of_zombies]
    · exact h
    · exact fun m w hi hm hw ↦ life_of_state (hc _ hp w ⟨hi, m, hm, hw⟩)
  | exit => exact absurd rfl (ha _)
  | @reap c p w hp hw =>
    have hzombie : (s.links w).life = .zombie := by
      unfold zombieChild at hw
      have hz := List.find?_some hw
      simp only [Bool.decide_and, Bool.and_eq_true, decide_eq_true_eq] at hz
      exact life_of_state hz.2
    refine h.drop ?_ ?_ (fun _ ↦ rfl) (fun _ ↦ rfl) (fun _ _ ↦ rfl) fun _ _ _ hq ↦ hq
    · intro q hq
      simp only [Links.reap] at hq
      split at hq
      · cases hq
      · exact hq
    · intro q
      by_cases hq : q = w
      · simp [Links.reap, hq, hzombie]
      · simp [Links.reap, hq]

end

/-! ### The accounts -/

section

variable {l l' : Links} {made : Slot → Ptr} {f f' : Slot → Fin (MAXTHREAD + 1) → Nat} {h : Record}
  {m p t w : Slot}

/-- The history agrees with the workers: the id of each stands for it, and what one that has exited
has passed is in `t_retval` at its id. -/
structure Accounts (l : Links) (made : Slot → Ptr) (f : Slot → Fin (MAXTHREAD + 1) → Nat)
    (h : Record) : Prop where
  named : ∀ w m, made w = some m → h.last m (l w).tid = some (h.serial w)
  young : ∀ w m, made w = some m → h.serial w < h.born ∧ h.serial w ∉ h.joined
  serials : ∀ w w' m m', made w = some m → made w' = some m' → h.serial w = h.serial w' → w = w'
  stored : ∀ w m, made w = some m → (l w).life = .zombie →
    h.passed (h.serial w) = some (f m (l w).tid)
  nodup : h.joined.Nodup
  old : ∀ k ∈ h.joined, k < h.born
  lasts : ∀ m i k, h.last m i = some k → k ∉ h.joined →
    ∃ w, made w = some m ∧ (l w).tid = i ∧ h.serial w = k

/-- A step in which no thread is created, exits or is joined. -/
theorem Accounts.frame (ha : Accounts l made f h)
    (hl : ∀ w m, made w = some m → (l' w).tid = (l w).tid ∧
      ((l' w).life = .zombie → (l w).life = .zombie))
    (hf : ∀ w m, made w = some m → f' m = f m) : Accounts l' made f' h := by
  refine ⟨?_, ha.young, ha.serials, ?_, ha.nodup, ha.old, ?_⟩
  · intro w m hw
    rw [(hl w m hw).1]
    exact ha.named w m hw
  · intro w m hw hz
    rw [(hl w m hw).1, hf w m hw]
    exact ha.stored w m hw ((hl w m hw).2 hz)
  · intro m i k hk hj
    obtain ⟨w, hw, htid, hs⟩ := ha.lasts m i k hk hj
    exact ⟨w, hw, by rw [(hl w m hw).1, htid], hs⟩

/-- A new thread gets an id that no other one has. -/
theorem Accounts.create (ha : Accounts l made f h) (hw : made w = none)
    (hl : ∀ q, q ≠ w → (l' q).tid = (l q).tid ∧ ((l' q).life = .zombie → (l q).life = .zombie))
    (hz : (l' w).life ≠ .zombie) (hfree : ∀ q, made q = some m → (l q).tid ≠ (l' w).tid) :
    Accounts l' (update made w (some m)) f (h.create m w (l' w).tid) := by
  have hold : ∀ {q x}, q ≠ w → (update made w (some m)) q = some x → made q = some x :=
    fun hq hx ↦ by rwa [update_of_ne hq] at hx
  refine ⟨?_, ?_, ?_, ?_, ha.nodup, ?_, ?_⟩
  · intro q x hq
    by_cases hqw : q = w
    · subst hqw
      rw [update_self] at hq
      cases hq
      simp [Record.create]
    · have hx := hold hqw hq
      have hother : ¬(x = m ∧ ((l' q).tid : Nat) = (l' w).tid) := by
        rintro ⟨rfl, htid⟩
        rw [(hl q hqw).1] at htid
        exact hfree q hx (Fin.ext htid)
      have hlast := ha.named q x hx
      rw [← (hl q hqw).1] at hlast
      simp only [Record.create, update_of_ne hqw]
      by_cases hxm : x = m
      · subst hxm
        rw [update_self, update_of_ne fun htid ↦ hother ⟨rfl, htid⟩]
        exact hlast
      · rw [update_of_ne hxm]
        exact hlast
  · intro q x hq
    by_cases hqw : q = w
    · subst hqw
      simp only [Record.create, update_self]
      exact ⟨Nat.lt_succ_self _, fun hj ↦ Nat.lt_irrefl _ (ha.old _ hj)⟩
    · obtain ⟨hlt, hj⟩ := ha.young q x (hold hqw hq)
      simp only [Record.create, update_of_ne hqw]
      exact ⟨Nat.lt_succ_of_lt hlt, hj⟩
  · intro q q' x x' hq hq' hs
    simp only [Record.create] at hs
    by_cases hqw : q = w
    · by_cases hqw' : q' = w
      · rw [hqw, hqw']
      · rw [hqw, update_self, update_of_ne hqw'] at hs
        have hlt := (ha.young q' x' (hold hqw' hq')).1
        omega
    · by_cases hqw' : q' = w
      · rw [hqw', update_self, update_of_ne hqw] at hs
        have hlt := (ha.young q x (hold hqw hq)).1
        omega
      · rw [update_of_ne hqw, update_of_ne hqw'] at hs
        exact ha.serials q q' x x' (hold hqw hq) (hold hqw' hq') hs
  · intro q x hq hzq
    have hqw : q ≠ w := by
      rintro rfl
      exact hz hzq
    have hstored := ha.stored q x (hold hqw hq) ((hl q hqw).2 hzq)
    simp only [Record.create, update_of_ne hqw, (hl q hqw).1]
    exact hstored
  · exact fun k hk ↦ Nat.lt_succ_of_lt (ha.old k hk)
  · intro x i k hk hj
    have hlast : x = m ∧ i = (l' w).tid ∧ k = h.born ∨ h.last x i = some k := by
      simp only [Record.create, update_apply] at hk
      split at hk
      · next hxm =>
        rw [update_apply] at hk
        split at hk
        · next hi =>
          cases hk
          exact .inl ⟨hxm, hi, rfl⟩
        · right
          rwa [hxm]
      · exact .inr hk
    rcases hlast with ⟨rfl, rfl, rfl⟩ | hlast
    · exact ⟨w, update_self .., rfl, by simp [Record.create]⟩
    · obtain ⟨q, hq, htid, hs⟩ := ha.lasts x i k hlast hj
      have hqw : q ≠ w := by
        rintro rfl
        rw [hw] at hq
        cases hq
      refine ⟨q, by rwa [update_of_ne hqw], by rw [(hl q hqw).1, htid], ?_⟩
      simpa [Record.create, hqw] using hs

/-- A thread exits. -/
theorem Accounts.exit {v : Nat} (ha : Accounts l made f h) (hp : made p = some m)
    (hl : ∀ q, q ≠ p → (l' q).life = .zombie → (l q).life = .zombie)
    (htid : ∀ q, (l' q).tid = (l q).tid)
    (hdistinct : ∀ q, made q = some m → (l q).tid = (l p).tid → q = p) :
    Accounts l' made (update f m (update (f m) (l p).tid v)) (h.exit p v) := by
  refine ⟨?_, ha.young, ha.serials, ?_, ha.nodup, ha.old, ?_⟩
  · intro q x hq
    rw [htid]
    exact ha.named q x hq
  · intro q x hq hz
    by_cases hqp : q = p
    · subst hqp
      rw [hp] at hq
      cases hq
      simp [Record.exit, htid]
    · have hs : h.serial q ≠ h.serial p := fun hs ↦ hqp (ha.serials q p x m hq hp hs)
      have hstored := ha.stored q x hq (hl q hqp hz)
      simp only [Record.exit, update_of_ne hs, htid, hstored]
      by_cases hx : x = m
      · subst hx
        rw [update_self, update_of_ne fun hi ↦ hqp (hdistinct q hq hi)]
      · rw [update_of_ne hx]
  · intro x i k hk hj
    obtain ⟨w, hw, hi, hs⟩ := ha.lasts x i k hk hj
    exact ⟨w, hw, by rw [htid, hi], hs⟩

/-- A thread is joined. -/
theorem Accounts.join (ha : Accounts l made f h) (ht : made t = some p)
    (hl : ∀ q, q ≠ t → (l' q).tid = (l q).tid ∧ ((l' q).life = .zombie → (l q).life = .zombie)) :
    Accounts l' (update made t none) f (h.join t) := by
  have hold : ∀ {q x}, (update made t none) q = some x → q ≠ t ∧ made q = some x := by
    intro q x hq
    rw [update_apply] at hq
    split at hq
    · cases hq
    · next hqt => exact ⟨hqt, hq⟩
  have hne : ∀ {q x}, q ≠ t → made q = some x → h.serial q ≠ h.serial t :=
    fun hqt hq hs ↦ hqt (ha.serials _ t _ p hq ht hs)
  obtain ⟨hlt, hj⟩ := ha.young t p ht
  refine ⟨?_, ?_, ?_, ?_, List.nodup_cons.mpr ⟨hj, ha.nodup⟩, ?_, ?_⟩
  · intro q x hq
    obtain ⟨hqt, hq⟩ := hold hq
    rw [(hl q hqt).1]
    exact ha.named q x hq
  · intro q x hq
    obtain ⟨hqt, hq⟩ := hold hq
    obtain ⟨hlt, hj⟩ := ha.young q x hq
    refine ⟨hlt, ?_⟩
    simp only [Record.join, List.mem_cons, not_or]
    exact ⟨hne hqt hq, hj⟩
  · exact fun q q' x x' hq hq' hs ↦ ha.serials q q' x x' (hold hq).2 (hold hq').2 hs
  · intro q x hq hz
    obtain ⟨hqt, hq⟩ := hold hq
    rw [(hl q hqt).1]
    exact ha.stored q x hq ((hl q hqt).2 hz)
  · intro k hk
    simp only [Record.join, List.mem_cons] at hk
    rcases hk with rfl | hk
    · exact hlt
    · exact ha.old k hk
  · intro x i k hk hkj
    simp only [Record.join, List.mem_cons, not_or] at hkj
    obtain ⟨q, hq, hi, hs⟩ := ha.lasts x i k hk hkj.2
    have hqt : q ≠ t := by
      rintro rfl
      exact hkj.1 hs.symm
    exact ⟨q, by rwa [update_of_ne hqt], by rw [(hl q hqt).1, hi], hs⟩

end

/-! ### The steps -/

section

variable {n : Nat} {round : Int → Int} {s t : State n} {a : Action n} {c : Fin n} {l : Links}
  {made : Slot → Ptr} {r r' : Returns n} {x : Action n × Nat} {p q m w : Slot} {v thread : Nat}

/-- What holds in every run of such calls. -/
structure Returns.Sound (r : Returns n) : Prop where
  booked : Booked r.state.links r.made
  making : Making r.state.links
  accounts : Accounts r.state.links r.made r.t_retval r.record
  waiting : ∀ p t, r.joining p = some t → (r.state.proc p).state = .SLEEPING →
    (r.state.proc p).chan = some (.proc p) ∧ r.made t = some p ∧ (r.state.proc t).state ≠ .ZOMBIE

private theorem state_of_embryo (h : (s.links p).life = .embryo) :
    (s.proc p).state = .EMBRYO := by
  have h : (s.proc p).state.life = .embryo := h
  cases hs : (s.proc p).state <;> rw [hs] at h <;> first | rfl | cases h

private theorem zombie_of_life (h : (s.links p).life = .zombie) :
    (s.proc p).state = .ZOMBIE := by
  have h : (s.proc p).state.life = .zombie := h
  cases hs : (s.proc p).state <;> rw [hs] at h <;> first | rfl | cases h

/-- A group with fewer than `MAXTHREAD` workers has a free index. -/
private theorem exists_free {g : Groups n} (h : Booked g.state.links g.made)
    (hm : (g.unjoined m).card < MAXTHREAD) :
    ∃ i, i ≠ 0 ∧ (g.state.proc m).threads i = none := by
  by_contra hfull
  push Not at hfull
  have hsub : Finset.univ.erase 0 ⊆ (g.unjoined m).image fun w ↦ (g.state.links w).tid := by
    intro i hi
    have hi0 := Finset.ne_of_mem_erase hi
    obtain ⟨w, hw⟩ := Option.ne_none_iff_exists'.mp (hfull i hi0)
    obtain ⟨hmade, htid⟩ := h.entry m i w ⟨hi0, hw⟩
    exact Finset.mem_image.mpr ⟨w, Finset.mem_filter.mpr ⟨Finset.mem_univ w, hmade⟩, htid⟩
  have hcard := (Finset.card_le_card hsub).trans Finset.card_image_le
  rw [Finset.card_erase_of_mem (Finset.mem_univ _), Finset.card_univ, Fintype.card_fin] at hcard
  omega

/-- Such calls keep the books. -/
private theorem kept_of_usual (h : r.Sound) (hu : r.Usual a) (hl : CallerLives r.state a) :
    Kept r.state a := by
  refine ⟨hl, ?_⟩
  cases a with
  | forkDone c b =>
    intro p hp w hw
    exact ⟨state_of_embryo (h.making.embryo p w (hl c rfl p hp) hw), hu p hp w hw⟩
  | threadReady c =>
    intro p hp w hw
    refine ⟨state_of_embryo (h.making.embryo p w (hl c rfl p hp) hw), fun m hm ↦ ?_⟩
    obtain ⟨m', hm', hworker⟩ := h.making.listed p w (hl c rfl p hp) hw (hu p hp w hw)
    cases Option.some.inj (hm'.symm.trans hm)
    exact hworker
  | thread_create c => exact fun p hp m hm ↦ exists_free h.booked (hu p hp m hm)
  | thread_exit c => exact hu
  | kill pid => exact hu.elim
  | exit c => exact hu.elim
  | _ => trivial

private theorem asks_eq {thread : Nat} {i : Fin (MAXTHREAD + 1)} (hp : (s.cpu c).proc = some p)
    (hi : i = thread) (hw : (s.proc p).threads i = some w) :
    asks s (.thread_join c thread) = some (p, w) := by
  have hlt : thread < MAXTHREAD + 1 := hi ▸ i.isLt
  have hidx : (⟨thread, hlt⟩ : Fin (MAXTHREAD + 1)) = i := Fin.ext hi.symm
  simp [asks, hp, hlt, hidx, hw]

private theorem asks_spec (h : asks s a = some (p, w)) : ∃ c thread, ∃ i : Fin (MAXTHREAD + 1),
    a = .thread_join c thread ∧ i = thread ∧ (s.cpu c).proc = some p ∧
      (s.proc p).threads i = some w := by
  cases a with
  | thread_join c thread =>
    obtain ⟨q, hq, h⟩ := Option.bind_eq_some_iff.mp h
    split at h
    · next hlt =>
      obtain ⟨t, ht, h⟩ := Option.map_eq_some_iff.mp h
      cases h
      exact ⟨c, thread, ⟨thread, hlt⟩, rfl, rfl, hq, ht⟩
    · cases h
  | _ => cases h

private theorem joins_awaits {thread : Nat} {i : Fin (MAXTHREAD + 1)}
    (hp : (s.cpu c).proc = some p) (hi : i = thread) (hw : (s.proc p).threads i = some w)
    (hz : (s.proc w).state ≠ .ZOMBIE) : joins s (.thread_join c thread) = none := by
  unfold joins
  rw [asks_eq hp hi hw, Option.filter_some, if_neg]
  simpa using hz

private theorem joins_join {thread : Nat} {i : Fin (MAXTHREAD + 1)}
    (hp : (s.cpu c).proc = some p) (hi : i = thread) (hw : (s.proc p).threads i = some w)
    (hz : (s.proc w).state = .ZOMBIE) : joins s (.thread_join c thread) = some (p, w) := by
  unfold joins
  rw [asks_eq hp hi hw, Option.filter_some, if_pos]
  simpa using hz

/-- What a step makes of the accounts, if no thread is created, exits or is joined. -/
private theorem Accounts.idle (ha : Accounts s.links made r.t_retval r.record)
    (hl : ∀ q, (l q).tid = (s.links q).tid ∧
      ((l q).life = .zombie → (s.links q).life = .zombie)) :
    Accounts l made r.t_retval r.record :=
  ha.frame (fun q _ _ ↦ hl q) fun _ _ _ ↦ rfl

/-- The accounts are kept by such a step. -/
private theorem Accounts.relinks (ha : Accounts s.links made r.t_retval r.record)
    (hb : Booked s.links made) (hc : Kept s a) (he : ∀ c, a ≠ .exit c) (hk : ∀ pid, a ≠ .kill pid)
    (hr : Relinks s a t.links) :
    Accounts t.links (workers s t a made) (retvals s a v r.t_retval) (r.record.next s t a v) := by
  obtain ⟨hl, hc⟩ := hc
  generalize hlinks : t.links = l at hr
  have hzombie : ∀ {q w} {x : Life}, x ≠ .zombie →
      (if q = w then x else (s.links q).life) = .zombie → (s.links q).life = .zombie := by
    intro q w x hx hz
    split at hz
    · exact absurd hz hx
    · exact hz
  cases hr with
  | @quiet a hq => cases a <;> first | exact ha.idle fun _ ↦ ⟨rfl, fun hz ↦ hz⟩ | cases hq
  | @full c p b hp hw =>
    have hsame : retvals s (.fork c b) v r.t_retval = r.t_retval := by
      cases b with
      | false => rfl
      | true => simp [retvals, hw]
    rw [hsame]
    exact ha.idle fun _ ↦ ⟨rfl, fun hz ↦ hz⟩
  | lost => exact ha.idle fun _ ↦ ⟨rfl, fun hz ↦ hz⟩
  | @fork c p w hp hw =>
    refine ha.frame (fun q m _ ↦ ⟨rfl, fun hz ↦ hzombie Life.noConfusion hz⟩) fun q m hq ↦ ?_
    -- the entry is free and has no workers
    have hmw : m ≠ w := by
      rintro rfl
      have hlive := (hb.led q m hq).1
      rw [life_of_state (state_of_findUnused hw)] at hlive
      cases hlive
    simp only [retvals, hw, update_of_ne hmw]
  | forkReady => exact ha.idle fun q ↦ ⟨rfl, fun hz ↦ hzombie Life.noConfusion hz⟩
  | forkFail => exact ha.idle fun q ↦ ⟨rfl, fun hz ↦ hzombie Life.noConfusion hz⟩
  | ready => exact ha.idle fun q ↦ ⟨rfl, fun hz ↦ hzombie Life.noConfusion hz⟩
  | reap => exact ha.idle fun q ↦ ⟨rfl, fun hz ↦ hzombie Life.noConfusion hz⟩
  | @create c p m w i hp hm hw _ hi hfull =>
    cases i with
    | none =>
      obtain ⟨j, hj, hjm⟩ := hc p (cpu_of_caller hp) m hm
      exact absurd hjm (hfull rfl j hj)
    | some i =>
      obtain ⟨hi0, him⟩ := hi i rfl
      have hnp : (t.links p).np = some w := by simp [hlinks, Links.create]
      have hcreated : created s t (.thread_create c) = some (m, w) := by
        have hnp : (t.proc p).np = some w := hnp
        simp [created, cpu_of_caller hp, hm, hnp]
      have hsame : r.record.next s t (.thread_create c) v = r.record.create m w (t.links w).tid := by
        unfold Record.next
        rw [hcreated]
        rfl
      have hfree := life_of_state (state_of_findUnused hw)
      rw [workers_create (cpu_of_caller hp) hm hnp, hsame, hlinks]
      apply ha.create
      · cases hmade : made w with
        | none => rfl
        | some x => exact absurd hfree (hb.flagged w x hmade).2
      · intro q hq
        simp [Links.create, hq]
      · simp [Links.create]
      · intro q hq htid
        have hlist := (hb.placed q m hq).2
        rw [htid] at hlist
        have hnone : (s.links m).threads i = none := him
        simp [Links.create, hnone] at hlist
  | @quit c p m hp hm =>
    have hexits : exits s (.thread_exit c) = some (m, p) := by
      simp [exits, cpu_of_caller hp, hm]
    have hmade : made p = some m := by
      rcases made_of_master hb (hl c rfl p (cpu_of_caller hp)) hm with ⟨_, rfl⟩ | hmade
      · exact absurd hm (hc p (cpu_of_caller hp))
      · exact hmade
    have hretvals : retvals s (.thread_exit c) v r.t_retval =
        update r.t_retval m (update (r.t_retval m) (s.links p).tid v) := by
      simp only [retvals, hexits]
      rfl
    have hsame : r.record.next s t (.thread_exit c) v = r.record.exit p v := by
      simp only [Record.next, hexits]
      rfl
    rw [hretvals, hsame]
    apply ha.exit hmade
    · intro q hq hz
      simpa [Links.quit, hq] using hz
    · exact fun _ ↦ rfl
    · intro q hq htid
      have hlist := (hb.placed q m hq).2
      rw [htid, (hb.placed p m hmade).2] at hlist
      exact (Option.some.inj hlist).symm
  | @awaits c p w thread i hp hi hw hz =>
    have hsame : r.record.next s t (.thread_join c thread) v = r.record := by
      simp only [Record.next, joins_awaits (cpu_of_caller hp) hi hw hz]
      rfl
    rw [workers_awaits (cpu_of_caller hp) hi hw hz, hsame]
    exact ha.idle fun _ ↦ ⟨rfl, fun hz ↦ hz⟩
  | @join c p w thread i hp hi hw hz =>
    have hsame : r.record.next s t (.thread_join c thread) v = r.record.join w := by
      simp only [Record.next, joins_join (cpu_of_caller hp) hi hw hz]
      rfl
    rw [workers_join (cpu_of_caller hp) hi hw hz, hsame]
    apply ha.join (made_of_zombie hb (hl c rfl p (cpu_of_caller hp)) hw hz)
    exact fun q _ ↦ ⟨rfl, fun hz ↦ hzombie Life.noConfusion hz⟩
  | nobody => exact absurd rfl (hk _)
  | kill => exact absurd rfl (hk _)
  | exit => exact absurd rfl (he _)
  | waits => exact ha.idle fun _ ↦ ⟨rfl, fun hz ↦ hz⟩

/-- Such a step ends nobody but the caller of `thread_exit`. -/
private theorem zombie_of_relinks (hk : ∀ pid, a ≠ .kill pid) (he : ∀ c, a ≠ .exit c)
    (hr : Relinks s a l) (hz : (l q).life = .zombie) :
    (s.links q).life = .zombie ∨ ∃ c m, a = .thread_exit c ∧ (s.cpu c).proc = some q ∧
      (s.proc q).master = some m := by
  have hset : ∀ {w} {x : Life}, x ≠ .zombie →
      (if q = w then x else (s.links q).life) = .zombie → (s.links q).life = .zombie := by
    intro w x hx hz
    split at hz
    · exact absurd hz hx
    · exact hz
  cases hr with
  | fork => exact .inl (hset Life.noConfusion hz)
  | forkReady => exact .inl (hset Life.noConfusion hz)
  | forkFail => exact .inl (hset Life.noConfusion hz)
  | create => exact .inl (hset Life.noConfusion hz)
  | ready => exact .inl (hset Life.noConfusion hz)
  | join => exact .inl (hset Life.noConfusion hz)
  | reap => exact .inl (hset Life.noConfusion hz)
  | @quit c p m hp hm =>
    by_cases hqp : q = p
    · subst hqp
      exact .inr ⟨c, m, rfl, cpu_of_caller hp, hm⟩
    · left
      simpa [Links.quit, hqp] using hz
  | kill => exact absurd rfl (hk _)
  | nobody => exact absurd rfl (hk _)
  | exit => exact absurd rfl (he _)
  | _ => exact .inl hz

/-- A worker stays one until its master joins it. -/
private theorem workers_of_relinks (hb : Booked s.links made) (he : ∀ c, a ≠ .exit c)
    (hr : Relinks s a t.links) (hq : made q = some p)
    (hp : ∀ c ∈ a.call, (s.cpu c).proc ≠ some p) (hl : CallerLives s a) :
    workers s t a made q = some p := by
  generalize hlinks : t.links = l at hr
  cases hr with
  | @quiet a ha => cases a <;> first | exact hq | cases ha
  | exit => exact absurd rfl (he _)
  | @create c x m w i hx hm hw =>
    have hnp : (t.links x).np = some w := by simp [hlinks, Links.create]
    have hqw : q ≠ w := by
      rintro rfl
      exact (hb.flagged q p hq).2 (life_of_state (state_of_findUnused hw))
    rw [workers_create (cpu_of_caller hx) hm hnp, update_of_ne hqw, hq]
  | @awaits c x w thread i hx hi hw hz =>
    rw [workers_awaits (cpu_of_caller hx) hi hw hz, hq]
  | @join c x w thread i hx hi hw hz =>
    have hqw : q ≠ w := by
      rintro rfl
      have hqx := made_of_zombie hb (hl c rfl x (cpu_of_caller hx)) hw hz
      rw [hq] at hqx
      cases hqx
      exact hp c rfl (cpu_of_caller hx)
    rw [workers_join (cpu_of_caller hx) hi hw hz, update_of_ne hqw, hq]
  | _ => exact hq

/-- A master that asks for a thread it may join asks for one of its workers. -/
private theorem asked_worker (h : r.Sound) (hu : r.Usual (.thread_join c thread))
    (hp : (r.state.cpu c).proc = some p) {i : Fin (MAXTHREAD + 1)} (hi : i = thread)
    (hw : (r.state.proc p).threads i = some w) :
    r.made w = some p ∧ (r.state.links w).tid = i ∧ r.record.last p thread = some (r.record.serial w)
      ∧ r.record.serial w ∉ r.record.joined := by
  obtain ⟨k, hk, hj⟩ := hu p hp
  obtain ⟨q, hq, htid, hs⟩ := h.accounts.lasts p thread k hk hj
  have htid : (r.state.links q).tid = i := Fin.ext (htid.trans hi.symm)
  have hlist := (h.booked.placed q p hq).2
  rw [htid] at hlist
  have hqw : q = w := Option.some.inj (hlist.symm.trans hw)
  subst hqw
  rw [hs]
  exact ⟨hq, htid, hk, hj⟩

/-- The caller of a step, as it stands in `Returns.step`. -/
private def callerOf (s : State n) (a : Action n) : Ptr := a.call >>= fun c ↦ (s.cpu c).proc

private theorem callerOf_eq (h : callerOf s a = some p) :
    ∃ c, a.call = some c ∧ (s.cpu c).proc = some p :=
  Option.bind_eq_some_iff.mp h

private theorem callerOf_ne (h : callerOf s a ≠ some p) : ∀ c ∈ a.call, (s.cpu c).proc ≠ some p :=
  fun _ hc hp ↦ h (Option.bind_eq_some_iff.mpr ⟨_, hc, hp⟩)

/-- `p` goes to sleep in `thread_join`. -/
private theorem waiting_awaits (h : r.Sound) (hu : r.Usual a) (hl : CallerLives r.state a)
    (hp : callerOf r.state a = some p) (ht : step round r.state a = .ok t)
    (hr : Relinks r.state a t.links) (hw : (awaits r.state a).map Prod.snd = some w)
    (hs : (t.proc p).state = .SLEEPING) :
    (t.proc p).chan = some (.proc p) ∧ workers r.state t a r.made w = some p ∧
      (t.proc w).state ≠ .ZOMBIE := by
  obtain ⟨⟨q, w⟩, hq, rfl⟩ := Option.map_eq_some_iff.mp hw
  obtain ⟨hask, hz⟩ := Option.filter_eq_some_iff.mp hq
  obtain ⟨c, thread, i, rfl, hi, hcpu, hlist⟩ := asks_spec hask
  obtain ⟨c', hc', hp⟩ := callerOf_eq hp
  cases hc'
  cases hcpu.symm.trans hp
  dsimp only
  have hz : (r.state.proc w).state ≠ .ZOMBIE := by simpa using hz
  obtain ⟨hmade, _⟩ := asked_worker h hu hp hi hlist
  obtain ⟨hlive, hfree⟩ := h.booked.led w p hmade
  refine ⟨thread_join_sleeps ht hp ?_ ?_ hs, ?_, ?_⟩
  · intro j q hj hq
    rw [Fin.ext (hj.trans hi.symm), hlist] at hq
    cases hq
    exact hz
  · intro m hm
    have hown := (h.booked.owned p hlive).symm.trans hm
    rw [hfree] at hown
    have hmp : p = m := Option.some.inj hown
    subst hmp
    -- the worker that is asked for has not exited
    have hin : w ∈ r.state.links.working r.made p := by
      apply Finset.mem_filter.mpr
      exact ⟨Finset.mem_univ w, hmade, fun hzw ↦ hz (zombie_of_life hzw)⟩
    have hpos := Finset.card_pos.mpr ⟨w, hin⟩
    have hcnt : (r.state.proc p).t_cnt = _ := h.booked.counted p
    rw [hcnt]
    omega
  · rw [workers_awaits hp hi hlist hz, hmade]
  · intro hzw
    rcases zombie_of_relinks (fun _ ha ↦ by cases ha) (fun _ ha ↦ by cases ha) hr
      (life_of_state hzw) with hzl | ⟨c, m, ha, _⟩
    · exact hz (zombie_of_life hzl)
    · cases ha

/-- `p` goes on sleeping in `thread_join`. -/
private theorem waiting_stays (h : r.Sound) (hk : ∀ pid, a ≠ .kill pid) (he : ∀ c, a ≠ .exit c)
    (hl : CallerLives r.state a) (hp : callerOf r.state a ≠ some p) (ht : step round r.state a = .ok t)
    (hr : Relinks r.state a t.links) (hw : r.joining p = some w)
    (hs : (t.proc p).state = .SLEEPING) :
    (t.proc p).chan = some (.proc p) ∧ workers r.state t a r.made w = some p ∧
      (t.proc w).state ≠ .ZOMBIE := by
  obtain ⟨hs', hchan⟩ := step_sleeper ht (callerOf_ne hp) hs
  obtain ⟨hc, hmade, hz⟩ := h.waiting p w hw hs'
  refine ⟨hchan.trans hc, workers_of_relinks h.booked he hr hmade (callerOf_ne hp) hl, ?_⟩
  intro hzw
  rcases zombie_of_relinks hk he hr (life_of_state hzw) with hzl | ⟨c, m, rfl, hcpu, hm⟩
  · exact hz (zombie_of_life hzl)
  · have hown := (h.booked.owned w (hl c rfl w hcpu)).symm.trans hm
    rw [hmade] at hown
    cases hown
    exact thread_exit_wakes ht hcpu hm hc hs

/-- One step. -/
theorem Returns.step_sound (h : r.Sound) (hu : r.Usual x.1) (hl : CallerLives r.state x.1)
    (hs : r.step round x = .ok r') : r'.Sound := by
  obtain ⟨a, v⟩ := x
  obtain ⟨g, hg, hs⟩ := bind_eq_ok.mp hs
  cases hs
  have hkept := kept_of_usual h hu hl
  have hk : ∀ pid, a ≠ .kill pid := by
    rintro pid rfl
    exact hu.elim
  have he : ∀ c, a ≠ .exit c := by
    rintro c rfl
    exact hu.elim
  have hbooked := Groups.step_booked h.booked hkept hg
  obtain ⟨t, ht, hg⟩ := bind_eq_ok.mp hg
  cases hg
  have hr := step_relinks h.booked hkept he ht
  refine ⟨hbooked, h.making.relinks h.booked hkept he hr,
    h.accounts.relinks h.booked hkept he hk hr, ?_⟩
  intro p w hw hsleep
  have hw : (match callerOf r.state a with
    | some q => update r.joining q ((awaits r.state a).map Prod.snd)
    | none => r.joining) p = some w := hw
  by_cases hp : callerOf r.state a = some p
  · rw [hp] at hw
    dsimp only at hw
    rw [update_self] at hw
    exact waiting_awaits h hu hl hp ht hr hw hsleep
  · refine waiting_stays h hk he hl hp ht hr ?_ hsleep
    cases hq : callerOf r.state a with
    | none =>
      rw [hq] at hw
      exact hw
    | some q =>
      have hqp : p ≠ q := by
        rintro rfl
        exact hp hq
      rw [hq] at hw
      dsimp only at hw
      rwa [update_of_ne hqp] at hw

theorem Returns.boot_sound (n : Nat) : (Returns.boot n).Sound where
  booked := Groups.boot_booked n
  making := by
    have hnp : ∀ p, ((Returns.boot n).state.links p).np = none := by
      intro p
      rw [Returns.boot, Groups.boot, links_apply, boot_proc]
      split <;> rfl
    have hno : ∀ {p w}, ((Returns.boot n).state.links p).np ≠ some w := by
      intro p w hw
      rw [hnp] at hw
      cases hw
    exact ⟨fun _ _ _ hw ↦ absurd hw hno, fun _ _ _ hw ↦ absurd hw hno,
      fun _ _ _ _ _ hw ↦ absurd hw hno, fun w _ ↦ hnp w⟩
  accounts := by
    constructor
    · intro w m hw
      cases hw
    · intro w m hw
      cases hw
    · intro w w' m m' hw
      cases hw
    · intro w m hw
      cases hw
    · exact List.nodup_nil
    · intro k hk
      cases hk
    · intro m i k hk
      cases hk
  waiting := by
    intro p t ht
    cases ht

/-- In every run of such calls, made by processes that are alive, joins deliver. -/
theorem joins_deliver (h : ReachesVia (Returns.step round)
    (fun r x ↦ r.Usual x.1 ∧ CallerLives r.state x.1) (Returns.boot n) r) : r.Delivers := by
  have hs : r.Sound :=
    h.invariant (I := Returns.Sound) (fun _ _ _ hr hc hs ↦ Returns.step_sound hr hc.1 hc.2 hs)
      (Returns.boot_sound n)
  refine ⟨?_, hs.accounts.nodup, ?_⟩
  · intro c thread p x hu hl hp hx
    obtain ⟨⟨q, w⟩, hq, hx⟩ := Option.map_eq_some_iff.mp hx
    obtain ⟨hask, hz⟩ := Option.filter_eq_some_iff.mp hq
    obtain ⟨c', thread', i, ha, hi, hcpu, hlist⟩ := asks_spec hask
    cases ha
    cases hcpu.symm.trans hp
    have hz : (r.state.proc w).state = .ZOMBIE := by simpa using hz
    obtain ⟨hmade, htid, hlast, hj⟩ := asked_worker hs hu hp hi hlist
    exact ⟨_, _, hlast, hj, hs.accounts.stored w p hmade (life_of_state hz), hx.symm⟩
  · exact fun p t ht hsleep ↦ (hs.waiting p t ht hsleep).2.2

end

section

/-- The first process creates a thread, which passes 7 to `thread_exit`. -/
def returnsSeven : List (Action 1 × Nat) :=
  [(.scheduler cpu0, 0), (.thread_create cpu0, 0), (.threadReady cpu0, 0), (.yield cpu0, 0),
    (.thread_exit cpu0, 7)]

theorem joins_deliver_returnsSeven :
    (final (Returns.step float) (Returns.boot 1) returnsSeven).Delivers ∧
      (final (Returns.step float) (Returns.boot 1) returnsSeven).result (.thread_join cpu0 1) =
        some (0, 7) := by
  have hok : (exec (Returns.step float) (Returns.boot 1) returnsSeven).isOk = true := by
    decide +kernel
  have hc : Along (Returns.step float) (fun r x ↦ r.Usual x.1 ∧ CallerLives r.state x.1)
      (Returns.boot 1) returnsSeven := by decide +kernel
  exact ⟨joins_deliver ⟨returnsSeven, hc, exec_final hok⟩, by decide +kernel⟩

/-- The first process has a child, and each a group. On CPU 1 the second worker of the child yields
to itself, which leaves it ready, and as the group is in the heap it is dispatched on CPU 0 as well.
There it exits with 7 and is joined, and the next worker gets its id and another entry, and exits
with 5. On CPU 1 it then exits once more, with 9. -/
def exitsTwice : List (Action 2 × Nat) :=
  [(.scheduler 0, 0), (.fork 0 true, 0), (.forkDone 0 true, 0), (.thread_create 0, 0),
    (.threadReady 0, 0), (.scheduler 1, 0), (.thread_create 1, 0), (.threadReady 1, 0),
    (.thread_create 1, 0), (.threadReady 1, 0), (.yield 0, 0), (.thread_exit 0, 1),
    (.thread_join 0 1, 0), (.sleep 1 (.object 0), 0), (.sleep 1 (.object 0), 0),
    (.sleep 1 (.object 1), 0), (.wakeup (.object 1), 0), (.scheduler 1, 0), (.yield 1, 0),
    (.sleep 0 (.object 2), 0), (.scheduler 0, 0), (.scheduler 0, 0), (.wakeup (.object 0), 0),
    (.thread_exit 0, 7), (.thread_join 0 2, 0), (.thread_create 0, 0), (.threadReady 0, 0),
    (.yield 0, 0), (.yield 0, 0), (.thread_exit 0, 5), (.thread_exit 1, 9)]

example : (final (Returns.step float) (Returns.boot 2) exitsTwice).record.last 1 1 = some 1 := by
  decide +kernel

/-- The join of the last worker would return 9. -/
theorem exitsTwice_wrong :
    (exec (Returns.step float) (Returns.boot 2) exitsTwice).isOk = true ∧
      Along (Returns.step float) (fun r x ↦ r.Usual x.1) (Returns.boot 2) exitsTwice ∧
      ¬(final (Returns.step float) (Returns.boot 2) exitsTwice).Delivers := by
  have hok : (exec (Returns.step float) (Returns.boot 2) exitsTwice).isOk = true := by
    decide +kernel
  have hu : Along (Returns.step float) (fun r x ↦ r.Usual x.1) (Returns.boot 2) exitsTwice := by
    decide +kernel
  have hend :
      let r := final (Returns.step float) (Returns.boot 2) exitsTwice
      (r.Usual (.thread_join 0 2) ∧ CallerLives r.state (.thread_join 0 2) ∧
        (r.state.cpu 0).proc = some 1) ∧ r.result (.thread_join 0 2) = some (0, 9) ∧
          r.record.last 1 2 = some 3 ∧ r.record.passed 3 = some 5 := by
    decide +kernel
  refine ⟨hok, hu, fun h ↦ ?_⟩
  obtain ⟨⟨husual, hlive, hp⟩, hresult, hlast, hpassed⟩ := hend
  obtain ⟨k, v, hk, -, hv, hx⟩ := h.value 0 2 1 (0, 9) husual hlive hp hresult
  rw [hlast] at hk
  cases hk
  rw [hpassed] at hv
  cases hv
  cases hx

end

end Xv6.Sched
