import Xv6.Sched.Links

/-!
# Parents

`fork` makes the caller the parent, a worker included, but only the master of a group hands its
children over when it ends. The history beside the state says who forked a process and for which
processes `exit` has been called. As long as no worker ends that has children, each child has a
parent that is alive: the process that forked it or, once that has exited, the first process.
-/

namespace Xv6.Sched

open Function Lib

section

variable {n : Nat} (round : Int → Int)

/-- A machine with the history of its families. `forker` is, for a process that `fork` has made,
the slot and pid of its caller; `ended` lists the slots and pids of what `exit` has ended. -/
structure Kin (n : Nat) where
  state : State n
  forker : Slot → Option (Slot × Nat)
  ended : List (Slot × Nat)

/-- Who forked the process in each slot, after the step `a` from `s` to `t`. -/
def forkers (s t : State n) (a : Action n) (f : Slot → Option (Slot × Nat)) :
    Slot → Option (Slot × Nat) := fun q ↦
  if (t.proc q).state = .UNUSED then none
  else
    match a with
    | .forkDone c true =>
      match current s c with
      | .ok p => if (s.proc p).np = some q then some (p, (s.proc p).pid) else f q
      | .error _ => f q
    | _ => f q

/-- What a step ends in `exit`. -/
def endings (s : State n) : Action n → List (Slot × Nat)
  | .exit c =>
    match caller s c with
    | .ok p => (exiting s p).toList.map fun m ↦ (m, (s.proc m).pid)
    | .error _ => []
  | _ => []

/-- One step, with its history. -/
def Kin.step (k : Kin n) (a : Action n) : Except Fault (Kin n) := do
  let t ← Sched.step round k.state a
  pure ⟨t, forkers k.state t a k.forker, endings k.state a ++ k.ended⟩

/-- The machine when the CPUs enter `scheduler()`. -/
def Kin.boot (n : Nat) : Kin n := ⟨Sched.boot n, fun _ ↦ none, []⟩

/-- `p` has no children. -/
def NoChildren (s : State n) (p : Slot) : Prop := ∀ q, (s.proc q).parent ≠ some p

instance (s : State n) (p : Slot) : Decidable (NoChildren s p) :=
  inferInstanceAs (Decidable (∀ _, _))

/-- A call is made by a process that is alive, and a `fork` ends with the entry it has taken. What
ends without handing its children over, in `thread_exit` or as a worker in `exit` or `kill`, has
none; the first process does not end. -/
def Childless (s : State n) (a : Action n) : Prop :=
  CallerLives s a ∧
    match a with
    | .forkDone c _ => ∀ p ∈ (s.cpu c).proc, ∀ w ∈ (s.proc p).np, (s.proc w).state = .EMBRYO
    | .thread_exit c => ∀ p ∈ (s.cpu c).proc, s.initproc ≠ some p ∧ NoChildren s p
    | .exit c =>
      ∀ p ∈ (s.cpu c).proc, ∀ m ∈ exiting s p, (s.proc m).isthread = true →
        ∀ w, IsWorker s m w → NoChildren s w
    | .kill pid => ∀ p ∈ findPid s pid, ∀ w, Doomed s p w → NoChildren s w
    | _ => True

instance (s : State n) (a : Action n) : Decidable (Childless s a) :=
  match a with
  | .forkDone _ _ | .thread_exit _ | .exit _ | .kill _ | .scheduler _ | .tick _ | .boost _
  | .yield _ | .sleep _ _ | .wakeup _ | .fork _ _ | .wait _ | .set_cpu_share _ _
  | .thread_create _ | .threadReady _ | .thread_join _ _ =>
    inferInstanceAs (Decidable (_ ∧ _))

/-- `q`, which `x` with pid `id` has forked, has the parent `y`: a process that is alive and is the
one that forked it or, if that has ended in `exit`, the first process. If `q` is a zombie, `wait`
of `y` finds a child. -/
structure HasParent (k : Kin n) (q x : Slot) (id : Nat) (y : Slot) : Prop where
  parent : (k.state.proc q).parent = some y
  alive : (k.state.proc y).state.life = .alive
  forker : y = x ∧ (k.state.proc x).pid = id ∨ k.state.initproc = some y ∧ (x, id) ∈ k.ended
  found : (k.state.proc q).state = .ZOMBIE → zombieChild k.state y ≠ none

end

/-! ### The links -/

section

/-- The first process is alive and no worker, and every parent is alive. -/
structure Parented (l : Links) (first : Ptr) : Prop where
  first_alive : ∀ i, first = some i → (l i).life = .alive
  unlisted : ∀ m i w, l.Lists m i w → first ≠ some w
  alive : ∀ q x, (l q).parent = some x → (l x).life = .alive

variable {n : Nat} {s t : State n} {a : Action n} {l l' : Links} {first : Ptr} {p q m w x : Slot}

/-- A change in which what ends has no children. -/
theorem Parented.change (h : Parented l first)
    (hlife : ∀ x, (l x).life = .alive →
      (l' x).life = .alive ∨ first ≠ some x ∧ ∀ q, (l' q).parent ≠ some x)
    (hlists : ∀ m i w, l'.Lists m i w → l.Lists m i w ∨ (l w).life ≠ .alive)
    (hparent : ∀ q x, (l' q).parent = some x → (l q).parent = some x ∨ (l x).life = .alive) :
    Parented l' first := by
  constructor
  · intro i hi
    rcases hlife i (h.first_alive i hi) with hx | ⟨hx, _⟩
    · exact hx
    · exact absurd hi hx
  · intro m i w hw hfirst
    rcases hlists m i w hw with hw | hw
    · exact h.unlisted m i w hw hfirst
    · exact hw (h.first_alive w hfirst)
  · intro q x hq
    have hx : (l x).life = .alive := by
      rcases hparent q x hq with hx | hx
      · exact h.alive q x hx
      · exact hx
    rcases hlife x hx with hx | ⟨_, hx⟩
    · exact hx
    · exact absurd hq (hx q)

/-- A change in which nothing ends that is alive. -/
theorem Parented.grow (h : Parented l first) (hlife : ∀ x, (l x).life = .alive → (l' x).life = .alive)
    (hlists : ∀ m i w, l'.Lists m i w → l.Lists m i w ∨ (l w).life ≠ .alive)
    (hparent : ∀ q x, (l' q).parent = some x → (l q).parent = some x ∨ (l x).life = .alive) :
    Parented l' first :=
  h.change (fun x hx ↦ .inl (hlife x hx)) hlists hparent

theorem Parented.fork {id : Nat} (h : Parented l first) (hw : (l w).life ≠ .alive) :
    Parented (l.fork p w id) first := by
  apply h.grow
  · intro x hx
    have hxw : x ≠ w := by
      rintro rfl
      exact hw hx
    simp [Links.fork, hxw, hx]
  · rintro m i q ⟨hi, hq⟩
    by_cases hm : m = w
    · simp [Links.fork, hm, hi] at hq
    · exact .inl ⟨hi, by simpa [Links.fork, hm] using hq⟩
  · exact fun q x hq ↦ .inl hq

theorem Parented.create {i : Option (Fin (MAXTHREAD + 1))} {id : Nat} (h : Parented l first)
    (hw : (l w).life ≠ .alive) : Parented (l.create p m w i id) first := by
  apply h.grow
  · intro x hx
    have hxw : x ≠ w := by
      rintro rfl
      exact hw hx
    simp [Links.create, hxw, hx]
  · rintro m' j q ⟨hj, hq⟩
    simp only [Links.create] at hq
    split at hq
    · cases hq
      exact .inr hw
    · exact .inl ⟨hj, hq⟩
  · exact fun q x hq ↦ .inl hq

theorem Parented.forkReady (h : Parented l first) (hp : (l p).life = .alive) :
    Parented (l.forkReady p w) first := by
  apply h.grow
  · intro x hx
    simp only [Links.forkReady]
    split
    · rfl
    · exact hx
  · exact fun m i q hq ↦ .inl hq
  · intro q x hq
    simp only [Links.forkReady] at hq
    split at hq
    · cases hq
      exact .inr hp
    · exact .inl hq

/-- Nothing ends that is alive, and no worker and no parent is new. -/
theorem Parented.shrink (h : Parented l first)
    (hlife : ∀ x, (l x).life = .alive → (l' x).life = .alive)
    (hlists : ∀ m i w, l'.Lists m i w → l.Lists m i w)
    (hparent : ∀ q x, (l' q).parent = some x → (l q).parent = some x) : Parented l' first :=
  h.grow hlife (fun m i w hw ↦ .inl (hlists m i w hw)) fun q x hq ↦ .inl (hparent q x hq)

/-- A slot that is not alive gets another life. -/
private theorem alive_set {y : Life} (hw : (l w).life ≠ .alive) (hx : (l x).life = .alive) :
    (if x = w then y else (l x).life) = .alive := by
  rw [if_neg]
  · exact hx
  · rintro rfl
    exact hw hx

/-- A slot becomes alive. -/
private theorem alive_raise (hx : (l x).life = .alive) :
    (if x = w then .alive else (l x).life) = .alive := by
  split
  · rfl
  · exact hx

theorem Parented.rouse (h : Parented l first) : Parented (l.rouse m) first :=
  h.shrink (fun _ hx ↦ alive_raise hx) (fun _ _ _ hw ↦ hw) fun _ _ hq ↦ hq

theorem Parented.join (h : Parented l first) (hw : (l w).life ≠ .alive) :
    Parented (l.join p w) first := by
  apply h.shrink fun _ hx ↦ alive_set hw hx
  · rintro m i q ⟨hi, hq⟩
    simp only [Links.join] at hq
    split at hq
    · cases hq
    · exact ⟨hi, hq⟩
  · exact fun _ _ hq ↦ hq

theorem Parented.reap (h : Parented l first) (hw : (l w).life ≠ .alive) :
    Parented (l.reap w) first := by
  apply h.shrink fun _ hx ↦ alive_set hw hx
  · exact fun _ _ _ hw ↦ hw
  · intro q x hq
    simp only [Links.reap] at hq
    split at hq
    · cases hq
    · exact hq

theorem Parented.quit (h : Parented l first) (hfirst : first ≠ some p)
    (hp : ∀ q, (l q).parent ≠ some p) : Parented (l.quit p m) first := by
  apply h.change
  · intro x hx
    by_cases hxp : x = p
    · subst hxp
      exact .inr ⟨hfirst, hp⟩
    · simp [Links.quit, hxp, hx]
  · exact fun _ _ _ hw ↦ .inl hw
  · exact fun _ _ hq ↦ .inl hq

theorem Parented.kill (h : Parented l first)
    (hp : ∀ m w, (l p).isthread = true → (l p).master = some m → l.Worker m w →
      ∀ q, (l q).parent ≠ some w) : Parented (l.kill p) first := by
  apply h.change
  · intro x hx
    by_cases hd : (l p).isthread = true ∧ ∃ m, (l p).master = some m ∧ l.Worker m x
    · obtain ⟨hi, m, hm, i, hw⟩ := hd
      exact .inr ⟨h.unlisted m i x hw, hp m x hi hm ⟨i, hw⟩⟩
    · left
      simp only [Links.kill, if_neg hd, hx]
  · exact fun _ _ _ hw ↦ .inl hw
  · exact fun _ _ hq ↦ .inl hq

theorem Parented.exit (h : Parented l first) (hfirst : first ≠ some m)
    (hm : ∀ w, (l m).isthread = true → l.Worker m w → ∀ q, (l q).parent ≠ some w) :
    Parented (l.exit m first) first := by
  apply h.change
  · intro x hx
    by_cases hxm : x = m
    · subst hxm
      refine .inr ⟨hfirst, fun q hq ↦ ?_⟩
      simp only [Links.exit] at hq
      split at hq
      · exact hfirst hq
      · next hq' => exact hq' hq
    · by_cases hw : (l m).isthread = true ∧ l.Worker m x
      · obtain ⟨hi, i, hx⟩ := hw
        refine .inr ⟨h.unlisted m i x hx, fun q hq ↦ ?_⟩
        simp only [Links.exit] at hq
        split at hq
        · exact h.unlisted m i x hx hq
        · exact hm x hi ⟨i, hx⟩ q hq
      · left
        simp only [Links.exit, if_neg hxm, if_neg hw, hx]
  · rintro m' i w ⟨hi, hw⟩
    simp only [Links.exit] at hw
    split at hw
    · cases hw
    · exact .inl ⟨hi, hw⟩
  · intro q x hq
    simp only [Links.exit] at hq
    split at hq
    · exact .inr (h.first_alive x hq)
    · exact .inl hq

theorem life_eq_unused {x : ProcState} : x.life = .unused ↔ x = .UNUSED := by
  cases x <;> simp [ProcState.life]

private theorem life_of_findUnused (hw : findUnused s = some w) : (s.links w).life = .unused := by
  rw [links_apply, Proc.link, state_of_findUnused hw]
  rfl

private theorem life_of_zombieChild (hq : zombieChild s p = some q) :
    (s.proc q).parent = some p ∧ (s.links q).life = .zombie := by
  unfold zombieChild at hq
  have hz := List.find?_some hq
  simp only [Bool.decide_and, Bool.and_eq_true, decide_eq_true_eq] at hz
  refine ⟨hz.1, ?_⟩
  rw [links_apply, Proc.link, hz.2]
  rfl

/-- A permitted step, up to its call of `sched`. -/
theorem Parented.relinks (h : Parented s.links s.initproc) (hc : Childless s a)
    (hr : Relinks s a l) : Parented l s.initproc := by
  obtain ⟨hl, hc⟩ := hc
  cases hr with
  | quiet => exact h
  | full => exact h
  | awaits => exact h
  | nobody => exact h
  | waits => exact h
  | lost => exact ⟨h.first_alive, h.unlisted, h.alive⟩
  | fork _ hw => exact h.fork (by simp [life_of_findUnused hw])
  | forkReady hp => exact h.forkReady (hl _ rfl _ (cpu_of_current hp))
  | @forkFail c p w hp hnp =>
    have hw : (s.links w).life ≠ .alive := by
      rw [links_apply, Proc.link, hc p (cpu_of_current hp) w hnp]
      exact Life.noConfusion
    exact h.shrink (fun _ hx ↦ alive_set hw hx) (fun _ _ _ hw ↦ hw) fun _ _ hq ↦ hq
  | create _ _ hw => exact h.create (by simp [life_of_findUnused hw])
  | ready => exact h.shrink (fun _ hx ↦ alive_raise hx) (fun _ _ _ hw ↦ hw) fun _ _ hq ↦ hq
  | quit hp =>
    obtain ⟨hfirst, hno⟩ := hc _ (cpu_of_caller hp)
    exact h.quit hfirst hno
  | join _ _ _ hz =>
    apply h.join
    rw [links_apply, Proc.link, hz]
    exact Life.noConfusion
  | kill hp => exact h.kill fun m w hi hm hw ↦ hc _ hp w ⟨hi, m, hm, hw⟩
  | exit hp hm hi => exact h.exit hi fun w hth hw ↦ hc _ (cpu_of_caller hp) _ hm hth w hw
  | reap _ hq => exact h.reap (by simp [(life_of_zombieChild hq).2])

/-- The steps that change the parent of `q`. -/
private theorem relinks_parent (hr : Relinks s a l) : (l q).parent = (s.links q).parent ∨
    (∃ c p, a = .forkDone c true ∧ current s c = .ok p ∧ (s.proc p).np = some q ∧
      (l q).parent = some p) ∨
    (∃ c p m, a = .exit c ∧ caller s c = .ok p ∧ exiting s p = some m ∧ s.initproc ≠ some m ∧
      (s.links q).parent = some m ∧ (l q).parent = s.initproc) ∨
    ∃ c, a = .wait c ∧ (s.links q).life = .zombie ∧ (l q).life = .unused := by
  cases hr with
  | @forkReady c p w hp hnp =>
    by_cases hq : q = w
    · subst hq
      exact .inr (.inl ⟨c, p, rfl, hp, hnp, by simp [Links.forkReady]⟩)
    · exact .inl (by simp [Links.forkReady, hq])
  | @exit c p m hp hm hi =>
    by_cases hq : (s.links q).parent = some m
    · exact .inr (.inr (.inl ⟨c, p, m, rfl, hp, hm, hi, hq, by simp [Links.exit, hq]⟩))
    · exact .inl (by simp [Links.exit, hq])
  | @reap c p w hp hw =>
    by_cases hq : q = w
    · subst hq
      exact .inr (.inr (.inr ⟨c, rfl, (life_of_zombieChild hw).2, by simp [Links.reap]⟩))
    · exact .inl (by simp [Links.reap, hq])
  | _ => exact .inl rfl

/-- A pid is changed in an entry that is free or a zombie. -/
private theorem relinks_pid (hx : (s.links x).life = .alive) (hr : Relinks s a l) :
    (l x).pid = (s.links x).pid := by
  have hfree : ∀ {w id}, findUnused s = some w →
      (if x = w then id else (s.links x).pid) = (s.links x).pid := by
    intro w id hw
    rw [if_neg]
    rintro rfl
    rw [life_of_findUnused hw] at hx
    cases hx
  cases hr with
  | lost _ hw => exact hfree hw
  | fork _ hw => exact hfree hw
  | create _ _ hw => exact hfree hw
  | @reap c p w _ hw =>
    have hxw : x ≠ w := by
      rintro rfl
      rw [(life_of_zombieChild hw).2] at hx
      cases hx
    simp [Links.reap, hxw]
  | _ => rfl

end

/-! ### The history -/

section

variable {n : Nat} {round : Int → Int} {k k' : Kin n} {s t : State n} {a : Action n} {q x y : Slot}
  {id : Nat}

/-- `y` has forked a process as `x` with pid `id`, or has got it as the first process. -/
def Descends (l : Links) (first : Ptr) (ended : List (Slot × Nat)) (x : Slot) (id : Nat)
    (y : Slot) : Prop :=
  y = x ∧ (l x).pid = id ∨ first = some y ∧ (x, id) ∈ ended

/-- What holds of the families in every run in which no parent ends. -/
structure Kin.Sound (k : Kin n) : Prop where
  first : k.state.initproc = some 0
  parented : Parented k.state.links k.state.initproc
  forked : ∀ q x id, k.forker q = some (x, id) → ∃ y, (k.state.links q).parent = some y ∧
    Descends k.state.links k.state.initproc k.ended x id y

/-- Whom the history names for a process: the caller of the `fork` that this step ends, or whom it
named before. -/
private theorem forkers_cases {f : Slot → Option (Slot × Nat)}
    (h : forkers s t a f q = some (x, id)) : (t.proc q).state ≠ .UNUSED ∧
      ((∃ c, a = .forkDone c true ∧ current s c = .ok x ∧ (s.proc x).np = some q ∧
        id = (s.proc x).pid) ∨
      f q = some (x, id) ∧ ∀ c p, a = .forkDone c true → current s c = .ok p →
        (s.proc p).np ≠ some q) := by
  unfold forkers at h
  split at h
  · cases h
  · next hq =>
    refine ⟨hq, ?_⟩
    split at h
    · next c =>
      split at h
      · next p hp =>
        split at h
        · next hnp =>
          cases h
          exact .inl ⟨c, rfl, hp, hnp, rfl⟩
        · next hnp =>
          refine .inr ⟨h, ?_⟩
          rintro c' p' ha hp' hnp'
          cases ha
          rw [hp] at hp'
          cases hp'
          exact hnp hnp'
      · next e he =>
        refine .inr ⟨h, ?_⟩
        rintro c' p' ha hp'
        cases ha
        rw [he] at hp'
        cases hp'
    · next hne =>
      refine .inr ⟨h, ?_⟩
      rintro c' p' rfl
      exact absurd rfl (hne c')

theorem Kin.step_sound (hk : k.Sound) (hc : Childless k.state a) (h : k.step round a = .ok k') :
    k'.Sound := by
  obtain ⟨t, ht, h⟩ := bind_eq_ok.mp h
  cases h
  have hinit := step_initproc ht
  obtain ⟨l, hr, hu⟩ := step_links hc.1 ht
  have hpar := hk.parented.relinks hc hr
  have hparent : ∀ q, (t.links q).parent = (l q).parent := by
    intro q
    rcases hu with hu | ⟨p, m, _, hu⟩
    · rw [hu]
    · rw [hu]
      rfl
  have hpid : ∀ x, (k.state.links x).life = .alive → (t.links x).pid = (k.state.links x).pid := by
    intro x hx
    rw [← relinks_pid hx hr]
    rcases hu with hu | ⟨p, m, _, hu⟩
    · rw [hu]
    · rw [hu]
      rfl
  refine ⟨hinit.trans hk.first, ?_, ?_⟩
  · dsimp only
    rw [hinit]
    rcases hu with hu | ⟨p, m, _, hu⟩
    · rwa [hu]
    · rw [hu]
      exact hpar.rouse
  · intro q x id hq
    dsimp only at hq ⊢
    obtain ⟨hused, hq⟩ := forkers_cases hq
    rw [hparent, hinit]
    rcases hq with ⟨c, rfl, hx, hnp, rfl⟩ | ⟨hq, hnew⟩
    · have hlive := hc.1 c rfl x (cpu_of_current hx)
      refine ⟨x, ?_, .inl ⟨rfl, hpid x hlive⟩⟩
      cases hr with
      | quiet ha => cases ha
      | forkReady hp hw =>
        rw [hx] at hp
        cases hp
        rw [hnp] at hw
        cases hw
        simp [Links.forkReady]
    · obtain ⟨y, hy, hdesc⟩ := hk.forked q x id hq
      have halive := hk.parented.alive q y hy
      have hkeep : Descends t.links k.state.initproc (endings k.state a ++ k.ended) x id y := by
        rcases hdesc with ⟨rfl, hid⟩ | ⟨hfirst, hend⟩
        · exact .inl ⟨rfl, (hpid y halive).trans hid⟩
        · exact .inr ⟨hfirst, List.mem_append_right _ hend⟩
      rcases relinks_parent (q := q) hr with hsame | ⟨c, p, rfl, hp, hnp, _⟩ |
        ⟨c, p, m, rfl, hp, hm, hi, hqm, hgiven⟩ | ⟨c, rfl, hzombie, hfree⟩
      · exact ⟨y, hsame.trans hy, hkeep⟩
      · exact absurd hnp (hnew c p rfl hp)
      · -- the parent was the process that ends
        rw [hy] at hqm
        cases hqm
        refine ⟨0, hgiven.trans hk.first, .inr ⟨hk.first, ?_⟩⟩
        rcases hdesc with ⟨rfl, hid⟩ | ⟨hfirst, _⟩
        · apply List.mem_append_left
          simp only [endings, hp, hm, Option.toList_some, List.map_cons, List.map_nil,
            List.mem_singleton, ← hid]
          rfl
        · exact absurd hfirst hi
      · -- the process itself is freed
        exfalso
        rcases hu with hu | ⟨p, m, hm, _⟩
        · rw [← hu] at hfree
          exact hused (life_eq_unused.mp hfree)
        · rw [hm.waits c rfl, hzombie] at hfree
          cases hfree

private theorem boot_lists {m w : Slot} {i : Fin (MAXTHREAD + 1)} :
    ¬(Sched.boot n).links.Lists m i w := by
  rintro ⟨hi, hw⟩
  rw [links_apply, boot_proc] at hw
  split at hw
  · simp [firstProc, Proc.fresh, Proc.link, hi] at hw
  · cases hw

private theorem boot_parent : ((Sched.boot n).links q).parent = none := by
  rw [links_apply, boot_proc]
  split <;> rfl

theorem Kin.boot_sound (n : Nat) : (Kin.boot n).Sound := by
  have hfirst : (Sched.boot n).initproc = some 0 := rfl
  refine ⟨hfirst, ⟨?_, ?_, ?_⟩, ?_⟩
  · intro i hi
    cases hfirst.symm.trans hi
    rw [Kin.boot, links_apply, boot_proc, if_pos rfl]
    rfl
  · exact fun _ _ _ hw ↦ absurd hw boot_lists
  · intro q x hq
    rw [Kin.boot, boot_parent] at hq
    cases hq
  · intro q x id hq
    cases hq

/-- In every run in which no parent ends without handing its children over, each process that
`fork` has made has a parent: the one that forked it or, once `exit` has ended that, the first
process. The parent is alive, and its `wait` finds the child when that is a zombie. -/
theorem parents_valid (h : ReachesVia (Kin.step round) (fun k a ↦ Childless k.state a) (Kin.boot n) k)
    (hq : k.forker q = some (x, id)) : ∃ y, HasParent k q x id y := by
  have hk : k.Sound := h.invariant (fun k a k' hk hc hs ↦ Kin.step_sound hk hc hs) (Kin.boot_sound n)
  obtain ⟨y, hy, hdesc⟩ := hk.forked q x id hq
  refine ⟨y, hy, hk.parented.alive q y hy, hdesc, fun hz hnone ↦ ?_⟩
  unfold zombieChild at hnone
  have hno := List.find?_eq_none.mp hnone q (List.mem_finRange q)
  exact hno (by simpa using ⟨hy, hz⟩)

end

section

/-- A child of the first process forks and exits. -/
def handsOver : List (Action 1) :=
  [.scheduler cpu0, .fork cpu0 true, .forkDone cpu0 true, .yield cpu0, .scheduler cpu0,
    .fork cpu0 true, .forkDone cpu0 true, .exit cpu0]

example : ((final (Kin.step float) (Kin.boot 1) handsOver).state.proc 2).parent = some 0 := by
  decide +kernel

theorem parents_valid_handsOver :
    ∃ y, HasParent (final (Kin.step float) (Kin.boot 1) handsOver) 2 1 2 y := by
  have hok : (exec (Kin.step float) (Kin.boot 1) handsOver).isOk = true := by decide +kernel
  have hc : Along (Kin.step float) (fun k a ↦ Childless k.state a) (Kin.boot 1) handsOver := by
    decide +kernel
  have hq : (final (Kin.step float) (Kin.boot 1) handsOver).forker 2 = some (1, 2) := by
    decide +kernel
  exact parents_valid ⟨handsOver, hc, exec_final hok⟩ hq

/-- A worker forks, exits and is joined. -/
def orphans : List (Action 1) :=
  [.scheduler cpu0, .thread_create cpu0, .threadReady cpu0, .yield cpu0, .fork cpu0 true,
    .forkDone cpu0 true, .thread_exit cpu0, .thread_join cpu0 1]

/-- The parent of its child is a free entry. -/
theorem orphans_invalid : (exec (Kin.step float) (Kin.boot 1) orphans).isOk = true ∧
    (final (Kin.step float) (Kin.boot 1) orphans).forker 2 = some (1, 2) ∧
    ¬∃ y, HasParent (final (Kin.step float) (Kin.boot 1) orphans) 2 1 2 y := by
  have hok : (exec (Kin.step float) (Kin.boot 1) orphans).isOk = true := by decide +kernel
  have hq : (final (Kin.step float) (Kin.boot 1) orphans).forker 2 = some (1, 2) := by
    decide +kernel
  have hparent : ((final (Kin.step float) (Kin.boot 1) orphans).state.proc 2).parent = some 1 := by
    decide +kernel
  have hfree : ((final (Kin.step float) (Kin.boot 1) orphans).state.proc 1).state = .UNUSED := by
    decide +kernel
  refine ⟨hok, hq, ?_⟩
  rintro ⟨y, hy⟩
  have hy1 := hy.parent
  rw [hparent] at hy1
  cases hy1
  have halive := hy.alive
  rw [hfree] at halive
  cases halive

end

end Xv6.Sched
