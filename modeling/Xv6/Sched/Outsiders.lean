import Xv6.Sched.Team

/-!
# A group among other processes

What a step makes of the links of one process, its workers and the entries that their calls are
about: calls of a member, of a process that has no way to the group, and of neither.
-/

namespace Xv6.Sched

open Function Lib

section

variable {l l' : Links} {m p q t w : Slot} {i : Fin (MAXTHREAD + 1)} {pid : Nat}

/-- `p` has a pointer to `q`: to what its call is about, its master or one of its threads. -/
def Links.Names (l : Links) (p q : Slot) : Prop :=
  (l p).np = some q ∨ (l p).master = some q ∨ ∃ i, (l p).threads i = some q

/-- `q` is in the group of `m`, or a call of a member is about it. -/
def Concerns (l : Links) (m q : Slot) : Prop :=
  InTeam l m q ∨ ∃ p, InTeam l m p ∧ (l p).np = some q

instance (l : Links) (m q : Slot) : Decidable (Concerns l m q) :=
  inferInstanceAs (Decidable (_ ∨ _))

/-- The group of `m` at work, where a call of a member is about a new worker or a new process. -/
structure Group (l : Links) (m : Slot) : Prop extends Team l m where
  other : ∀ p w, InTeam l m p → (l p).np = some w → w ≠ m
  kind : ∀ p w, InTeam l m p → (l p).np = some w → ((l w).isthread = true ↔ l.Worker m w)
  one : ∀ p q w, InTeam l m p → InTeam l m q → (l p).np = some w → (l q).np = some w → p = q

/-- Two links agree in what matters to a group. -/
structure Link.Agrees (x y : Link) : Prop where
  life : x.life = y.life
  threads : x.threads = y.threads
  isthread : x.isthread = y.isthread
  tid : x.tid = y.tid
  master : x.master = y.master
  np : x.np = y.np

@[refl] theorem Link.Agrees.refl (x : Link) : x.Agrees x := ⟨rfl, rfl, rfl, rfl, rfl, rfl⟩

theorem Link.Agrees.trans {x y z : Link} (h : x.Agrees y) (h' : y.Agrees z) : x.Agrees z :=
  ⟨h.life.trans h'.life, h.threads.trans h'.threads, h.isthread.trans h'.isthread,
    h.tid.trans h'.tid, h.master.trans h'.master, h.np.trans h'.np⟩

/-- Who is a worker depends on `threads` only. -/
theorem worker_congr (h : (l' m).threads = (l m).threads) :
    l'.Worker m q ↔ l.Worker m q := by
  unfold Links.Worker Links.Lists
  rw [h]

private theorem inTeam_congr (h : (l' m).threads = (l m).threads) :
    InTeam l' m q ↔ InTeam l m q := or_congr Iff.rfl (worker_congr h)

namespace Group

/-- What is in a group, or what a call of a member is about, is in use. -/
theorem life_of_concerns (h : Group l m) (hq : Concerns l m q) : (l q).life ≠ .unused := by
  rcases hq with hq | ⟨p, hp, hq⟩
  · exact h.life_ne_unused hq
  · exact (h.making p q hp hq).1

/-- An entry that is not in use has nothing to do with a group. -/
theorem ne_of_unused (h : Group l m) (hw : (l w).life = .unused) (hq : Concerns l m q) :
    q ≠ w := by
  rintro rfl
  exact h.life_of_concerns hq hw

/-- The members stay as they are, and so do the workers that are being made. -/
theorem congr (h : Group l m) (hthreads : (l' m).threads = (l m).threads)
    (hin : ∀ q, InTeam l m q → (l' q).life = (l q).life ∧ (l' q).tid = (l q).tid ∧
      (l' q).master = (l q).master)
    (hnew : ∀ q w, InTeam l m q → l.Worker m w → ((l' q).np = some w ↔ (l q).np = some w))
    (hnp : ∀ q x, InTeam l m q → (l' q).np = some x →
      (l' x).life ≠ .unused ∧ x ≠ m ∧ ((l' x).isthread = true ↔ l.Worker m x))
    (hone : ∀ p q x, InTeam l m p → InTeam l m q → (l' p).np = some x → (l' q).np = some x → p = q) :
    Group l' m := by
  refine ⟨h.toTeam.congr hthreads (fun q hq ↦ (hin q hq).1) (fun q hq ↦ (hin q hq).2.1)
    (fun q hq ↦ (hin q hq).2.2) hnew fun q x hq hx ↦ (hnp q x hq hx).1, ?_, ?_, ?_⟩
  · intro q x hq hx
    exact (hnp q x ((inTeam_congr hthreads).mp hq) hx).2.1
  · intro q x hq hx
    rw [worker_congr hthreads]
    exact (hnp q x ((inTeam_congr hthreads).mp hq) hx).2.2
  · intro p q x hp hq
    exact hone p q x ((inTeam_congr hthreads).mp hp) ((inTeam_congr hthreads).mp hq)

/-- The group depends on the entries that concern it. -/
theorem agree (h : Group l m) (hl : ∀ q, Concerns l m q → (l' q).Agrees (l q)) : Group l' m := by
  have hin : ∀ q, InTeam l m q → (l' q).Agrees (l q) := fun q hq ↦ hl q (.inl hq)
  refine h.congr (hin m (.inl rfl)).threads
    (fun q hq ↦ ⟨(hin q hq).life, (hin q hq).tid, (hin q hq).master⟩)
    (fun q w hq _ ↦ by rw [(hin q hq).np]) ?_ ?_
  · intro q x hq hx
    rw [(hin q hq).np] at hx
    have hagrees := hl x (.inr ⟨q, hq, hx⟩)
    rw [hagrees.life, hagrees.isthread]
    exact ⟨(h.making q x hq hx).1, h.other q x hq hx, h.kind q x hq hx⟩
  · intro p q x hp hq hpx hqx
    rw [(hin p hp).np] at hpx
    rw [(hin q hq).np] at hqx
    exact h.one p q x hp hq hpx hqx

/-! ### Threads -/

theorem create (h : Group l m) (hp : InTeam l m p) (hw : (l w).life = .unused) (hi : i ≠ 0)
    (hfree : (l m).threads i = none) : Group (l.create p m w (some i) pid) m := by
  have hteam : Team (l.create p m w (some i) pid) m := h.toTeam.create hp hw hi hfree
  have hlists : ∀ j x, (l.create p m w (some i) pid).Lists m j x → x = w ∨ l.Lists m j x := by
    rintro j x ⟨hj, hx⟩
    simp only [Links.create, Option.some.injEq, true_and] at hx
    split at hx
    · exact .inl (Option.some.inj hx).symm
    · exact .inr ⟨hj, hx⟩
  have hnew : (l.create p m w (some i) pid).Worker m w := ⟨i, hi, by simp [Links.create]⟩
  have hworker : ∀ x, x ≠ w → ((l.create p m w (some i) pid).Worker m x ↔ l.Worker m x) := by
    intro x hx
    constructor
    · rintro ⟨j, hj⟩
      exact ⟨j, (hlists j x hj).resolve_left hx⟩
    · rintro ⟨j, hj, hjx⟩
      refine ⟨j, hj, ?_⟩
      simp only [Links.create, Option.some.injEq, true_and]
      rw [if_neg, hjx]
      rintro rfl
      cases hfree.symm.trans hjx
  have hin : ∀ q, InTeam (l.create p m w (some i) pid) m q → q ≠ w → InTeam l m q := by
    rintro q (rfl | hq) hqw
    · exact .inl rfl
    · exact .inr ((hworker q hqw).mp hq)
  have hnp : ∀ q x, InTeam (l.create p m w (some i) pid) m q →
      ((l.create p m w (some i) pid) q).np = some x →
        q = p ∧ x = w ∨ q ≠ p ∧ x ≠ w ∧ InTeam l m q ∧ (l q).np = some x := by
    intro q x hq hx
    simp only [Links.create] at hx
    split at hx
    · next hqp => exact .inl ⟨hqp, (Option.some.inj hx).symm⟩
    · next hqp =>
      split at hx
      · cases hx
      · next hqw =>
        have hq := hin q hq hqw
        exact .inr ⟨hqp, h.ne_of_unused hw (.inr ⟨q, hq, hx⟩), hq, hx⟩
  refine ⟨hteam, ?_, ?_, ?_⟩
  · intro q x hq hx
    rcases hnp q x hq hx with ⟨_, rfl⟩ | ⟨_, _, hq, hx⟩
    · exact (h.ne_of_unused hw (.inl (.inl rfl))).symm
    · exact h.other q x hq hx
  · intro q x hq hx
    rcases hnp q x hq hx with ⟨_, rfl⟩ | ⟨_, hxw, hq, hx⟩
    · exact iff_of_true (by simp [Links.create]) hnew
    · rw [hworker x hxw]
      simpa [Links.create, hxw] using h.kind q x hq hx
  · intro q q' x hq hq' hx hx'
    rcases hnp q x hq hx with ⟨rfl, rfl⟩ | ⟨_, hxw, hq, hx⟩
    · rcases hnp q' x hq' hx' with ⟨rfl, _⟩ | ⟨_, hxw, _⟩
      · rfl
      · exact absurd rfl hxw
    · rcases hnp q' x hq' hx' with ⟨_, rfl⟩ | ⟨_, _, hq', hx'⟩
      · exact absurd rfl hxw
      · exact h.one q q' x hq hq' hx hx'

theorem ready (h : Group l m) (hp : InTeam l m p) (hw : l.Worker m w) (hnp : (l p).np = some w) :
    Group (l.ready p m w) m := by
  have hmake : ∀ q x, ((l.ready p m w) q).np = some x → (l q).np = some x := by
    intro q x hx
    simp only [Links.ready] at hx
    split at hx
    · cases hx
    · exact hx
  refine ⟨h.toTeam.ready hp hw hnp, ?_, ?_, ?_⟩
  · exact fun q x hq hx ↦ h.other q x hq (hmake q x hx)
  · intro q x hq hx
    have hx := hmake q x hx
    have hxm := h.other q x hq hx
    have hkind := h.kind q x hq hx
    simp only [Links.ready, if_neg hxm]
    exact hkind
  · exact fun q q' x hq hq' hx hx' ↦ h.one q q' x hq hq' (hmake q x hx) (hmake q' x hx')

theorem quit (h : Group l m) (hp : InTeam l m p) (hl : (l p).life = .alive) (hpm : p ≠ m) :
    Group (l.quit p m) m :=
  ⟨h.toTeam.quit hp hl hpm, h.other, h.kind, h.one⟩

theorem join (h : Group l m) (ht : l.Lists m i t) (hz : (l t).life = .zombie) :
    Group (l.join m t) m := by
  have hworker : ∀ x, x ≠ t → ((l.join m t).Worker m x ↔ l.Worker m x) := by
    intro x hx
    refine exists_congr fun j ↦ and_congr_right fun hj ↦ ?_
    simp only [Links.join, true_and]
    split
    · next hjt =>
      constructor
      · intro hnone
        cases hnone
      · intro hjx
        rw [hjt, (h.worker i t ht).2.1] at hjx
        exact absurd (Option.some.inj (hjx.symm.trans ht.2)) hx
    · exact Iff.rfl
  have hgone : ¬(l.join m t).Worker m t := by
    rintro ⟨j, hj, hjt⟩
    simp only [Links.join, true_and] at hjt
    split at hjt
    · cases hjt
    · next hne => exact hne (h.worker j t ⟨hj, hjt⟩).2.1.symm
  have hin : ∀ q, InTeam (l.join m t) m q → InTeam l m q := by
    rintro q (rfl | hq)
    · exact .inl rfl
    · have hqt : q ≠ t := by
        rintro rfl
        exact hgone hq
      exact .inr ((hworker q hqt).mp hq)
  refine ⟨h.toTeam.join ht hz, fun q x hq hx ↦ h.other q x (hin q hq) hx, ?_,
    fun q q' x hq hq' ↦ h.one q q' x (hin q hq) (hin q' hq')⟩
  intro q x hq hx
  have hold := hin q hq
  have hxm := h.other q x hold hx
  have hxt : x ≠ t := by
    rintro rfl
    cases hz.symm.trans ((h.making q x hold hx).2 ⟨i, ht⟩)
  rw [hworker x hxt]
  simpa [Links.join, hxm] using h.kind q x hold hx

/-! ### Children -/

/-- `allocproc` takes `w` for the `fork` of a member. -/
theorem fork (h : Group l m) (hp : InTeam l m p) (hnone : (l p).np = none)
    (hw : (l w).life = .unused) : Group (l.fork p w pid) m := by
  have hne : ∀ q, InTeam l m q → q ≠ w := fun q hq ↦ h.ne_of_unused hw (.inl hq)
  have hworker : ¬l.Worker m w := fun hw' ↦ hne w (.inr hw') rfl
  have hold : ∀ q, InTeam l m q → q ≠ p → ((l.fork p w pid) q).np = (l q).np := by
    intro q hq hqp
    simp [Links.fork, hqp, hne q hq]
  have hself : ((l.fork p w pid) p).np = some w := by simp [Links.fork]
  refine h.congr ?_ ?_ ?_ ?_ ?_
  · simp [Links.fork, hne m (.inl rfl)]
  · intro q hq
    simp [Links.fork, hne q hq]
  · intro q x hq hx
    by_cases hqp : q = p
    · subst hqp
      rw [hself, hnone]
      constructor
      · intro he
        cases he
        exact absurd hx hworker
      · intro he
        cases he
    · rw [hold q hq hqp]
  · intro q x hq hx
    by_cases hqp : q = p
    · subst hqp
      cases hself.symm.trans hx
      refine ⟨by simp [Links.fork], (hne m (.inl rfl)).symm, iff_of_false ?_ hworker⟩
      simp [Links.fork]
    · rw [hold q hq hqp] at hx
      have hxw := h.ne_of_unused hw (.inr ⟨q, hq, hx⟩)
      have hlife := (h.making q x hq hx).1
      have hkind := h.kind q x hq hx
      refine ⟨?_, h.other q x hq hx, ?_⟩
      · simpa [Links.fork, hxw] using hlife
      · simpa [Links.fork, hxw] using hkind
  · intro q q' x hq hq' hx hx'
    have hfresh : ∀ r, InTeam l m r → r ≠ p → ((l.fork p w pid) r).np ≠ some w := by
      intro r hr hrp hrw
      rw [hold r hr hrp] at hrw
      exact h.ne_of_unused hw (.inr ⟨r, hr, hrw⟩) rfl
    by_cases hqp : q = p
    · subst hqp
      cases hself.symm.trans hx
      by_contra hne'
      exact hfresh q' hq' (Ne.symm hne') hx'
    · by_cases hqp' : q' = p
      · subst hqp'
        cases hself.symm.trans hx'
        exact (hfresh q hq hqp hx).elim
      · rw [hold q hq hqp] at hx
        rw [hold q' hq' hqp'] at hx'
        exact h.one q q' x hq hq' hx hx'

/-- The `fork` of a member is done with `w`, which is not a thread. -/
theorem forked (h : Group l m) (hp : InTeam l m p) (hw : (l p).np = some w)
    (hi : (l w).isthread = false) (hself : (l' p).np = none)
    (hlinks : ∀ q, q ≠ w → (l' q).life = (l q).life)
    (hrest : ∀ q, (l' q).threads = (l q).threads ∧ (l' q).isthread = (l q).isthread ∧
      (l' q).tid = (l q).tid ∧ (l' q).master = (l q).master ∧ (q ≠ p → (l' q).np = (l q).np)) :
    Group l' m := by
  have hworker : ¬l.Worker m w := by
    intro hw'
    cases hi.symm.trans ((h.kind p w hp hw).mpr hw')
  have hne : ∀ q, InTeam l m q → q ≠ w := by
    rintro q (rfl | hq) rfl
    · exact h.other p _ hp hw rfl
    · exact hworker hq
  have hold : ∀ q x, (l' q).np = some x → q ≠ p ∧ (l q).np = some x := by
    intro q x hx
    have hqp : q ≠ p := by
      rintro rfl
      cases hself.symm.trans hx
    rw [(hrest q).2.2.2.2 hqp] at hx
    exact ⟨hqp, hx⟩
  refine h.congr (hrest m).1 (fun q hq ↦ ⟨hlinks q (hne q hq), (hrest q).2.2.1, (hrest q).2.2.2.1⟩)
    ?_ ?_ ?_
  · intro q x hq hx
    by_cases hqp : q = p
    · subst hqp
      rw [hself, hw]
      refine iff_of_false nofun fun he ↦ ?_
      cases he
      exact hworker hx
    · rw [(hrest q).2.2.2.2 hqp]
  · intro q x hq hx
    obtain ⟨hqp, hx⟩ := hold q x hx
    have hxw : x ≠ w := by
      rintro rfl
      exact hqp (h.one q p x hq hp hx hw)
    rw [hlinks x hxw, (hrest x).2.1]
    exact ⟨(h.making q x hq hx).1, h.other q x hq hx, h.kind q x hq hx⟩
  · exact fun q q' x hq hq' hx hx' ↦ h.one q q' x hq hq' (hold q x hx).2 (hold q' x hx').2

theorem forkReady (h : Group l m) (hp : InTeam l m p) (hw : (l p).np = some w)
    (hi : (l w).isthread = false) : Group (l.forkReady p w) m := by
  refine h.forked hp hw hi ?_ ?_ fun q ↦ ⟨rfl, rfl, rfl, rfl, fun hq ↦ ?_⟩
  · simp [Links.forkReady]
  · intro q hq
    simp [Links.forkReady, hq]
  · simp [Links.forkReady, hq]

theorem forkFail (h : Group l m) (hp : InTeam l m p) (hw : (l p).np = some w)
    (hi : (l w).isthread = false) : Group (l.forkFail p w) m := by
  refine h.forked hp hw hi ?_ ?_ fun q ↦ ⟨rfl, rfl, rfl, rfl, fun hq ↦ ?_⟩
  · simp [Links.forkFail]
  · intro q hq
    simp [Links.forkFail, hq]
  · simp [Links.forkFail, hq]

end Group

end

section

variable {n : Nat} {round : Int → Int} {s t : State n} {a : Action n} {c : Fin n} {m p q w : Slot}
  {l : Links}

/-- A process executes on CPU `c` that has no way to the group of `m`. -/
def Outside (s : State n) (m : Slot) (c : Fin n) : Prop :=
  ∃ p ∈ (s.cpu c).proc, (s.links p).life = .alive ∧
    ∀ q, Relation.ReflTransGen s.links.Names p q → ¬Concerns s.links m q

/-- The steps of the processes that leave the group of `m` at work: a member creates a thread while
`threads` has room for it, only workers exit and only the master joins, nobody ends a member from
outside or by `exit`, and `wait` frees no worker. -/
def Harmless (m : Slot) (s : State n) : Action n → Prop
  | .scheduler _ | .wakeup _ => True
  | .kill pid => ∀ p, findPid s pid = some p → (s.proc p).isthread = true →
    ∀ x ∈ (s.proc p).master, ∀ q, s.links.Worker x q → ¬Concerns s.links m q
  | .tick c | .boost c | .yield c | .sleep c _ | .set_cpu_share c _ | .fork c _ | .forkDone c _
  | .threadReady c => Acts s m c ∨ Outside s m c
  | .wait c => (Acts s m c ∨ Outside s m c) ∧
    ∀ p ∈ (s.cpu c).proc, ∀ q, zombieChild s p = some q → ¬Concerns s.links m q
  | .exit c => Outside s m c
  | .thread_create c =>
    Acts s m c ∧ (∃ i, i ≠ 0 ∧ (s.proc m).threads i = none) ∨ Outside s m c
  | .thread_exit c => Acts s m c ∧ (s.cpu c).proc ≠ some m ∨ Outside s m c
  | .thread_join c _ => Acts s m c ∧ (s.cpu c).proc = some m ∨ Outside s m c

/-- A `fork` goes on with a process, and a `thread_create` with a thread. -/
def Rightful (s : State n) : Action n → Prop
  | .forkDone c _ =>
    ∀ p, current s c = .ok p → ∀ w ∈ (s.proc p).np, (s.proc w).isthread = false
  | .threadReady c =>
    ∀ p, current s c = .ok p → ∀ w ∈ (s.proc p).np, (s.proc w).isthread = true
  | _ => True

/-! ### Other processes -/

/-- What a call makes of the links of an entry that is none of those it is about. -/
private theorem Outside.relinks (h : Group s.links m) (ha : Harmless m s a)
    (hout : ∀ c, a.call = some c → Outside s m c) (hr : Relinks s a l)
    (hq : Concerns s.links m q) : (l q).Agrees (s.links q) := by
  have hfar : ∀ c p, a.call = some c → (s.cpu c).proc = some p →
      ∀ x, Relation.ReflTransGen s.links.Names p x → q ≠ x := by
    rintro c p hc hp x hx rfl
    obtain ⟨p', hp', _, hfar⟩ := hout c hc
    cases Option.mem_unique hp hp'
    exact hfar q hx hq
  have hself : ∀ c p, a.call = some c → (s.cpu c).proc = some p → q ≠ p :=
    fun c p hc hp ↦ hfar c p hc hp p .refl
  have hnew : ∀ w, findUnused s = some w → q ≠ w := fun w hw ↦
    h.ne_of_unused (life_of_state (state_of_findUnused hw)) hq
  cases hr with
  | quiet => exact .refl _
  | full => exact .refl _
  | lost hp hw => exact ⟨rfl, rfl, rfl, rfl, rfl, rfl⟩
  | fork hp hw =>
    have hqp := hself _ _ rfl (cpu_of_caller hp)
    have hqw := hnew _ hw
    constructor <;> simp [Links.fork, hqp, hqw]
  | forkReady hp hnp =>
    have hqp := hself _ _ rfl (cpu_of_current hp)
    have hqw := hfar _ _ rfl (cpu_of_current hp) _ (.single (.inl hnp))
    constructor <;> simp [Links.forkReady, hqp, hqw]
  | forkFail hp hnp =>
    have hqp := hself _ _ rfl (cpu_of_current hp)
    have hqw := hfar _ _ rfl (cpu_of_current hp) _ (.single (.inl hnp))
    constructor <;> simp [Links.forkFail, hqp, hqw]
  | create hp hm hw =>
    have hqp := hself _ _ rfl (cpu_of_caller hp)
    have hqm := hfar _ _ rfl (cpu_of_caller hp) _ (.single (.inr (.inl hm)))
    have hqw := hnew _ hw
    constructor <;> simp [Links.create, hqp, hqm, hqw]
  | ready hp hm hnp =>
    have hqp := hself _ _ rfl (cpu_of_current hp)
    have hqm := hfar _ _ rfl (cpu_of_current hp) _ (.single (.inr (.inl hm)))
    have hqw := hfar _ _ rfl (cpu_of_current hp) _ (.single (.inl hnp))
    constructor <;> simp [Links.ready, hqp, hqm, hqw]
  | quit hp hm =>
    have hqp := hself _ _ rfl (cpu_of_caller hp)
    constructor <;> simp [Links.quit, hqp]
  | awaits => exact .refl _
  | join hp hi ht =>
    have hqp := hself _ _ rfl (cpu_of_caller hp)
    have hqt := hfar _ _ rfl (cpu_of_caller hp) _ (.single (.inr (.inr ⟨_, ht⟩)))
    constructor <;> simp [Links.join, hqp, hqt]
  | nobody => exact .refl _
  | @kill pid p hp =>
    have hspared : ¬((s.links p).isthread = true ∧
        ∃ x, (s.links p).master = some x ∧ s.links.Worker x q) := by
      rintro ⟨hi, x, hx, hw⟩
      exact ha p hp hi x hx q hw hq
    refine ⟨?_, rfl, rfl, rfl, rfl, rfl⟩
    simp only [Links.kill, if_neg hspared]
  | @exit c p m' hp hm =>
    have hpm : Relation.ReflTransGen s.links.Names p m' := by
      unfold exiting at hm
      split at hm
      · exact .single (.inr (.inl hm))
      · cases hm
        exact .refl
    have hqm := hfar _ _ rfl (cpu_of_caller hp) _ hpm
    have hqw : ¬s.links.Worker m' q := by
      rintro ⟨i, _, hi⟩
      exact hfar _ _ rfl (cpu_of_caller hp) q (hpm.tail (.inr (.inr ⟨i, hi⟩))) rfl
    constructor <;> simp [Links.exit, hqm, hqw]
  | waits => exact .refl _
  | @reap c p x hp hx =>
    have hqx : q ≠ x := by
      rintro rfl
      exact ha.2 p (cpu_of_caller hp) _ hx hq
    constructor <;> simp [Links.reap, hqx]

/-- What a call changes of the master of the process that makes it. -/
private theorem master_of_relinks (hr : Relinks s a l) (_hp : (s.cpu c).proc = some p)
    (hc : MayCall c a) : (l p).master = (s.links p).master := by
  cases hr <;> first | rfl | cases hc

/-- A step of a process that has no way to the group, or of none, leaves it alone. -/
theorem Group.outside (h : Group s.links m) (ha : Harmless m s a)
    (hout : ∀ c, MayCall c a ∨ a.call = some c → Outside s m c) (hs : step round s a = .ok t)
    (hq : Concerns s.links m q) : (t.links q).Agrees (s.links q) := by
  have hlives : CallerLives s a := by
    intro c hc p hp
    obtain ⟨p', hp', hl, _⟩ := hout c (.inr hc)
    cases Option.mem_unique hp hp'
    exact hl
  obtain ⟨l, hr, hlinks⟩ := step_links_at hlives hs
  have hagrees := Outside.relinks h ha (fun c hc ↦ hout c (.inr hc)) hr hq
  rcases hlinks with hlinks | ⟨c, p, x, hc, hp, hx, hlinks⟩
  · rwa [hlinks]
  · rw [hlinks]
    have hqx : q ≠ x := by
      rintro rfl
      obtain ⟨p', hp', _, hfar⟩ := hout c (.inl hc)
      cases Option.mem_unique hp hp'
      rw [master_of_relinks hr hp hc] at hx
      exact hfar q (.single (.inr (.inl hx))) hq
    refine .trans ?_ hagrees
    constructor <;> simp [Links.rouse, hqx]

/-! ### Members -/

/-- What a step makes of the links of the group of `m`, as far as its threads go. -/
inductive Regroups (s : State n) (m : Slot) : Action n → Links → Prop
  | keeps {a : Action n} {l : Links} (hthreads : (l m).threads = (s.links m).threads)
      (hlife : ∀ p, InTeam s.links m p → (l p).life = (s.links p).life)
      (hjoin : ∀ c thread, a = .thread_join c thread → Outside s m c) : Regroups s m a l
  | create {c : Fin n} {p w : Slot} {i : Fin (MAXTHREAD + 1)} (hp : caller s c = .ok p) (hm : (s.proc p).master = some m)
      (hw : findUnused s = some w) (hi : i ≠ 0) (hfree : (s.proc m).threads i = none) :
      Regroups s m (.thread_create c) (s.links.create p m w (some i) s.nextpid)
  | ready {c : Fin n} {p w : Slot} (hp : current s c = .ok p) (hnp : (s.proc p).np = some w)
      (hw : s.links.Worker m w) : Regroups s m (.threadReady c) (s.links.ready p m w)
  | quit {c : Fin n} {p : Slot} (hp : (s.cpu c).proc = some p) (hl : (s.links p).life = .alive) :
      Regroups s m (.thread_exit c) (s.links.quit p m)
  | awaits {c : Fin n} {t : Slot} {thread : Nat} {i : Fin (MAXTHREAD + 1)}
      (hm : (s.cpu c).proc = some m) (hi : i = thread) (ht : (s.proc m).threads i = some t)
      (hz : (s.proc t).state ≠ .ZOMBIE) : Regroups s m (.thread_join c thread) s.links
  | join {c : Fin n} {t : Slot} {thread : Nat} {i : Fin (MAXTHREAD + 1)} (hm : (s.cpu c).proc = some m)
      (hi : i = thread) (ht : s.links.Lists m i t) (hz : (s.proc t).state = .ZOMBIE) :
      Regroups s m (.thread_join c thread) (s.links.join m t)

private theorem Regroups.same (h : l = s.links)
    (hjoin : ∀ c thread, a = .thread_join c thread → Outside s m c) : Regroups s m a l := by
  subst h
  exact .keeps rfl (fun _ _ ↦ rfl) hjoin

private theorem Group.quiet (h : Group s.links m) (hacts : Acts s m c) (hq : a.Quiet)
    (hc : ∀ c', MayCall c' a → c' = c) (hcall : ∀ c' ∈ a.call, c' = c)
    (hs : step round s a = .ok t) : Group t.links m ∧ Regroups s m a t.links := by
  have hlinks := h.toTeam.quiet hacts hq hc hcall hs
  refine ⟨hlinks ▸ h, .same hlinks ?_⟩
  rintro c thread rfl
  exact hq.elim

private theorem Group.own_fork {kalloc : Bool} (h : Group s.links m) (hacts : Acts s m c)
    (hs : step round s (.fork c kalloc) = .ok t) :
    Group t.links m ∧ Regroups s m (.fork c kalloc) t.links := by
  obtain ⟨l, hr, hlinks⟩ := hacts.relinks hs nofun (fun _ hc ↦ (Option.some.inj hc).symm)
  have hmaster : ∀ p ∈ (s.cpu c).proc, (s.links p).master = some m :=
    fun p hp ↦ (h.toTeam.acts_master hacts hp).2.2
  cases hr with
  | quiet hq => cases hq
  | full =>
    have hlinks := hlinks hmaster h.alive
    exact ⟨hlinks ▸ h, .same hlinks nofun⟩
  | lost =>
    have hlinks := hlinks hmaster h.alive
    rw [hlinks]
    exact ⟨h.agree fun q _ ↦ ⟨rfl, rfl, rfl, rfl, rfl, rfl⟩, .keeps rfl (fun _ _ ↦ rfl) nofun⟩
  | @fork c p w hp hw =>
    obtain ⟨hteam, _, _⟩ := h.toTeam.acts_master hacts (cpu_of_caller hp)
    have hunused := life_of_state (state_of_findUnused hw)
    have hgroup : Group (s.links.fork p w s.nextpid) m :=
      h.fork hteam (caller_eq_ok.mp hp).2 hunused
    have hne : ∀ q, InTeam s.links m q → q ≠ w := fun q hq ↦ h.ne_of_unused hunused (.inl hq)
    have hlinks := hlinks (fun q hq ↦ ?_) hgroup.alive
    · rw [hlinks]
      refine ⟨hgroup, .keeps ?_ (fun q hq ↦ ?_) nofun⟩
      · simp [Links.fork, hne m (.inl rfl)]
      · simp [Links.fork, hne q hq]
    · have hqw := hne q (h.toTeam.acts_master hacts hq).1
      simpa [Links.fork, hqw] using hmaster q hq

private theorem Group.own_forkDone {copied : Bool} (h : Group s.links m) (hacts : Acts s m c)
    (ha : Rightful s (.forkDone c copied)) (hs : step round s (.forkDone c copied) = .ok t) :
    Group t.links m ∧ Regroups s m (.forkDone c copied) t.links := by
  obtain ⟨l, hr, hlinks⟩ := hacts.relinks hs nofun (fun _ hc ↦ (Option.some.inj hc).symm)
  have hmaster : ∀ p ∈ (s.cpu c).proc, (s.links p).master = some m :=
    fun p hp ↦ (h.toTeam.acts_master hacts hp).2.2
  have hdone : ∀ p w, current s c = .ok p → (s.proc p).np = some w →
      InTeam s.links m p ∧ (s.links w).isthread = false ∧ ∀ q, InTeam s.links m q → q ≠ w := by
    intro p w hp hw
    have hteam := (h.toTeam.acts_master hacts (cpu_of_current hp)).1
    have hi : (s.links w).isthread = false := ha p hp w hw
    refine ⟨hteam, hi, ?_⟩
    rintro q (rfl | hq) rfl
    · exact h.other p _ hteam hw rfl
    · cases hi.symm.trans ((h.kind p _ hteam hw).mpr hq)
  have hjoin : ∀ d thread, Action.forkDone c copied = .thread_join d thread → Outside s m d := by
    intro d thread he
    cases he
  cases hr with
  | quiet hq => cases hq
  | @forkReady c p w hp hw =>
    obtain ⟨hteam, hi, hne⟩ := hdone p w hp hw
    have hgroup := h.forkReady hteam hw hi
    rw [hlinks hmaster hgroup.alive]
    refine ⟨hgroup, .keeps rfl (fun q hq ↦ ?_) hjoin⟩
    simp [Links.forkReady, hne q hq]
  | @forkFail c p w hp hw =>
    obtain ⟨hteam, hi, hne⟩ := hdone p w hp hw
    have hgroup := h.forkFail hteam hw hi
    rw [hlinks hmaster hgroup.alive]
    refine ⟨hgroup, .keeps rfl (fun q hq ↦ ?_) hjoin⟩
    simp [Links.forkFail, hne q hq]

private theorem Group.own_wait (h : Group s.links m) (hacts : Acts s m c)
    (hreap : ∀ p ∈ (s.cpu c).proc, ∀ q, zombieChild s p = some q → ¬Concerns s.links m q)
    (hs : step round s (.wait c) = .ok t) : Group t.links m ∧ Regroups s m (.wait c) t.links := by
  obtain ⟨l, hr, hlinks⟩ := hacts.relinks hs (fun _ hc ↦ hc.symm)
    (fun _ hc ↦ (Option.some.inj hc).symm)
  have hmaster : ∀ p ∈ (s.cpu c).proc, (s.links p).master = some m :=
    fun p hp ↦ (h.toTeam.acts_master hacts hp).2.2
  cases hr with
  | quiet hq => cases hq
  | waits =>
    have hlinks := hlinks hmaster h.alive
    exact ⟨hlinks ▸ h, .same hlinks nofun⟩
  | @reap c p x hp hx =>
    have hne : ∀ q, Concerns s.links m q → q ≠ x := by
      rintro q hq rfl
      exact hreap p (cpu_of_caller hp) _ hx hq
    have hgroup : Group (s.links.reap x) m := by
      refine h.agree fun q hq ↦ ?_
      constructor <;> simp [Links.reap, hne q hq]
    rw [hlinks hmaster hgroup.alive]
    refine ⟨hgroup, .keeps rfl (fun q hq ↦ ?_) nofun⟩
    simp [Links.reap, hne q (.inl hq)]

private theorem Group.own_create (h : Group s.links m) (hacts : Acts s m c)
    (hfree : ∃ i, i ≠ 0 ∧ (s.proc m).threads i = none)
    (hs : step round s (.thread_create c) = .ok t) :
    Group t.links m ∧ Regroups s m (.thread_create c) t.links := by
  obtain ⟨p, w, i, hp, hw, hi, hnone, hlinks⟩ := h.toTeam.thread_create hacts hfree hs
  obtain ⟨hteam, _, hm⟩ := h.toTeam.acts_master hacts (cpu_of_caller hp)
  rw [hlinks]
  exact ⟨h.create hteam (life_of_state (state_of_findUnused hw)) hi hnone,
    .create hp hm hw hi hnone⟩

private theorem Group.own_ready (h : Group s.links m) (hacts : Acts s m c)
    (ha : Rightful s (.threadReady c)) (hs : step round s (.threadReady c) = .ok t) :
    Group t.links m ∧ Regroups s m (.threadReady c) t.links := by
  obtain ⟨p, w, hp, hw, hteam, hlinks⟩ := h.toTeam.threadReady hacts hs
  have hworker := (h.kind p w hteam hw).mp (ha p hp w hw)
  rw [hlinks]
  exact ⟨h.ready hteam hworker hw, .ready hp hw hworker⟩

private theorem Group.own_exit (h : Group s.links m) (hacts : Acts s m c)
    (hne : (s.cpu c).proc ≠ some m) (hs : step round s (.thread_exit c) = .ok t) :
    Group t.links m ∧ Regroups s m (.thread_exit c) t.links := by
  obtain ⟨p, hp, hteam, hl, hpm, hlinks⟩ := h.toTeam.thread_exit hacts hne hs
  rw [hlinks]
  exact ⟨h.quit hteam hl hpm, .quit hp hl⟩

private theorem Group.own_join {thread : Nat} (h : Group s.links m) (hacts : Acts s m c)
    (hm : (s.cpu c).proc = some m) (hs : step round s (.thread_join c thread) = .ok t) :
    Group t.links m ∧ Regroups s m (.thread_join c thread) t.links := by
  rcases h.toTeam.thread_join hacts hm hs with
    ⟨hlinks, i, x, hi, hx, hz⟩ | ⟨i, x, hi, hx, hz, hlinks⟩
  · rw [hlinks]
    exact ⟨h, .awaits hm hi hx hz⟩
  · rw [hlinks]
    exact ⟨h.join hx (life_of_state hz), .join hm hi hx hz⟩

/-- What a harmless step makes of the group of `m`. -/
theorem Group.step (h : Group s.links m) (ha : Harmless m s a) (hrightful : Rightful s a)
    (hs : step round s a = .ok t) : Group t.links m ∧ Regroups s m a t.links := by
  have haway : (∀ c, MayCall c a ∨ a.call = some c → Outside s m c) →
      Group t.links m ∧ Regroups s m a t.links := by
    intro hout
    have hagrees : ∀ q, Concerns s.links m q → (t.links q).Agrees (s.links q) :=
      fun q hq ↦ h.outside ha hout hs hq
    refine ⟨h.agree hagrees, .keeps (hagrees m (.inl (.inl rfl))).threads
      (fun p hp ↦ (hagrees p (.inl hp)).life) ?_⟩
    rintro c thread rfl
    exact hout c (.inr rfl)
  have hon : ∀ {c}, Outside s m c → (∀ c', MayCall c' a → c' = c) → (∀ c' ∈ a.call, c' = c) →
      Group t.links m ∧ Regroups s m a t.links := by
    intro c hout hc hcall
    refine haway fun c' hc' ↦ ?_
    rcases hc' with hc' | hc'
    · exact hc c' hc' ▸ hout
    · exact hcall c' hc' ▸ hout
  cases a with
  | scheduler c => exact haway fun c' hc' ↦ hc'.elim False.elim nofun
  | wakeup chan => exact haway fun c' hc' ↦ hc'.elim False.elim nofun
  | kill pid => exact haway fun c' hc' ↦ hc'.elim False.elim nofun
  | tick c =>
    rcases ha with ha | ha
    · exact h.quiet ha trivial (fun _ hc ↦ hc.symm) nofun hs
    · exact hon ha (fun _ hc ↦ hc.symm) nofun
  | boost c =>
    rcases ha with ha | ha
    · exact h.quiet ha trivial nofun nofun hs
    · exact hon ha nofun nofun
  | yield c =>
    rcases ha with ha | ha
    · exact h.quiet ha trivial (fun _ hc ↦ hc.symm) (fun _ hc ↦ (Option.some.inj hc).symm) hs
    · exact hon ha (fun _ hc ↦ hc.symm) (fun _ hc ↦ (Option.some.inj hc).symm)
  | sleep c chan =>
    rcases ha with ha | ha
    · exact h.quiet ha trivial (fun _ hc ↦ hc.symm) (fun _ hc ↦ (Option.some.inj hc).symm) hs
    · exact hon ha (fun _ hc ↦ hc.symm) (fun _ hc ↦ (Option.some.inj hc).symm)
  | set_cpu_share c k =>
    rcases ha with ha | ha
    · exact h.quiet ha trivial nofun (fun _ hc ↦ (Option.some.inj hc).symm) hs
    · exact hon ha nofun (fun _ hc ↦ (Option.some.inj hc).symm)
  | fork c k =>
    rcases ha with ha | ha
    · exact h.own_fork ha hs
    · exact hon ha nofun (fun _ hc ↦ (Option.some.inj hc).symm)
  | forkDone c k =>
    rcases ha with ha | ha
    · exact h.own_forkDone ha hrightful hs
    · exact hon ha nofun (fun _ hc ↦ (Option.some.inj hc).symm)
  | exit c => exact hon ha (fun _ hc ↦ hc.symm) (fun _ hc ↦ (Option.some.inj hc).symm)
  | wait c =>
    obtain ⟨ha | ha, hreap⟩ := ha
    · exact h.own_wait ha hreap hs
    · exact hon ha (fun _ hc ↦ hc.symm) (fun _ hc ↦ (Option.some.inj hc).symm)
  | thread_create c =>
    rcases ha with ⟨ha, hfree⟩ | ha
    · exact h.own_create ha hfree hs
    · exact hon ha nofun (fun _ hc ↦ (Option.some.inj hc).symm)
  | threadReady c =>
    rcases ha with ha | ha
    · exact h.own_ready ha hrightful hs
    · exact hon ha nofun (fun _ hc ↦ (Option.some.inj hc).symm)
  | thread_exit c =>
    rcases ha with ⟨ha, hne⟩ | ha
    · exact h.own_exit ha hne hs
    · exact hon ha (fun _ hc ↦ hc.symm) (fun _ hc ↦ (Option.some.inj hc).symm)
  | thread_join c thread =>
    rcases ha with ⟨ha, hm⟩ | ha
    · exact h.own_join ha hm hs
    · exact hon ha (fun _ hc ↦ hc.symm) (fun _ hc ↦ (Option.some.inj hc).symm)

end

end Xv6.Sched
