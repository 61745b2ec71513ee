import Xv6.Sched.Links
import Xv6.Sched.Switches

/-!
# A group at work

The links of one process and its workers while the members create, exit and join threads, whatever
the rest of the machine is like.
-/

namespace Xv6.Sched

open Function Lib

section

variable {l : Links} {m p q t w : Slot} {i : Fin (MAXTHREAD + 1)} {pid : Nat}

/-- `p` is `m` or one of its workers. -/
def InTeam (l : Links) (m p : Slot) : Prop := p = m ∨ l.Worker m p

instance (l : Links) (m p : Slot) : Decidable (InTeam l m p) := inferInstanceAs (Decidable (_ ∨ _))

/-- What the links of a group are like while nobody ends it: a worker is listed at its `tid`, and is
not ready as long as a `thread_create` of one member is about it. What a call of a member is about
is in use. -/
structure Team (l : Links) (m : Slot) : Prop where
  alive : (l m).life = .alive
  master : (l m).master = some m
  self : ∀ q, (l m).threads 0 = some q → q = m
  worker : ∀ i w, l.Lists m i w → w ≠ m ∧ (l w).tid = i ∧ (l w).life ≠ .unused ∧
    ((l w).life = .embryo ∨ (l w).master = some m)
  making : ∀ p w, InTeam l m p → (l p).np = some w →
    (l w).life ≠ .unused ∧ (l.Worker m w → (l w).life = .embryo)
  maker : ∀ p q w, InTeam l m p → InTeam l m q → l.Worker m w → (l p).np = some w →
    (l q).np = some w → p = q

namespace Team

theorem worker_inj {j : Fin (MAXTHREAD + 1)} (h : Team l m) (hi : l.Lists m i w)
    (hj : l.Lists m j w) : i = j :=
  (h.worker i w hi).2.1.symm.trans (h.worker j w hj).2.1

theorem life_ne_unused (h : Team l m) (hp : InTeam l m p) : (l p).life ≠ .unused := by
  rcases hp with rfl | ⟨i, hi⟩
  · rw [h.alive]
    exact nofun
  · exact (h.worker i p hi).2.2.1

/-- A member that is alive is a thread of `m`. -/
theorem master_of_alive (h : Team l m) (hp : InTeam l m p) (hl : (l p).life = .alive) :
    (l p).master = some m := by
  rcases hp with rfl | ⟨i, hi⟩
  · exact h.master
  · rcases (h.worker i p hi).2.2.2 with he | hm
    · cases hl.symm.trans he
    · exact hm

/-- The workers after `allocthread` has taken `w`. -/
theorem worker_of_create (h : (l.create p m w (some i) pid).Worker m q) : q = w ∨ l.Worker m q := by
  obtain ⟨j, hj, hq⟩ := h
  simp only [Links.create, Option.some.injEq, true_and] at hq
  split at hq
  · exact .inl (Option.some.inj hq).symm
  · exact .inr ⟨j, hj, hq⟩

/-- The workers after `m` has joined `w`. -/
theorem worker_of_join (h : Team l m) (hw : l.Lists m i w) (hq : (l.join m w).Worker m q) :
    l.Worker m q ∧ q ≠ w := by
  obtain ⟨j, hj, hq⟩ := hq
  simp only [Links.join, true_and] at hq
  split at hq
  · cases hq
  · next hne =>
    refine ⟨⟨j, hj, hq⟩, ?_⟩
    rintro rfl
    exact hne (h.worker j q ⟨hj, hq⟩).2.1.symm

/-- What the links of a group depend on. -/
theorem congr {l' : Links} (h : Team l m) (hthreads : (l' m).threads = (l m).threads)
    (hlife : ∀ p, InTeam l m p → (l' p).life = (l p).life)
    (htid : ∀ p, InTeam l m p → (l' p).tid = (l p).tid)
    (hmaster : ∀ p, InTeam l m p → (l' p).master = (l p).master)
    (hnp : ∀ p w, InTeam l m p → l.Worker m w → ((l' p).np = some w ↔ (l p).np = some w))
    (hheld : ∀ p w, InTeam l m p → (l' p).np = some w → (l' w).life ≠ .unused) : Team l' m := by
  have hlists : ∀ i x, l'.Lists m i x ↔ l.Lists m i x := by
    intro i x
    unfold Links.Lists
    rw [hthreads]
  have hworker : ∀ x, l'.Worker m x ↔ l.Worker m x := fun x ↦ exists_congr fun i ↦ hlists i x
  have hteam : ∀ x, InTeam l' m x ↔ InTeam l m x := fun x ↦ or_congr Iff.rfl (hworker x)
  constructor
  · rw [hlife m (.inl rfl), h.alive]
  · rw [hmaster m (.inl rfl), h.master]
  · rw [hthreads]
    exact h.self
  · intro i x hx
    have hx := (hlists i x).mp hx
    have hin : InTeam l m x := .inr ⟨i, hx⟩
    rw [hlife x hin, htid x hin, hmaster x hin]
    exact h.worker i x hx
  · intro p x hp hx
    have hp := (hteam p).mp hp
    refine ⟨hheld p x hp hx, fun hw ↦ ?_⟩
    have hw := (hworker x).mp hw
    rw [hlife x (.inr hw)]
    exact (h.making p x hp ((hnp p x hp hw).mp hx)).2 hw
  · intro p q x hp hq hw hpx hqx
    have hp := (hteam p).mp hp
    have hq := (hteam q).mp hq
    have hw := (hworker x).mp hw
    exact h.maker p q x hp hq hw ((hnp p x hp hw).mp hpx) ((hnp q x hq hw).mp hqx)

theorem create (h : Team l m) (hp : InTeam l m p) (hw : (l w).life = .unused) (hi : i ≠ 0)
    (hfree : (l m).threads i = none) : Team (l.create p m w (some i) pid) m := by
  have hout : ∀ q, InTeam l m q → q ≠ w := by
    rintro q hq rfl
    exact h.life_ne_unused hq hw
  have hmw : m ≠ w := hout m (.inl rfl)
  have hlists : ∀ j x, (l.create p m w (some i) pid).Lists m j x →
      j = i ∧ x = w ∨ j ≠ i ∧ l.Lists m j x := by
    rintro j x ⟨hj, hx⟩
    simp only [Links.create, Option.some.injEq, true_and] at hx
    by_cases hji : i = j
    · rw [if_pos hji] at hx
      exact .inl ⟨hji.symm, (Option.some.inj hx).symm⟩
    · rw [if_neg hji] at hx
      exact .inr ⟨Ne.symm hji, hj, hx⟩
  have hkeep : ∀ j x, l.Lists m j x → (l.create p m w (some i) pid).Lists m j x := by
    rintro j x ⟨hj, hx⟩
    refine ⟨hj, ?_⟩
    simp only [Links.create, Option.some.injEq, true_and]
    rw [if_neg, hx]
    rintro rfl
    cases hfree.symm.trans hx
  have hteam : ∀ q, InTeam (l.create p m w (some i) pid) m q → q = w ∨ InTeam l m q := by
    rintro q (rfl | ⟨j, hj⟩)
    · exact .inr (.inl rfl)
    · rcases hlists j q hj with ⟨_, rfl⟩ | ⟨_, hj⟩
      · exact .inl rfl
      · exact .inr (.inr ⟨j, hj⟩)
  have hnp : ∀ q x, InTeam (l.create p m w (some i) pid) m q →
      ((l.create p m w (some i) pid) q).np = some x →
        q = p ∧ x = w ∨ q ≠ p ∧ x ≠ w ∧ InTeam l m q ∧ (l q).np = some x := by
    intro q x hq hx
    simp only [Links.create] at hx
    by_cases hqp : q = p
    · rw [if_pos hqp] at hx
      exact .inl ⟨hqp, (Option.some.inj hx).symm⟩
    · rw [if_neg hqp] at hx
      split at hx
      · cases hx
      · next hqw =>
        have hq := (hteam q hq).resolve_left hqw
        have hused := (h.making q x hq hx).1
        refine .inr ⟨hqp, ?_, hq, hx⟩
        rintro rfl
        exact hused hw
  constructor
  · simp [Links.create, hmw, h.alive]
  · simp [Links.create, h.master]
  · intro q hq
    simp only [Links.create, Option.some.injEq, true_and, if_neg hi] at hq
    exact h.self q hq
  · intro j x hx
    rcases hlists j x hx with ⟨rfl, rfl⟩ | ⟨hj, hx⟩
    · exact ⟨hmw.symm, by simp [Links.create], by simp [Links.create], .inl (by simp [Links.create])⟩
    · have hxw := hout x (.inr ⟨j, hx⟩)
      simpa [Links.create, hxw] using h.worker j x hx
  · intro q x hq hx
    rcases hnp q x hq hx with ⟨_, rfl⟩ | ⟨_, hxw, hq, hx⟩
    · simp [Links.create]
    · obtain ⟨hused, he⟩ := h.making q x hq hx
      constructor
      · simpa [Links.create, hxw] using hused
      · rintro ⟨j, hj⟩
        have hj := ((hlists j x hj).resolve_left fun hx ↦ hxw hx.2).2
        simpa [Links.create, hxw] using he ⟨j, hj⟩
  · rintro q q' x hq hq' ⟨j, hj⟩ hx hx'
    rcases hnp q x hq hx with ⟨rfl, rfl⟩ | ⟨_, hxw, hq, hx⟩
    · rcases hnp q' x hq' hx' with ⟨rfl, _⟩ | ⟨_, hxw, _, _⟩
      · rfl
      · exact absurd rfl hxw
    · rcases hnp q' x hq' hx' with ⟨_, rfl⟩ | ⟨_, _, hq', hx'⟩
      · exact absurd rfl hxw
      · have hj := ((hlists j x hj).resolve_left fun hx ↦ hxw hx.2).2
        exact h.maker q q' x hq hq' ⟨j, hj⟩ hx hx'

theorem ready (h : Team l m) (hp : InTeam l m p) (hw : l.Worker m w) (hnp : (l p).np = some w) :
    Team (l.ready p m w) m := by
  have hmake : ∀ q x, InTeam l m q → ((l.ready p m w) q).np = some x →
      (l q).np = some x ∧ x ≠ w := by
    intro q x hq hx
    simp only [Links.ready] at hx
    split at hx
    · cases hx
    · next hqp =>
      refine ⟨hx, ?_⟩
      rintro rfl
      exact hqp (h.maker q p x hq hp hw hx hnp)
  constructor
  · simp only [Links.ready]
    split
    · rfl
    · exact h.alive
  · simp only [Links.ready]
    split
    · rfl
    · exact h.master
  · exact h.self
  · intro j x hx
    obtain ⟨hxm, htid, hlife, hmaster⟩ := h.worker j x hx
    by_cases hxw : x = w
    · simp [Links.ready, hxw ▸ hxm, hxw ▸ htid, hxw]
    · simpa [Links.ready, hxw] using h.worker j x hx
  · intro q x hq hx
    obtain ⟨hx, hxw⟩ := hmake q x hq hx
    have hmaking := h.making q x hq hx
    have hlife : ((l.ready p m w) x).life = (l x).life := if_neg hxw
    rw [hlife]
    exact hmaking
  · intro q q' x hq hq' hwx hx hx'
    exact h.maker q q' x hq hq' hwx (hmake q x hq hx).1 (hmake q' x hq' hx').1

theorem quit (h : Team l m) (hp : InTeam l m p) (hl : (l p).life = .alive) (hpm : p ≠ m) :
    Team (l.quit p m) m := by
  constructor
  · simp [Links.quit, hpm.symm, h.alive]
  · exact h.master
  · exact h.self
  · intro j x hx
    obtain ⟨hxm, htid, hlife, hmaster⟩ := h.worker j x hx
    refine ⟨hxm, htid, ?_, ?_⟩
    · simp only [Links.quit]
      split
      · intro hunused
        cases hunused
      · exact hlife
    · by_cases hxp : x = p
      · subst hxp
        exact .inr (h.master_of_alive hp hl)
      · simpa [Links.quit, hxp] using hmaster
  · intro q x hq hx
    obtain ⟨hused, he⟩ := h.making q x hq hx
    constructor
    · simp only [Links.quit]
      split
      · intro hunused
        cases hunused
      · exact hused
    · intro hw
      have hxp : x ≠ p := by
        rintro rfl
        cases hl.symm.trans (he hw)
      simpa [Links.quit, hxp] using he hw
  · exact h.maker

theorem join (h : Team l m) (ht : l.Lists m i t) (hz : (l t).life = .zombie) :
    Team (l.join m t) m := by
  have hlists : ∀ j x, (l.join m t).Lists m j x → l.Lists m j x ∧ x ≠ t := by
    rintro j x ⟨hj, hx⟩
    simp only [Links.join, true_and] at hx
    split at hx
    · cases hx
    · next hjt =>
      refine ⟨⟨hj, hx⟩, ?_⟩
      rintro rfl
      exact hjt (h.worker j x ⟨hj, hx⟩).2.1.symm
  have hteam : ∀ q, InTeam (l.join m t) m q → InTeam l m q := by
    rintro q (rfl | ⟨j, hj⟩)
    · exact .inl rfl
    · exact .inr ⟨j, (hlists j q hj).1⟩
  constructor
  · have hmt := (h.worker i t ht).1
    simp [Links.join, hmt.symm, h.alive]
  · exact h.master
  · intro q hq
    simp only [Links.join, true_and] at hq
    split at hq
    · cases hq
    · exact h.self q hq
  · intro j x hx
    obtain ⟨hx, hxt⟩ := hlists j x hx
    simpa [Links.join, hxt] using h.worker j x hx
  · intro q x hq hx
    obtain ⟨hused, he⟩ := h.making q x (hteam q hq) hx
    have hxt : x ≠ t := by
      rintro rfl
      cases hz.symm.trans (he ⟨i, ht⟩)
    constructor
    · simpa [Links.join, hxt] using hused
    · rintro ⟨j, hj⟩
      simpa [Links.join, hxt] using he ⟨j, (hlists j x hj).1⟩
  · rintro q q' x hq hq' ⟨j, hj⟩
    exact h.maker q q' x (hteam q hq) (hteam q' hq') ⟨j, (hlists j x hj).1⟩

end Team

end

section

variable {n : Nat} {round : Int → Int} {s t : State n} {a : Action n} {c : Fin n} {m p w : Slot}
  {l : Links}

/-- A member of the group of `m` that is alive executes on CPU `c`. -/
def Acts (s : State n) (m : Slot) (c : Fin n) : Prop :=
  ∃ p ∈ (s.cpu c).proc, InTeam s.links m p ∧ (s.links p).life = .alive

instance (s : State n) (m : Slot) (c : Fin n) : Decidable (Acts s m c) :=
  inferInstanceAs (Decidable (∃ _, _))

/-- The links after a step: those that its call has made, but for a master that the process on the
CPU of the step hands over to. -/
theorem step_links_at (hl : CallerLives s a) (h : step round s a = .ok t) :
    ∃ l, Relinks s a l ∧ (t.links = l ∨ ∃ c p x, MayCall c a ∧ (s.cpu c).proc = some p ∧
      (l p).master = some x ∧ t.links = l.rouse x) := by
  obtain ⟨r, hr, h⟩ := bind_eq_ok.mp h
  refine ⟨_, relinks hl hr, ?_⟩
  cases r with
  | done u =>
    cases h
    exact .inl rfl
  | sched u c p =>
    obtain ⟨⟨v, back⟩, hv, h⟩ := bind_eq_ok.mp h
    have hlinks : t.links = v.links := by
      cases back with
      | false =>
        cases h
        rfl
      | true => exact links_leave h
    have he := enters hr
    have hcall : MayCall c a := by cases he <;> rfl
    rw [hlinks]
    rcases links_leaves (leaves hv).2 with hv | ⟨x, hx, _, _, hv⟩
    · exact .inl hv
    · exact .inr ⟨c, p, x, hcall, cpu_of_sched he, hx, hv⟩

/-- A step of a member does what its call does, if that keeps the caller a thread of `m` and `m`
alive. -/
theorem Acts.relinks (hacts : Acts s m c) (h : step round s a = .ok t)
    (hc : ∀ c', MayCall c' a → c' = c) (hcall : ∀ c' ∈ a.call, c' = c) :
    ∃ l, Relinks s a l ∧ ((∀ p ∈ (s.cpu c).proc, (l p).master = some m) → (l m).life = .alive →
      t.links = l) := by
  obtain ⟨p, hp, hm, hl⟩ := hacts
  have hlives : CallerLives s a := by
    intro c' hc' q hq
    rw [hcall c' hc'] at hq
    cases Option.mem_unique hp hq
    exact hl
  obtain ⟨l, hr, hlinks⟩ := step_links_at hlives h
  refine ⟨l, hr, fun hmaster halive ↦ ?_⟩
  rcases hlinks with hlinks | ⟨c', q, x, hmay, hq, hx, hlinks⟩
  · exact hlinks
  · rw [hc c' hmay] at hq
    cases (hmaster q hq).symm.trans hx
    rw [hlinks, Links.rouse_of_alive halive]

/-- The process that acts is a thread of `m`. -/
theorem Team.acts_master (h : Team s.links m) (hacts : Acts s m c) (hp : (s.cpu c).proc = some p) :
    InTeam s.links m p ∧ (s.links p).life = .alive ∧ (s.proc p).master = some m := by
  obtain ⟨q, hq, hm, hl⟩ := hacts
  cases Option.mem_unique hp hq
  exact ⟨hm, hl, h.master_of_alive hm hl⟩

/-- The steps of a member that concern no thread leave the links alone. -/
theorem Team.quiet (h : Team s.links m) (hacts : Acts s m c) (hq : a.Quiet)
    (hc : ∀ c', MayCall c' a → c' = c) (hcall : ∀ c' ∈ a.call, c' = c)
    (hs : step round s a = .ok t) : t.links = s.links := by
  obtain ⟨l, hr, hlinks⟩ := hacts.relinks hs hc hcall
  cases hr with
  | quiet => exact hlinks (fun p hp ↦ (h.acts_master hacts hp).2.2) h.alive
  | _ => cases hq

theorem Team.thread_create (h : Team s.links m) (hacts : Acts s m c)
    (hfree : ∃ i, i ≠ 0 ∧ (s.proc m).threads i = none)
    (hs : step round s (.thread_create c) = .ok t) :
    ∃ p w i, caller s c = .ok p ∧ findUnused s = some w ∧ i ≠ 0 ∧ (s.proc m).threads i = none ∧
      t.links = s.links.create p m w (some i) s.nextpid := by
  obtain ⟨l, hr, hlinks⟩ := hacts.relinks hs (fun _ hc ↦ hc.elim)
    (fun _ hc ↦ (Option.some.inj hc).symm)
  cases hr with
  | quiet hq => cases hq
  | @create _ p m' w i hp hm hw _ hi hfull =>
    obtain ⟨hteam, hl, hmaster⟩ := h.acts_master hacts (cpu_of_caller hp)
    cases hmaster.symm.trans hm
    cases i with
    | none =>
      obtain ⟨i, hi0, hnone⟩ := hfree
      exact absurd hnone (hfull rfl i hi0)
    | some i =>
      obtain ⟨hi0, hnone⟩ := hi i rfl
      have hteam' : Team (s.links.create p m w (some i) s.nextpid) m :=
        h.create hteam (life_of_state (state_of_findUnused hw)) hi0 hnone
      refine ⟨p, w, i, hp, hw, hi0, hnone, hlinks (fun q hq ↦ ?_) hteam'.alive⟩
      exact (h.acts_master hacts hq).2.2

theorem Team.threadReady (h : Team s.links m) (hacts : Acts s m c)
    (hs : step round s (.threadReady c) = .ok t) :
    ∃ p w, current s c = .ok p ∧ (s.proc p).np = some w ∧ InTeam s.links m p ∧
      t.links = s.links.ready p m w := by
  obtain ⟨l, hr, hlinks⟩ := hacts.relinks hs (fun _ hc ↦ hc.elim)
    (fun _ hc ↦ (Option.some.inj hc).symm)
  cases hr with
  | quiet hq => cases hq
  | @ready _ p m' w hp hm hnp =>
    obtain ⟨hteam, hl, hmaster⟩ := h.acts_master hacts (cpu_of_current hp)
    cases hmaster.symm.trans hm
    refine ⟨p, w, hp, hnp, hteam, hlinks (fun q hq ↦ ?_) ?_⟩
    · cases (cpu_of_current hp).symm.trans hq
      simp only [Links.ready]
      split
      · rfl
      · exact hmaster
    · simp only [Links.ready]
      split
      · rfl
      · exact h.alive

theorem Team.thread_exit (h : Team s.links m) (hacts : Acts s m c) (hne : (s.cpu c).proc ≠ some m)
    (hs : step round s (.thread_exit c) = .ok t) :
    ∃ p, (s.cpu c).proc = some p ∧ InTeam s.links m p ∧ (s.links p).life = .alive ∧ p ≠ m ∧
      t.links = s.links.quit p m := by
  obtain ⟨l, hr, hlinks⟩ := hacts.relinks hs (fun _ hc ↦ hc.symm)
    (fun _ hc ↦ (Option.some.inj hc).symm)
  cases hr with
  | quiet hq => cases hq
  | @quit _ p m' hp hm =>
    have hcpu := cpu_of_caller hp
    obtain ⟨hteam, hl, hmaster⟩ := h.acts_master hacts hcpu
    cases hmaster.symm.trans hm
    have hpm : p ≠ m := by
      rintro rfl
      exact hne hcpu
    refine ⟨p, hcpu, hteam, hl, hpm, hlinks (fun q hq ↦ ?_) (h.quit hteam hl hpm).alive⟩
    exact (h.acts_master hacts hq).2.2

theorem Team.thread_join {thread : Nat} (h : Team s.links m) (hacts : Acts s m c)
    (hm : (s.cpu c).proc = some m) (hs : step round s (.thread_join c thread) = .ok t) :
    t.links = s.links ∧ (∃ (i : Fin (MAXTHREAD + 1)) (x : Slot), i = thread ∧ (s.proc m).threads i = some x ∧
        (s.proc x).state ≠ .ZOMBIE) ∨
      ∃ (i : Fin (MAXTHREAD + 1)) (x : Slot), i = thread ∧ s.links.Lists m i x ∧ (s.proc x).state = .ZOMBIE ∧
        t.links = s.links.join m x := by
  obtain ⟨l, hr, hlinks⟩ := hacts.relinks hs (fun _ hc ↦ hc.symm)
    (fun _ hc ↦ (Option.some.inj hc).symm)
  cases hr with
  | quiet hq => cases hq
  | awaits hp hi hx hz =>
    cases (cpu_of_caller hp).symm.trans hm
    exact .inl ⟨hlinks (fun p hp ↦ (h.acts_master hacts hp).2.2) h.alive, _, _, hi, hx, hz⟩
  | @join _ p x _ i hp hi hx hz =>
    cases (cpu_of_caller hp).symm.trans hm
    have hi0 : i ≠ 0 := by
      rintro rfl
      have halive := h.alive
      rw [← h.self x hx, life_of_state hz] at halive
      cases halive
    have hteam := h.join ⟨hi0, hx⟩ (life_of_state hz)
    refine .inr ⟨i, x, hi, ⟨hi0, hx⟩, hz, hlinks (fun q hq ↦ ?_) hteam.alive⟩
    exact (h.acts_master hacts hq).2.2

end

end Xv6.Sched
