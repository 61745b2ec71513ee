import Xv6.Lib.HeapTies
import Xv6.Sched.Drive
import Xv6.Sched.Queue

/-!
# Turns of queued processes

`scheduler()` takes the root out of a heap, lets it run and puts it back. Among processes of one
level these turns reach only some slots of the heap; among stride processes they keep the passes
together as long as the passes are added exactly.
-/

namespace Xv6.Sched

open Function Lib

/-- A turn of `scheduler()` in heap `k`, in which the process that it takes out runs. -/
def turn {n : Nat} (k : Class) (run : State n → Slot → State n) (s : State n) : State n :=
  match dequeue s k with
  | (s, none) => s
  | (s, some p) => (enqueue (run s p) k p).1

section

variable {n : Nat} {round : Int → Int} {run : State n → Slot → State n} {s t u : State n}
  {c : Fin n} {k : Class} {p q : Slot} {x : Int}

theorem turn_eq (h0 : 0 < (s.sched k).count) (hp : (s.sched k).heap 1 = some p) :
    turn k run s = (enqueue (run (dequeue s k).1 p) k p).1 := by
  have hd : dequeue s k = ((dequeue s k).1, some p) := Prod.ext rfl ((dequeue_snd h0).trans hp)
  unfold turn
  rw [hd]

/-! ### Turns of the machine -/

private theorem toHeap_enqueue_congr (hheap : ∀ k, (t.sched k).toHeap = (s.sched k).toHeap)
    (hkey : key t k = key s k) (k' : Class) :
    ((enqueue t k p).1.sched k').toHeap = ((enqueue s k p).1.sched k').toHeap := by
  by_cases hk : k' = k
  · subst hk
    by_cases hroom : (s.sched k').count < NPROC
    · have hroom' : (t.sched k').count < NPROC := by rwa [hheap]
      rw [enqueue_toHeap hroom, enqueue_toHeap hroom', hheap, hkey]
    · have hfull : NPROC ≤ (t.sched k').count := by
        rw [hheap]
        exact not_lt.mp hroom
      rw [enqueue_of_full (not_lt.mp hroom), enqueue_of_full hfull, hheap]
  · rw [enqueue_sched_of_ne hk, enqueue_sched_of_ne hk, hheap]

private theorem toHeap_swtchScheduler (h : (s.cpu c).dispatched = some (k, p)) (k' : Class) :
    ((swtchScheduler s c).sched k').toHeap = ((enqueue s k p).1.sched k').toHeap := by
  unfold swtchScheduler
  rw [h]

/-- A process that yields is put back with the key it has. -/
private theorem toHeap_yielded (hcpu : (t.cpu c).dispatched = some (k, p))
    (hheap : ∀ k, (t.sched k).toHeap = (s.sched k).toHeap) (hkey : key t k = key s k) (k' : Class) :
    ((yielded t c p).sched k').toHeap = ((enqueue s k p).1.sched k').toHeap := by
  unfold yielded
  rw [toHeap_swtchScheduler (s := t.modify p _) (k := k) (p := p) hcpu]
  apply toHeap_enqueue_congr (t := t.modify p _) hheap
  rw [← hkey]
  funext x
  cases x with
  | none => rfl
  | some q => simp [key]

private theorem running_dispatch (hm : Member k p (s.proc p)) :
    Running (dispatch s c k p) c k p := by
  constructor
  · rw [dispatch_cpu, update_self]
  · simp
  · simpa using hm.isthread
  · simpa using hm.master

private theorem pass_strode {d : State n} (q : Slot) :
    ((strode round (dispatch d c k p) p).proc q).pass = ((strode round d p).proc q).pass := by
  by_cases hq : q = p
  · subst hq
    simp [strode]
  · simp [strode, modify_proc_of_ne hq]

/-- On an idle CPU, a turn among stride processes is a dispatch and a tick. -/
theorem exec_turn_stride (hc : s.cpu c = ⟨none, none⟩) (hk : chosen s = .stride)
    (h0 : 0 < (s.sched .stride).count) (hp : (s.sched .stride).heap 1 = some p)
    (hm : Member .stride p (s.proc p)) (hr : (s.proc p).state = .RUNNABLE) :
    ∃ t, exec (step round) s [.scheduler c, .tick c] = .ok t ∧
      (∀ k, (t.sched k).toHeap = ((turn .stride (strode round) s).sched k).toHeap) ∧
      ∀ q, (t.proc q).pass = ((turn .stride (strode round) s).proc q).pass := by
  obtain ⟨hpos, htrapped⟩ := hm.stride rfl
  rw [turn_eq h0 hp]
  have hdispatch : step round s (.scheduler c) =
      .ok (dispatch (dequeue s .stride).1 c .stride p) := by
    have hstep := @step_scheduler _ round s c p hc (by rwa [hk]) (by rwa [hk])
      (by rw [hk]; exact hpos.ne') hr
    rwa [hk] at hstep
  have hproc : (dequeue s .stride).1.proc = s.proc := dequeue_proc
  generalize (dequeue s .stride).1 = d at *
  have hrun : Running (dispatch d c .stride p) c .stride p := by
    apply running_dispatch
    rwa [hproc]
  have htick := @step_tick_stride _ round _ _ _ _ hrun (by simpa [hproc] using htrapped)
    (by simpa [hproc] using hpos.ne')
  refine ⟨yielded (strode round (dispatch d c .stride p) p) c p, ?_, ?_, ?_⟩
  · rw [exec_cons_ok hdispatch, exec_cons_ok htick, exec_nil]
  · apply toHeap_yielded
    · simp [strode, hrun.cpu]
    · intro k
      rw [quiet_strode.heap, quiet_strode.heap, dispatch_sched]
    · funext x
      cases x with
      | none => rfl
      | some q => exact pass_strode q
  · intro q
    have hpass := @pass_strode _ round c .stride p d q
    simpa [yielded] using hpass

/-- On an idle CPU, a turn among MLFQ processes is a dispatch and a yield. -/
theorem exec_turn_mlfq (hc : s.cpu c = ⟨none, none⟩) (hk : chosen s = .mlfq)
    (h0 : 0 < (s.sched .mlfq).count) (hp : (s.sched .mlfq).heap 1 = some p)
    (hm : Member .mlfq p (s.proc p)) (ht : (s.proc p).trapped = false)
    (hr : (s.proc p).state = .RUNNABLE) :
    ∃ t, exec (step round) s [.scheduler c, .yield c] = .ok t ∧
      (∀ k, (t.sched k).toHeap = ((turn .mlfq (fun s _ ↦ s) s).sched k).toHeap) ∧
      ∀ q, (t.proc q).qlev = ((turn .mlfq (fun s _ ↦ s) s).proc q).qlev := by
  rw [turn_eq h0 hp]
  have hdispatch : step round s (.scheduler c) = .ok (dispatch (dequeue s .mlfq).1 c .mlfq p) := by
    have hstep := @step_scheduler _ round s c p hc (by rwa [hk]) (by rwa [hk])
      (by rw [hk]; simp [Misplaced, hm.mlfq rfl]) hr
    rwa [hk] at hstep
  have hproc : (dequeue s .mlfq).1.proc = s.proc := dequeue_proc
  generalize (dequeue s .mlfq).1 = d at *
  have hrun : Running (dispatch d c .mlfq p) c .mlfq p := by
    apply running_dispatch
    rwa [hproc]
  have hyield := @step_yield _ round _ _ _ _ hrun (by simpa [hproc] using ht)
    (by simpa [hproc] using hm.np)
  refine ⟨yielded (dispatch d c .mlfq p) c p, ?_, ?_, ?_⟩
  · rw [exec_cons_ok hdispatch, exec_cons_ok hyield, exec_nil]
  · apply toHeap_yielded
    · simp [hrun.cpu]
    · exact fun k ↦ rfl
    · funext x
      cases x with
      | none => rfl
      | some q => simp [key]
  · intro q
    simp [yielded]

/-! ### Processes of one level -/

/-- What runs leaves the heaps and the levels alone. -/
def KeepsLevels (run : State n → Slot → State n) : Prop := ∀ s p,
  (∀ k, ((run s p).sched k).toHeap = (s.sched k).toHeap) ∧
    ∀ q, ((run s p).proc q).qlev = (s.proc q).qlev

/-- The MLFQ heap holds processes of one level, and at least one. -/
structure OneLevel (s : State n) (x : Int) : Prop where
  pos : 0 < (s.sched .mlfq).count
  bound : (s.sched .mlfq).count ≤ NPROC
  full : none ∉ entries s .mlfq
  level : ∀ p, some p ∈ entries s .mlfq → (s.proc p).qlev = x

/-- From any turn on, every process in the MLFQ heap is taken out within as many turns as there
are entries. -/
def TakeTurns (run : State n → Slot → State n) (s : State n) : Prop :=
  ∀ t p, some p ∈ entries s .mlfq → ∃ i, i < (s.sched .mlfq).count ∧
    (dequeue ((turn .mlfq run)^[t + i] s) .mlfq).2 = some p

theorem OneLevel.heapLevel (h : OneLevel s x) :
    Heap.Level (key s .mlfq) x (s.sched .mlfq).toHeap := by
  intro y hy
  cases y with
  | none => exact absurd hy h.full
  | some p => exact h.level p hy

private theorem OneLevel.root (h : OneLevel s x) : ∃ p, (s.sched .mlfq).heap 1 = some p := by
  apply Option.ne_none_iff_exists'.mp
  intro hnone
  apply h.full
  exact Heap.mem_contents.mpr ⟨1, le_refl 1, h.pos, hnone⟩

/-- A turn among processes of one level is one of the heap's. -/
private theorem OneLevel.turn (h : OneLevel s x) (hrun : KeepsLevels run) :
    OneLevel (turn .mlfq run s) x ∧ key (Sched.turn .mlfq run s) .mlfq = key s .mlfq ∧
      ((Sched.turn .mlfq run s).sched .mlfq).toHeap =
        Heap.turn (key s .mlfq) (s.sched .mlfq).toHeap := by
  obtain ⟨p, hp⟩ := h.root
  have hpos := h.pos
  have hbound := h.bound
  obtain ⟨hheap, hlev⟩ := hrun (dequeue s .mlfq).1 p
  have hqlev : ∀ q, ((Sched.turn .mlfq run s).proc q).qlev = (s.proc q).qlev := by
    intro q
    rw [turn_eq hpos hp, enqueue_proc, hlev, dequeue_proc]
  have hkey : key (run (dequeue s .mlfq).1 p) .mlfq = key s .mlfq := by
    funext y
    cases y with
    | none => rfl
    | some q =>
      show ((run (dequeue s .mlfq).1 p).proc q).qlev = (s.proc q).qlev
      rw [hlev, dequeue_proc]
  have hturn : ((Sched.turn .mlfq run s).sched .mlfq).toHeap =
      Heap.turn (key s .mlfq) (s.sched .mlfq).toHeap := by
    have hroom : ((run (dequeue s .mlfq).1 p).sched .mlfq).count < NPROC := by
      rw [hheap, dequeue_toHeap hpos, Heap.count_dequeue]
      omega
    rw [turn_eq hpos hp, enqueue_toHeap hroom, hkey, hheap, dequeue_toHeap hpos, Heap.turn, hp]
  have hentries : entries (Sched.turn .mlfq run s) .mlfq = entries s .mlfq := by
    unfold entries
    rw [hturn, Heap.entries_turn hpos]
  have hcount : ((Sched.turn .mlfq run s).sched .mlfq).count = (s.sched .mlfq).count := by
    rw [hturn, Heap.count_turn hpos]
  refine ⟨⟨by rwa [hcount], by rwa [hcount], by rw [hentries]; exact h.full, ?_⟩, ?_, hturn⟩
  · intro q hq
    rw [hentries] at hq
    rw [hqlev]
    exact h.level q hq
  · funext y
    cases y with
    | none => rfl
    | some q => exact hqlev q

private theorem OneLevel.turns (h : OneLevel s x) (hrun : KeepsLevels run) (t : Nat) :
    OneLevel ((Sched.turn .mlfq run)^[t] s) x ∧
      (((Sched.turn .mlfq run)^[t] s).sched .mlfq).toHeap =
        (Heap.turn (key s .mlfq))^[t] (s.sched .mlfq).toHeap := by
  induction t generalizing s with
  | zero => exact ⟨h, rfl⟩
  | succ t ih =>
    obtain ⟨hturn, hkey, hheap⟩ := h.turn hrun
    obtain ⟨hlevel, hturns⟩ := ih hturn
    rw [iterate_succ_apply, iterate_succ_apply]
    refine ⟨hlevel, ?_⟩
    rw [hturns, hkey, hheap]

/-- With four entries or more, the one in the second slot is not reached. -/
private theorem OneLevel.turning_iff (h : OneLevel s x) (hnodup : (entries s .mlfq).Nodup) :
    (∀ p, some p ∈ entries s .mlfq →
      ∃ i, Heap.Turning (s.sched .mlfq).count i ∧ (s.sched .mlfq).heap i = some p) ↔
      (s.sched .mlfq).count ≤ 3 := by
  constructor
  · intro hall
    by_contra hlt
    obtain ⟨p, hp⟩ : ∃ p, (s.sched .mlfq).heap 2 = some p := by
      apply Option.ne_none_iff_exists'.mp
      intro hnone
      apply h.full
      exact Heap.mem_contents.mpr ⟨2, by omega, by omega, hnone⟩
    have hmem : some p ∈ entries s .mlfq := Heap.mem_contents.mpr ⟨2, by omega, by omega, hp⟩
    obtain ⟨i, hi, hip⟩ := hall p hmem
    have hi2 : i = 2 := Heap.slot_unique hnodup hi.1 hi.2.1 (by omega) (by omega) (hip.trans hp.symm)
    exact Heap.not_turning_two (by omega) (hi2 ▸ hi)
  · intro hle p hp
    obtain ⟨i, h1, hi, hip⟩ := Heap.mem_contents.mp hp
    exact ⟨i, Heap.turning_of_le hle h1 hi, hip⟩

/-- The processes of one level take turns if and only if each stands in one of the slots that the
turns reach. Where each has one entry, that is when there are at most three. -/
theorem mlfq_turns (hrun : KeepsLevels run) (h : OneLevel s x) :
    (TakeTurns run s ↔ ∀ p, some p ∈ entries s .mlfq →
      ∃ i, Heap.Turning (s.sched .mlfq).count i ∧ (s.sched .mlfq).heap i = some p) ∧
    ((entries s .mlfq).Nodup → (TakeTurns run s ↔ (s.sched .mlfq).count ≤ 3)) := by
  have hiff : TakeTurns run s ↔ ∀ p, some p ∈ entries s .mlfq →
      ∃ i, Heap.Turning (s.sched .mlfq).count i ∧ (s.sched .mlfq).heap i = some p := by
    have hroot : ∀ t, (dequeue ((Sched.turn .mlfq run)^[t] s) .mlfq).2 =
        ((Heap.turn (key s .mlfq))^[t] (s.sched .mlfq).toHeap).heap 1 := by
      intro t
      obtain ⟨hlevel, hheap⟩ := h.turns hrun t
      rw [dequeue_snd hlevel.pos, hheap]
    have hall := h.heapLevel.all_turn_iff h.pos
    unfold TakeTurns
    simp only [hroot]
    constructor
    · intro htake p hp
      apply hall.mp _ (some p) hp
      intro t y hy
      cases y with
      | none => exact absurd hy h.full
      | some q => exact htake t q hy
    · intro hturning t p hp
      apply hall.mpr _ t (some p) hp
      intro y hy
      cases y with
      | none => exact absurd hy h.full
      | some q => exact hturning q hy
  refine ⟨hiff, fun hnodup ↦ ?_⟩
  rw [hiff]
  exact h.turning_iff hnodup

end

section

/-- The first process and two children that it forks. -/
def three : List (Action 1) :=
  [.scheduler cpu0, .fork cpu0 true, .forkDone cpu0 true, .fork cpu0 true, .forkDone cpu0 true,
    .yield cpu0]

example : ((final (step float) (boot 1) three).sched .mlfq).count = 3 := by decide +kernel

/-- Three processes of level 0 take turns. -/
theorem mlfq_turns_three : TakeTurns (fun s _ ↦ s) (final (step float) (boot 1) three) := by
  have hturns := @mlfq_turns _ (fun s _ ↦ s) (final (step float) (boot 1) three) 0
    (fun _ _ ↦ ⟨fun _ ↦ rfl, fun _ ↦ rfl⟩)
    ⟨by decide +kernel, by decide +kernel, by decide +kernel, by decide +kernel⟩
  apply (hturns.2 (by decide +kernel)).mpr
  decide +kernel

/-- The first process and three children that it forks. -/
def four : List (Action 1) :=
  [.scheduler cpu0, .fork cpu0 true, .forkDone cpu0 true, .fork cpu0 true, .forkDone cpu0 true,
    .fork cpu0 true, .forkDone cpu0 true, .yield cpu0]

/-- Of four processes of level 0, the second child is not taken out in four turns. -/
theorem four_starves : (exec (step float) (boot 1) four).isOk = true ∧
    (∀ p, some p ∈ entries (final (step float) (boot 1) four) .mlfq →
      ((final (step float) (boot 1) four).proc p).qlev = 0) ∧
    (entries (final (step float) (boot 1) four) .mlfq).Nodup ∧
    ¬TakeTurns (fun s _ ↦ s) (final (step float) (boot 1) four) := by
  refine ⟨by decide +kernel, by decide +kernel, by decide +kernel, fun htake ↦ ?_⟩
  have hnever : ∀ i, i < ((final (step float) (boot 1) four).sched .mlfq).count →
      (dequeue ((turn .mlfq fun s _ ↦ s)^[0 + i] (final (step float) (boot 1) four)) .mlfq).2 ≠
        some 2 := by
    decide +kernel
  obtain ⟨i, hi, htwo⟩ := htake 0 2 (by decide +kernel)
  exact hnever i hi htwo

end

/-! ### Stride processes -/

section

variable {n : Nat} (round : Int → Int) (s : State n)

/-- The stride heap holds processes, each once, with positive strides of at most `m` and passes
within `m` of each other. -/
structure Even (m : Int) : Prop where
  queue : Queue s .stride
  nodup : (entries s .stride).Nodup
  stride : ∀ p, some p ∈ entries s .stride → 0 < (s.proc p).stride ∧ (s.proc p).stride ≤ m
  pass : ∀ p q, some p ∈ entries s .stride → some q ∈ entries s .stride →
    |(s.proc p).pass - (s.proc q).pass| ≤ m

/-- The stride of the process that the next turn takes out is added to its pass exactly. -/
def AddsExactly : Prop := ∀ p, (dequeue s .stride).2 = some p →
  round ((s.proc p).pass + (s.proc p).stride) = (s.proc p).pass + (s.proc p).stride

/-- A turn in which the process that is taken out runs for one tick. -/
def strideTurn (s : State n) : State n := turn .stride (strode round) s

/-- The ticks of `p` in `t` turns. -/
def ticksIn (p : Slot) (t : Nat) : Nat :=
  ∑ u ∈ Finset.range t, if (dequeue ((strideTurn round)^[u] s) .stride).2 = some p then 1 else 0

end

section

variable {n : Nat} {round : Int → Int} {s : State n} {p q : Slot} {m : Int}

theorem strideTurn_of_empty (h : (s.sched .stride).count = 0) : strideTurn round s = s := by
  unfold strideTurn turn
  rw [dequeue_of_empty h]

theorem strideTurn_eq (h0 : 0 < (s.sched .stride).count) (hp : (s.sched .stride).heap 1 = some p) :
    strideTurn round s = (enqueue (strode round (dequeue s .stride).1 p) .stride p).1 :=
  turn_eq h0 hp

private theorem strode_stride : ((strode round s p).proc q).stride = (s.proc q).stride := by
  simp [strode]

/-- One tick adds the stride of the process that ran. -/
private theorem pass_strideTurn (hq : Queue s .stride) (hexact : AddsExactly round s) (q : Slot) :
    ((strideTurn round s).proc q).pass = (s.proc q).pass +
      (if (dequeue s .stride).2 = some q then (s.proc q).stride else 0) ∧
    ((strideTurn round s).proc q).stride = (s.proc q).stride := by
  by_cases h0 : (s.sched .stride).count = 0
  · rw [strideTurn_of_empty h0, dequeue_of_empty h0]
    simp
  · have hpos : 0 < (s.sched .stride).count := Nat.pos_of_ne_zero h0
    obtain ⟨p, hp⟩ := Option.ne_none_iff_exists'.mp (hq.ne_none (le_refl 1) hpos)
    have hsnd : (dequeue s .stride).2 = some p := (dequeue_snd hpos).trans hp
    have hround := hexact p hsnd
    rw [strideTurn_eq hpos hp, hsnd, enqueue_proc]
    refine ⟨?_, by rw [strode_stride, dequeue_proc]⟩
    by_cases hqp : q = p
    · subst hqp
      simpa [strode] using hround
    · have hpq : some p ≠ some q := fun h ↦ hqp (Option.some.inj h).symm
      rw [strode_proc_of_ne hqp, dequeue_proc, if_neg hpq, add_zero]

/-- A turn puts back what it takes out. -/
private theorem Even.queue_turn (h : Even s m) : Queue (strideTurn round s) .stride ∧
    entries (strideTurn round s) .stride = entries s .stride := by
  by_cases h0 : (s.sched .stride).count = 0
  · rw [strideTurn_of_empty h0]
    exact ⟨h.queue, rfl⟩
  · have hpos : 0 < (s.sched .stride).count := Nat.pos_of_ne_zero h0
    obtain ⟨p, hp⟩ := Option.ne_none_iff_exists'.mp (h.queue.ne_none (le_refl 1) hpos)
    have hturn : strideTurn round s = _ := strideTurn_eq hpos hp
    have hdeq := h.queue.dequeue hpos
    have hentries := entries_dequeue hpos
    rw [hp] at hentries
    have hout : some p ∉ entries (dequeue s .stride).1 .stride := by
      have hnodup := h.nodup
      rw [hentries] at hnodup
      exact (Multiset.nodup_cons.mp hnodup).1
    have hcount : ((dequeue s .stride).1.sched .stride).count = (s.sched .stride).count - 1 := by
      rw [dequeue_toHeap hpos, Heap.count_dequeue]
    have hbound := h.queue.bound
    generalize (dequeue s .stride).1 = d at *
    have hquiet : Quiet d (strode round d p) := quiet_strode
    have hstrode : Queue (strode round d p) .stride := by
      constructor
      · rw [hquiet.heap]
        exact hdeq.bound
      · rw [hquiet.entries]
        exact hdeq.full
      · rw [hquiet.heap]
        apply hdeq.order.congr
        intro x hx
        cases x with
        | none => rfl
        | some q =>
          have hqp : q ≠ p := by
            rintro rfl
            exact hout hx
          show ((strode round d p).proc q).pass = (d.proc q).pass
          rw [strode_proc_of_ne hqp]
    have hroom : ((strode round d p).sched .stride).count < NPROC := by
      rw [hquiet.heap, hcount]
      omega
    rw [hturn]
    refine ⟨hstrode.enqueue hroom p, ?_⟩
    rw [entries_enqueue hroom, hquiet.entries, hentries]

/-- The process that a turn takes out has the least pass. -/
private theorem Even.pass_le (h : Even s m) (hp : (dequeue s .stride).2 = some p)
    (hq : some q ∈ entries s .stride) : (s.proc p).pass ≤ (s.proc q).pass := by
  have hpos : 0 < (s.sched .stride).count := by
    by_contra h0
    rw [dequeue_of_empty (by omega)] at hp
    cases hp
  have hle : key s .stride ((s.sched .stride).heap 1) ≤ key s .stride (some q) :=
    h.queue.order.root_le hq
  rw [dequeue_snd hpos] at hp
  rwa [hp] at hle

/-- A turn keeps the passes within `m` of each other. -/
theorem Even.turn (h : Even s m) (hexact : AddsExactly round s) : Even (strideTurn round s) m := by
  obtain ⟨hqueue, hentries⟩ := @Even.queue_turn _ round _ _ h
  have hstep := pass_strideTurn h.queue hexact
  constructor
  · exact hqueue
  · rw [hentries]
    exact h.nodup
  · intro p hp
    rw [hentries] at hp
    rw [(hstep p).2]
    exact h.stride p hp
  · intro p q hp hq
    rw [hentries] at hp hq
    rw [(hstep p).1, (hstep q).1]
    have hpq := abs_le.mp (h.pass p q hp hq)
    have hsp := h.stride p hp
    have hsq := h.stride q hq
    apply abs_le.mpr
    by_cases hrp : (dequeue s .stride).2 = some p
    · have hle := h.pass_le hrp hq
      rw [if_pos hrp]
      by_cases hrq : (dequeue s .stride).2 = some q
      · obtain rfl : p = q := Option.some.inj (hrp.symm.trans hrq)
        rw [if_pos hrp]
        omega
      · rw [if_neg hrq]
        omega
    · rw [if_neg hrp]
      by_cases hrq : (dequeue s .stride).2 = some q
      · have hle := h.pass_le hrq hp
        rw [if_pos hrq]
        omega
      · rw [if_neg hrq]
        omega

theorem ticksIn_succ (t : Nat) : ticksIn round s p (t + 1) =
    (if (dequeue s .stride).2 = some p then 1 else 0) + ticksIn round (strideTurn round s) p t := by
  unfold ticksIn
  rw [Finset.sum_range_succ', Nat.add_comm]
  rfl

/-- What `t` turns leave. -/
private theorem Even.turns (h : Even s m) (t : Nat)
    (hexact : ∀ u, u < t → AddsExactly round ((strideTurn round)^[u] s)) :
    Even ((strideTurn round)^[t] s) m ∧
      entries ((strideTurn round)^[t] s) .stride = entries s .stride ∧
      ∀ q, (((strideTurn round)^[t] s).proc q).pass =
        (s.proc q).pass + ticksIn round s q t * (s.proc q).stride := by
  induction t generalizing s with
  | zero => exact ⟨h, rfl, fun q ↦ by simp [ticksIn]⟩
  | succ t ih =>
    have h0 : AddsExactly round s := hexact 0 (Nat.succ_pos t)
    obtain ⟨heven, hentries, hpass⟩ :=
      ih (h.turn h0) fun u hu ↦ hexact (u + 1) (Nat.succ_lt_succ hu)
    rw [iterate_succ_apply]
    refine ⟨heven, hentries.trans h.queue_turn.2, fun q ↦ ?_⟩
    obtain ⟨hone, hstride⟩ := pass_strideTurn h.queue h0 q
    rw [hpass q, hone, hstride, ticksIn_succ]
    split_ifs
    · push_cast
      ring
    · push_cast
      ring

/-- Steady stride processes stay together for as many turns as their passes are added exactly: any
two passes differ by at most the largest stride, and so any two shares of the time, each measured
as ticks times stride, by at most twice that. -/
theorem stride_fair (h : Even s m) (t : Nat)
    (hexact : ∀ u, u < t → AddsExactly round ((strideTurn round)^[u] s)) :
    ∀ p q, some p ∈ entries s .stride → some q ∈ entries s .stride →
      |(((strideTurn round)^[t] s).proc p).pass - (((strideTurn round)^[t] s).proc q).pass| ≤ m ∧
      |(ticksIn round s p t * (s.proc p).stride - ticksIn round s q t * (s.proc q).stride : Int)| ≤
        2 * m := by
  intro p q hp hq
  obtain ⟨heven, hentries, hpass⟩ := h.turns t hexact
  have hlast := heven.pass p q (by rwa [hentries]) (by rwa [hentries])
  have hfirst := h.pass p q hp hq
  refine ⟨hlast, ?_⟩
  rw [hpass p, hpass q] at hlast
  rw [abs_le] at hlast hfirst ⊢
  constructor <;> omega

end

section

instance {n : Nat} (round : Int → Int) (s : State n) : Decidable (AddsExactly round s) :=
  inferInstanceAs (Decidable (∀ _, _))

/-- Two processes with strides 3 and 1 and the same pass. -/
def pair (p q : Slot) (pass : Int) : State 1 :=
  let v (p : Slot) (tickets stride : Int) : Proc :=
    { Proc.zero with state := .RUNNABLE, tickets, stride, pass, master := some p }
  let s : State 1 := { reset 1 with
    proc := fun r ↦ if r = p then v p 1000 3 else if r = q then v q 2000 1 else Proc.zero }
  (stride_enqueue (stride_enqueue s p).1 q).1

private theorem even_pair {p q : Slot} {x : Int}
    (hcount : ((pair p q x).sched .stride).count = 2)
    (hle : key (pair p q x) .stride (((pair p q x).sched .stride).heap 1) ≤
      key (pair p q x) .stride (((pair p q x).sched .stride).heap 2))
    (hfull : none ∉ entries (pair p q x) .stride) (hnodup : (entries (pair p q x) .stride).Nodup)
    (hstride : ∀ r, some r ∈ entries (pair p q x) .stride →
      0 < ((pair p q x).proc r).stride ∧ ((pair p q x).proc r).stride ≤ 3)
    (hpass : ∀ r r', some r ∈ entries (pair p q x) .stride → some r' ∈ entries (pair p q x) .stride →
      |((pair p q x).proc r).pass - ((pair p q x).proc r').pass| ≤ 3) : Even (pair p q x) 3 := by
  refine ⟨⟨?_, hfull, fun i h1 hi ↦ ?_⟩, hnodup, hstride, hpass⟩
  · rw [hcount]
    decide
  · obtain rfl : i = 2 := by omega
    exact hle

/-- From pass 0 on, five turns of the two processes. -/
theorem stride_fair_pair : |(((strideTurn float)^[5] (pair 1 2 0)).proc 1).pass -
      (((strideTurn float)^[5] (pair 1 2 0)).proc 2).pass| ≤ 3 ∧
    |(ticksIn float (pair 1 2 0) 1 5 * ((pair 1 2 0).proc 1).stride -
      ticksIn float (pair 1 2 0) 2 5 * ((pair 1 2 0).proc 2).stride : Int)| ≤ 2 * 3 := by
  have heven : Even (pair 1 2 0) 3 := by
    apply even_pair <;> decide +kernel
  exact stride_fair heven 5 (by decide +kernel) 1 2 (by decide +kernel) (by decide +kernel)

/-- From pass `2 ^ 24` on, one tick of stride 3 adds 4 and no tick of stride 1 adds anything. -/
theorem pair_unfair : Even (pair 1 2 (2 ^ 24)) 3 ∧
    ¬|((strideTurn float (pair 1 2 (2 ^ 24))).proc 1).pass -
      ((strideTurn float (pair 1 2 (2 ^ 24))).proc 2).pass| ≤ 3 ∧
    ¬|(ticksIn float (pair 1 2 (2 ^ 24)) 1 11 * ((pair 1 2 (2 ^ 24)).proc 1).stride -
      ticksIn float (pair 1 2 (2 ^ 24)) 2 11 * ((pair 1 2 (2 ^ 24)).proc 2).stride : Int)| ≤ 2 * 3 := by
  refine ⟨?_, by decide +kernel, by decide +kernel⟩
  apply even_pair <;> decide +kernel

end

end Xv6.Sched
