import Xv6.Sched.Passes
import Xv6.Sched.Places

/-!
# Turns of processes without threads

What the steps of a process without threads come to, from its dispatch to where it is put back. On
one CPU, when all processes in the heaps are ready, a turn of either scheduler is one tick.
-/

namespace Xv6.Sched

open Function Lib

section

variable {n : Nat}

/-- The state when `p`, which has no threads, has entered the scheduler to yield. -/
def yielded (s : State n) (c : Fin n) (p : Slot) : State n :=
  swtchScheduler (s.modify p fun v ↦ { v with state := .RUNNABLE, isexhausted := false }) c

/-- A process without threads runs on CPU `c`, where branch `k` of `scheduler()` dispatched it. -/
structure Running (s : State n) (c : Fin n) (k : Class) (p : Slot) : Prop where
  cpu : s.cpu c = ⟨some p, some (k, p)⟩
  state : (s.proc p).state = .RUNNING
  isthread : (s.proc p).isthread = false
  master : (s.proc p).master = some p

variable {round : Int → Int} {s : State n} {c : Fin n} {k : Class} {p q : Slot}

/-! ### Steps -/

private theorem sched_alone (hr : (s.proc p).state ≠ .RUNNING) (hi : (s.proc p).isthread = false)
    (hm : (s.proc p).master = some p) : sched s c p =
      .ok (swtchScheduler (s.modify p fun v ↦ { v with isexhausted := false }) c, false) := by
  unfold sched
  rw [if_neg hr, hm]
  dsimp only
  split
  · rfl
  · next he =>
    rw [Bool.not_eq_true] at he
    rw [if_neg (by simp [hi]), modify_eq_self (f := fun v ↦ { v with isexhausted := false })]
    rw [← he]

/-- The end of a step in which a process without threads yields in state `t`. -/
private theorem step_yielded {t : State n} {a : Action n}
    (henter : enter round s a = .ok (yield t c p)) (hi : (t.proc p).isthread = false)
    (hm : (t.proc p).master = some p) : step round s a = .ok (yielded t c p) := by
  have hmod : (t.modify p fun v ↦ { v with state := .RUNNABLE }).modify p
      (fun v ↦ { v with isexhausted := false }) =
      t.modify p fun v ↦ { v with state := .RUNNABLE, isexhausted := false } := by
    simp [State.modify, State.set]
  have hsched := sched_alone (s := t.modify p fun v ↦ { v with state := .RUNNABLE }) (c := c) (p := p)
    (by simp) (by simpa using hi) (by simpa using hm)
  rw [hmod] at hsched
  unfold step
  simp only [henter, yield, bind, Except.bind, hsched]
  rfl

theorem Running.current (h : Running s c k p) (ht : (s.proc p).trapped = false) :
    current s c = .ok p := by
  rw [current_eq_ok, h.cpu]
  exact ⟨rfl, ht⟩

theorem step_yield (h : Running s c k p) (ht : (s.proc p).trapped = false)
    (hnp : (s.proc p).np = none) : step round s (.yield c) = .ok (yielded s c p) := by
  have hcaller : caller s c = .ok p := caller_eq_ok.mpr ⟨h.current ht, hnp⟩
  apply step_yielded _ h.isthread h.master
  simp only [enter, hcaller, bind, Except.bind, pure, Except.pure]

theorem strode_proc_of_ne (hq : q ≠ p) : (strode round s p).proc q = s.proc q := by
  simp [strode, modify_proc_of_ne hq]

theorem strode_proc_self : ∃ x, (strode round s p).proc p = { s.proc p with pass := x } :=
  ⟨round ((s.proc p).pass + (s.proc p).stride), by simp [strode]⟩

/-- A tick of a stride process yields. -/
theorem step_tick_stride (h : Running s c k p) (ht : (s.proc p).trapped = false)
    (htk : (s.proc p).tickets ≠ 0) :
    step round s (.tick c) = .ok (yielded (strode round s p) c p) := by
  obtain ⟨x, hself⟩ := @strode_proc_self _ round s p
  have hi : ((strode round s p).proc p).isthread = false := by
    rw [hself]
    exact h.isthread
  have htick : tick round s c p = .ok (yield (strode round s p) c p) := by
    unfold tick
    rw [if_neg (not_not.mpr h.state), h.master]
    dsimp only
    rw [if_neg htk]
    apply if_neg
    change ¬((strode round s p).proc p).isthread = true
    rw [hi]
    exact Bool.false_ne_true
  apply step_yielded _ hi
  · rw [hself]
    exact h.master
  · simp only [enter, h.current ht, bind, Except.bind, htick]

private theorem charged_isthread (hi : (s.proc p).isthread = false) :
    ((charged round s p).proc p).isthread = false := by
  obtain ⟨_, _, _, hself⟩ := @charged_proc_eq _ round s p
  rw [hself]
  exact hi

/-- A tick of an MLFQ process that uses up its quantum yields. -/
theorem step_tick_yield (h : Running s c k p) (ht : (s.proc p).trapped = false)
    (htk : (s.proc p).tickets = 0) (he : ((charged round s p).proc p).isexhausted = true) :
    step round s (.tick c) =
      .ok (yielded ((charged round s p).modify p fun v ↦ { v with trapped := true }) c p) := by
  have htick : tick round s c p = .ok
      (yield ((charged round s p).modify p fun v ↦ { v with trapped := true }) c p) := by
    unfold tick
    rw [if_neg (not_not.mpr h.state), h.master]
    dsimp only
    rw [if_pos htk]
    exact if_pos (.inr he)
  apply step_yielded
  · simp only [enter, h.current ht, bind, Except.bind, htick]
  · simpa using charged_isthread h.isthread
  · rw [modify_proc_self]
    exact stable_master.charged.trans h.master

/-- A tick of an MLFQ process that does not use up its quantum leaves it the CPU. -/
theorem step_tick_stay (h : Running s c k p) (ht : (s.proc p).trapped = false)
    (htk : (s.proc p).tickets = 0) (he : ((charged round s p).proc p).isexhausted = false) :
    step round s (.tick c) = .ok (boost (charged round s p) p) := by
  have htick : tick round s c p = .ok (.done (boost (charged round s p) p)) := by
    unfold tick
    rw [if_neg (not_not.mpr h.state), h.master]
    dsimp only
    rw [if_pos htk]
    apply if_neg
    change ¬(((charged round s p).proc p).isthread = true ∨
      ((charged round s p).proc p).isexhausted = true)
    simp [charged_isthread h.isthread, he]
  unfold step enter
  simp only [h.current ht, bind, Except.bind, htick, pure, Except.pure]

/-- A process that yielded in `trap` goes on to the test for a boost. -/
theorem step_boost (h : Running s c k p) (ht : (s.proc p).trapped = true) :
    step round s (.boost c) = .ok (boost s p) := by
  unfold step enter
  simp [h.cpu, ht, pure, Except.pure, bind, Except.bind]

/-- `scheduler()` dispatches the process at the root when it is ready. -/
theorem step_scheduler (hc : s.cpu c = ⟨none, none⟩) (h0 : 0 < (s.sched (chosen s)).count)
    (hp : (s.sched (chosen s)).heap 1 = some p) (hm : ¬Misplaced (chosen s) (s.proc p))
    (hr : (s.proc p).state = .RUNNABLE) : step round s (.scheduler c) =
      .ok (dispatch (dequeue s (chosen s)).1 c (chosen s) p) := by
  have hsnd : (dequeue s (chosen s)).2 = some p := (dequeue_snd h0).trans hp
  generalize hd : (dequeue s (chosen s)).1 = d
  have hproc : d.proc = s.proc := hd ▸ dequeue_proc
  have hbranch : branch s c (chosen s) = .ok (dispatch d c (chosen s) p) := by
    unfold branch
    rw [show dequeue s (chosen s) = (d, some p) from Prod.ext hd hsnd]
    simp [hproc, hm, hr]
  have hsched : scheduler s c = .ok (dispatch d c (chosen s) p) := by
    unfold scheduler
    rw [if_neg (by simp [hc]), hbranch]
  simp only [step, enter, hsched, pure, Except.pure, bind, Except.bind]

end

/-! ### Turns -/

/-- A process of scheduler `k` without threads. -/
structure Member (k : Class) (p : Slot) (v : Proc) : Prop where
  isthread : v.isthread = false
  master : v.master = some p
  np : v.np = none
  mlfq : k = .mlfq → v.tickets = 0
  stride : k = .stride → 0 < v.tickets ∧ v.trapped = false

/-- The CPU is idle, and the heap of scheduler `k` holds the processes `A k`, all ready. -/
structure Idle (s : State 1) (A : Class → Finset Slot) : Prop where
  cpu : ∀ c, s.cpu c = ⟨none, none⟩
  entries : ∀ k, Sched.entries s k = (A k).val.map some
  member : ∀ k, ∀ p ∈ A k, Member k p (s.proc p)
  state : ∀ k, ∀ p ∈ A k, (s.proc p).state = .RUNNABLE

/-- Process `p` of scheduler `k` is running, and the others are in the heaps. -/
structure Busy (s : State 1) (A : Class → Finset Slot) (k : Class) (p : Slot) : Prop where
  running : ∀ c, Running s c k p
  self : Member k p (s.proc p)
  notMem : ∀ k, p ∉ A k
  entries : ∀ k, Sched.entries s k = (A k).val.map some
  member : ∀ k, ∀ p ∈ A k, Member k p (s.proc p)
  state : ∀ k, ∀ p ∈ A k, (s.proc p).state = .RUNNABLE

section

variable {round : Int → Int} {s t : State 1} {A : Class → Finset Slot} {k : Class} {p q : Slot}

/-- Put `p` into the heap of scheduler `k`. -/
def join (A : Class → Finset Slot) (k : Class) (p : Slot) : Class → Finset Slot :=
  update A k (insert p (A k))

/-- The other processes are as they were, but for their level and ticks. -/
private theorem Member.congr {v v' : Proc} (h : Member k q v)
    (hv : ∃ l t, v' = { v with qlev := l, qticks := t }) : Member k q v' := by
  obtain ⟨_, _, rfl⟩ := hv
  exact ⟨h.isthread, h.master, h.np, h.mlfq, h.stride⟩

/-- A running process that changes and keeps its class runs on. -/
private theorem Busy.congr (h : Busy s A k p) (hcpu : t.cpu = s.cpu)
    (hheap : ∀ k, (t.sched k).toHeap = (s.sched k).toHeap) (hself : Member k p (t.proc p))
    (hstate : (t.proc p).state = .RUNNING)
    (hothers : ∀ q, q ≠ p → ∃ l i, t.proc q = { s.proc q with qlev := l, qticks := i }) :
    Busy t A k p := by
  have hne : ∀ {k q}, q ∈ A k → q ≠ p := by
    intro k q hq hqp
    subst hqp
    exact h.notMem k hq
  refine ⟨fun c ↦ ⟨by rw [hcpu]; exact (h.running c).cpu, hstate, hself.isthread, hself.master⟩,
    hself, h.notMem, fun k ↦ ?_, fun k q hq ↦ (h.member k q hq).congr (hothers q (hne hq)),
    fun k q hq ↦ ?_⟩
  · rw [← h.entries k]
    unfold Sched.entries
    rw [hheap]
  · obtain ⟨_, _, hv⟩ := hothers q (hne hq)
    rw [hv]
    exact h.state k q hq

private theorem room (h : Busy s A k p) (k' : Class) : (s.sched k').count < NPROC := by
  have hcard : (s.sched k').count = (A k').card := by
    have hc := congrArg Multiset.card (h.entries k')
    simpa [Sched.entries, Lib.Heap.entries] using hc
  have hlt : (A k').card < Fintype.card Slot := Finset.card_lt_univ_of_notMem (h.notMem k')
  rw [hcard]
  simpa using hlt

/-- A process that yields is put back into its heap. -/
private theorem Busy.idle (h : Busy s A k p) : Idle (yielded s cpu0 p) (join A k p) := by
  generalize hu : (s.modify p fun v ↦ { v with state := .RUNNABLE, isexhausted := false }) = u
  have hsched : u.sched = s.sched := hu ▸ rfl
  have hdisp : (u.cpu cpu0).dispatched = some (k, p) := by
    rw [← hu, modify_cpu, (h.running cpu0).cpu]
  have hproc : (yielded s cpu0 p).proc = u.proc := by rw [← hu]; exact swtchScheduler_proc
  have hself : Member k p (u.proc p) ∧ (u.proc p).state = .RUNNABLE := by
    rw [← hu, modify_proc_self]
    exact ⟨⟨h.self.isthread, h.self.master, h.self.np, h.self.mlfq, h.self.stride⟩, rfl⟩
  have hother : ∀ k' q, q ∈ A k' → Member k' q (u.proc q) ∧ (u.proc q).state = .RUNNABLE := by
    intro k' q hq
    have hqp : q ≠ p := by
      intro hqp
      subst hqp
      exact h.notMem k' hq
    rw [← hu, modify_proc_of_ne hqp]
    exact ⟨h.member k' q hq, h.state k' q hq⟩
  have hboth : ∀ k' q, q ∈ join A k p k' → Member k' q (u.proc q) ∧ (u.proc q).state = .RUNNABLE := by
    intro k' q hq
    by_cases hk : k' = k
    · subst hk
      rw [join, update_self, Finset.mem_insert] at hq
      rcases hq with rfl | hq
      · exact hself
      · exact hother k' q hq
    · rw [join, update_of_ne hk] at hq
      exact hother k' q hq
  refine ⟨fun c ↦ ?_, fun k' ↦ ?_, fun k' q hq ↦ ?_, fun k' q hq ↦ ?_⟩
  · rw [Subsingleton.elim c cpu0, yielded, swtchScheduler_cpu, update_self]
  · rw [yielded, hu, entries_swtchScheduler hdisp]
    by_cases hk : k' = k
    · subst hk
      rw [entries_enqueue (by rw [hsched]; exact room h k'), join, update_self,
        Finset.insert_val_of_notMem (h.notMem k'), Multiset.map_cons, ← h.entries k']
      unfold Sched.entries
      rw [hsched]
    · rw [entries_enqueue_of_ne hk, join, update_of_ne hk, ← h.entries k']
      unfold Sched.entries
      rw [hsched]
  · rw [hproc]
    exact (hboth k' q hq).1
  · rw [hproc]
    exact (hboth k' q hq).2

private theorem yielded_rates (k : Class) : ((yielded s cpu0 p).sched k).pass = (s.sched k).pass ∧
    ((yielded s cpu0 p).sched k).stride = (s.sched k).stride := by
  simp [yielded]

/-- The dispatch of a ready process. -/
private theorem Idle.dispatch (h : Idle s A) (hA : (A (chosen s)).Nonempty) : ∃ p t,
    p ∈ A (chosen s) ∧ step round s (.scheduler cpu0) = .ok t ∧
      Busy t (update A (chosen s) ((A (chosen s)).erase p)) (chosen s) p ∧
      ∀ k, (t.sched k).pass = (s.sched k).pass ∧ (t.sched k).stride = (s.sched k).stride := by
  generalize hk : chosen s = k at hA
  have h0 : 0 < (s.sched k).count := by
    have hc := congrArg Multiset.card (h.entries k)
    have hpos : 0 < (A k).card := Finset.card_pos.mpr hA
    simp only [Sched.entries, Lib.Heap.entries, Lib.Heap.card_contents, Multiset.card_map,
      Finset.card_val] at hc
    omega
  have hroot : (s.sched k).heap 1 ∈ (A k).val.map some := by
    rw [← h.entries k, entries_dequeue h0]
    exact Multiset.mem_cons_self _ _
  obtain ⟨p, hp, hroot⟩ := Multiset.mem_map.mp hroot
  have hmem := h.member k p hp
  have hmis : ¬Misplaced k (s.proc p) := by
    cases k with
    | mlfq => exact fun hpos ↦ absurd (hmem.mlfq rfl) (ne_of_gt hpos)
    | stride => exact ne_of_gt (hmem.stride rfl).1
  subst hk
  refine ⟨p, _, hp, step_scheduler (h.cpu cpu0) h0 hroot.symm hmis (h.state _ p hp), ?_, fun k' ↦ ?_⟩
  swap
  · simp
  generalize chosen s = k at *
  have hproc : ∀ q, q ≠ p → (Sched.dispatch (dequeue s k).1 cpu0 k p).proc q = s.proc q := by
    intro q hq
    rw [dispatch_proc, modify_proc_of_ne hq, dequeue_proc]
  have hself : (Sched.dispatch (dequeue s k).1 cpu0 k p).proc p =
      { s.proc p with state := .RUNNING } := by
    rw [dispatch_proc, modify_proc_self, dequeue_proc]
  have hnot : ∀ k', p ∉ update A k ((A k).erase p) k' := by
    intro k'
    by_cases hk : k' = k
    · subst hk
      rw [update_self]
      exact Finset.notMem_erase p _
    · rw [update_of_ne hk]
      intro hp'
      have hmem' := h.member k' p hp'
      cases k with
      | mlfq =>
        cases k' with
        | mlfq => exact hk rfl
        | stride => exact absurd (hmem.mlfq rfl) (ne_of_gt (hmem'.stride rfl).1)
      | stride =>
        cases k' with
        | mlfq => exact absurd (hmem'.mlfq rfl) (ne_of_gt (hmem.stride rfl).1)
        | stride => exact hk rfl
  have hsub : ∀ k' q, q ∈ update A k ((A k).erase p) k' → q ∈ A k' ∧ q ≠ p := by
    intro k' q hq
    have hqp : q ≠ p := by
      intro hqp
      subst hqp
      exact hnot k' hq
    refine ⟨?_, hqp⟩
    by_cases hk : k' = k
    · subst hk
      rw [update_self] at hq
      exact Finset.mem_of_mem_erase hq
    · rwa [update_of_ne hk] at hq
  refine ⟨fun c ↦ ⟨?_, ?_, ?_, ?_⟩, ?_, hnot, fun k' ↦ ?_, fun k' q hq ↦ ?_, fun k' q hq ↦ ?_⟩
  · rw [Subsingleton.elim c cpu0, dispatch_cpu, update_self]
  · rw [hself]
  · rw [hself]
    exact hmem.isthread
  · rw [hself]
    exact hmem.master
  · rw [hself]
    exact ⟨hmem.isthread, hmem.master, hmem.np, hmem.mlfq, hmem.stride⟩
  · by_cases hk : k' = k
    · subst hk
      have hcons : some p ::ₘ Sched.entries (dequeue s k').1 k' = (A k').val.map some := by
        rw [← h.entries k', entries_dequeue h0, hroot]
      have herase : (A k').val = p ::ₘ ((A k').erase p).val := by
        rw [Finset.erase_val, Multiset.cons_erase hp]
      rw [herase, Multiset.map_cons] at hcons
      rw [update_self, ← (Multiset.cons_inj_right (some p)).mp hcons]
      rfl
    · rw [update_of_ne hk, ← h.entries k']
      exact entries_dequeue_of_ne hk
  · obtain ⟨hq, hqp⟩ := hsub k' q hq
    rw [hproc q hqp]
    exact h.member k' q hq
  · obtain ⟨hq, hqp⟩ := hsub k' q hq
    rw [hproc q hqp]
    exact h.state k' q hq

/-! ### Ticks of a turn -/

private theorem boost_others (hq : q ≠ p) :
    ∃ l i, (boost s p).proc q = { s.proc q with qlev := l, qticks := i } := by
  unfold boost
  dsimp only
  split
  · unfold priority_boost
    dsimp only
    split
    · rw [modify_proc_of_ne hq]
      exact ⟨_, _, rfl⟩
    · rw [modify_proc_of_ne hq]
      exact ⟨_, _, rfl⟩
  · rw [modify_proc_of_ne hq]
    exact ⟨_, _, rfl⟩

private theorem boost_self :
    ∃ l i, (boost s p).proc p = { s.proc p with qlev := l, qticks := i, trapped := false } := by
  unfold boost
  dsimp only
  split
  · unfold priority_boost
    dsimp only
    split
    · rw [modify_proc_self]
      exact ⟨_, _, rfl⟩
    · rw [modify_proc_self]
      exact ⟨_, _, rfl⟩
  · rw [modify_proc_self]
    exact ⟨_, _, rfl⟩

/-- A process goes on in `trap`. -/
private theorem Busy.boost (h : Busy s A k p) : Busy (boost s p) A k p := by
  obtain ⟨l, i, hself⟩ := boost_self (s := s) (p := p)
  apply h.congr boost_cpu (fun k ↦ by rw [boost_sched])
  · rw [hself]
    exact ⟨h.self.isthread, h.self.master, h.self.np, h.self.mlfq, fun hk ↦ ⟨(h.self.stride hk).1, rfl⟩⟩
  · rw [hself]
    exact (h.running cpu0).state
  · exact fun q hq ↦ boost_others hq

/-- A tick is charged to a process of MLFQ. -/
private theorem Busy.charged (h : Busy s A .mlfq p) : Busy (charged round s p) A .mlfq p := by
  have hq := @quiet_charged _ round s p
  obtain ⟨l, i, e, hself⟩ := @charged_proc_eq _ round s p
  apply h.congr hq.cpu hq.heap
  · rw [hself]
    refine ⟨h.self.isthread, h.self.master, h.self.np, h.self.mlfq, fun hk ↦ ?_⟩
    cases hk
  · rw [hself]
    exact (h.running cpu0).state
  · intro q hq
    rw [charged_proc_of_ne hq]
    exact ⟨_, _, rfl⟩

/-- A tick is charged to a process of the stride scheduler. -/
private theorem Busy.strode (h : Busy s A .stride p) : Busy (strode round s p) A .stride p := by
  have hq := @quiet_strode _ round s p
  obtain ⟨x, hself⟩ := @strode_proc_self _ round s p
  apply h.congr hq.cpu hq.heap
  · rw [hself]
    exact ⟨h.self.isthread, h.self.master, h.self.np, h.self.mlfq, h.self.stride⟩
  · rw [hself]
    exact (h.running cpu0).state
  · intro q hq
    rw [strode_proc_of_ne hq]
    exact ⟨_, _, rfl⟩

private theorem Busy.trap (h : Busy s A .mlfq p) :
    Busy (s.modify p fun v ↦ { v with trapped := true }) A .mlfq p := by
  apply Busy.congr h (modify_cpu) fun _ ↦ by rw [modify_sched]
  · rw [modify_proc_self]
    refine ⟨h.self.isthread, h.self.master, h.self.np, h.self.mlfq, fun hk ↦ ?_⟩
    cases hk
  · rw [modify_proc_self]
    exact (h.running cpu0).state
  · intro q hq
    rw [modify_proc_of_ne hq]
    exact ⟨_, _, rfl⟩

/-- The heap of scheduler `k` holds a process of its own that is ready. -/
def Waiting (s : State 1) (k : Class) : Prop :=
  ∃ p, some p ∈ entries s k ∧ (s.proc p).state = .RUNNABLE ∧ ¬Misplaced k (s.proc p)

private theorem Member.placed {v : Proc} (h : Member k p v) : ¬Misplaced k v := by
  cases k with
  | mlfq => exact fun hpos ↦ absurd (h.mlfq rfl) (ne_of_gt hpos)
  | stride => exact ne_of_gt (h.stride rfl).1

private theorem waiting_of_mem (hentries : ∀ k, entries s k = (A k).val.map some)
    (hmember : ∀ k, ∀ p ∈ A k, Member k p (s.proc p))
    (hstate : ∀ k, ∀ p ∈ A k, (s.proc p).state = .RUNNABLE) (hA : (A k).Nonempty) : Waiting s k := by
  obtain ⟨p, hp⟩ := hA
  refine ⟨p, ?_, hstate k p hp, (hmember k p hp).placed⟩
  rw [hentries]
  exact Multiset.mem_map_of_mem some hp

/-- The step grants no share, and a tick charged to the stride scheduler is one of a process without
threads that its branch dispatched. -/
def Threadless (s : State 1) (a : Action 1) : Prop :=
  GrantsNone s a ∧ ∀ p, strider s a = some p →
    (s.cpu cpu0).dispatched = some (.stride, p) ∧ (s.proc p).isthread = false

/-- A run `as` from `s` to `t` in which scheduler `k` gets one tick, and in which a heap with
another process always has one waiting. -/
structure Turn (round : Int → Int) (s t : State 1) (A : Class → Finset Slot) (k : Class)
    (as : List (Action 1)) : Prop where
  exec : exec (step round) s as = .ok t
  pass : ∀ k', (t.sched k').pass =
    if k' = k then round ((s.sched k').pass + (s.sched k').stride) else (s.sched k').pass
  stride : ∀ k', (t.sched k').stride = (s.sched k').stride
  ticks : ∀ k', ticks round k' s as = if k' = k then 1 else 0
  waiting : Along (step round) (fun u _ ↦ ∀ k', (A k').Nonempty → Waiting u k') s as
  threadless : Along (step round) Threadless s as

private theorem charges_stride {a : Action 1} (h : strider s a = some q) : Charges s .stride a := by
  change strider s a ≠ none
  rw [h]
  exact Option.some_ne_none q

private theorem threadless_of_not_charges {a : Action 1} (hg : GrantsNone s a)
    (ha : ¬Charges s .stride a) : Threadless s a :=
  ⟨hg, fun _ hp ↦ absurd (charges_stride hp) ha⟩

/-- A step before a turn that is not a tick. -/
private theorem Turn.cons {a : Action 1} {u : State 1} {as : List (Action 1)}
    (h : Turn round u t A k as) (hstep : step round s a = .ok u)
    (hrates : ∀ k, (u.sched k).pass = (s.sched k).pass ∧ (u.sched k).stride = (s.sched k).stride)
    (hg : GrantsNone s a) (ha : ∀ k, ¬Charges s k a) (hw : ∀ k, (A k).Nonempty → Waiting s k) :
    Turn round s t A k (a :: as) := by
  refine ⟨(exec_cons_ok hstep).trans h.exec, fun k' ↦ ?_, fun k' ↦ ?_, fun k' ↦ ?_,
    ⟨hw, fun v hv ↦ ?_⟩, ⟨threadless_of_not_charges hg (ha .stride), fun v hv ↦ ?_⟩⟩
  · rw [h.pass, (hrates k').1, (hrates k').2]
  · rw [h.stride, (hrates k').2]
  · unfold Sched.ticks
    rw [tally_cons_ok hstep, if_neg (ha k'), zero_add]
    exact h.ticks k'
  · rw [hstep] at hv
    cases hv
    exact h.waiting
  · rw [hstep] at hv
    cases hv
    exact h.threadless

private theorem Busy.waiting (h : Busy s A k p) (k : Class) (hA : (A k).Nonempty) : Waiting s k :=
  waiting_of_mem h.entries h.member h.state hA

private theorem Idle.waiting (h : Idle s A) (k : Class) (hA : (A k).Nonempty) : Waiting s k :=
  waiting_of_mem h.entries h.member h.state hA

/-- The scheduler that a tick is charged to. -/
private theorem Busy.charges (h : Busy s A k p) (ht : (s.proc p).trapped = false) (k' : Class) :
    Charges s k' (.tick cpu0) ↔ k' = k := by
  have hr := h.running cpu0
  have hcur := hr.current ht
  generalize cpu0 = c at *
  cases k with
  | mlfq =>
    have hpay := payer_tick hcur hr.state hr.master (h.self.mlfq rfl)
    have hstr := strider_of_mlfq hcur hr.master (h.self.mlfq rfl)
    cases k' <;> simp [Charges, hpay, hstr]
  | stride =>
    have hne : (s.proc p).tickets ≠ 0 := ne_of_gt (h.self.stride rfl).1
    have hpay := payer_of_stride hcur hr.master hne
    have hstr := strider_tick hcur hr.state hr.master hne
    cases k' <;> simp [Charges, hpay, hstr]

private theorem Busy.threadless (h : Busy s A k p) (ht : (s.proc p).trapped = false) :
    Threadless s (.tick cpu0) := by
  refine ⟨trivial, fun q hq ↦ ?_⟩
  have hk : Class.stride = k := (h.charges ht .stride).mp (charges_stride hq)
  have hr := h.running cpu0
  have hcur := (strider_eq_some hq).1
  rw [hr.current ht] at hcur
  cases hcur
  exact ⟨by rw [hr.cpu, hk], hr.isthread⟩

/-- A turn of one step, the tick. -/
private theorem Busy.turn_tick {u : State 1} (h : Busy s A k p) (ht : (s.proc p).trapped = false)
    (hstep : step round s (.tick cpu0) = .ok u) : Turn round s u A k [.tick cpu0] := by
  have hcharge := h.charges ht
  refine ⟨by rw [exec_cons_ok hstep, exec_nil], fun k' ↦ ?_, fun k' ↦ (step_rates hstep trivial k').2,
    fun k' ↦ ?_, ⟨h.waiting, fun _ _ ↦ trivial⟩, ⟨h.threadless ht, fun _ _ ↦ trivial⟩⟩
  · rw [step_pass hstep trivial]
    unfold passAfter
    simp only [hcharge]
  · unfold Sched.ticks
    rw [tally_cons_ok hstep, tally_nil, add_zero]
    simp only [hcharge]

/-- A step after a turn that is not a tick. -/
private theorem Turn.snoc {a : Action 1} {u : State 1} {as : List (Action 1)}
    (h : Turn round s u A k as) (hstep : step round u a = .ok t)
    (hrates : ∀ k, (t.sched k).pass = (u.sched k).pass ∧ (t.sched k).stride = (u.sched k).stride)
    (hg : GrantsNone u a) (ha : ∀ k, ¬Charges u k a) (hw : ∀ k, (A k).Nonempty → Waiting u k) :
    Turn round s t A k (as ++ [a]) := by
  refine ⟨exec_snoc h.exec hstep, fun k' ↦ ?_, fun k' ↦ ?_, fun k' ↦ ?_,
    h.waiting.append h.exec ⟨hw, fun _ _ ↦ trivial⟩,
    h.threadless.append h.exec ⟨threadless_of_not_charges hg (ha .stride), fun _ _ ↦ trivial⟩⟩
  · rw [(hrates k').1, h.pass]
  · rw [(hrates k').2, h.stride]
  · unfold Sched.ticks
    rw [tally_append h.exec, tally_cons_ok hstep, if_neg (ha k'), tally_nil, add_zero, add_zero]
    exact h.ticks k'

private theorem not_charges {a : Action 1} (hp : payer s a = none) (hq : strider s a = none)
    (k : Class) : ¬Charges s k a := by
  cases k with
  | mlfq => exact not_not.mpr hp
  | stride => exact not_not.mpr hq

/-- A running process gets one tick and is put back. -/
private theorem Busy.turn (h : Busy s A k p) (ht : (s.proc p).trapped = false) :
    ∃ as t, Turn round s t A k as ∧ Idle t (join A k p) := by
  have hr := h.running cpu0
  cases k with
  | stride =>
    have hstep := @step_tick_stride _ round _ _ _ _ hr ht (ne_of_gt (h.self.stride rfl).1)
    exact ⟨_, _, h.turn_tick ht hstep, h.strode.idle⟩
  | mlfq =>
    cases he : ((Sched.charged round s p).proc p).isexhausted with
    | true =>
      have hstep := step_tick_yield hr ht (h.self.mlfq rfl) he
      exact ⟨_, _, h.turn_tick ht hstep, h.charged.trap.idle⟩
    | false =>
      have hstep := step_tick_stay hr ht (h.self.mlfq rfl) he
      have hbusy := (@Busy.charged round _ _ _ h).boost
      have hyield := @step_yield _ round _ _ _ _ (hbusy.running cpu0) boost_trapped hbusy.self.np
      refine ⟨_, _, (h.turn_tick ht hstep).snoc hyield yielded_rates trivial ?_ hbusy.waiting,
        hbusy.idle⟩
      exact not_charges rfl rfl

/-- A turn of the scheduler that `scheduler()` chooses: a process of its heap gets one tick and is
put back. The others wait meanwhile. -/
theorem Idle.turn (h : Idle s A) (hA : (A (chosen s)).Nonempty) : ∃ p as t, p ∈ A (chosen s) ∧
    Turn round s t (update A (chosen s) ((A (chosen s)).erase p)) (chosen s) as ∧ Idle t A := by
  obtain ⟨p, u, hp, hstep, hbusy, hrates⟩ := @Idle.dispatch round _ _ h hA
  generalize chosen s = k at *
  have hjoin : join (update A k ((A k).erase p)) k p = A := by
    simp [join, Finset.insert_erase hp]
  have hidle : ∀ k', (update A k ((A k).erase p) k').Nonempty → Waiting s k' := by
    intro k' hA'
    apply h.waiting
    by_cases hk : k' = k
    · subst hk
      exact hA
    · rwa [update_of_ne hk] at hA'
  cases ht : (u.proc p).trapped with
  | false =>
    obtain ⟨as, t, hturn, ht⟩ := @Busy.turn round _ _ _ _ hbusy ht
    rw [hjoin] at ht
    exact ⟨p, _, t, hp, hturn.cons hstep hrates trivial (not_charges rfl rfl) hidle, ht⟩
  | true =>
    have hboost := @step_boost _ round _ _ _ _ (hbusy.running cpu0) ht
    obtain ⟨as, t, hturn, ht⟩ := @Busy.turn round _ _ _ _ hbusy.boost boost_trapped
    rw [hjoin] at ht
    have hrates' : ∀ k, ((Sched.boost u p).sched k).pass = (u.sched k).pass ∧
        ((Sched.boost u p).sched k).stride = (u.sched k).stride := by simp
    exact ⟨p, _, t, hp, (hturn.cons hboost hrates' trivial (not_charges rfl rfl) hbusy.waiting).cons
      hstep hrates trivial (not_charges rfl rfl) hidle, ht⟩

end

end Xv6.Sched
