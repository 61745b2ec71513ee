import Xv6.Sched.Model

/-!
# Fields of the scheduler's state after an update

What the functions of the model leave alone: one lemma for each field and update, so
that proofs about a step do not unfold the functions the step is made of.
-/

namespace Xv6.Sched

open Function

variable {n : Nat} {s : State n} {p q : Slot} {f : Proc → Proc} {c : Fin n} {k k' : Class}

/-! ### Assignments to one process -/

theorem set_proc (v : Proc) : (s.set p v).proc q = if q = p then v else s.proc q := by
  simp [State.set, update_apply]

theorem modify_proc : (s.modify p f).proc q = if q = p then f (s.proc p) else s.proc q :=
  set_proc _

@[simp] theorem modify_proc_self : (s.modify p f).proc p = f (s.proc p) := by
  simp [modify_proc]

theorem modify_proc_of_ne (h : q ≠ p) : (s.modify p f).proc q = s.proc q := by
  simp [modify_proc, h]

@[simp] theorem modify_sched : (s.modify p f).sched = s.sched := rfl

@[simp] theorem modify_cpu : (s.modify p f).cpu = s.cpu := rfl

@[simp] theorem modify_trace : (s.modify p f).trace = s.trace := rfl

@[simp] theorem modify_initproc : (s.modify p f).initproc = s.initproc := rfl

@[simp] theorem modify_mlfqticks : (s.modify p f).mlfqticks = s.mlfqticks := rfl

@[simp] theorem set_eq_modify (v : Proc) : s.set p v = s.modify p fun _ ↦ v := rfl

theorem modify_eq_self (h : f (s.proc p) = s.proc p) : s.modify p f = s := by
  simp [State.modify, State.set, h]

/-- A field that an assignment does not write. -/
theorem modify_field {β : Type*} (g : Proc → β) (h : g (f (s.proc p)) = g (s.proc p)) :
    g ((s.modify p f).proc q) = g (s.proc q) := by
  rw [modify_proc]
  split
  · next hq => rw [hq, h]
  · rfl

@[simp] theorem modify_state (h : ∀ v, (f v).state = v.state) :
    ((s.modify p f).proc q).state = (s.proc q).state := modify_field (·.state) (h _)

@[simp] theorem modify_tickets (h : ∀ v, (f v).tickets = v.tickets) :
    ((s.modify p f).proc q).tickets = (s.proc q).tickets := modify_field (·.tickets) (h _)

@[simp] theorem modify_master (h : ∀ v, (f v).master = v.master) :
    ((s.modify p f).proc q).master = (s.proc q).master := modify_field (·.master) (h _)

@[simp] theorem modify_isthread (h : ∀ v, (f v).isthread = v.isthread) :
    ((s.modify p f).proc q).isthread = (s.proc q).isthread := modify_field (·.isthread) (h _)

@[simp] theorem modify_np (h : ∀ v, (f v).np = v.np) :
    ((s.modify p f).proc q).np = (s.proc q).np := modify_field (·.np) (h _)

@[simp] theorem modify_trapped (h : ∀ v, (f v).trapped = v.trapped) :
    ((s.modify p f).proc q).trapped = (s.proc q).trapped := modify_field (·.trapped) (h _)

@[simp] theorem modify_qlev (h : ∀ v, (f v).qlev = v.qlev) :
    ((s.modify p f).proc q).qlev = (s.proc q).qlev := modify_field (·.qlev) (h _)

@[simp] theorem modify_qticks (h : ∀ v, (f v).qticks = v.qticks) :
    ((s.modify p f).proc q).qticks = (s.proc q).qticks := modify_field (·.qticks) (h _)

@[simp] theorem modify_pass (h : ∀ v, (f v).pass = v.pass) :
    ((s.modify p f).proc q).pass = (s.proc q).pass := modify_field (·.pass) (h _)

@[simp] theorem modify_stride (h : ∀ v, (f v).stride = v.stride) :
    ((s.modify p f).proc q).stride = (s.proc q).stride := modify_field (·.stride) (h _)

@[simp] theorem modify_threads (h : ∀ v, (f v).threads = v.threads) :
    ((s.modify p f).proc q).threads = (s.proc q).threads := modify_field (·.threads) (h _)

@[simp] theorem modify_t_cnt (h : ∀ v, (f v).t_cnt = v.t_cnt) :
    ((s.modify p f).proc q).t_cnt = (s.proc q).t_cnt := modify_field (·.t_cnt) (h _)

@[simp] theorem modify_parent (h : ∀ v, (f v).parent = v.parent) :
    ((s.modify p f).proc q).parent = (s.proc q).parent := modify_field (·.parent) (h _)

@[simp] theorem modify_isexhausted (h : ∀ v, (f v).isexhausted = v.isexhausted) :
    ((s.modify p f).proc q).isexhausted = (s.proc q).isexhausted := modify_field (·.isexhausted) (h _)

/-! ### The heaps -/

@[simp] theorem enqueue_proc : (enqueue s k p).1.proc = s.proc := by
  unfold enqueue
  split <;> rfl

@[simp] theorem enqueue_cpu : (enqueue s k p).1.cpu = s.cpu := by
  unfold enqueue
  split <;> rfl

@[simp] theorem enqueue_trace : (enqueue s k p).1.trace = s.trace := by
  unfold enqueue
  split <;> rfl

@[simp] theorem enqueue_initproc : (enqueue s k p).1.initproc = s.initproc := by
  unfold enqueue
  split <;> rfl

@[simp] theorem enqueue_mlfqticks : (enqueue s k p).1.mlfqticks = s.mlfqticks := by
  unfold enqueue
  split <;> rfl

@[simp] theorem enqueue_pass : ((enqueue s k p).1.sched k').pass = (s.sched k').pass := by
  unfold enqueue
  split
  · rfl
  · by_cases h : k' = k
    · subst h
      simp
    · simp [h]

@[simp] theorem enqueue_stride : ((enqueue s k p).1.sched k').stride = (s.sched k').stride := by
  unfold enqueue
  split
  · rfl
  · by_cases h : k' = k
    · subst h
      simp
    · simp [h]

@[simp] theorem enqueue_tickets : ((enqueue s k p).1.sched k').tickets = (s.sched k').tickets := by
  unfold enqueue
  split
  · rfl
  · by_cases h : k' = k
    · subst h
      simp
    · simp [h]

theorem enqueue_sched_of_ne (h : k' ≠ k) : (enqueue s k p).1.sched k' = s.sched k' := by
  unfold enqueue
  split
  · rfl
  · simp [h]

/-- The heap that an entry is put into, when there is room. -/
theorem enqueue_toHeap (h : (s.sched k).count < NPROC) :
    ((enqueue s k p).1.sched k).toHeap = (s.sched k).toHeap.enqueue (key s k) (some p) := by
  simp [enqueue, Nat.not_le.mpr h]

theorem enqueue_of_full (h : NPROC ≤ (s.sched k).count) : (enqueue s k p).1 = s := by
  simp [enqueue, h]

@[simp] theorem dequeue_proc : (dequeue s k).1.proc = s.proc := by
  unfold dequeue
  split <;> rfl

@[simp] theorem dequeue_cpu : (dequeue s k).1.cpu = s.cpu := by
  unfold dequeue
  split <;> rfl

@[simp] theorem dequeue_trace : (dequeue s k).1.trace = s.trace := by
  unfold dequeue
  split <;> rfl

@[simp] theorem dequeue_initproc : (dequeue s k).1.initproc = s.initproc := by
  unfold dequeue
  split <;> rfl

@[simp] theorem dequeue_mlfqticks : (dequeue s k).1.mlfqticks = s.mlfqticks := by
  unfold dequeue
  split <;> rfl

@[simp] theorem dequeue_pass : ((dequeue s k).1.sched k').pass = (s.sched k').pass := by
  unfold dequeue
  split
  · rfl
  · by_cases h : k' = k
    · subst h
      simp
    · simp [h]

@[simp] theorem dequeue_stride : ((dequeue s k).1.sched k').stride = (s.sched k').stride := by
  unfold dequeue
  split
  · rfl
  · by_cases h : k' = k
    · subst h
      simp
    · simp [h]

@[simp] theorem dequeue_tickets : ((dequeue s k).1.sched k').tickets = (s.sched k').tickets := by
  unfold dequeue
  split
  · rfl
  · by_cases h : k' = k
    · subst h
      simp
    · simp [h]

theorem dequeue_sched_of_ne (h : k' ≠ k) : (dequeue s k).1.sched k' = s.sched k' := by
  unfold dequeue
  split
  · rfl
  · simp [h]

/-- The heap that an entry is taken from, when there is one. -/
theorem dequeue_toHeap (h : 0 < (s.sched k).count) :
    ((dequeue s k).1.sched k).toHeap = (s.sched k).toHeap.dequeue (key s k) := by
  simp [dequeue, Nat.pos_iff_ne_zero.mp h]

theorem dequeue_snd (h : 0 < (s.sched k).count) : (dequeue s k).2 = (s.sched k).heap 1 := by
  simp [dequeue, Nat.pos_iff_ne_zero.mp h]

theorem dequeue_of_empty (h : (s.sched k).count = 0) : dequeue s k = (s, none) := by
  simp [dequeue, h]

/-! ### Switches -/

@[simp] theorem switchTo_proc :
    (switchTo s c p).proc = (s.modify p fun v ↦ { v with state := .RUNNING }).proc := rfl

@[simp] theorem switchTo_sched : (switchTo s c p).sched = s.sched := rfl

@[simp] theorem switchTo_initproc : (switchTo s c p).initproc = s.initproc := rfl

@[simp] theorem switchTo_mlfqticks : (switchTo s c p).mlfqticks = s.mlfqticks := rfl

@[simp] theorem dispatch_proc :
    (dispatch s c k p).proc = (s.modify p fun v ↦ { v with state := .RUNNING }).proc := rfl

@[simp] theorem dispatch_sched : (dispatch s c k p).sched = s.sched := rfl

@[simp] theorem dispatch_initproc : (dispatch s c k p).initproc = s.initproc := rfl

@[simp] theorem dispatch_mlfqticks : (dispatch s c k p).mlfqticks = s.mlfqticks := rfl

@[simp] theorem swtchScheduler_proc : (swtchScheduler s c).proc = s.proc := by
  unfold swtchScheduler
  split <;> simp

@[simp] theorem swtchScheduler_trace : (swtchScheduler s c).trace = s.trace := by
  unfold swtchScheduler
  split <;> simp

@[simp] theorem swtchScheduler_initproc : (swtchScheduler s c).initproc = s.initproc := by
  unfold swtchScheduler
  split <;> simp

@[simp] theorem swtchScheduler_mlfqticks : (swtchScheduler s c).mlfqticks = s.mlfqticks := by
  unfold swtchScheduler
  split <;> simp

@[simp] theorem swtchScheduler_pass : ((swtchScheduler s c).sched k).pass = (s.sched k).pass := by
  unfold swtchScheduler
  split <;> simp

@[simp] theorem swtchScheduler_stride :
    ((swtchScheduler s c).sched k).stride = (s.sched k).stride := by
  unfold swtchScheduler
  split <;> simp

@[simp] theorem swtchScheduler_tickets :
    ((swtchScheduler s c).sched k).tickets = (s.sched k).tickets := by
  unfold swtchScheduler
  split <;> simp

theorem swtchScheduler_cpu :
    (swtchScheduler s c).cpu = update s.cpu c ⟨none, none⟩ := by
  unfold swtchScheduler
  split <;> simp

/-! ### LWP groups -/

/-- `get_next_thread` writes nothing but `t_lastsched`. -/
theorem get_next_thread_fst (m : Slot) :
    ∃ i, (get_next_thread s m).1 = s.modify m fun v ↦ { v with t_lastsched := i } := by
  have hs : s = s.modify m fun v ↦ { v with t_lastsched := (s.proc m).t_lastsched } := by
    simp [State.modify, State.set]
  unfold get_next_thread
  dsimp only
  split
  · exact ⟨_, hs⟩
  · split
    · exact ⟨_, rfl⟩
    · exact ⟨_, hs⟩

/-- What `get_next_thread` returns: a thread of the group that is `RUNNABLE`, or the master when
no thread is counted. -/
theorem get_next_thread_snd {m : Slot} (h : (get_next_thread s m).2 = some q) :
    (s.proc m).t_cnt = 0 ∧ q = m ∨
      (s.proc m).t_cnt ≠ 0 ∧ (s.proc q).state = .RUNNABLE ∧ ∃ i, (s.proc m).threads i = some q := by
  unfold get_next_thread at h
  dsimp only at h
  split at h
  · next h0 =>
    left
    exact ⟨h0, (Option.some.inj h).symm⟩
  · next h0 =>
    right
    split at h
    · next i hi =>
      have hr := List.find?_some hi
      have hq : (s.proc m).threads i = some q := h
      rw [hq] at hr
      exact ⟨h0, of_decide_eq_true hr, i, hq⟩
    · next hi =>
      dsimp only at h
      split at h
      · next hr =>
        rw [h] at hr
        exact ⟨h0, of_decide_eq_true hr, _, h⟩
      · cases h

section

variable {m : Slot}

@[simp] theorem get_next_thread_sched : (get_next_thread s m).1.sched = s.sched := by
  obtain ⟨i, hi⟩ := get_next_thread_fst (s := s) m
  rw [hi, modify_sched]

@[simp] theorem get_next_thread_cpu : (get_next_thread s m).1.cpu = s.cpu := by
  obtain ⟨i, hi⟩ := get_next_thread_fst (s := s) m
  rw [hi, modify_cpu]

@[simp] theorem get_next_thread_trace : (get_next_thread s m).1.trace = s.trace := by
  obtain ⟨i, hi⟩ := get_next_thread_fst (s := s) m
  rw [hi, modify_trace]

@[simp] theorem get_next_thread_initproc : (get_next_thread s m).1.initproc = s.initproc := by
  obtain ⟨i, hi⟩ := get_next_thread_fst (s := s) m
  rw [hi, modify_initproc]

@[simp] theorem get_next_thread_mlfqticks : (get_next_thread s m).1.mlfqticks = s.mlfqticks := by
  obtain ⟨i, hi⟩ := get_next_thread_fst (s := s) m
  rw [hi, modify_mlfqticks]

/-- A field other than `t_lastsched`. -/
theorem get_next_thread_field {β : Type*} (g : Proc → β)
    (h : ∀ v i, g { v with t_lastsched := i } = g v) :
    g ((get_next_thread s m).1.proc q) = g (s.proc q) := by
  obtain ⟨i, hi⟩ := get_next_thread_fst (s := s) m
  rw [hi]
  exact modify_field g (h _ i)

@[simp] theorem get_next_thread_state :
    ((get_next_thread s m).1.proc q).state = (s.proc q).state :=
  get_next_thread_field (·.state) fun _ _ ↦ rfl

@[simp] theorem get_next_thread_tickets :
    ((get_next_thread s m).1.proc q).tickets = (s.proc q).tickets :=
  get_next_thread_field (·.tickets) fun _ _ ↦ rfl

@[simp] theorem get_next_thread_master :
    ((get_next_thread s m).1.proc q).master = (s.proc q).master :=
  get_next_thread_field (·.master) fun _ _ ↦ rfl

@[simp] theorem get_next_thread_isthread :
    ((get_next_thread s m).1.proc q).isthread = (s.proc q).isthread :=
  get_next_thread_field (·.isthread) fun _ _ ↦ rfl

@[simp] theorem get_next_thread_np :
    ((get_next_thread s m).1.proc q).np = (s.proc q).np :=
  get_next_thread_field (·.np) fun _ _ ↦ rfl

@[simp] theorem get_next_thread_trapped :
    ((get_next_thread s m).1.proc q).trapped = (s.proc q).trapped :=
  get_next_thread_field (·.trapped) fun _ _ ↦ rfl

@[simp] theorem get_next_thread_qlev :
    ((get_next_thread s m).1.proc q).qlev = (s.proc q).qlev :=
  get_next_thread_field (·.qlev) fun _ _ ↦ rfl

@[simp] theorem get_next_thread_qticks :
    ((get_next_thread s m).1.proc q).qticks = (s.proc q).qticks :=
  get_next_thread_field (·.qticks) fun _ _ ↦ rfl

@[simp] theorem get_next_thread_pass :
    ((get_next_thread s m).1.proc q).pass = (s.proc q).pass :=
  get_next_thread_field (·.pass) fun _ _ ↦ rfl

@[simp] theorem get_next_thread_stride :
    ((get_next_thread s m).1.proc q).stride = (s.proc q).stride :=
  get_next_thread_field (·.stride) fun _ _ ↦ rfl

@[simp] theorem get_next_thread_threads :
    ((get_next_thread s m).1.proc q).threads = (s.proc q).threads :=
  get_next_thread_field (·.threads) fun _ _ ↦ rfl

@[simp] theorem get_next_thread_t_cnt :
    ((get_next_thread s m).1.proc q).t_cnt = (s.proc q).t_cnt :=
  get_next_thread_field (·.t_cnt) fun _ _ ↦ rfl

@[simp] theorem get_next_thread_parent :
    ((get_next_thread s m).1.proc q).parent = (s.proc q).parent :=
  get_next_thread_field (·.parent) fun _ _ ↦ rfl

@[simp] theorem get_next_thread_isexhausted :
    ((get_next_thread s m).1.proc q).isexhausted = (s.proc q).isexhausted :=
  get_next_thread_field (·.isexhausted) fun _ _ ↦ rfl

end

/-! ### Writes to many processes -/

/-- The time allotment of a level of MLFQ. -/
def allotment (v : Proc) : Nat := if v.qlev = 1 then TAMIDDLE else TAHIGH

/-- The time quantum of a level of MLFQ. -/
def quantum (v : Proc) : Nat :=
  if v.qlev = 1 then TQMIDDLE else if v.qlev = 2 then TQLOW else TQHIGH

/-- What `check_on_timer` does to its process. -/
def Proc.onTimer (v : Proc) : Proc :=
  if v.tickets = 0 then
    if v.qlev < 2 ∧ v.qticks % allotment v = 0 then
      { v with qlev := v.qlev + 1, qticks := 0, isexhausted := true }
    else if 0 < v.qticks ∧ v.qticks % quantum v = 0 then { v with isexhausted := true }
    else { v with isexhausted := false }
  else if 0 < v.qticks ∧ v.qticks % TQSTRIDE = 0 then { v with isexhausted := true }
  else { v with isexhausted := false }

theorem check_on_timer_modify : check_on_timer s p = s.modify p Proc.onTimer := by
  unfold check_on_timer State.modify Proc.onTimer allotment quantum
  simp only [apply_ite (s.set p)]

theorem switchTo_cpu : (switchTo s c p).cpu = update s.cpu c { s.cpu c with proc := some p } := rfl

theorem switchTo_trace : (switchTo s c p).trace = ⟨c, p, (s.proc p).state⟩ :: s.trace := rfl

theorem dispatch_cpu : (dispatch s c k p).cpu = update s.cpu c ⟨some p, some (k, p)⟩ := by
  simp [dispatch, switchTo]

theorem dispatch_trace : (dispatch s c k p).trace = ⟨c, p, (s.proc p).state⟩ :: s.trace := rfl

section

variable {β : Type*} {m : Slot} {chan : Option Chan}

/-- `wakeup1` writes `state` and `qlev`. -/
theorem wakeup1_field (g : Proc → β) (h : ∀ v x l, g { v with state := x, qlev := l } = g v) :
    g ((wakeup1 s chan).proc q) = g (s.proc q) := by
  unfold wakeup1
  dsimp only
  split
  · exact h _ _ _
  · rfl

/-- `freeThreads` writes `state` and `killed` of the workers, `threads` and `t_cnt` of the master. -/
theorem freeThreads_field (g : Proc → β) (h : ∀ v x b, g { v with state := x, killed := b } = g v)
    (h' : ∀ v x i, g { v with threads := x, t_cnt := i } = g v) :
    g ((freeThreads s m).proc q) = g (s.proc q) := by
  unfold freeThreads
  dsimp only
  rw [modify_field g (h' _ _ _)]
  dsimp only
  split
  · exact h _ _ _
  · rfl

/-- `abandonChildren` writes `parent`, and what `wakeup1` writes. -/
theorem abandonChildren_field (g : Proc → β)
    (h : ∀ v x l, g { v with state := x, qlev := l } = g v)
    (h' : ∀ v x, g { v with parent := x } = g v) :
    g ((abandonChildren s p).proc q) = g (s.proc q) := by
  have hp : g (if (s.proc q).parent = some p then { s.proc q with parent := s.initproc }
      else s.proc q) = g (s.proc q) := by
    split
    · exact h' _ _
    · rfl
  unfold abandonChildren
  dsimp only
  split
  · rw [wakeup1_field g h]
    exact hp
  · exact hp

/-- `priority_boost` writes `qlev` and `qticks`. -/
theorem priority_boost_field (g : Proc → β)
    (h : ∀ v l t, g { v with qlev := l, qticks := t } = g v) :
    g ((priority_boost s).proc q) = g (s.proc q) := by
  unfold priority_boost
  dsimp only
  split
  · exact h _ _ _
  · rfl

/-- `check_on_timer` writes `qlev`, `qticks` and `isexhausted` of the master. -/
theorem check_on_timer_eq : ∃ l t e, check_on_timer s m =
    s.modify m fun v ↦ { v with qlev := l, qticks := t, isexhausted := e } := by
  rw [check_on_timer_modify]
  unfold State.modify Proc.onTimer
  split
  · split
    · exact ⟨_, _, _, rfl⟩
    · split <;> exact ⟨_, _, _, rfl⟩
  · split <;> exact ⟨_, _, _, rfl⟩

theorem check_on_timer_field (g : Proc → β)
    (h : ∀ v l t e, g { v with qlev := l, qticks := t, isexhausted := e } = g v) :
    g ((check_on_timer s m).proc q) = g (s.proc q) := by
  obtain ⟨l, t, e, heq⟩ := check_on_timer_eq (s := s) (m := m)
  rw [heq]
  exact modify_field g (h _ l t e)

@[simp] theorem check_on_timer_sched : (check_on_timer s m).sched = s.sched := by
  obtain ⟨l, t, e, heq⟩ := check_on_timer_eq (s := s) (m := m)
  rw [heq, modify_sched]

@[simp] theorem check_on_timer_cpu : (check_on_timer s m).cpu = s.cpu := by
  obtain ⟨l, t, e, heq⟩ := check_on_timer_eq (s := s) (m := m)
  rw [heq, modify_cpu]

@[simp] theorem check_on_timer_trace : (check_on_timer s m).trace = s.trace := by
  obtain ⟨l, t, e, heq⟩ := check_on_timer_eq (s := s) (m := m)
  rw [heq, modify_trace]

@[simp] theorem check_on_timer_mlfqticks : (check_on_timer s m).mlfqticks = s.mlfqticks := by
  obtain ⟨l, t, e, heq⟩ := check_on_timer_eq (s := s) (m := m)
  rw [heq, modify_mlfqticks]

@[simp] theorem check_on_timer_initproc : (check_on_timer s m).initproc = s.initproc := by
  obtain ⟨l, t, e, heq⟩ := check_on_timer_eq (s := s) (m := m)
  rw [heq, modify_initproc]

/-- `boost` writes `trapped`, and what `priority_boost` writes. -/
theorem boost_field (g : Proc → β) (h : ∀ v l t, g { v with qlev := l, qticks := t } = g v)
    (h' : ∀ v b, g { v with trapped := b } = g v) :
    g ((boost s p).proc q) = g (s.proc q) := by
  unfold boost
  dsimp only
  split
  · rw [priority_boost_field g h]
    exact modify_field g (h' _ _)
  · exact modify_field g (h' _ _)

@[simp] theorem boost_sched : (boost s p).sched = s.sched := by
  unfold boost
  dsimp only
  split <;> rfl

@[simp] theorem boost_cpu : (boost s p).cpu = s.cpu := by
  unfold boost
  dsimp only
  split <;> rfl

@[simp] theorem boost_trace : (boost s p).trace = s.trace := by
  unfold boost
  dsimp only
  split <;> rfl

@[simp] theorem boost_mlfqticks : (boost s p).mlfqticks = s.mlfqticks := by
  unfold boost
  dsimp only
  split <;> rfl

@[simp] theorem boost_initproc : (boost s p).initproc = s.initproc := by
  unfold boost
  dsimp only
  split <;> rfl

@[simp] theorem wakeup1_sched : (wakeup1 s chan).sched = s.sched := rfl

@[simp] theorem wakeup1_cpu : (wakeup1 s chan).cpu = s.cpu := rfl

@[simp] theorem wakeup1_trace : (wakeup1 s chan).trace = s.trace := rfl

@[simp] theorem wakeup1_initproc : (wakeup1 s chan).initproc = s.initproc := rfl

@[simp] theorem freeThreads_sched : (freeThreads s m).sched = s.sched := rfl

@[simp] theorem freeThreads_cpu : (freeThreads s m).cpu = s.cpu := rfl

@[simp] theorem freeThreads_trace : (freeThreads s m).trace = s.trace := rfl

@[simp] theorem freeThreads_initproc : (freeThreads s m).initproc = s.initproc := rfl

@[simp] theorem abandonChildren_sched : (abandonChildren s p).sched = s.sched := by
  unfold abandonChildren
  dsimp only
  split <;> rfl

@[simp] theorem abandonChildren_cpu : (abandonChildren s p).cpu = s.cpu := by
  unfold abandonChildren
  dsimp only
  split <;> rfl

@[simp] theorem abandonChildren_trace : (abandonChildren s p).trace = s.trace := by
  unfold abandonChildren
  dsimp only
  split <;> rfl

@[simp] theorem abandonChildren_initproc : (abandonChildren s p).initproc = s.initproc := by
  unfold abandonChildren
  dsimp only
  split <;> rfl

end

end Xv6.Sched
