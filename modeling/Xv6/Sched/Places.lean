import Xv6.Lib.Update
import Xv6.Sched.Fields

/-!
# Places in the heaps

A process that is dispatched is out of its heap and is put back when the CPU returns to
`scheduler()`. `held` counts both places. Nothing takes an entry out of a heap when a slot is
given to another process or when a process changes its class, so an entry can be stale when the
slot is enqueued again.
-/

namespace Xv6.Sched

open Function Lib

section

variable {n : Nat} (s : State n) (k : Class) (p : Slot)

/-- The entries `heap[1..count]` of a heap. -/
def entries : Multiset Ptr := (s.sched k).entries

/-- The CPUs on which `p` is dispatched from heap `k`. -/
def windows : Nat := ∑ c, if (s.cpu c).dispatched = some (k, p) then 1 else 0

/-- The places of `p` in heap `k` and out of it. -/
def held : Nat := (entries s k).count (some p) + windows s k p

end

section

variable {n : Nat} {s t : State n} {c : Fin n} {k k' : Class} {p q : Slot}

theorem entries_enqueue (h : (s.sched k).count < NPROC) :
    entries (enqueue s k p).1 k = some p ::ₘ entries s k := by
  unfold entries
  rw [enqueue_toHeap h, Heap.entries_enqueue]

theorem entries_enqueue_of_ne (h : k' ≠ k) : entries (enqueue s k p).1 k' = entries s k' := by
  unfold entries
  rw [enqueue_sched_of_ne h]

theorem entries_dequeue (h : 0 < (s.sched k).count) :
    entries s k = (s.sched k).heap 1 ::ₘ entries (dequeue s k).1 k := by
  unfold entries
  rw [dequeue_toHeap h]
  exact Heap.entries_dequeue _ _ h

theorem entries_dequeue_of_ne (h : k' ≠ k) : entries (dequeue s k).1 k' = entries s k' := by
  unfold entries
  rw [dequeue_sched_of_ne h]

theorem windows_congr (h : t.cpu = s.cpu) : windows t k p = windows s k p := by
  unfold windows
  rw [h]

/-- A CPU exchanges what it has dispatched. -/
theorem windows_update {v : Cpu} (h : t.cpu = update s.cpu c v) :
    windows t k p + (if (s.cpu c).dispatched = some (k, p) then 1 else 0) =
      windows s k p + if v.dispatched = some (k, p) then 1 else 0 := by
  unfold windows
  rw [h]
  exact sum_update_add (fun v : Cpu ↦ if v.dispatched = some (k, p) then 1 else 0) s.cpu c v

theorem Quiet.held (h : Quiet s t) : held t k p = held s k p := by
  unfold Sched.held entries
  rw [h.heap, windows_congr h.cpu]

/-- An entry that is put into a heap has one place more there, and no other has. -/
theorem held_enqueue_le (s : State n) (k : Class) (p : Slot) (k' : Class) (q : Slot) :
    held (enqueue s k p).1 k' q ≤ held s k' q + if k' = k ∧ q = p then 1 else 0 := by
  have hw : windows (enqueue s k p).1 k' q = windows s k' q := windows_congr enqueue_cpu
  unfold held
  rw [hw]
  by_cases hk : k' = k
  · subst hk
    by_cases hroom : (s.sched k').count < NPROC
    · rw [entries_enqueue hroom, Multiset.count_cons]
      by_cases hq : q = p
      · simp [hq]
        omega
      · simp [hq]
    · rw [enqueue_of_full (not_lt.mp hroom)]
      omega
  · rw [entries_enqueue_of_ne hk]
    omega

/-- An entry that is taken out of a heap has one place less there. -/
theorem held_dequeue (h : 0 < (s.sched k).count) (hp : (s.sched k).heap 1 = some p) :
    held s k' q = held (dequeue s k).1 k' q + if k' = k ∧ q = p then 1 else 0 := by
  have hw : windows (dequeue s k).1 k' q = windows s k' q := windows_congr dequeue_cpu
  unfold held
  rw [hw]
  by_cases hk : k' = k
  · subst hk
    rw [entries_dequeue h, hp, Multiset.count_cons]
    by_cases hq : q = p
    · simp [hq]
      omega
    · simp [hq]
  · rw [entries_dequeue_of_ne hk]
    simp [hk]

theorem held_dequeue_le : held (dequeue s k).1 k' q ≤ held s k' q := by
  have hw : windows (dequeue s k).1 k' q = windows s k' q := windows_congr dequeue_cpu
  unfold held
  rw [hw]
  by_cases hk : k' = k
  · subst hk
    rcases Nat.eq_zero_or_pos (s.sched k').count with h0 | h0
    · rw [dequeue_of_empty h0]
    · rw [entries_dequeue h0]
      exact Nat.add_le_add_right (Multiset.count_le_count_cons _ _ _) _
  · rw [entries_dequeue_of_ne hk]

/-- A CPU without a process takes a place when it dispatches one. -/
theorem held_dispatch (h : (s.cpu c).dispatched = none) :
    held (dispatch s c k p) k' q = held s k' q + if k' = k ∧ q = p then 1 else 0 := by
  have hw := windows_update (k := k') (p := q) (dispatch_cpu (s := s) (c := c) (k := k) (p := p))
  rw [h] at hw
  simp only [reduceCtorEq, if_false, Option.some.injEq, Prod.mk.injEq] at hw
  have he : entries (dispatch s c k p) k' = entries s k' := rfl
  unfold held
  rw [he]
  by_cases hkp : k' = k ∧ q = p
  · obtain ⟨rfl, rfl⟩ := hkp
    simp at hw ⊢
    omega
  · have hkp' : ¬ (k = k' ∧ p = q) := fun h ↦ hkp ⟨h.1.symm, h.2.symm⟩
    rw [if_neg hkp'] at hw
    rw [if_neg hkp]
    omega

theorem held_switchTo : held (switchTo s c p) k q = held s k q := by
  have hw := windows_update (k := k) (p := q) (switchTo_cpu (s := s) (c := c) (p := p))
  have he : entries (switchTo s c p) k = entries s k := rfl
  unfold held
  rw [he]
  dsimp only at hw
  omega

theorem entries_swtchScheduler_of_none (h : (s.cpu c).dispatched = none) :
    entries (swtchScheduler s c) k = entries s k := by
  unfold swtchScheduler
  rw [h]
  rfl

theorem entries_swtchScheduler (h : (s.cpu c).dispatched = some (k', p)) :
    entries (swtchScheduler s c) k = entries (enqueue s k' p).1 k := by
  unfold swtchScheduler
  rw [h]
  rfl

/-- The return to `scheduler()` moves a process from its window to the heap. -/
theorem held_swtchScheduler_le : held (swtchScheduler s c) k q ≤ held s k q := by
  have hw := windows_update (k := k) (p := q) (swtchScheduler_cpu (s := s) (c := c))
  simp only [reduceCtorEq, if_false] at hw
  unfold held
  cases hd : (s.cpu c).dispatched with
  | none =>
    rw [entries_swtchScheduler_of_none hd]
    omega
  | some d =>
    obtain ⟨kd, p⟩ := d
    have hq := held_enqueue_le s kd p k q
    have hwin : windows (enqueue s kd p).1 k q = windows s k q := windows_congr enqueue_cpu
    unfold held at hq
    rw [hd] at hw
    rw [entries_swtchScheduler hd]
    by_cases hkp : k = kd ∧ q = p
    · obtain ⟨rfl, rfl⟩ := hkp
      simp only [if_true, and_self] at hw hq
      omega
    · rw [if_neg hkp] at hq
      omega

theorem mem_entries_enqueue {x : Ptr} (h : x ∈ entries (enqueue s k p).1 k') :
    x = some p ∨ x ∈ entries s k' := by
  by_cases hk : k' = k
  · subst hk
    by_cases hroom : (s.sched k').count < NPROC
    · rw [entries_enqueue hroom] at h
      exact Multiset.mem_cons.mp h
    · rw [enqueue_of_full (not_lt.mp hroom)] at h
      exact .inr h
  · rw [entries_enqueue_of_ne hk] at h
    exact .inr h

theorem mem_entries_dequeue {x : Ptr} (h : x ∈ entries (dequeue s k).1 k') : x ∈ entries s k' := by
  by_cases hk : k' = k
  · subst hk
    rcases Nat.eq_zero_or_pos (s.sched k').count with h0 | h0
    · rwa [dequeue_of_empty h0] at h
    · rw [entries_dequeue h0]
      exact Multiset.mem_cons_of_mem h
  · rwa [entries_dequeue_of_ne hk] at h

/-- All entries are processes. -/
def Full (s : State n) : Prop := ∀ k, none ∉ entries s k

theorem Full.enqueue (h : Full s) : Full (enqueue s k p).1 := by
  intro k' hk
  rcases mem_entries_enqueue hk with hx | hx
  · cases hx
  · exact h k' hx

theorem Full.dequeue (h : Full s) : Full (dequeue s k).1 := fun k' hk ↦
  h k' (mem_entries_dequeue hk)

theorem Full.congr (h : Full s) (hheap : ∀ k, (t.sched k).toHeap = (s.sched k).toHeap) : Full t := by
  intro k
  unfold Sched.entries
  rw [hheap]
  exact h k

theorem Quiet.entries (h : Quiet s t) : entries t k = entries s k := by
  unfold Sched.entries
  rw [h.heap]

private theorem isRunnable_congr (hstate : ∀ q, (t.proc q).state = (s.proc q).state) :
    isRunnable t = isRunnable s := by
  funext x
  cases x with
  | none => rfl
  | some q => simp [isRunnable, hstate]

private theorem nextIndex_congr {m : Slot} (hstate : ∀ q, (t.proc q).state = (s.proc q).state)
    (hlast : (t.proc m).t_lastsched = (s.proc m).t_lastsched)
    (hth : (t.proc m).threads = (s.proc m).threads) : nextIndex t m = nextIndex s m := by
  unfold nextIndex
  simp only [hlast, hth, isRunnable_congr hstate]

/-- `get_next_thread` depends on the states of the threads of the group only. -/
theorem get_next_thread_congr {m : Slot} (hstate : ∀ q, (t.proc q).state = (s.proc q).state)
    (hcnt : (t.proc m).t_cnt = (s.proc m).t_cnt)
    (hlast : (t.proc m).t_lastsched = (s.proc m).t_lastsched)
    (hth : (t.proc m).threads = (s.proc m).threads) :
    (get_next_thread t m).2 = (get_next_thread s m).2 := by
  unfold get_next_thread
  dsimp only
  rw [hcnt, nextIndex_congr hstate hlast hth, hlast, hth]
  split
  · rfl
  · split
    · rfl
    · simp only [isRunnable_congr hstate]

theorem readsNull_congr {m : Slot} (hstate : ∀ q, (t.proc q).state = (s.proc q).state)
    (hcnt : (t.proc m).t_cnt = (s.proc m).t_cnt)
    (hlast : (t.proc m).t_lastsched = (s.proc m).t_lastsched)
    (hth : (t.proc m).threads = (s.proc m).threads) : ReadsNull t m ↔ ReadsNull s m := by
  unfold ReadsNull
  rw [hcnt, nextIndex_congr hstate hlast hth, hlast, hth]

end

/-! ### No duplicates and no workers -/

section

variable {n : Nat}

/-- No process is twice in a heap, all entries are processes of their own (the master of a worker
is another process), and a heap has room for every process that is not in it. -/
structure SoundHeaps (s : State n) : Prop where
  once : ∀ k p, (entries s k).count (some p) ≤ 1
  noWorker : ∀ k p, some p ∈ entries s k → (s.proc p).master = some p
  room : ∀ k p, some p ∉ entries s k → (s.sched k).count < NPROC

/-- What is put into a heap is a process of its own that has no place there yet, a slot that
becomes a worker has none, and no worker is dispatched in place of a sleeping master. -/
def EntersOnce (s : State n) : Action n → Prop
  | .scheduler _ => ∀ p, 0 < (s.sched (chosen s)).count →
      (s.sched (chosen s)).heap 1 = some p → ¬ Misplaced (chosen s) (s.proc p) →
        (s.proc p).state = .SLEEPING → (s.proc p).isthread = true → (get_next_thread s p).2 = none
  | .forkDone c true => ∀ p np, current s c = .ok p → (s.proc p).np = some np →
      held s .mlfq np = 0 ∧ (s.proc np).master = some np
  | .set_cpu_share c share => ∀ p, caller s c = .ok p → Grants s share →
      held s .stride p = 0 ∧ (s.proc p).master = some p
  | .threadReady c => ∀ p new, current s c = .ok p → (s.proc p).np = some new →
      held s .mlfq new = 0 ∧ held s .stride new = 0
  | _ => True

/-- What a run whose steps put a process into a heap once maintains. -/
structure Placed (s : State n) : Prop where
  once : ∀ k p, held s k p ≤ 1
  own : ∀ k p, 0 < held s k p → (s.proc p).master = some p
  full : Full s

end

section

variable {n : Nat} {round : Int → Int} {s t u : State n} {a : Action n} {r : Next n} {c : Fin n}
  {k : Class} {p q : Slot}

/-- A heap without duplicates in which a process is missing is not full. -/
private theorem room_of_not_mem (hs : Placed s) (hp : some p ∉ entries s k) :
    (s.sched k).count < NPROC := by
  have hnodup : (entries s k).Nodup := by
    rw [Multiset.nodup_iff_count_le_one]
    intro x
    cases x with
    | none =>
      rw [Multiset.count_eq_zero.mpr (hs.full k)]
      exact Nat.zero_le 1
    | some q => exact le_trans (Nat.le_add_right _ _) (hs.once k q)
  have hsub : (entries s k).toFinset ⊆ (Finset.univ.erase none).erase (some p) := by
    intro x hx
    rw [Multiset.mem_toFinset] at hx
    rw [Finset.mem_erase, Finset.mem_erase]
    refine ⟨?_, ?_, Finset.mem_univ x⟩
    · intro h
      exact hp (h ▸ hx)
    · intro h
      exact hs.full k (h ▸ hx)
  have hcard := Finset.card_le_card hsub
  rw [Multiset.toFinset_card_of_nodup hnodup, entries, Heap.entries, Heap.card_contents] at hcard
  have hp : some p ∈ Finset.univ.erase (none : Ptr) := by simp
  rw [Finset.card_erase_of_mem hp, Finset.card_erase_of_mem (Finset.mem_univ none),
    Finset.card_univ, Fintype.card_option, Fintype.card_fin] at hcard
  exact lt_of_le_of_lt hcard (by decide)

theorem Placed.sound (hs : Placed s) : SoundHeaps s := by
  constructor
  · intro k p
    exact le_trans (Nat.le_add_right _ _) (hs.once k p)
  · intro k p hp
    apply hs.own k p
    exact Nat.add_pos_left (Multiset.count_pos.mpr hp) _
  · intro k p hp
    exact room_of_not_mem hs hp

/-- An iteration of `scheduler()` that dispatches no worker gives no process a place. -/
private theorem held_scheduler_le (ha : EntersOnce s (.scheduler c)) (h : scheduler s c = .ok t) :
    held t k q ≤ held s k q := by
  obtain ⟨_, hidle, h⟩ := picks h
  generalize hk : chosen s = k' at h
  have hpark : ∀ {p u}, 0 < (s.sched k').count → (s.sched k').heap 1 = some p →
      park (dequeue s k').1 k' p = .ok u → held (enqueue u k' p).1 k q ≤ held s k q := by
    intro p u h0 hp hu
    obtain ⟨_, _, _, rfl, _⟩ := park_ok hu
    rw [held_dequeue h0 hp]
    apply le_trans (held_enqueue_le ..)
    rw [quiet_modify.held]
  cases h with
  | empty => exact le_refl _
  | drop => exact held_dequeue_le
  | parked h0 hp _ _ hu => exact hpark h0 hp hu
  | asleep h0 hp _ _ hu =>
    rw [quiet_get_next_thread.held]
    exact hpark h0 hp hu
  | worker h0 hp hm hs hu hi hn =>
    subst hk
    obtain ⟨_, _, _, rfl, _⟩ := park_ok hu
    rw [get_next_thread_congr (s := s)] at hn
    · rw [ha _ h0 hp hm hs hi] at hn
      cases hn
    · intro q
      simp
    · simp
    · simp
    · simp
  | run h0 hp =>
    rw [held_dispatch (by rw [dequeue_cpu]; exact hidle), held_dequeue h0 hp]

/-- The places after the branch of a step: only `fork` and `set_cpu_share` give a new one. -/
private theorem held_enters (ha : EntersOnce s a) (h : Enters round s a r) :
    held r.state k q ≤ held s k q ∨
      held s k q = 0 ∧ held r.state k q ≤ 1 ∧ (s.proc q).master = some q := by
  rcases enters_quiet h with hq | ⟨c, t, rfl, rfl, ht⟩ | ⟨c, p, np, rfl, hp, hnp, rfl⟩ |
    ⟨c, p, x, rfl, hp, hmax, rfl⟩
  · exact .inl (le_of_eq hq.held)
  · exact .inl (held_scheduler_le ha ht)
  · obtain ⟨h0, hm⟩ := ha p np hp hnp
    have hle := held_enqueue_le ((s.modify p fun v ↦ { v with np := none }).modify np fun v ↦
      { v with parent := some p, state := .RUNNABLE }) .mlfq np k q
    rw [quiet_modify.held, quiet_modify.held] at hle
    split at hle
    · next hkq =>
      rw [hkq.1, hkq.2] at hle ⊢
      rw [h0] at hle
      exact .inr ⟨h0, hle, hm⟩
    · exact .inl hle
  · obtain ⟨h0, hm⟩ := ha p hp hmax
    obtain ⟨t, hq, ht⟩ := granted_eq round s p (ticketsOf x)
    have hle := held_enqueue_le t .stride p k q
    dsimp only [Next.state]
    rw [hq.held, ← ht] at hle
    split at hle
    · next hkq =>
      rw [hkq.1, hkq.2] at hle ⊢
      rw [h0] at hle
      exact .inr ⟨h0, hle, hm⟩
    · exact .inl hle

/-- After `sched` no heap has a new process. -/
private theorem held_leaves {back : Bool} (h : Leaves s c p t back) : held t k q ≤ held s k q := by
  cases h with
  | exhausted => exact le_trans held_swtchScheduler_le (le_of_eq quiet_modify.held)
  | plain => exact held_swtchScheduler_le
  | idle => exact le_trans held_swtchScheduler_le (le_of_eq quiet_get_next_thread.held)
  | back => exact le_of_eq quiet_get_next_thread.held
  | next =>
    rw [held_switchTo, quiet_get_next_thread.held]

theorem quiet_leave (h : leave s p a = .ok t) : Quiet s t := by
  unfold leave at h
  split at h
  · cases h
  · cases h
  · split at h
    · cases h
      exact quiet_boost
    · cases h
      exact .refl
  all_goals
    cases h
    exact ⟨fun _ ↦ rfl, rfl, rfl⟩

/-- A property of the heaps that their operations keep. -/
structure OfHeaps (P : State n → Prop) : Prop where
  congr : ∀ {s t : State n}, P s → (∀ k, (t.sched k).toHeap = (s.sched k).toHeap) → P t
  enqueue : ∀ {s : State n} {k p}, P s → P (enqueue s k p).1
  dequeue : ∀ {s : State n} {k}, P s → P (dequeue s k).1

namespace OfHeaps

variable {P : State n → Prop}

private theorem swtchScheduler (hP : OfHeaps P) (hs : P s) : P (swtchScheduler s c) := by
  unfold Sched.swtchScheduler
  dsimp only
  split
  · next k p _ =>
    have hput : P (Sched.enqueue s k p).1 := hP.enqueue hs
    exact hP.congr hput fun _ ↦ rfl
  · exact hP.congr hs fun _ ↦ rfl

private theorem scheduler (hP : OfHeaps P) (hs : P s) (h : scheduler s c = .ok t) : P t := by
  obtain ⟨_, _, h⟩ := picks h
  have hpark : ∀ {k p u}, park (Sched.dequeue s k).1 k p = .ok u → P (Sched.enqueue u k p).1 := by
    intro k p u hu
    obtain ⟨_, _, _, rfl, _⟩ := park_ok hu
    exact hP.enqueue (hP.congr (hP.dequeue hs) quiet_modify.heap)
  cases h with
  | empty => exact hs
  | drop => exact hP.dequeue hs
  | parked _ _ _ _ hu => exact hpark hu
  | asleep _ _ _ _ hu => exact hP.congr (hpark hu) quiet_get_next_thread.heap
  | @worker p _ _ _ _ _ _ hu =>
    have hnext := hP.congr (hpark hu) (quiet_get_next_thread (m := p)).heap
    exact hP.congr hnext fun _ ↦ rfl
  | run =>
    have hout : P (Sched.dequeue s (chosen s)).1 := hP.dequeue hs
    exact hP.congr hout fun _ ↦ rfl

theorem enters (hP : OfHeaps P) (hs : P s) (h : Enters round s a r) : P r.state := by
  rcases enters_quiet h with hq | ⟨c, t, rfl, rfl, ht⟩ | ⟨c, p, np, rfl, hp, hnp, rfl⟩ |
    ⟨c, p, x, rfl, hp, hmax, rfl⟩
  · exact hP.congr hs hq.heap
  · exact hP.scheduler hs ht
  · exact hP.enqueue (hP.congr (hP.congr hs quiet_modify.heap) quiet_modify.heap)
  · obtain ⟨t, hq, ht⟩ := granted_eq round s p (ticketsOf x)
    rw [Next.state, ht]
    exact hP.enqueue (hP.congr hs hq.heap)

theorem leaves (hP : OfHeaps P) {back : Bool} (hs : P s) (h : Leaves s c p t back) : P t := by
  cases h with
  | exhausted => exact hP.swtchScheduler (hP.congr hs quiet_modify.heap)
  | plain => exact hP.swtchScheduler hs
  | idle => exact hP.swtchScheduler (hP.congr hs quiet_get_next_thread.heap)
  | back => exact hP.congr hs quiet_get_next_thread.heap
  | @next m _ =>
    have hnext := hP.congr hs (quiet_get_next_thread (m := m)).heap
    exact hP.congr hnext fun _ ↦ rfl

/-- Every step keeps it. -/
theorem step (hP : OfHeaps P) (hs : P s) (h : step round s a = .ok t) : P t := by
  rcases step_cases h with h | ⟨_, _, _, _, _, h, _, hl, hv⟩
  · exact hP.enters hs h
  · have hleft := hP.leaves (hP.enters hs h) hl
    rcases hv with ⟨_, rfl⟩ | ⟨_, hv⟩
    · exact hleft
    · exact hP.congr hleft (quiet_leave hv).heap

end OfHeaps

theorem ofHeaps_full : OfHeaps (Full (n := n)) := ⟨Full.congr, Full.enqueue, Full.dequeue⟩

private theorem placed_enters (hs : Placed s) (ha : EntersOnce s a) (h : Enters round s a r) :
    Placed r.state := by
  refine ⟨?_, ?_, ofHeaps_full.enters hs.full h⟩
  · intro k q
    rcases held_enters (k := k) (q := q) ha h with hle | ⟨_, hle, _⟩
    · exact le_trans hle (hs.once k q)
    · exact hle
  · intro k q hq
    have hown : (s.proc q).master = some q := by
      rcases held_enters (k := k) (q := q) ha h with hle | ⟨_, _, hm⟩
      · exact hs.own k q (lt_of_lt_of_le hq hle)
      · exact hm
    rcases enters_master (q := q) h with hm | ⟨_, hm⟩ | ⟨c, p, rfl, hp, hnp, hm⟩
    · rw [hm, hown]
    · exact hm
    · have h0 : held s k q = 0 := by
        cases k with
        | mlfq => exact (ha p q hp hnp).1
        | stride => exact (ha p q hp hnp).2
      have hq' : held r.state k q ≤ held s k q := by
        cases h
        exact le_of_eq (Quiet.held ⟨fun _ ↦ rfl, rfl, rfl⟩)
      omega

theorem placed_step (hs : Placed s) (ha : EntersOnce s a) (h : step round s a = .ok t) :
    Placed t := by
  rcases step_cases h with h | ⟨u, c, p, v, back, h, _, hl, hv⟩
  · exact placed_enters hs ha h
  · have hu : Placed u := placed_enters hs ha h
    have hqv : Placed v := by
      refine ⟨fun k q ↦ le_trans (held_leaves hl) (hu.once k q), ?_, ofHeaps_full.leaves hu.full hl⟩
      intro k q hq
      rw [stable_master.leaves hl]
      exact hu.own k q (lt_of_lt_of_le hq (held_leaves hl))
    rcases hv with ⟨_, rfl⟩ | ⟨_, hv⟩
    · exact hqv
    · have hquiet := quiet_leave hv
      refine ⟨?_, ?_, hqv.full.congr hquiet.heap⟩
      · intro k q
        rw [hquiet.held]
        exact hqv.once k q
      · intro k q hq
        rw [hquiet.held] at hq
        rw [stable_master.leave hv]
        exact hqv.own k q hq

theorem held_boot : held (boot n) k p = if k = .mlfq ∧ p = 0 then 1 else 0 := by
  have hw : windows (boot n) k p = 0 := by
    simp [windows, boot_cpu]
  unfold held
  rw [hw]
  cases k with
  | mlfq =>
    have he : entries (boot n) .mlfq = {some 0} := boot_entries_mlfq
    rw [he, Multiset.count_singleton]
    simp
  | stride =>
    have he : entries (boot n) .stride = 0 := boot_entries_stride
    rw [he]
    simp

theorem full_boot : Full (boot n) := by
  intro k
  cases k with
  | mlfq =>
    rw [show entries (boot n) .mlfq = {some 0} from boot_entries_mlfq]
    simp
  | stride =>
    rw [show entries (boot n) .stride = 0 from boot_entries_stride]
    simp

/-- The heaps hold processes in every state that is reached. -/
theorem full_reached (h : Reaches (step round) (boot n) s) : Full s :=
  h.invariant (fun _ _ _ hs hst ↦ ofHeaps_full.step hs hst) full_boot

theorem placed_boot : Placed (boot n) := by
  refine ⟨?_, ?_, full_boot⟩
  · intro k p
    rw [held_boot]
    split <;> omega
  · intro k p hp
    rw [held_boot] at hp
    split at hp
    · next h =>
      rw [h.2, boot_proc]
      rfl
    · omega

/-- In a run whose steps put a process into a heap once, no heap has a duplicate or a worker in
any state reached, and no heap is full while a process is missing from it. -/
theorem heaps_sound (h : ReachesVia (step round) EntersOnce (boot n) s) : SoundHeaps s :=
  (h.invariant (fun _ _ _ hs ha hst ↦ placed_step hs ha hst) placed_boot).sound

end

instance {n : Nat} (s : State n) (a : Action n) : Decidable (EntersOnce s a) :=
  match a with
  | .scheduler _ => inferInstanceAs (Decidable (∀ _, _))
  | .forkDone _ true => inferInstanceAs (Decidable (∀ _, _))
  | .set_cpu_share _ _ => inferInstanceAs (Decidable (∀ _, _))
  | .threadReady _ => inferInstanceAs (Decidable (∀ _, _))
  | .forkDone _ false | .tick _ | .boost _ | .yield _ | .sleep _ _ | .wakeup _ | .kill _
  | .fork _ _ | .exit _ | .wait _ | .thread_create _ | .thread_exit _ | .thread_join _ _ =>
    inferInstanceAs (Decidable True)

/-- The first process forks and asks for a share. -/
theorem heaps_sound_share : SoundHeaps (final (step float) (boot 1)
    [.scheduler 0, .fork 0 true, .forkDone 0 true, .set_cpu_share 0 10, .yield 0]) := by
  apply heaps_sound
  refine ⟨[.scheduler 0, .fork 0 true, .forkDone 0 true, .set_cpu_share 0 10, .yield 0], ?_,
    exec_final ?_⟩
  · decide +kernel
  · decide +kernel

/-- The first process asks for a share twice. -/
def twoShares : List (Action 1) :=
  [.scheduler cpu0, .set_cpu_share cpu0 10, .set_cpu_share cpu0 10]

/-- It is twice in the heap of its class. -/
theorem twoShares_duplicate : (exec (step float) (boot 1) twoShares).isOk = true ∧
    0 < ((final (step float) (boot 1) twoShares).proc 0).tickets ∧
    (entries (final (step float) (boot 1) twoShares) .stride).count (some 0) = 2 := by
  decide +kernel

end Xv6.Sched
