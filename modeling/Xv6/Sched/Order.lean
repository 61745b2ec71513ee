import Xv6.Sched.Places

/-!
# Order of the heaps

The heaps hold pointers and the keys are fields of `struct proc`. Enqueueing and dequeueing keep
the order; a write to the key of a process that is in a heap does not restore it.
-/

namespace Xv6.Sched

open Function Lib

section

variable {n : Nat}

/-- No process in a heap has a smaller key than its parent there, and the root, which is what the
next dequeue returns, has the smallest. -/
structure OrderedHeaps (s : State n) : Prop where
  order : ∀ k, Heap.Ordered (key s k) (s.sched k).heap (s.sched k).count
  root : ∀ k, ∀ x ∈ entries s k, key s k ((s.sched k).heap 1) ≤ key s k x

/-- If `q` is in the heap, its key is `x`. -/
def Settled (s : State n) (k : Class) (q : Slot) (x : Int) : Prop :=
  some q ∈ entries s k → key s k (some q) = x

instance (s : State n) (k : Class) (q : Slot) (x : Int) : Decidable (Settled s k q x) :=
  inferInstanceAs (Decidable (_ → _))

/-- The step changes the key of no process that is in the heap of that key, other than by
`priority_boost`. -/
def KeepsKeys (round : Int → Int) (s : State n) : Action n → Prop
  | .scheduler _ => ∀ p, 0 < (s.sched (chosen s)).count →
      (s.sched (chosen s)).heap 1 = some p → ¬ Misplaced (chosen s) (s.proc p) →
        (s.proc p).state = .SLEEPING → (entries s (chosen s)).count (some p) = 1
  | .tick c => ∀ p m, current s c = .ok p → (s.proc p).state = .RUNNING →
      (s.proc p).master = some m →
        if (s.proc m).tickets = 0 then
          (s.proc m).qlev < 2 ∧ ((s.proc m).qticks + 1) % allotment (s.proc m) = 0 →
            some m ∉ entries s .mlfq
        else Settled s .stride p (round ((s.proc p).pass + (s.proc p).stride))
  | .wakeup chan => ∀ q, (s.proc q).state = .SLEEPING → (s.proc q).chan = some chan →
      Settled s .mlfq q 0
  | .exit c => ∀ p m q, caller s c = .ok p → exiting s p = some m → ExitWakes s m q →
      (s.proc q).state = .SLEEPING → Settled s .mlfq q 0
  | .thread_exit c => ∀ p m q, caller s c = .ok p → (s.proc p).master = some m →
      (s.proc q).state = .SLEEPING → (s.proc q).chan = some (.proc m) → Settled s .mlfq q 0
  | .fork _ true | .thread_create _ => ∀ q, findUnused s = some q →
      Settled s .mlfq q 0 ∧ Settled s .stride q 0
  | .set_cpu_share c share => ∀ p, caller s c = .ok p → Grants s share → Settled s .mlfq p 0 ∧
      Settled s .stride p (if 0 < (s.sched .stride).count then
        key s .stride ((s.sched .stride).heap 1) else 0)
  | _ => True

/-- What a run whose steps keep the keys maintains. -/
structure InOrder (s : State n) : Prop where
  order : ∀ k, Heap.Ordered (key s k) (s.sched k).heap (s.sched k).count
  bound : ∀ k, (s.sched k).count ≤ NPROC

end

section

variable {n : Nat} {round : Int → Int} {s t u : State n} {a : Action n} {r : Next n} {c : Fin n}
  {k k' : Class} {p q : Slot}

theorem InOrder.orderedHeaps (h : InOrder s) : OrderedHeaps s :=
  ⟨h.order, fun k _ hx ↦ (h.order k).root_le hx⟩

/-- The keys of the entries are the same. -/
theorem InOrder.congr (h : InOrder s) (hheap : ∀ k, (t.sched k).toHeap = (s.sched k).toHeap)
    (hkey : ∀ k q, some q ∈ entries s k → key t k (some q) = key s k (some q)) : InOrder t := by
  constructor
  · intro k
    rw [hheap]
    apply (h.order k).congr
    intro x hx
    cases x with
    | none => rfl
    | some q => exact hkey k q hx
  · intro k
    rw [hheap]
    exact h.bound k

theorem InOrder.enqueue (h : InOrder s) : InOrder (enqueue s k p).1 := by
  have hkey : key (Sched.enqueue s k p).1 = key s := by
    funext k' x
    cases x <;> simp [key]
  by_cases hroom : (s.sched k).count < NPROC
  · constructor
    · intro k'
      rw [hkey]
      by_cases hk : k' = k
      · subst hk
        rw [enqueue_toHeap hroom]
        exact Heap.ordered_enqueue (h.order k') _
      · rw [enqueue_sched_of_ne hk]
        exact h.order k'
    · intro k'
      by_cases hk : k' = k
      · subst hk
        rw [enqueue_toHeap hroom]
        exact hroom
      · rw [enqueue_sched_of_ne hk]
        exact h.bound k'
  · rw [enqueue_of_full (not_lt.mp hroom)]
    exact h

theorem InOrder.dequeue (h : InOrder s) : InOrder (dequeue s k).1 := by
  have hkey : key (Sched.dequeue s k).1 = key s := by
    funext k' x
    cases x <;> simp [key]
  rcases Nat.eq_zero_or_pos (s.sched k).count with h0 | h0
  · rw [dequeue_of_empty h0]
    exact h
  · constructor
    · intro k'
      rw [hkey]
      by_cases hk : k' = k
      · subst hk
        rw [dequeue_toHeap h0]
        exact Heap.ordered_dequeue (h.order k')
      · rw [dequeue_sched_of_ne hk]
        exact h.order k'
    · intro k'
      by_cases hk : k' = k
      · subst hk
        rw [dequeue_toHeap h0]
        exact le_trans (Nat.sub_le _ _) (h.bound k')
      · rw [dequeue_sched_of_ne hk]
        exact h.bound k'

theorem InOrder.swtchScheduler (h : InOrder s) : InOrder (swtchScheduler s c) := by
  unfold Sched.swtchScheduler
  split
  · exact h.enqueue.congr (fun _ ↦ rfl) fun _ _ _ ↦ rfl
  · exact h.congr (fun _ ↦ rfl) fun _ _ _ ↦ rfl

/-- Keys are functions of `qlev` and `pass`. -/
private theorem key_congr (hl : (t.proc q).qlev = (s.proc q).qlev)
    (hp : (t.proc q).pass = (s.proc q).pass) (k : Class) : key t k (some q) = key s k (some q) := by
  cases k with
  | mlfq => exact hl
  | stride => exact hp

/-- A process taken off the root that has no second entry is queued again with a new key. -/
private theorem inOrder_park (h : InOrder s) (h0 : 0 < (s.sched k).count)
    (hp : (s.sched k).heap 1 = some p) (hone : (entries s k).count (some p) = 1)
    (hu : park (dequeue s k).1 k p = .ok u) : InOrder (enqueue u k p).1 := by
  obtain ⟨l, i, x, rfl, hmlfq, hstride⟩ := park_ok hu
  have hgone : some p ∉ entries (dequeue s k).1 k := by
    rw [entries_dequeue h0, hp, Multiset.count_cons_self] at hone
    exact Multiset.count_eq_zero.mp (by omega)
  apply InOrder.enqueue
  apply InOrder.congr (h.dequeue (k := k))
  · exact fun _ ↦ rfl
  intro k' q hq
  by_cases hqp : q = p
  · subst hqp
    by_cases hk : k' = k
    · subst hk
      exact absurd hq hgone
    · cases k with
      | mlfq =>
        cases k' with
        | mlfq => exact absurd rfl hk
        | stride => simpa [key] using hmlfq rfl
      | stride =>
        cases k' with
        | mlfq => simpa [key] using (hstride rfl).1
        | stride => exact absurd rfl hk
  · apply key_congr
    · rw [modify_proc_of_ne hqp]
    · rw [modify_proc_of_ne hqp]

private theorem inOrder_scheduler (hs : InOrder s) (ha : KeepsKeys round s (.scheduler c))
    (h : scheduler s c = .ok t) : InOrder t := by
  obtain ⟨_, _, h⟩ := picks h
  have hnext : ∀ {u : State n} {m}, InOrder u → InOrder (get_next_thread u m).1 := fun hu ↦
    hu.congr (fun _ ↦ by simp) fun k _ _ ↦ key_congr (by simp) (by simp) k
  have hdispatch : ∀ {u : State n} {k q}, InOrder u → InOrder (dispatch u c k q) := fun hu ↦
    hu.congr (fun _ ↦ rfl) fun k _ _ ↦ key_congr (by simp) (by simp) k
  cases h with
  | empty => exact hs
  | drop => exact hs.dequeue
  | parked h0 hp hm hsl hu => exact inOrder_park hs h0 hp (ha _ h0 hp hm hsl) hu
  | asleep h0 hp hm hsl hu => exact hnext (inOrder_park hs h0 hp (ha _ h0 hp hm hsl) hu)
  | worker h0 hp hm hsl hu =>
    exact hdispatch (hnext (inOrder_park hs h0 hp (ha _ h0 hp hm hsl) hu))
  | run => exact hdispatch hs.dequeue

/-- A process is not demoted before its time allotment is used up. -/
private theorem onTimer_qlev {v : Proc}
    (h : ¬ (v.tickets = 0 ∧ v.qlev < 2 ∧ v.qticks % allotment v = 0)) : v.onTimer.qlev = v.qlev := by
  unfold Proc.onTimer
  split
  · next ht =>
    rw [if_neg fun hd ↦ h ⟨ht, hd⟩]
    split <;> rfl
  · split <;> rfl

private theorem strode_pass (h : q ≠ p) : ((strode round s p).proc q).pass = (s.proc q).pass := by
  unfold strode
  dsimp only
  rw [modify_proc_of_ne h]

private theorem charged_qlev {m : Slot} (ht : (s.proc m).tickets = 0)
    (h : (s.proc m).qlev < 2 ∧ ((s.proc m).qticks + 1) % allotment (s.proc m) = 0 → q ≠ m) :
    ((charged round s m).proc q).qlev = (s.proc q).qlev := by
  unfold charged
  rw [check_on_timer_modify]
  by_cases hq : q = m
  · subst hq
    rw [modify_proc_self]
    dsimp only
    rw [modify_proc_self, onTimer_qlev]
    intro hd
    exact h hd.2 rfl
  · rw [modify_proc_of_ne hq]
    dsimp only
    rw [modify_proc_of_ne hq]

private theorem charged_pass {m : Slot} : ((charged round s m).proc q).pass = (s.proc q).pass := by
  unfold charged
  dsimp only
  rw [check_on_timer_field (·.pass) fun _ _ _ _ ↦ rfl]
  simp

/-- An entry allocated by `fork` has both keys 0. -/
private theorem fork_keys {b : Bool} :
    (((fork s p b).proc q).qlev = (s.proc q).qlev ∧ ((fork s p b).proc q).pass = (s.proc q).pass) ∨
      findUnused s = some q ∧ b = true ∧ ((fork s p b).proc q).qlev = 0 ∧
        ((fork s p b).proc q).pass = 0 := by
  unfold fork
  obtain ha | ⟨x, hx, _, ha⟩ | ⟨x, hx, hb, ha⟩ := allocproc_cases s b
  · simp [ha]
  · simp [ha]
  · by_cases hq : q = x
    · subst hq
      right
      rw [ha]
      simp [hx, hb, Proc.fresh]
    · left
      simp [ha, modify_proc_of_ne hq]

/-- So has one allocated by `thread_create`. -/
private theorem allocthread_keys {m new : Slot} (h : allocthread s m = .ok (t, new)) :
    ((t.proc q).qlev = (s.proc q).qlev ∧ (t.proc q).pass = (s.proc q).pass) ∨
      findUnused s = some q ∧ (t.proc q).qlev = 0 ∧ (t.proc q).pass = 0 := by
  obtain ⟨hf, _, th, i, rfl⟩ := allocthread_ok h
  by_cases hq : q = new
  · subst hq
    right
    simp [hf]
  · left
    simp [modify_proc_of_ne hq]

private theorem granted_keys {x : Int} (hq : q ≠ p) :
    ((granted round s p x).proc q).qlev = (s.proc q).qlev ∧
      ((granted round s p x).proc q).pass = (s.proc q).pass := by
  simp [granted, stride_enqueue, modify_proc_of_ne hq]

private theorem granted_keys_self {x : Int} : ((granted round s p x).proc p).qlev = 0 ∧
    ((granted round s p x).proc p).pass = if 0 < (s.sched .stride).count then
      key s .stride ((s.sched .stride).heap 1) else 0 := by
  simp only [granted, stride_enqueue, enqueue_proc, modify_proc_self, true_and]
  split
  · cases (s.sched .stride).heap 1 <;> rfl
  · rfl

private theorem exited_pass {m : Slot} : ((exited s m).proc q).pass = (s.proc q).pass :=
  exited_field (·.pass) (fun _ _ _ ↦ rfl) (fun _ _ _ ↦ rfl) (fun _ _ _ ↦ rfl) fun _ _ ↦ rfl

/-- No step but an iteration of `scheduler()` changes the `pass` of a queued process. -/
private theorem enters_keeps_pass (ha : KeepsKeys round s a) (h : Enters round s a r)
    (hns : ∀ c, a ≠ .scheduler c) (hq : some q ∈ entries s .stride) :
    (r.state.proc q).pass = (s.proc q).pass := by
  have halloc : findUnused s = some q → Settled s .stride q 0 → (s.proc q).pass = 0 :=
    fun _ h ↦ h hq
  cases h with
  | scheduler => exact absurd rfl (hns _)
  | tickYield => simp [Next.state, yield, charged_pass]
  | tickStay =>
    dsimp only [Next.state]
    rw [boost_field (·.pass) (fun _ _ _ ↦ rfl) fun _ _ ↦ rfl, charged_pass]
  | @tickGroup c p m hp hr hm ht =>
    have hset := ha p m hp hr hm
    rw [if_neg ht] at hset
    simp only [Next.state, yield]
    rw [modify_field (·.pass) rfl, check_on_timer_field (·.pass) fun _ _ _ _ ↦ rfl,
      modify_field (·.pass) rfl]
    by_cases hqp : q = p
    · subst hqp
      simpa [strode, key] using (hset hq).symm
    · exact strode_pass hqp
  | @tickStride c p m hp hr hm ht =>
    have hset := ha p m hp hr hm
    rw [if_neg ht] at hset
    simp only [Next.state, yield]
    rw [modify_field (·.pass) rfl]
    by_cases hqp : q = p
    · subst hqp
      simpa [strode, key] using (hset hq).symm
    · exact strode_pass hqp
  | boost => exact boost_field (·.pass) (fun _ _ _ ↦ rfl) fun _ _ ↦ rfl
  | wakeup => exact wakeup1_field (·.pass) fun _ _ _ ↦ rfl
  | kill h =>
    obtain rfl | ⟨_, _, _, hw⟩ := kill_ok h
    · rfl
    · obtain ⟨_, _, hv, _⟩ := hw q
      rw [Next.state, hv]
  | @fork c p b hp =>
    rcases fork_keys (s := s) (p := p) (q := q) (b := b) with ⟨_, h⟩ | ⟨hf, rfl, _, h⟩
    · exact h
    · exact h.trans ((ha q hf).2 hq).symm
  | exit => exact exited_pass
  | @granted c p x hp hmax =>
    dsimp only [Next.state]
    by_cases hqp : q = p
    · subst hqp
      rw [granted_keys_self.2]
      exact ((ha q hp hmax).2 hq).symm
    · exact (granted_keys hqp).2
  | thread_create _ _ h =>
    dsimp only [Next.state]
    rw [modify_field (·.pass) rfl]
    rcases allocthread_keys (q := q) h with ⟨_, h⟩ | ⟨hf, _, h⟩
    · exact h
    · exact h.trans ((ha q hf).2 hq).symm
  | thread_exit =>
    dsimp only [Next.state]
    rw [modify_field (·.pass) rfl, modify_field (·.pass) rfl]
    exact wakeup1_field (·.pass) fun _ _ _ ↦ rfl
  | _ => simp [Next.state, sleep, yield, mlfq_enqueue]

/-- A wake-up leaves the level of a queued process alone when that is 0 already. -/
private theorem wakeup1_qlev {chan : Option Chan} (h : (s.proc q).state = .SLEEPING →
      (s.proc q).chan = chan → (s.proc q).qlev = 0) :
    ((wakeup1 s chan).proc q).qlev = (s.proc q).qlev := by
  rcases wakeup1_wakes s chan q with hw | ⟨hs, hc, hw⟩
  · rw [hw]
  · rw [hw]
    exact (h hs hc).symm

/-- No step but an iteration of `scheduler()` changes the `qlev` of a queued process, or else the
step ends with a boost. -/
private theorem enters_keeps_qlev (ha : KeepsKeys round s a) (h : Enters round s a r)
    (hns : ∀ c, a ≠ .scheduler c) :
    (∀ q, some q ∈ entries s .mlfq → (r.state.proc q).qlev = (s.proc q).qlev) ∨
      ∃ u, Quiet s u ∧ r.state = priority_boost u ∧
        ∀ q, (u.proc q).pass = (s.proc q).pass := by
  cases h with
  | scheduler => exact absurd rfl (hns _)
  | @tickYield c p m hp hr hm ht =>
    left
    intro q hq
    have hset := ha p m hp hr hm
    rw [if_pos ht] at hset
    simp only [Next.state, yield]
    rw [modify_field (·.qlev) rfl, modify_field (·.qlev) rfl]
    exact charged_qlev ht fun hd h ↦ hset hd (h ▸ hq)
  | @tickStay c p m hp hr hm ht =>
    have hset := ha p m hp hr hm
    rw [if_pos ht] at hset
    dsimp only [Next.state, Sched.boost]
    split
    · right
      refine ⟨_, quiet_charged.trans quiet_modify, rfl, ?_⟩
      intro q
      rw [modify_field (·.pass) rfl, charged_pass]
    · left
      intro q hq
      rw [modify_field (·.qlev) rfl]
      exact charged_qlev ht fun hd h ↦ hset hd (h ▸ hq)
  | @boost c p =>
    dsimp only [Next.state, Sched.boost]
    split
    · right
      refine ⟨_, quiet_modify, rfl, ?_⟩
      intro q
      rw [modify_field (·.pass) rfl]
    · left
      intro q _
      rw [modify_field (·.qlev) rfl]
  | tickGroup _ _ _ ht =>
    left
    intro q _
    simp only [Next.state, yield]
    rw [modify_field (·.qlev) rfl, check_on_timer_modify, modify_field (·.qlev) (onTimer_qlev _),
      modify_field (·.qlev) rfl]
    · simp [strode]
    · intro hd
      apply ht
      simpa [strode] using hd.1
  | tickStride =>
    left
    intro q _
    simp only [Next.state, yield]
    rw [modify_field (·.qlev) rfl]
    simp [strode]
  | wakeup => exact .inl fun q hq ↦ wakeup1_qlev fun hs hc ↦ ha q hs hc hq
  | kill h =>
    left
    intro q _
    obtain rfl | ⟨_, _, _, hw⟩ := kill_ok h
    · rfl
    · obtain ⟨_, _, hv, _⟩ := hw q
      rw [Next.state, hv]
  | @fork c p b hp =>
    left
    intro q hq
    rcases fork_keys (s := s) (p := p) (q := q) (b := b) with ⟨h, _⟩ | ⟨hf, rfl, h, _⟩
    · exact h
    · exact h.trans ((ha q hf).1 hq).symm
  | exit hp hm =>
    left
    intro q hq
    rcases exited_qlev with h | ⟨hs, hw, h⟩
    · exact h
    · exact h.trans (ha _ _ q hp hm hw hs hq).symm
  | @granted c p x hp hmax =>
    left
    intro q hq
    dsimp only [Next.state]
    by_cases hqp : q = p
    · subst hqp
      rw [granted_keys_self.1]
      exact ((ha q hp hmax).1 hq).symm
    · exact (granted_keys hqp).1
  | thread_create _ _ h =>
    left
    intro q hq
    dsimp only [Next.state]
    rw [modify_field (·.qlev) rfl]
    rcases allocthread_keys (q := q) h with ⟨h, _⟩ | ⟨hf, h, _⟩
    · exact h
    · exact h.trans ((ha q hf).1 hq).symm
  | thread_exit hp hm =>
    left
    intro q hq
    dsimp only [Next.state]
    rw [modify_field (·.qlev) rfl, modify_field (·.qlev) rfl]
    exact wakeup1_qlev fun hs hc ↦ ha _ _ q hp hm hs hc hq
  | _ => exact .inl fun q _ ↦ by simp [Next.state, sleep, yield, mlfq_enqueue]

/-- After a boost every slot of the MLFQ heap has key 0. -/
private theorem key_priority_boost {i : Nat} (h1 : 1 ≤ i) (hn : i ≤ NPROC) :
    key (priority_boost s) .mlfq ((s.sched .mlfq).heap i) = 0 := by
  cases hx : (s.sched .mlfq).heap i with
  | none => rfl
  | some q =>
    have hslot : ∃ j : Fin NPROC, (s.sched .mlfq).heap (j + 1) = some q := by
      refine ⟨⟨i - 1, by omega⟩, ?_⟩
      rw [show i - 1 + 1 = i by omega]
      exact hx
    show ((priority_boost s).proc q).qlev = 0
    unfold priority_boost
    dsimp only
    rw [if_pos hslot]

private theorem inOrder_boost (hs : InOrder s) (hq : Quiet s u)
    (hpass : ∀ q, (u.proc q).pass = (s.proc q).pass) : InOrder (priority_boost u) := by
  constructor
  · intro k
    cases k with
    | mlfq =>
      have hbound := hs.bound .mlfq
      rw [← hq.heap] at hbound
      intro i h1 hn
      have hn' : i ≤ (u.sched .mlfq).count := hn
      have hleft := key_priority_boost (s := u) (i := i / 2) (by omega) (by omega)
      have hright := key_priority_boost (s := u) (i := i) (by omega) (by omega)
      exact le_of_eq (hleft.trans hright.symm)
    | stride =>
      show Heap.Ordered _ (u.sched .stride).heap (u.sched .stride).count
      rw [hq.heap]
      apply (hs.order .stride).congr
      intro x _
      cases x with
      | none => rfl
      | some q =>
        show ((priority_boost u).proc q).pass = (s.proc q).pass
        rw [priority_boost_field (·.pass) fun _ _ _ ↦ rfl, hpass]
  · intro k
    show (u.sched k).count ≤ NPROC
    rw [hq.heap]
    exact hs.bound k

private theorem inOrder_enters (hs : InOrder s) (ha : KeepsKeys round s a)
    (h : Enters round s a r) : InOrder r.state := by
  by_cases hsch : ∃ c, a = .scheduler c
  · obtain ⟨c, rfl⟩ := hsch
    cases h with
    | scheduler h => exact inOrder_scheduler hs ha h
  · have hns : ∀ c, a ≠ .scheduler c := fun c hc ↦ hsch ⟨c, hc⟩
    rcases enters_keeps_qlev ha h hns with hlev | ⟨u, hq, hu, hpass⟩
    · have hkey : ∀ k q, some q ∈ entries s k → key r.state k (some q) = key s k (some q) := by
        intro k q hmem
        cases k with
        | mlfq => exact hlev q hmem
        | stride => exact enters_keeps_pass ha h hns hmem
      rcases enters_quiet h with hq | ⟨c, t, rfl, _⟩ | ⟨c, p, np, rfl, hp, hnp, rfl⟩ |
        ⟨c, p, x, rfl, hp, hmax, rfl⟩
      · exact hs.congr hq.heap hkey
      · exact absurd rfl (hns c)
      · apply InOrder.enqueue
        apply InOrder.congr hs
        · exact fun _ ↦ rfl
        intro k q hmem
        rw [← hkey k q hmem]
        exact (key_congr (by simp [Next.state, mlfq_enqueue])
          (by simp [Next.state, mlfq_enqueue]) k).symm
      · obtain ⟨t, hq, ht⟩ := granted_eq round s p (ticketsOf x)
        rw [Next.state, ht]
        apply InOrder.enqueue
        apply hs.congr hq.heap
        intro k q hmem
        rw [← hkey k q hmem, Next.state, ht]
        exact (key_congr (by simp) (by simp) k).symm
    · rw [hu]
      exact inOrder_boost hs hq hpass

private theorem inOrder_leaves {back : Bool} (hs : InOrder s) (h : Leaves s c p t back) :
    InOrder t := by
  have hnext : ∀ m, InOrder (get_next_thread s m).1 := fun m ↦
    hs.congr (fun _ ↦ by simp) fun k _ _ ↦ key_congr (by simp) (by simp) k
  cases h with
  | exhausted =>
    apply InOrder.swtchScheduler
    apply InOrder.congr hs
    · exact fun _ ↦ rfl
    · exact fun k _ _ ↦ key_congr (by simp) (by simp) k
  | plain => exact hs.swtchScheduler
  | idle => exact (hnext _).swtchScheduler
  | back => exact hnext _
  | next => exact (hnext _).congr (fun _ ↦ rfl) fun k _ _ ↦ key_congr (by simp) (by simp) k

private theorem inOrder_leave (hs : InOrder s) (h : leave s p a = .ok t) : InOrder t := by
  unfold leave at h
  split at h
  · cases h
  · cases h
  · split at h
    · cases h
      unfold boost
      dsimp only
      split
      · exact inOrder_boost hs quiet_modify fun q ↦ by simp
      · exact hs.congr (fun _ ↦ rfl) fun k _ _ ↦ key_congr (by simp) (by simp) k
    · cases h
      exact hs
  all_goals
    cases h
    exact hs.congr (fun _ ↦ rfl) fun k _ _ ↦ key_congr (by simp) (by simp) k

theorem inOrder_step (hs : InOrder s) (ha : KeepsKeys round s a) (h : step round s a = .ok t) :
    InOrder t := by
  rcases step_cases h with h | ⟨u, c, p, v, back, h, _, hl, hv⟩
  · exact inOrder_enters hs ha h
  · have hqv : InOrder v := inOrder_leaves (inOrder_enters hs ha h) hl
    rcases hv with ⟨_, rfl⟩ | ⟨_, hv⟩
    · exact hqv
    · exact inOrder_leave hqv hv

theorem inOrder_boot : InOrder (boot n) := by
  constructor
  · intro k i h1 hn
    cases k with
    | mlfq =>
      have hn' : i ≤ 1 := hn
      omega
    | stride =>
      have hn' : i ≤ 0 := hn
      omega
  · intro k
    cases k with
    | mlfq => exact (by decide : 1 ≤ NPROC)
    | stride => exact Nat.zero_le _

/-- In a run whose steps change the key of no queued process, both heaps are ordered in every
state reached, and what the next dequeue of one returns has the smallest key there. -/
theorem heaps_ordered (h : ReachesVia (step round) (KeepsKeys round) (boot n) s) :
    OrderedHeaps s :=
  (h.invariant (fun _ _ _ hs ha hst ↦ inOrder_step hs ha hst) inOrder_boot).orderedHeaps

end

instance {n : Nat} (round : Int → Int) (s : State n) (a : Action n) :
    Decidable (KeepsKeys round s a) :=
  match a with
  | .scheduler _ => inferInstanceAs (Decidable (∀ _, _))
  | .tick _ => inferInstanceAs (Decidable (∀ _, _))
  | .wakeup _ => inferInstanceAs (Decidable (∀ _, _))
  | .exit _ => inferInstanceAs (Decidable (∀ _, _))
  | .thread_exit _ => inferInstanceAs (Decidable (∀ _, _))
  | .fork _ true => inferInstanceAs (Decidable (∀ _, _))
  | .thread_create _ => inferInstanceAs (Decidable (∀ _, _))
  | .set_cpu_share _ _ => inferInstanceAs (Decidable (∀ _, _))
  | .fork _ false | .boost _ | .yield _ | .sleep _ _ | .kill _ | .forkDone _ _ | .wait _
  | .threadReady _ | .thread_join _ _ => inferInstanceAs (Decidable True)

/-- The first process forks and waits for its child. Both are then in the MLFQ heap. -/
theorem heaps_ordered_fork :
    ((final (step float) (boot 1)
      [.scheduler 0, .fork 0 true, .forkDone 0 true, .wait 0]).sched .mlfq).count = 2 ∧
    OrderedHeaps (final (step float) (boot 1)
      [.scheduler 0, .fork 0 true, .forkDone 0 true, .wait 0]) := by
  constructor
  · decide +kernel
  · apply @heaps_ordered _ float
    refine ⟨[.scheduler 0, .fork 0 true, .forkDone 0 true, .wait 0], ?_, exec_final ?_⟩
    · decide +kernel
    · decide +kernel

/-- The first process waits for a child, the child sleeps, both are queued again at level 3, and
the child is woken up. -/
def wakeBelow : List (Action 1) :=
  [.scheduler cpu0, .fork cpu0 true, .forkDone cpu0 true, .wait cpu0, .scheduler cpu0,
    .sleep cpu0 (.object 0), .scheduler cpu0, .scheduler cpu0, .wakeup (.object 0)]

/-- The child has level 0 below the first process, which has level 3. -/
theorem wakeBelow_unordered : (exec (step float) (boot 1) wakeBelow).isOk = true ∧
    ¬ OrderedHeaps (final (step float) (boot 1) wakeBelow) := by
  constructor
  · decide +kernel
  · intro h
    have horder := h.order .mlfq 2
    revert horder
    decide +kernel

end Xv6.Sched
