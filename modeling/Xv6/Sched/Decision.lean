import Xv6.Sched.Places

/-!
# The slots that an iteration of `scheduler()` reads

`refill` gives other contents to the slots of the heaps that hold no entry. What an iteration
does is the same for all of them, unless the stride branch finds its only entry asleep and looks
for the last of the others.
-/

namespace Xv6.Sched

open Function Lib

section

variable {n : Nat}

/-- The state with the slots `f k` in the heap of class `k`. -/
def State.refill (s : State n) (f : Class → Nat → Ptr) : State n :=
  { s with sched := fun k ↦ { s.sched k with heap := f k } }

/-- The slots hold the entries of the heaps. -/
def Fills (s : State n) (f : Class → Nat → Ptr) : Prop :=
  ∀ k i, 1 ≤ i → i ≤ (s.sched k).count → f k i = (s.sched k).heap i

/-- Branch `k` of the loop finds `p` asleep. -/
structure FindsAsleep (s : State n) (k : Class) (p : Slot) : Prop where
  pos : 0 < (s.sched k).count
  root : (s.sched k).heap 1 = some p
  placed : ¬Misplaced k (s.proc p)
  asleep : (s.proc p).state = .SLEEPING

theorem findsAsleep_iff {s : State n} {k : Class} {p : Slot} : FindsAsleep s k p ↔
    0 < (s.sched k).count ∧ (s.sched k).heap 1 = some p ∧ ¬Misplaced k (s.proc p) ∧
      (s.proc p).state = .SLEEPING :=
  ⟨fun h ↦ ⟨h.pos, h.root, h.placed, h.asleep⟩, fun ⟨h0, hp, hm, hs⟩ ↦ ⟨h0, hp, hm, hs⟩⟩

instance (s : State n) (k : Class) (p : Slot) : Decidable (FindsAsleep s k p) :=
  decidable_of_iff' _ findsAsleep_iff

/-- The process in the last slot of the stride heap when its root is out. -/
def lastLeft (s : State n) : Ptr :=
  if 2 ≤ (s.sched .stride).count then
    ((s.sched .stride).dequeue (key s .stride)).heap ((s.sched .stride).count - 1)
  else
    none

/-- An iteration on CPU `c` follows no null pointer, reads only the slots of the heaps that hold
entries, all of which are processes, and gives a sleeping process of the stride heap a pass from
its own to the largest. -/
structure Decides (s : State n) (c : Fin n) : Prop where
  full : none ∉ entries s (chosen s)
  safe : scheduler s c ≠ .error .pointer
  slots : ∀ f, Fills s f → ∃ g, scheduler (s.refill f) c = (scheduler s c).map (·.refill g) ∧
    ∀ t, scheduler s c = .ok t → Fills t g
  pass : ∀ p t, chosen s = .stride → FindsAsleep s .stride p → scheduler s c = .ok t →
    (s.proc p).pass ≤ (t.proc p).pass ∧
      ∃ q, some q ∈ entries s .stride ∧ (t.proc p).pass ≤ (s.proc q).pass

/-- If the stride branch finds its root asleep, another entry is left, and the last of them has no
smaller pass. If the root is the master of a group, `t_lastsched` is not the index of an empty
slot. -/
structure Orderly (s : State n) : Prop where
  last : chosen s = .stride → ∀ p, FindsAsleep s .stride p →
    ∃ q, lastLeft s = some q ∧ (s.proc p).pass ≤ (s.proc q).pass
  group : ∀ p, FindsAsleep s (chosen s) p → (s.proc p).isthread = true → ¬ReadsNull s p

variable {round : Int → Int} {s t u : State n} {c : Fin n} {k : Class} {p q m : Slot}
  {f g : Class → Nat → Ptr}

/-! ### Other contents of the free slots -/

theorem Fills.refl : Fills s fun k ↦ (s.sched k).heap := fun _ _ _ _ ↦ rfl

private theorem Fills.same (h : Fills s f) (k : Class) :
    Heap.Same (s.sched k).toHeap ((s.refill f).sched k).toHeap := ⟨rfl, h k⟩

private theorem key_refill : key (s.refill f) = key s := by
  funext k x
  cases x <;> rfl

/-- A write to one heap, from the heaps with and without the other contents. -/
private theorem refill_heap {v v' : Heap Ptr} (h : Fills s f) (hv : Heap.Same v v') :
    ∃ g, { s.refill f with
        sched := update (s.refill f).sched k { (s.refill f).sched k with toHeap := v' } } =
      State.refill { s with sched := update s.sched k { s.sched k with toHeap := v } } g ∧
      Fills { s with sched := update s.sched k { s.sched k with toHeap := v } } g := by
  have hsched : update (s.refill f).sched k { (s.refill f).sched k with toHeap := v' } =
      fun k' ↦ { update s.sched k { s.sched k with toHeap := v } k' with
        heap := update f k v'.heap k' } := by
    funext k'
    by_cases hk : k' = k
    · subst hk
      simp only [update_self]
      rw [← hv.count]
      rfl
    · simp only [update_of_ne hk]
      rfl
  refine ⟨update f k v'.heap, congrArg (fun x ↦ ({ s with sched := x } : State n)) hsched, ?_⟩
  · intro k' i h1 hi
    by_cases hk : k' = k
    · subst hk
      simp only [update_self] at hi ⊢
      exact hv.slot i h1 hi
    · simp only [update_of_ne hk] at hi ⊢
      exact h k' i h1 hi

private theorem count_refill : ((s.refill f).sched k).count = (s.sched k).count := rfl

private theorem enqueue_refill (h : Fills s f) : ∃ g,
    enqueue (s.refill f) k p = ((enqueue s k p).1.refill g, (enqueue s k p).2) ∧
      Fills (enqueue s k p).1 g := by
  by_cases hroom : (s.sched k).count ≥ NPROC
  · refine ⟨f, ?_⟩
    unfold enqueue
    rw [count_refill, if_pos hroom, if_pos hroom]
    exact ⟨rfl, h⟩
  · obtain ⟨g, hg, hfill⟩ := refill_heap h ((h.same k).enqueue (key s k) (some p))
    refine ⟨g, ?_⟩
    unfold enqueue
    rw [count_refill, if_neg hroom, if_neg hroom, key_refill]
    exact ⟨Prod.ext hg rfl, hfill⟩

private theorem dequeue_refill (h : Fills s f) : ∃ g,
    dequeue (s.refill f) k = ((dequeue s k).1.refill g, (dequeue s k).2) ∧
      Fills (dequeue s k).1 g := by
  by_cases h0 : (s.sched k).count = 0
  · refine ⟨f, ?_⟩
    unfold dequeue
    rw [count_refill, if_pos h0, if_pos h0]
    exact ⟨rfl, h⟩
  · obtain ⟨g, hg, hfill⟩ := refill_heap h ((h.same k).dequeue (key s k))
    have hroot : f k 1 = (s.sched k).heap 1 := h k 1 (le_refl 1) (Nat.pos_of_ne_zero h0)
    refine ⟨g, ?_⟩
    unfold dequeue
    rw [count_refill, if_neg h0, if_neg h0, key_refill]
    exact ⟨Prod.ext hg hroot, hfill⟩

private theorem get_next_thread_refill :
    get_next_thread (s.refill f) m = ((get_next_thread s m).1.refill f, (get_next_thread s m).2) := by
  have hrun : isRunnable (s.refill f) = isRunnable s := by
    funext x
    cases x <;> rfl
  have hnext : nextIndex (s.refill f) m = nextIndex s m := by
    unfold nextIndex
    rw [hrun]
    rfl
  unfold get_next_thread
  rw [hnext, hrun]
  by_cases h0 : (s.proc m).t_cnt = 0
  · exact (if_pos h0).trans (by rw [if_pos h0])
  · rw [if_neg h0]
    refine (if_neg h0).trans ?_
    cases nextIndex s m <;> rfl

/-! ### The branch for a sleeping root -/

/-- What follows when `p` is back in the heap. -/
private def goOn (s : State n) (c : Fin n) (k : Class) (p : Slot) : Except Fault (State n) :=
  if (s.proc p).isthread = true then
    if ReadsNull s p then
      .error .pointer
    else
      match get_next_thread s p with
      | (s, none) => .ok s
      | (s, some q) => .ok (dispatch s c k q)
  else
    .ok s

private theorem branch_asleep (h : FindsAsleep s k p) :
    branch s c k = park (dequeue s k).1 k p >>= fun u ↦ goOn (enqueue u k p).1 c k p := by
  have hd : dequeue s k = ((dequeue s k).1, some p) :=
    Prod.ext rfl ((dequeue_snd h.pos).trans h.root)
  unfold branch
  rw [hd]
  dsimp only
  rw [dequeue_proc, if_neg h.placed, if_pos h.asleep]
  rfl

private theorem goOn_refill : goOn (s.refill f) c k p = (goOn s c k p).map (·.refill f) := by
  have hnull : ReadsNull (s.refill f) p ↔ ReadsNull s p := by
    have hnext : nextIndex (s.refill f) p = nextIndex s p := by
      unfold nextIndex
      have hrun : isRunnable (s.refill f) = isRunnable s := by
        funext x
        cases x <;> rfl
      rw [hrun]
      rfl
    unfold ReadsNull
    rw [hnext]
    rfl
  unfold goOn
  by_cases hi : (s.proc p).isthread = true
  · rw [if_pos hi]
    refine (if_pos hi).trans ?_
    by_cases hr : ReadsNull s p
    · rw [if_pos hr, if_pos (hnull.mpr hr)]
      rfl
    · rw [if_neg hr, if_neg fun h ↦ hr (hnull.mp h), get_next_thread_refill]
      cases h : get_next_thread s p with
      | mk u x => cases x <;> rfl
  · rw [if_neg hi]
    exact if_neg hi

private theorem goOn_ok (h : goOn s c k p = .ok t) :
    t.sched = s.sched ∧ ∀ q, (t.proc q).pass = (s.proc q).pass := by
  have hget : ∀ q, ((get_next_thread s p).1.proc q).pass = (s.proc q).pass :=
    fun q ↦ get_next_thread_field (·.pass) fun _ _ ↦ rfl
  unfold goOn at h
  split at h
  · split at h
    · cases h
    · split at h
      · next u hu =>
        cases h
        have hfst := congrArg Prod.fst hu
        dsimp only at hfst
        rw [← hfst]
        exact ⟨get_next_thread_sched, hget⟩
      · next u x hu =>
        cases h
        have hfst := congrArg Prod.fst hu
        dsimp only at hfst
        rw [← hfst]
        refine ⟨get_next_thread_sched, fun q ↦ ?_⟩
        rw [dispatch_proc, modify_field (·.pass) rfl, hget]
  · cases h
    exact ⟨rfl, fun _ ↦ rfl⟩

private theorem park_refill (h : Fills s f) (hk : k = .mlfq ∨ 1 ≤ (s.sched .stride).count) :
    park (s.refill f) k p = (park s k p).map (·.refill f) := by
  cases k with
  | mlfq => rfl
  | stride =>
    rcases hk with hk | hk
    · cases hk
    · have hlast : ((s.refill f).sched .stride).heap ((s.refill f).sched .stride).count =
          (s.sched .stride).heap (s.sched .stride).count := h .stride _ hk (le_refl _)
      unfold park
      dsimp only
      rw [hlast]
      cases (s.sched .stride).heap (s.sched .stride).count <;> rfl

private theorem park_sched (h : park s k p = .ok u) : u.sched = s.sched := by
  obtain ⟨_, _, _, rfl, _⟩ := park_ok h
  rfl

private theorem Fills.congr (h : Fills s f) (hs : t.sched = s.sched) : Fills t f := by
  unfold Fills
  rw [hs]
  exact h

private theorem findsAsleep_refill (hf : Fills s f) (h : FindsAsleep s k p) :
    FindsAsleep (s.refill f) k p :=
  ⟨h.pos, (hf k 1 (le_refl 1) h.pos).trans h.root, h.placed, h.asleep⟩

private theorem branch_awake (h : ∀ p, ¬FindsAsleep s k p) : ∃ t, branch s c k = .ok t := by
  unfold branch
  rcases Nat.eq_zero_or_pos (s.sched k).count with h0 | h0
  · rw [dequeue_of_empty h0]
    exact ⟨_, rfl⟩
  · have hroot := dequeue_snd h0
    split
    · exact ⟨_, rfl⟩
    · next u p hu =>
      have hproc : u.proc = s.proc := (congrArg (·.1.proc) hu).symm.trans dequeue_proc
      have hp : (s.sched k).heap 1 = some p := hroot.symm.trans (congrArg Prod.snd hu)
      rw [hproc]
      split
      · exact ⟨_, rfl⟩
      · next hm =>
        rw [if_neg fun hs ↦ h p ⟨h0, hp, hm, hs⟩]
        split
        · exact ⟨_, rfl⟩
        · exact ⟨_, rfl⟩

private theorem asleep_refill (hf : Fills s f) (h : FindsAsleep s k p)
    (hk : k = .mlfq ∨ 2 ≤ (s.sched .stride).count) :
    ∃ g, branch (s.refill f) c k = (branch s c k).map (·.refill g) ∧
      ∀ t, branch s c k = .ok t → Fills t g := by
  obtain ⟨g, hg, hfill⟩ := dequeue_refill (k := k) hf
  have hcount : k = .mlfq ∨ 1 ≤ ((dequeue s k).1.sched .stride).count := by
    rcases hk with hk | hk
    · exact .inl hk
    · right
      cases k with
      | mlfq =>
        rw [dequeue_sched_of_ne (by decide)]
        omega
      | stride =>
        rw [dequeue_toHeap h.pos, Heap.count_dequeue]
        omega
  have hpark := park_refill (p := p) hfill hcount
  rw [branch_asleep h, branch_asleep (findsAsleep_refill hf h), hg, hpark]
  cases hu : park (dequeue s k).1 k p with
  | error e => exact ⟨g, rfl, fun t ht ↦ by cases ht⟩
  | ok u =>
    obtain ⟨g', hg', hfill'⟩ := enqueue_refill (k := k) (p := p) (hfill.congr (park_sched hu))
    refine ⟨g', ?_, fun t ht ↦ hfill'.congr (goOn_ok ht).1⟩
    show goOn (enqueue (u.refill g) k p).1 c k p = _
    rw [hg']
    exact goOn_refill

private theorem awake_refill (hf : Fills s f) (h : ∀ p, ¬FindsAsleep s k p) :
    ∃ g, branch (s.refill f) c k = (branch s c k).map (·.refill g) ∧
      ∀ t, branch s c k = .ok t → Fills t g := by
  obtain ⟨g, hg, hfill⟩ := dequeue_refill (k := k) hf
  refine ⟨g, ?_⟩
  unfold branch
  rw [hg]
  cases hd : (dequeue s k).2 with
  | none =>
    have hd' : dequeue s k = ((dequeue s k).1, none) := Prod.ext rfl hd
    rw [hd']
    exact ⟨rfl, fun t ht ↦ by cases ht; exact hfill⟩
  | some p =>
    have hd' : dequeue s k = ((dequeue s k).1, some p) := Prod.ext rfl hd
    rw [hd']
    have h0 : 0 < (s.sched k).count := by
      rcases Nat.eq_zero_or_pos (s.sched k).count with h0 | h0
      · rw [dequeue_of_empty h0] at hd
        cases hd
      · exact h0
    have hroot : (s.sched k).heap 1 = some p := (dequeue_snd h0).symm.trans hd
    have hproc : ((dequeue s k).1.refill g).proc = (dequeue s k).1.proc := rfl
    dsimp only
    rw [hproc]
    by_cases hm : Misplaced k ((dequeue s k).1.proc p)
    · rw [if_pos hm, if_pos hm]
      exact ⟨rfl, fun t ht ↦ by cases ht; exact hfill⟩
    · have hs : ((dequeue s k).1.proc p).state ≠ .SLEEPING := by
        intro hs
        rw [dequeue_proc] at hm hs
        exact h p ⟨h0, hroot, hm, hs⟩
      rw [if_neg hm, if_neg hm, if_neg hs, if_neg hs]
      split
      · exact ⟨rfl, fun t ht ↦ by cases ht; exact hfill⟩
      · exact ⟨rfl, fun t ht ↦ by cases ht; exact hfill⟩

/-! ### The last entry -/

private theorem lastLeft_eq_some (h : lastLeft s = some q) : 2 ≤ (s.sched .stride).count ∧
    ((dequeue s .stride).1.sched .stride).heap ((dequeue s .stride).1.sched .stride).count =
      some q := by
  unfold lastLeft at h
  split at h
  · next h2 =>
    refine ⟨h2, ?_⟩
    rw [dequeue_toHeap (Nat.zero_lt_of_lt h2)]
    exact h
  · cases h

private theorem mem_of_lastLeft (h : lastLeft s = some q) : some q ∈ entries s .stride := by
  obtain ⟨h2, hq⟩ := lastLeft_eq_some h
  apply mem_entries_dequeue (k := .stride)
  unfold entries Heap.entries
  rw [Heap.mem_contents]
  refine ⟨_, ?_, le_refl _, hq⟩
  rw [dequeue_toHeap (Nat.zero_lt_of_lt h2), Heap.count_dequeue]
  omega

private theorem park_stride (h : lastLeft s = some q) : park (dequeue s .stride).1 .stride p =
    .ok ((dequeue s .stride).1.modify p fun v ↦ { v with pass := (s.proc q).pass }) := by
  unfold park
  dsimp only
  rw [(lastLeft_eq_some h).2]
  dsimp only
  rw [dequeue_proc]

private theorem lastLeft_refill (h : Fills s f) : lastLeft (s.refill f) = lastLeft s := by
  unfold lastLeft
  rw [count_refill, key_refill]
  by_cases h2 : 2 ≤ (s.sched .stride).count
  · rw [if_pos h2, if_pos h2]
    have hsame := (h.same .stride).dequeue (key s .stride)
    refine hsame.slot _ ?_ (le_refl _)
    omega
  · rw [if_neg h2, if_neg h2]

/-- Without a last entry, the branch reads slot 0. -/
private theorem branch_alone (h : FindsAsleep s .stride p) (hl : lastLeft s = none)
    (h0 : (s.sched .stride).heap 0 = none) : branch s c .stride = .error .pointer := by
  have hnull : ((dequeue s .stride).1.sched .stride).heap
      ((dequeue s .stride).1.sched .stride).count = none := by
    rw [dequeue_toHeap h.pos]
    unfold lastLeft at hl
    split at hl
    · exact hl
    · have h1 : (s.sched .stride).count - 1 = 0 := by omega
      rw [Heap.count_dequeue, h1]
      unfold Heap.dequeue
      rw [h1, if_neg (lt_irrefl 0)]
      exact h0
  have hpark : park (dequeue s .stride).1 .stride p = .error .pointer := by
    unfold park
    dsimp only
    rw [hnull]
  rw [branch_asleep h, hpark]
  rfl

private theorem readsNull_parked (hu : park (dequeue s k).1 k p = .ok u) :
    ReadsNull (enqueue u k p).1 p ↔ ReadsNull s p := by
  obtain ⟨l, i, x, rfl, _⟩ := park_ok hu
  apply readsNull_congr
  · intro q
    rw [enqueue_proc, modify_field (·.state) rfl, dequeue_proc]
  · rw [enqueue_proc, modify_field (·.t_cnt) rfl, dequeue_proc]
  · rw [enqueue_proc, modify_field (·.t_lastsched) rfl, dequeue_proc]
  · rw [enqueue_proc, modify_field (·.threads) rfl, dequeue_proc]

private theorem isthread_parked (hu : park (dequeue s k).1 k p = .ok u) :
    ((enqueue u k p).1.proc p).isthread = (s.proc p).isthread := by
  obtain ⟨l, i, x, rfl, _⟩ := park_ok hu
  rw [enqueue_proc, modify_field (·.isthread) rfl, dequeue_proc]

private theorem goOn_cases (s : State n) (c : Fin n) (k : Class) (p : Slot) :
    (s.proc p).isthread = true ∧ ReadsNull s p ∧ goOn s c k p = .error .pointer ∨
      ((s.proc p).isthread = true → ¬ReadsNull s p) ∧ ∃ t, goOn s c k p = .ok t := by
  unfold goOn
  by_cases hi : (s.proc p).isthread = true
  · rw [if_pos hi]
    by_cases hr : ReadsNull s p
    · rw [if_pos hr]
      exact .inl ⟨hi, hr, rfl⟩
    · rw [if_neg hr]
      right
      refine ⟨fun _ ↦ hr, ?_⟩
      cases get_next_thread s p with
      | mk u x =>
        cases x with
        | none => exact ⟨_, rfl⟩
        | some q => exact ⟨_, rfl⟩
  · rw [if_neg hi]
    exact .inr ⟨fun h ↦ absurd h hi, _, rfl⟩

/-- The branch for a sleeping root ends well if and only if `park` does and the group is sound. -/
private theorem branch_asleep_ok (h : FindsAsleep s k p) (hu : park (dequeue s k).1 k p = .ok u) :
    (s.proc p).isthread = true ∧ ReadsNull s p ∧ branch s c k = .error .pointer ∨
      ((s.proc p).isthread = true → ¬ReadsNull s p) ∧
        ∃ t, branch s c k = .ok t ∧ ∀ q, (t.proc q).pass = (u.proc q).pass := by
  have hbranch : branch s c k = goOn (enqueue u k p).1 c k p := by
    rw [branch_asleep h, hu]
    rfl
  rw [hbranch, ← isthread_parked hu, ← readsNull_parked hu]
  rcases goOn_cases (enqueue u k p).1 c k p with h | ⟨h, t, ht⟩
  · exact .inl h
  · refine .inr ⟨h, t, ht, fun q ↦ ?_⟩
    rw [(goOn_ok ht).2, enqueue_proc]

/-! ### Decisions -/

private theorem scheduler_idle (hp : (s.cpu c).proc = none) (hd : (s.cpu c).dispatched = none) :
    scheduler s c = branch s c (chosen s) :=
  if_neg fun h ↦ h.elim (fun h ↦ h hp) fun h ↦ h hd

private theorem Decides.last (h : Decides s c) (hp : (s.cpu c).proc = none)
    (hd : (s.cpu c).dispatched = none) (hk : chosen s = .stride) (ha : FindsAsleep s .stride p) :
    ∃ q, lastLeft s = some q ∧ (s.proc p).pass ≤ (s.proc q).pass := by
  have hsched : scheduler s c = branch s c .stride := by rw [scheduler_idle hp hd, hk]
  cases hl : lastLeft s with
  | some q =>
    have hpark := park_stride (p := p) hl
    rcases branch_asleep_ok (c := c) ha hpark with ⟨_, _, herr⟩ | ⟨_, t, ht, hpass⟩
    · exact absurd (hsched.trans herr) h.safe
    · have hle := (h.pass p t hk ha (hsched.trans ht)).1
      rw [hpass, modify_proc_self] at hle
      exact ⟨q, rfl, hle⟩
  | none =>
    exfalso
    -- With the slots past the entries empty, `park` follows a null pointer.
    let f : Class → Nat → Ptr := fun k i ↦
      if 1 ≤ i ∧ i ≤ (s.sched k).count then (s.sched k).heap i else none
    have hf : Fills s f := fun k i h1 hi ↦ if_pos ⟨h1, hi⟩
    obtain ⟨g, hg, _⟩ := h.slots f hf
    have herr : scheduler (s.refill f) c = .error .pointer := by
      rw [scheduler_idle (s := s.refill f) hp hd]
      have hchosen : chosen (s.refill f) = .stride := hk
      rw [hchosen]
      exact branch_alone (findsAsleep_refill hf ha) ((lastLeft_refill hf).trans hl) rfl
    rw [herr] at hg
    have hsafe := h.safe
    cases hs : scheduler s c with
    | ok t =>
      rw [hs] at hg
      cases hg
    | error e =>
      rw [hs] at hg hsafe
      cases hg
      exact hsafe rfl

private theorem Decides.group (h : Decides s c) (hp : (s.cpu c).proc = none)
    (hd : (s.cpu c).dispatched = none) (ha : FindsAsleep s (chosen s) p)
    (hi : (s.proc p).isthread = true) : ¬ReadsNull s p := by
  have hpark : ∃ u, park (dequeue s (chosen s)).1 (chosen s) p = .ok u := by
    cases hk : chosen s with
    | mlfq => exact ⟨_, rfl⟩
    | stride =>
      obtain ⟨q, hq, _⟩ := h.last hp hd hk (hk ▸ ha)
      exact ⟨_, park_stride hq⟩
  obtain ⟨u, hu⟩ := hpark
  rcases branch_asleep_ok (c := c) ha hu with ⟨_, _, herr⟩ | ⟨hnull, _⟩
  · exact absurd ((scheduler_idle hp hd).trans herr) h.safe
  · exact hnull hi

private theorem Orderly.decides_asleep (h : Orderly s) (hfull : Full s) (hp : (s.cpu c).proc = none)
    (hd : (s.cpu c).dispatched = none) (ha : FindsAsleep s (chosen s) p) : Decides s c := by
  have hsched := scheduler_idle hp hd
  have hlast : chosen s = .mlfq ∨ 2 ≤ (s.sched .stride).count := by
    cases hk : chosen s with
    | mlfq => exact .inl rfl
    | stride =>
      obtain ⟨q, hq, _⟩ := h.last hk p (hk ▸ ha)
      exact .inr (lastLeft_eq_some hq).1
  have hpark : ∃ u, park (dequeue s (chosen s)).1 (chosen s) p = .ok u := by
    cases hk : chosen s with
    | mlfq => exact ⟨_, rfl⟩
    | stride =>
      obtain ⟨q, hq, _⟩ := h.last hk p (hk ▸ ha)
      exact ⟨_, park_stride hq⟩
  obtain ⟨u, hu⟩ := hpark
  rcases branch_asleep_ok (c := c) ha hu with ⟨hi, hnull, _⟩ | ⟨_, t, ht, hpass⟩
  · exact absurd hnull (h.group p ha hi)
  · refine ⟨hfull _, ?_, ?_, ?_⟩
    · rw [hsched, ht]
      intro herr
      cases herr
    · intro f hf
      rw [hsched, scheduler_idle (s := s.refill f) hp hd]
      exact asleep_refill hf ha hlast
    · intro p' t' hk ha' ht'
      rw [hsched, ht] at ht'
      cases ht'
      cases ha.root.symm.trans (hk ▸ ha'.root)
      obtain ⟨q, hq, hle⟩ := h.last hk p ha'
      have hpu : (u.proc p).pass = (s.proc q).pass := by
        rw [hk, park_stride hq] at hu
        cases hu
        rw [modify_proc_self]
      rw [hpass, hpu]
      exact ⟨hle, q, mem_of_lastLeft hq, le_refl _⟩

private theorem decides_awake (hfull : Full s) (hp : (s.cpu c).proc = none)
    (hd : (s.cpu c).dispatched = none) (ha : ∀ p, ¬FindsAsleep s (chosen s) p) : Decides s c := by
  have hsched := scheduler_idle hp hd
  refine ⟨hfull _, ?_, ?_, ?_⟩
  · intro herr
    rw [hsched] at herr
    obtain ⟨t, ht⟩ := branch_awake (c := c) ha
    rw [herr] at ht
    cases ht
  · intro f hf
    rw [hsched, scheduler_idle (s := s.refill f) hp hd]
    exact awake_refill hf ha
  · intro p t hk hp' _
    rw [← hk] at hp'
    exact absurd hp' (ha p)

/-- In the states that are reached, an iteration on an idle CPU decides so if and only if the root
that it finds is orderly. -/
theorem decides_iff (h : Reaches (step round) (boot n) s) (hp : (s.cpu c).proc = none)
    (hd : (s.cpu c).dispatched = none) : Decides s c ↔ Orderly s := by
  constructor
  · intro hdec
    exact ⟨fun hk p ha ↦ hdec.last hp hd hk ha, fun p ha hi ↦ hdec.group hp hd ha hi⟩
  · intro hord
    by_cases ha : ∃ p, FindsAsleep s (chosen s) p
    · obtain ⟨p, ha⟩ := ha
      exact hord.decides_asleep (full_reached h) hp hd ha
    · exact decides_awake (full_reached h) hp hd fun p hp ↦ ha ⟨p, hp⟩

end

section

/-- The first process forks and asks for a share. -/
def shareAndChild : List (Action 1) :=
  [.scheduler cpu0, .fork cpu0 true, .forkDone cpu0 true, .set_cpu_share cpu0 10,
    .sleep cpu0 (.object 0)]

theorem decides_iff_shareAndChild :
    Decides (final (step float) (boot 1) shareAndChild) cpu0 := by
  have hok : (exec (step float) (boot 1) shareAndChild).isOk = true := by decide +kernel
  have hidle : ((final (step float) (boot 1) shareAndChild).cpu cpu0).proc = none ∧
      ((final (step float) (boot 1) shareAndChild).cpu cpu0).dispatched = none := by decide +kernel
  have hawake : ∀ p, ¬FindsAsleep (final (step float) (boot 1) shareAndChild) .mlfq p := by
    decide +kernel
  have hmlfq : chosen (final (step float) (boot 1) shareAndChild) = .mlfq := by decide +kernel
  have hreach : Reaches (step float) (boot 1) (final (step float) (boot 1) shareAndChild) :=
    ⟨shareAndChild, exec_final hok⟩
  generalize final (step float) (boot 1) shareAndChild = s at hreach hidle hawake hmlfq ⊢
  refine (decides_iff hreach hidle.1 hidle.2).mpr ⟨fun hk ↦ ?_, ?_⟩
  · cases hmlfq.symm.trans hk
  · intro p hp
    exact absurd (hmlfq ▸ hp) (hawake p)

/-- The child has used a tick, and both sleep. -/
def bothAsleep : List (Action 1) :=
  shareAndChild ++ [.scheduler cpu0, .tick cpu0, .sleep cpu0 (.object 1)]

/-- The next iteration takes the only entry of the stride heap and follows a null pointer. -/
theorem bothAsleep_undecided : (exec (step float) (boot 1) bothAsleep).isOk = true ∧
    ¬Decides (final (step float) (boot 1) bothAsleep) cpu0 := by
  have hok : (exec (step float) (boot 1) bothAsleep).isOk = true := by decide +kernel
  have herr : (match scheduler (final (step float) (boot 1) bothAsleep) cpu0 with
      | .error .pointer => true
      | _ => false) = true := by decide +kernel
  refine ⟨hok, fun h ↦ h.safe ?_⟩
  split at herr
  · assumption
  · cases herr

end

end Xv6.Sched
