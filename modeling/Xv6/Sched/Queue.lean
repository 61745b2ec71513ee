import Xv6.Lib.Outcome
import Xv6.Sched.Places

/-!
# The heaps as priority queues

`mlfq_enqueue`, `mlfq_dequeue`, `stride_enqueue` and `stride_dequeue` once more, access by
access: an index outside `1 .. NPROC` and a key read through the null pointer are faults. On a
heap of processes in heap order there is no fault, and what is computed is what the scheduler's
model computes.
-/

namespace Xv6.Sched

open Function Lib

/-! ### Accesses -/

section

/-- `heap[i]`, for one of the entries `1 .. NPROC`. -/
def load (a : Nat → Ptr) (i : Nat) : Except Fault Ptr :=
  if 1 ≤ i ∧ i ≤ NPROC then .ok (a i) else .error .pointer

/-- `heap[i] = p`, for one of the entries `1 .. NPROC`. -/
def store (a : Nat → Ptr) (i : Nat) (p : Ptr) : Except Fault (Nat → Ptr) :=
  if 1 ≤ i ∧ i ≤ NPROC then .ok (update a i p) else .error .pointer

variable (less : Ptr → Ptr → Except Fault Bool)

/-- The loop of an enqueue of `p` and the assignment after it. -/
def raise (p : Ptr) : Nat → (Nat → Ptr) → Nat → Except Fault (Nat → Ptr)
  | 0, _, _ => .error .disabled
  | fuel + 1, a, child =>
    if child > 1 then do
      let q ← load a (child / 2)
      if (← less p q) = true then
        raise p fuel (← store a child q) (child / 2)
      else
        store a child p
    else
      store a child p

/-- The child that the loop of a dequeue looks at, from the left one. -/
def lesser (count : Nat) (a : Nat → Ptr) (child : Nat) : Except Fault Nat :=
  if child < count then do
    pure (if (← less (← load a child) (← load a (child + 1))) = true then child else child + 1)
  else
    pure child

/-- The loop of a dequeue, with the last entry and the entries left, up to its `parent`. -/
def lower (last : Ptr) (count : Nat) : Nat → (Nat → Ptr) → Nat → Except Fault ((Nat → Ptr) × Nat)
  | 0, _, _ => .error .disabled
  | fuel + 1, a, parent =>
    if 2 * parent ≤ count then do
      let child ← lesser less count a (2 * parent)
      let q ← load a child
      if (← less last q) = true then
        pure (a, parent)
      else
        lower last count fuel (← store a parent q) child
    else
      pure (a, parent)

/-- An enqueue on the array and its count, with the result of the call. -/
def pushHeap (v : Heap Ptr) (p : Ptr) : Except Fault (Heap Ptr × Int) :=
  if v.count ≥ NPROC then
    .ok (v, -1)
  else do
    let heap ← raise less p (v.count + 2) v.heap (v.count + 1)
    pure (⟨heap, v.count + 1⟩, 0)

/-- A dequeue on the array and its count, with the result of the call. -/
def popHeap (v : Heap Ptr) : Except Fault (Heap Ptr × Ptr) :=
  if v.count = 0 then
    .ok (v, none)
  else do
    let p ← load v.heap 1
    let last ← load v.heap v.count
    let count := v.count - 1
    let (heap, parent) ← lower less last count (count + 1) v.heap 1
    let heap ← if count > 0 then store heap parent last else pure heap
    pure (⟨heap, count⟩, p)

end

section

variable {n : Nat} (s : State n) (k : Class)

/-- `p->qlev < q->qlev`, or `p->pass < q->pass`. -/
def less (p q : Ptr) : Except Fault Bool :=
  if p = none ∨ q = none then .error .pointer else .ok (key s k p < key s k q)

/-- The state after a call on heap `k`. -/
def State.setHeap (h : Heap Ptr) : State n :=
  { s with sched := update s.sched k { s.sched k with toHeap := h } }

/-- `mlfq_enqueue` and `stride_enqueue`, access by access; `scheduler.c:47-71,104-128`. -/
def checkedEnqueue (p : Slot) : Except Fault (State n × Int) := do
  let (h, x) ← pushHeap (less s k) (s.sched k).toHeap (some p)
  pure (s.setHeap k h, x)

/-- `mlfq_dequeue` and `stride_dequeue`, access by access; `scheduler.c:73-102,130-159`. -/
def checkedDequeue : Except Fault (State n × Ptr) := do
  let (h, p) ← popHeap (less s k) (s.sched k).toHeap
  pure (s.setHeap k h, p)

/-- A heap of at most `NPROC` processes that is in order. -/
structure Queue : Prop where
  bound : (s.sched k).count ≤ NPROC
  full : none ∉ entries s k
  order : Heap.Ordered (key s k) (s.sched k).heap (s.sched k).count

/-- Heap `k` of `s` and heap `k'` of `t` hold the same pointers at the same places, and their
keys compare alike. -/
structure Alike {m : Nat} (t : State m) (k' : Class) : Prop where
  heap : (s.sched k).toHeap = (t.sched k').toHeap
  key : ∀ p q, key s k (some p) < key s k (some q) ↔ key t k' (some p) < key t k' (some q)

/-- What a priority queue of `NPROC` places answers. -/
structure Answers : Prop where
  enqueue : ∀ p, (s.sched k).count < NPROC → ∃ h,
    checkedEnqueue s k p = .ok (s.setHeap k h, 0) ∧ Queue (s.setHeap k h) k ∧
      entries (s.setHeap k h) k = some p ::ₘ entries s k
  full : ∀ p, (s.sched k).count = NPROC → checkedEnqueue s k p = .ok (s, -1)
  empty : (s.sched k).count = 0 → checkedDequeue s k = .ok (s, none)
  dequeue : 0 < (s.sched k).count → ∃ h p,
    checkedDequeue s k = .ok (s.setHeap k h, some p) ∧ Queue (s.setHeap k h) k ∧
      entries s k = some p ::ₘ entries (s.setHeap k h) k ∧
      ∀ x ∈ entries s k, key s k (some p) ≤ key s k x

end

/-! ### No access fails -/

section

variable {n : Nat} {s : State n} {k : Class} {a : Nat → Ptr} {p last : Ptr} {count : Nat}

private theorem load_ok {i : Nat} (h1 : 1 ≤ i) (h : i ≤ NPROC) : load a i = .ok (a i) := by
  simp [load, h1, h]

private theorem store_ok {i : Nat} (h1 : 1 ≤ i) (h : i ≤ NPROC) :
    store a i p = .ok (update a i p) := by
  simp [store, h1, h]

private theorem less_ok {q : Ptr} (hp : p ≠ none) (hq : q ≠ none) :
    less s k p q = .ok (decide (key s k p < key s k q)) := by
  simp [less, hp, hq]

/-- The loop of an enqueue moves the hole as `siftUp` does. -/
private theorem raise_eq (fuel : Nat) (a : Nat → Ptr) {child : Nat} (hp : p ≠ none)
    (h1 : 1 ≤ child) (hfuel : child ≤ fuel + 1) (hn : child ≤ NPROC)
    (ha : ∀ i, 1 ≤ i → i < child → a i ≠ none) :
    raise (less s k) p (fuel + 1) a child = .ok (Heap.siftUp (key s k) p fuel a child) := by
  induction fuel generalizing a child with
  | zero =>
    have hchild : ¬ child > 1 := by omega
    simp [raise, hchild, Heap.siftUp, store_ok h1 hn]
  | succ fuel ih =>
    unfold raise Heap.siftUp
    by_cases hchild : child > 1
    · have hq : a (child / 2) ≠ none := ha _ (by omega) (by omega)
      have hload : load a (child / 2) = .ok (a (child / 2)) := load_ok (by omega) (by omega)
      by_cases hlt : key s k p < key s k (a (child / 2))
      · have hhole : ∀ i, 1 ≤ i → i < child / 2 → update a child (a (child / 2)) i ≠ none := by
          intro i hi hic
          rw [update_of_ne (by omega)]
          exact ha i hi (by omega)
        have hrec := @ih (update a child (a (child / 2))) (child / 2) (by omega) (by omega)
          (by omega) hhole
        simp [hchild, hload, less_ok hp hq, hlt, store_ok h1 hn, hrec, bind, Except.bind]
      · simp [hchild, hload, less_ok hp hq, hlt, store_ok h1 hn, bind, Except.bind]
    · simp [hchild, store_ok h1 hn]

private theorem lesser_eq {parent : Nat} (h1 : 1 ≤ parent) (hn : count ≤ NPROC)
    (h2 : 2 * parent ≤ count) (ha : ∀ i, parent < i → i ≤ count → a i ≠ none) :
    lesser (less s k) count a (2 * parent) = .ok (Heap.pick (key s k) count a parent) := by
  unfold lesser Heap.pick
  split
  · have hl : a (2 * parent) ≠ none := ha _ (by omega) (by omega)
    have hr : a (2 * parent + 1) ≠ none := ha _ (by omega) (by omega)
    have hloadl : load a (2 * parent) = .ok (a (2 * parent)) := load_ok (by omega) (by omega)
    have hloadr : load a (2 * parent + 1) = .ok (a (2 * parent + 1)) := load_ok (by omega) (by omega)
    simp [hloadl, hloadr, less_ok hl hr, bind, Except.bind, pure, Except.pure]
  · rfl

/-- The loop of a dequeue moves the hole as `siftDown` does. -/
private theorem lower_eq (fuel : Nat) (a : Nat → Ptr) {parent : Nat} (hl : last ≠ none)
    (h1 : 1 ≤ parent) (hparent : parent ≤ count) (hfuel : count ≤ parent + fuel)
    (hn : count ≤ NPROC) (ha : ∀ i, parent < i → i ≤ count → a i ≠ none) :
    ∃ b j, lower (less s k) last count (fuel + 1) a parent = .ok (b, j) ∧ 1 ≤ j ∧ j ≤ count ∧
      update b j last = Heap.siftDown (key s k) last count fuel a parent := by
  induction fuel generalizing a parent with
  | zero =>
    have hstop : ¬ 2 * parent ≤ count := by omega
    refine ⟨a, parent, ?_, h1, hparent, rfl⟩
    simp [lower, hstop, pure, Except.pure]
  | succ fuel ih =>
    unfold lower Heap.siftDown
    by_cases h2 : 2 * parent ≤ count
    · have hlesser := lesser_eq (s := s) (k := k) h1 hn h2 ha
      obtain ⟨hlt, hle, -⟩ := Heap.pick_range (key s k) a h1 h2
      generalize Heap.pick (key s k) count a parent = child at *
      have hq : a child ≠ none := ha child hlt hle
      have hload : load a child = .ok (a child) := load_ok (by omega) (by omega)
      by_cases hmove : key s k last < key s k (a child)
      · refine ⟨a, parent, ?_, h1, hparent, ?_⟩
        · simp [h2, hlesser, hload, less_ok hl hq, hmove, bind, Except.bind, pure, Except.pure]
        · simp [not_le.mpr hmove]
      · have hhole : ∀ i, child < i → i ≤ count → update a parent (a child) i ≠ none := by
          intro i hi hin
          rw [update_of_ne (by omega)]
          exact ha i (by omega) hin
        obtain ⟨b, j, hrec, hj, hjn, hb⟩ :=
          @ih (update a parent (a child)) child (by omega) hle (by omega) hhole
        refine ⟨b, j, ?_, hj, hjn, ?_⟩
        · have hstore : store a parent (a child) = .ok (update a parent (a child)) :=
            store_ok h1 (by omega)
          simp [h2, hlesser, hload, less_ok hl hq, hmove, hstore, hrec, bind, Except.bind]
        · rw [hb, if_pos ⟨h2, not_lt.mp hmove⟩]
    · refine ⟨a, parent, ?_, h1, hparent, ?_⟩
      · simp [h2, pure, Except.pure]
      · simp [h2]

theorem Queue.ne_none (h : Queue s k) {i : Nat} (h1 : 1 ≤ i) (hi : i ≤ (s.sched k).count) :
    (s.sched k).heap i ≠ none := by
  intro hnone
  apply h.full
  exact Heap.mem_contents.mpr ⟨i, h1, hi, hnone⟩

theorem pushHeap_eq (h : Queue s k) (hroom : (s.sched k).count < NPROC) {p : Slot} :
    pushHeap (less s k) (s.sched k).toHeap (some p) =
      .ok ((s.sched k).toHeap.enqueue (key s k) (some p), 0) := by
  have hraise := raise_eq (s := s) (k := k) ((s.sched k).count + 1) (s.sched k).heap
    (Option.some_ne_none p) (Nat.le_add_left 1 (s.sched k).count) (Nat.le_succ _) hroom
    fun i h1 hi ↦ h.ne_none h1 (by omega)
  simp [pushHeap, hroom, hraise, Heap.enqueue, bind, Except.bind, pure, Except.pure]

theorem popHeap_eq (h : Queue s k) (h0 : 0 < (s.sched k).count) :
    popHeap (less s k) (s.sched k).toHeap =
      .ok ((s.sched k).toHeap.dequeue (key s k), (s.sched k).heap 1) := by
  have hbound := h.bound
  have hne : (s.sched k).count ≠ 0 := by omega
  have hroot : load (s.sched k).heap 1 = .ok ((s.sched k).heap 1) := load_ok (le_refl 1) (by omega)
  have hlast : load (s.sched k).heap (s.sched k).count = .ok ((s.sched k).heap (s.sched k).count) :=
    load_ok h0 hbound
  by_cases hpos : 0 < (s.sched k).count - 1
  · obtain ⟨b, j, hlower, hj, hjn, hb⟩ := lower_eq (s := s) (k := k) ((s.sched k).count - 1)
      (s.sched k).heap (h.ne_none h0 (le_refl _)) (le_refl 1) hpos (by omega) (by omega)
      fun i h1 hi ↦ h.ne_none (by omega) (by omega)
    have hstore : store b j ((s.sched k).heap (s.sched k).count) =
        .ok (update b j ((s.sched k).heap (s.sched k).count)) := store_ok hj (by omega)
    simp [popHeap, hne, hroot, hlast, hlower, hpos, hstore, hb, Heap.dequeue, bind, Except.bind,
      pure, Except.pure]
  · have hone : (s.sched k).count = 1 := by omega
    rw [hone] at hlast
    simp [popHeap, hone, hroot, lower, Heap.dequeue, bind, Except.bind, pure, Except.pure]

theorem setHeap_self : s.setHeap k (s.sched k).toHeap = s := by
  simp [State.setHeap]

/-- Access by access, an enqueue is what the scheduler's model computes. -/
theorem checkedEnqueue_eq (h : Queue s k) (p : Slot) :
    checkedEnqueue s k p = .ok (enqueue s k p) := by
  unfold checkedEnqueue enqueue
  by_cases hroom : (s.sched k).count < NPROC
  · rw [pushHeap_eq h hroom, if_neg (not_le.mpr hroom)]
    rfl
  · have hfull : pushHeap (less s k) (s.sched k).toHeap (some p) = .ok ((s.sched k).toHeap, -1) :=
      if_pos (not_lt.mp hroom)
    rw [hfull, if_pos (not_lt.mp hroom)]
    exact congrArg (fun t ↦ Except.ok (t, -1)) setHeap_self

/-- Access by access, a dequeue is what the scheduler's model computes. -/
theorem checkedDequeue_eq (h : Queue s k) : checkedDequeue s k = .ok (dequeue s k) := by
  unfold checkedDequeue dequeue
  by_cases h0 : (s.sched k).count = 0
  · have hempty : popHeap (less s k) (s.sched k).toHeap = .ok ((s.sched k).toHeap, none) :=
      if_pos h0
    rw [hempty, if_pos h0]
    exact congrArg (fun t ↦ Except.ok (t, none)) setHeap_self
  · rw [popHeap_eq h (Nat.pos_of_ne_zero h0), if_neg h0]
    rfl

/-! ### The priority queue -/

theorem Queue.enqueue (h : Queue s k) (hroom : (s.sched k).count < NPROC) (p : Slot) :
    Queue (enqueue s k p).1 k := by
  have hheap := enqueue_toHeap (p := p) hroom
  constructor
  · rw [hheap, Heap.count_enqueue]
    exact hroom
  · rw [entries_enqueue hroom, Multiset.mem_cons]
    rintro (hp | hp)
    · cases hp
    · exact h.full hp
  · have hkey : key (Sched.enqueue s k p).1 k = key s k := by
      funext x
      cases x <;> simp [key]
    rw [hheap, hkey]
    exact Heap.ordered_enqueue h.order (some p)

theorem Queue.dequeue (h : Queue s k) (h0 : 0 < (s.sched k).count) : Queue (dequeue s k).1 k := by
  have hheap := dequeue_toHeap h0
  have hbound := h.bound
  constructor
  · rw [hheap, Heap.count_dequeue]
    omega
  · intro hnone
    apply h.full
    rw [entries_dequeue h0]
    exact Multiset.mem_cons_of_mem hnone
  · have hkey : key (Sched.dequeue s k).1 k = key s k := by
      funext x
      cases x <;> simp [key]
    rw [hheap, hkey]
    exact Heap.ordered_dequeue h.order

private theorem Queue.answers (h : Queue s k) : Answers s k := by
  constructor
  · intro p hroom
    have heq := checkedEnqueue_eq h p
    have hset : Sched.enqueue s k p =
        (s.setHeap k ((s.sched k).toHeap.enqueue (key s k) (some p)), 0) :=
      if_neg (not_le.mpr hroom)
    have hqueue := h.enqueue hroom p
    have hentries := entries_enqueue (p := p) hroom
    rw [hset] at heq hqueue hentries
    exact ⟨_, heq, hqueue, hentries⟩
  · intro p hfull
    have hset : Sched.enqueue s k p = (s, -1) := if_pos hfull.ge
    rw [checkedEnqueue_eq h p, hset]
  · intro h0
    rw [checkedDequeue_eq h, dequeue_of_empty h0]
  · intro h0
    obtain ⟨p, hp⟩ := Option.ne_none_iff_exists'.mp (h.ne_none (le_refl 1) h0)
    have heq := checkedDequeue_eq h
    have hset : Sched.dequeue s k =
        (s.setHeap k ((s.sched k).toHeap.dequeue (key s k)), some p) := by
      rw [← hp]
      exact if_neg (by omega)
    have hqueue := h.dequeue h0
    have hentries := entries_dequeue h0
    rw [hset] at heq hqueue hentries
    rw [hp] at hentries
    refine ⟨_, p, heq, hqueue, hentries, fun x hx ↦ ?_⟩
    rw [← hp]
    exact h.order.root_le hx

theorem Alike.less {m : Nat} {t : State m} {k' : Class} (h : Alike s k t k') :
    less s k = less t k' := by
  ext p q : 2
  cases p with
  | none => simp [Sched.less]
  | some p =>
    cases q with
    | none => simp [Sched.less]
    | some q => simp [Sched.less, h.key]

/-- Both heaps are priority queues of `NPROC` places, no access goes astray, and a call does the
same to heaps that are alike up to the key. -/
theorem queue_answers (h : Queue s k) : Answers s k ∧
    ∀ {m : Nat} (t : State m) (k' : Class), Alike s k t k' →
      (∀ p, pushHeap (Sched.less s k) (s.sched k).toHeap (some p) =
        pushHeap (Sched.less t k') (t.sched k').toHeap (some p)) ∧
      popHeap (Sched.less s k) (s.sched k).toHeap =
        popHeap (Sched.less t k') (t.sched k').toHeap := by
  refine ⟨h.answers, fun t k' ha ↦ ⟨fun p ↦ ?_, ?_⟩⟩
  · rw [ha.less, ha.heap]
  · rw [ha.less, ha.heap]

/-- Five processes at the levels 0, 0, 1, 0 and 2, each in both heaps; a level counts ten in the
pass. -/
def tied : State 1 :=
  { boot 1 with
    sched := fun k ↦ { (boot 1).sched k with
      heap := fun i ↦ [none, some 0, some 1, some 2, some 3, some 4].getD i none
      count := 5 }
    proc := fun p ↦ { (boot 1).proc p with
      qlev := [0, 0, 1, 0, 2].getD p.val 0
      pass := [0, 0, 10, 0, 20].getD p.val 0 } }

/-- Of three processes of the least level one is taken out, and the rest is in order; the heap of
the stride scheduler answers the same. -/
theorem queue_answers_tied :
    (∃ h p, checkedDequeue tied .mlfq = .ok (tied.setHeap .mlfq h, some p) ∧
      Queue (tied.setHeap .mlfq h) .mlfq ∧
      entries tied .mlfq = some p ::ₘ entries (tied.setHeap .mlfq h) .mlfq ∧
      key tied .mlfq (some p) ≤ key tied .mlfq (some 3)) ∧
    (∃ h, checkedEnqueue tied .mlfq 5 = .ok (tied.setHeap .mlfq h, 0) ∧
      Queue (tied.setHeap .mlfq h) .mlfq) ∧
    popHeap (less tied .mlfq) (tied.sched .mlfq).toHeap =
      popHeap (less tied .stride) (tied.sched .stride).toHeap := by
  have hqueue : Queue tied .mlfq := by
    refine ⟨by decide +kernel, by decide +kernel, fun i h1 hi ↦ ?_⟩
    have hi' : i ≤ 5 := hi
    interval_cases i <;> decide +kernel
  have hten : ∀ p, key tied .stride (some p) = 10 * key tied .mlfq (some p) := by decide +kernel
  obtain ⟨hanswers, halike⟩ := queue_answers hqueue
  obtain ⟨h, p, hpop, hrest, hentries, hleast⟩ := hanswers.dequeue (by decide)
  obtain ⟨h', hpush, hmore, -⟩ := hanswers.enqueue 5 (by decide)
  exact ⟨⟨h, p, hpop, hrest, hentries, hleast _ (by decide +kernel)⟩, ⟨h', hpush, hmore⟩,
    (halike tied .stride ⟨rfl, fun p q ↦ by rw [hten, hten]; omega⟩).2⟩

end

end Xv6.Sched
