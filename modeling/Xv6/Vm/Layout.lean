import Xv6.Lib.Blocks
import Xv6.Vm.Group
import Xv6.Vm.Recycle

/-!
# Where the stacks of a group are

The stacks of the workers and those in `freeupages` are blocks below the size of the master, and
nothing is mapped where a free stack is or above that size. This holds while only the master changes
its size, and not below a stack, and executes another program with no free stacks only.
-/

namespace Xv6.Vm

open Function Lib Sched

open Memory (Adds)

section

variable {n : Nat}

/-- Where the stacks of the group of `m` end: that of the worker at index `i + 1`, and the one at
index `i` of `freeupages`. -/
def stackTops (s : State n) (m : Slot) : Fin MAXTHREAD ⊕ Fin MAXTHREAD → Option Nat
  | .inl i => stackTop s m i
  | .inr i =>
    if (s.vm.space m).freeupages i = 0 then none
    else some ((s.vm.space m).freeupages i + 2 * PGSIZE)

/-- The group of `m` at work, with its stacks as blocks below the size of `m`. -/
structure Layout (m : Slot) (s : State n) : Prop where
  group : Sched.Group s.kernel.links m
  user : (s.vm.space m).sz < KERNBASE
  pgdir : ∀ w, s.kernel.links.Worker m w → (s.vm.space w).pgdir = (s.vm.space m).pgdir
  ready : ∀ w, s.kernel.links.Worker m w →
    (s.kernel.links w).life = .embryo ∨ (s.vm.space w).stacked = true
  blocks : Blocks (2 * PGSIZE) (s.vm.space m).sz (stackTops s m)
  spare : ∀ i, (s.vm.space m).freeupages i ≠ 0 → ∀ v, pageUp ((s.vm.space m).freeupages i) ≤ v →
    v < pageUp ((s.vm.space m).freeupages i) + 2 → s.vm.mem.pte (s.vm.space m).pgdir v = none
  above : ∀ v, pageUp (s.vm.space m).sz ≤ v → s.vm.mem.pte (s.vm.space m).pgdir v = none

/-- `m` is a process without threads. -/
structure Single (s : State n) (m : Slot) : Prop where
  alive : (s.kernel.proc m).state.life = .alive
  master : (s.kernel.proc m).master = some m
  threads : ∀ i, (s.kernel.proc m).threads i = if i = 0 then some m else none
  np : (s.kernel.proc m).np = none

/-- `m` has no free stacks either, and nothing is mapped above its memory. -/
structure Begins (s : State n) (m : Slot) : Prop extends Single s m where
  empty : ∀ i, (s.vm.space m).freeupages i = 0
  user : (s.vm.space m).sz < KERNBASE
  unmapped : ∀ v, pageUp (s.vm.space m).sz ≤ v → s.vm.mem.pte (s.vm.space m).pgdir v = none

/-- Only the master changes its size, not below a stack, and it executes another program with no
free stacks only. -/
def Careful (m : Slot) (s : State n) : Action n → Prop
  | .growproc c k => k = 0 ∨ Elsewhere s m c ∨ (s.kernel.cpu c).proc = some m ∧
    (0 < k ∨ ∀ i, ∀ a ∈ stackTops s m i, a ≤ Spaces.uint ((s.vm.space m).sz + k))
  | .exec c _ succeeds => succeeds = false ∨ Elsewhere s m c ∨
    ∀ i, (s.vm.space m).freeupages i = 0
  | _ => True

/-- No worker of `m` that has its stack can execute. -/
def NoneLive (s : State n) (m : Slot) : Prop :=
  ∀ w, HasStack s m w → (s.kernel.links w).life = .zombie

/-- No call of the group falls into a `growproc`, which holds no lock: the master calls it while no
worker can execute. Where a worker calls it, it keeps the size of the worker. -/
def Undisturbed (m : Slot) (s : State n) : Action n → Prop
  | .growproc c k => Elsewhere s m c ∨ (s.kernel.cpu c).proc = some m ∧ NoneLive s m ∨
    (s.kernel.cpu c).proc ≠ some m ∧ k = 0
  | _ => True

variable {round : Int → Int} {s t : State n} {m p q w : Slot} {c : Fin n} {a : Action n}
  {i : Fin MAXTHREAD}

-- no step of a proof below computes with it
seal Spaces.t_allocustack

/-! ### Stacks -/

theorem pageUp_mono {a b : Nat} (h : a ≤ b) : pageUp a ≤ pageUp b :=
  Nat.div_le_div_right (Nat.sub_le_sub_right (Nat.add_le_add_right h _) _)

theorem stackTops_spare (hi : (s.vm.space m).freeupages i ≠ 0) :
    stackTops s m (.inr i) = some ((s.vm.space m).freeupages i + 2 * PGSIZE) := if_neg hi

theorem stackTops_empty (hi : (s.vm.space m).freeupages i = 0) : stackTops s m (.inr i) = none :=
  if_pos hi

theorem stackTops_spare_congr (h : (t.vm.space m).freeupages i = (s.vm.space m).freeupages i) :
    stackTops t m (.inr i) = stackTops s m (.inr i) := by
  unfold stackTops
  dsimp only
  rw [h]

theorem stackTops_worker {j : Fin MAXTHREAD} (hw : s.kernel.links.Lists m j.succ w)
    (hs : (s.vm.space w).stacked = true) : stackTops s m (.inl j) = some (s.vm.space w).sz := by
  have hj : (s.kernel.proc m).threads j.succ = some w := hw.2
  show stackTop s m j = _
  unfold stackTop
  rw [hj]
  exact if_pos hs

/-- A worker has an index. -/
theorem exists_index (hw : s.kernel.links.Worker m w) :
    ∃ j : Fin MAXTHREAD, s.kernel.links.Lists m j.succ w := by
  obtain ⟨i, hi⟩ := hw
  obtain ⟨j, rfl⟩ : ∃ j : Fin MAXTHREAD, j.succ = i := Fin.exists_succ_eq.mpr hi.1
  exact ⟨j, hi⟩

/-! ### Workers -/

/-- A worker that can execute has the stack that it had, unless it calls `growproc` or its
`thread_create` allocates a stack. -/
theorem live_of_does (hgroup : Sched.Group s.kernel.links m) (hd : Does m s a t)
    (hw : HasStack t m w) (hz : (t.kernel.links w).life ≠ .zombie) :
    HasStack s m w ∧ (s.kernel.links w).life ≠ .zombie ∧
        ((t.vm.space w).sz = (s.vm.space w).sz ∨
          ∃ c k, a = .growproc c k ∧ k ≠ 0 ∧ (s.kernel.cpu c).proc = some w) ∨
      ∃ c, a = .t_allocustack c ∧ Acts s.kernel m c ∧ s.kernel.links.Worker m w ∧
        s.vm.t_allocustack m w = .ok t.vm := by
  obtain ⟨hw, hs⟩ := hw
  cases hd with
  | rests hthreads hlife hspace _ =>
    have hw := (worker_congr hthreads).mp hw
    rw [hspace w (.inr hw)] at hs ⊢
    rw [hlife w (.inr hw)] at hz
    exact .inl ⟨⟨hw, hs⟩, hz, .inl rfl⟩
  | create hnew _ _ hlinks _ hself hrest =>
    rw [hlinks] at hw hz
    rcases Team.worker_of_create hw with rfl | hw
    · cases hself.1.symm.trans hs
    · have hne := hgroup.ne_of_unused hnew (.inl (.inr hw))
      rw [hrest w hne] at hs ⊢
      refine .inl ⟨⟨hw, hs⟩, ?_, .inl rfl⟩
      simpa [Links.create, hne] using hz
  | @ready _ _ _ x hlinks hvm _ he _ =>
    rw [hlinks] at hw hz
    rw [hvm] at hs ⊢
    refine .inl ⟨⟨hw, hs⟩, ?_, .inl rfl⟩
    by_cases hwx : w = x
    · rw [hwx, he]
      intro hlife
      cases hlife
    · simpa [Links.ready, hwx] using hz
  | @quit _ _ p _ hlinks hvm =>
    rw [hlinks] at hw hz
    rw [hvm] at hs ⊢
    refine .inl ⟨⟨hw, hs⟩, ?_, .inl rfl⟩
    by_cases hwp : w = p
    · simp [Links.quit, hwp] at hz
    · simpa [Links.quit, hwp] using hz
  | join hx _ hlinks hvm =>
    obtain ⟨hw, hwx⟩ := hgroup.toTeam.worker_of_join hx (hlinks ▸ hw)
    obtain ⟨i, hi⟩ := hw
    rw [space_t_deallocustack hvm (hgroup.worker i w hi).1] at hs ⊢
    refine .inl ⟨⟨⟨i, hi⟩, hs⟩, ?_, .inl rfl⟩
    rw [hlinks] at hz
    simpa [Links.join, hwx] using hz
  | @stack c _ x hacts hx _ hkernel hvm =>
    rw [hkernel] at hw hz
    by_cases hwx : w = x
    · exact .inr ⟨c, rfl, hacts, hw, hwx ▸ hvm⟩
    · obtain ⟨i, hi⟩ := hw
      rw [space_t_allocustack hvm (hgroup.worker i w hi).1 hwx] at hs ⊢
      exact .inl ⟨⟨⟨i, hi⟩, hs⟩, hz, .inl rfl⟩
  | @grow c _ p k _ hp _ hk hkernel _ _ hspace =>
    rw [hkernel] at hw hz
    rw [hspace, Spaces.modify_space] at hs ⊢
    left
    split at hs
    · next hwp =>
      exact ⟨⟨hw, hwp ▸ hs⟩, hz, .inr ⟨c, k, rfl, by omega, hwp ▸ hp⟩⟩
    · next hwp => exact ⟨⟨hw, hs⟩, hz, .inl (by rw [if_neg hwp])⟩
  | @shrink c _ p k _ hp _ hk hkernel _ _ hspace =>
    rw [hkernel] at hw hz
    rw [hspace, Spaces.modify_space] at hs ⊢
    left
    split at hs
    · next hwp =>
      exact ⟨⟨hw, hwp ▸ hs⟩, hz, .inr ⟨c, k, rfl, by omega, hwp ▸ hp⟩⟩
    · next hwp => exact ⟨⟨hw, hs⟩, hz, .inl (by rw [if_neg hwp])⟩
  | exec _ hnone hkernel _ _ _ => exact absurd (hkernel ▸ hw) (hnone w)

/-- A process that executes elsewhere is not a member. -/
theorem not_elsewhere (hp : (s.kernel.cpu c).proc = some p)
    (hteam : InTeam s.kernel.links m p) : ¬Elsewhere s m c := by
  rintro ⟨p', hp', _, hfar⟩
  cases Option.mem_unique hp hp'
  exact (hfar p .refl).1 (.inl hteam)

theorem Single.not_worker (h : Single s m) : ¬s.kernel.links.Worker m w := by
  rintro ⟨i, hi, hw⟩
  have hw : (s.kernel.proc m).threads i = some w := hw
  rw [h.threads, if_neg hi] at hw
  cases hw

theorem Single.group (h : Single s m) : Sched.Group s.kernel.links m := by
  have hnp : ∀ p w, InTeam s.kernel.links m p → (s.kernel.links p).np ≠ some w := by
    rintro p w (rfl | hp) hw
    · cases h.np.symm.trans hw
    · exact h.not_worker hp
  refine ⟨⟨h.alive, h.master, ?_, fun i x hx ↦ absurd ⟨i, hx⟩ h.not_worker,
    fun p w hp hw ↦ (hnp p w hp hw).elim, fun p _ w hp _ _ hw ↦ (hnp p w hp hw).elim⟩,
    fun p w hp hw ↦ (hnp p w hp hw).elim, fun p w hp hw ↦ (hnp p w hp hw).elim,
    fun p _ w hp _ hw ↦ (hnp p w hp hw).elim⟩
  intro q hq
  have hq : (s.kernel.proc m).threads 0 = some q := hq
  rw [h.threads, if_pos rfl] at hq
  exact (Option.some.inj hq).symm

namespace Layout

theorem worker_ne (h : Layout m s) (hw : s.kernel.links.Worker m w) : w ≠ m := by
  obtain ⟨i, hi⟩ := hw
  exact (h.group.worker i w hi).1

/-- The pages of a free stack are below the size of the master. -/
private theorem spare_le (h : Layout m s) (hi : (s.vm.space m).freeupages i ≠ 0) :
    (s.vm.space m).freeupages i + 2 * PGSIZE ≤ (s.vm.space m).sz :=
  (h.blocks.fits _ _ (stackTops_spare hi)).2

/-- The stack that `t_allocustack` makes is not mapped. -/
theorem unmapped (h : Layout m s) {v : Nat} (hlo : pageUp (s.vm.nextStack m) ≤ v)
    (hhi : v < pageUp (s.vm.nextStack m) + 2) : s.vm.mem.pte (s.vm.space m).pgdir v = none := by
  unfold Spaces.nextStack at hlo hhi
  split at hlo
  · next i hi =>
    rw [hi] at hhi
    exact h.spare i (reusable_eq_some hi) v hlo hhi
  · exact h.above v hlo

theorem nextStack_lt (h : Layout m s) : s.vm.nextStack m < KERNBASE := by
  unfold Spaces.nextStack
  split
  · next i hi =>
    have hle := h.spare_le (reusable_eq_some hi)
    exact lt_of_le_of_lt ((Nat.le_add_right _ _).trans hle) h.user
  · exact h.user

/-! ### Threads -/

/-- A step that changes neither the threads of the group nor its memory, but for pages that it
loses. -/
private theorem frame (h : Layout m s) (hgroup : Sched.Group t.kernel.links m)
    (hthreads : (t.kernel.links m).threads = (s.kernel.links m).threads)
    (hspace : ∀ p, InTeam s.kernel.links m p → t.vm.space p = s.vm.space p)
    (hready : ∀ p, s.kernel.links.Worker m p → (s.kernel.links p).life = .embryo →
      (t.kernel.links p).life = .embryo ∨ (s.vm.space p).stacked = true)
    (hpages : Adds (s.vm.space m).pgdir ∅ s.vm.mem t.vm.mem) : Layout m t := by
  have hm : t.vm.space m = s.vm.space m := hspace m (.inl rfl)
  have hworker : ∀ x, t.kernel.links.Worker m x → s.kernel.links.Worker m x := by
    intro x hx
    unfold Links.Worker Links.Lists at hx
    rwa [hthreads] at hx
  have htops : stackTops t m = stackTops s m := by
    funext x
    cases x with
    | inl j => exact stackTop_congr hthreads (fun p hp ↦ hspace p (.inr hp)) j
    | inr j =>
      unfold stackTops
      rw [hm]
  constructor
  · exact hgroup
  · rw [hm]
    exact h.user
  · intro x hx
    rw [hm, hspace x (.inr (hworker x hx)), h.pgdir x (hworker x hx)]
  · intro x hx
    have hx := hworker x hx
    rw [hspace x (.inr hx)]
    rcases h.ready x hx with he | hs
    · exact hready x hx he
    · exact .inr hs
  · rw [htops, hm]
    exact h.blocks
  · rw [hm]
    exact fun j hj v hlo hhi ↦ hpages v (h.spare j hj v hlo hhi) (Set.notMem_empty v)
  · rw [hm]
    exact fun v hv ↦ hpages v (h.above v hv) (Set.notMem_empty v)

private theorem create (h : Layout m s) (hgroup : Sched.Group t.kernel.links m)
    {j : Fin (MAXTHREAD + 1)} {pid : Nat} (hw : (s.kernel.links w).life = .unused)
    (hfree : (s.kernel.links m).threads j = none)
    (hlinks : t.kernel.links = s.kernel.links.create p m w (some j) pid)
    (hdir : t.vm.mem.dir = s.vm.mem.dir)
    (hself : (t.vm.space w).stacked = false ∧ (t.vm.space w).pgdir = (s.vm.space m).pgdir)
    (hrest : ∀ q, q ≠ w → t.vm.space q = s.vm.space q) : Layout m t := by
  have hne : ∀ q, InTeam s.kernel.links m q → q ≠ w := fun q hq ↦ h.group.ne_of_unused hw (.inl hq)
  have hm : t.vm.space m = s.vm.space m := hrest m (hne m (.inl rfl))
  have hworker : ∀ x, t.kernel.links.Worker m x → x = w ∨ s.kernel.links.Worker m x :=
    fun x hx ↦ Team.worker_of_create (hlinks ▸ hx)
  have htops : stackTops t m = stackTops s m := by
    funext x
    cases x with
    | inl k => exact stackTop_create h.group.toTeam hfree hw hlinks hself.1 hrest k
    | inr k =>
      unfold stackTops
      rw [hm]
  constructor
  · exact hgroup
  · rw [hm]
    exact h.user
  · intro x hx
    rw [hm]
    rcases hworker x hx with rfl | hx
    · exact hself.2
    · rw [hrest x (hne x (.inr hx)), h.pgdir x hx]
  · intro x hx
    rw [hlinks]
    rcases hworker x hx with rfl | hx
    · left
      simp [Links.create]
    · have hxw := hne x (.inr hx)
      rw [hrest x hxw]
      simpa [Links.create, hxw] using h.ready x hx
  · rw [htops, hm]
    exact h.blocks
  · rw [hm]
    intro k hk v hlo hhi
    rw [Memory.pte_congr hdir]
    exact h.spare k hk v hlo hhi
  · rw [hm]
    intro v hv
    rw [Memory.pte_congr hdir]
    exact h.above v hv

/-- The stack of a worker that has ended is put into `freeupages`, if there is a place. -/
private theorem join (h : Layout m s) (hgroup : Sched.Group t.kernel.links m) {j : Fin MAXTHREAD}
    (hw : s.kernel.links.Lists m j.succ w) (hz : (s.kernel.links w).life = .zombie)
    (hlinks : t.kernel.links = s.kernel.links.join m w)
    (hvm : s.vm.t_deallocustack w m = .ok t.vm) : Layout m t := by
  have hs : (s.vm.space w).stacked = true := by
    rcases h.ready w ⟨_, hw⟩ with he | hs
    · cases hz.symm.trans he
    · exact hs
  have htop := stackTops_worker hw hs
  obtain ⟨hle, hlim⟩ := h.blocks.fits _ _ htop
  obtain ⟨a, ha⟩ : ∃ a, (s.vm.space w).sz = a + 2 * PGSIZE := ⟨_, (Nat.sub_add_cancel hle).symm⟩
  rw [ha] at htop hlim
  have hlt : a < KERNBASE := lt_of_le_of_lt ((Nat.le_add_right _ _).trans hlim) h.user
  obtain ⟨ha0, hspace, hpages⟩ := (t_deallocustack_spec ha (stack_lt hlt)).of_ok hvm
  rw [h.pgdir w ⟨_, hw⟩] at hpages
  have hgone : ∀ v, (pageUp a ≤ v ∧ v < pageUp a + 2) ∨
      s.vm.mem.pte (s.vm.space m).pgdir v = none → t.vm.mem.pte (s.vm.space m).pgdir v = none := by
    intro v hv
    rw [← Option.not_isSome_iff_eq_none, hpages]
    rcases hv with hv | hv
    · exact fun hn ↦ hn.1 hv
    · rw [hv]
      exact fun hn ↦ Bool.false_ne_true hn.2
  have hrest : ∀ q, q ≠ m → t.vm.space q = s.vm.space q := by
    intro q hq
    rw [hspace]
    exact update_of_ne hq ..
  have hinl : ∀ k, stackTops t m (.inl k) = if k = j then none else stackTops s m (.inl k) :=
    stackTop_join h.group.toTeam hw hlinks hrest
  -- what becomes of the size, the page directory and the free stacks
  obtain ⟨hsz, hdir, hfree⟩ : (t.vm.space m).sz = (s.vm.space m).sz ∧
      (t.vm.space m).pgdir = (s.vm.space m).pgdir ∧
        ((t.vm.space m).freeupages = (s.vm.space m).freeupages ∨
          ∃ k, (t.vm.space m).freeupages = update (s.vm.space m).freeupages k a) := by
    rw [hspace]
    unfold Spaces.giveBack
    rw [Spaces.modify_space, if_pos rfl]
    split
    · next k _ => exact ⟨rfl, rfl, .inr ⟨k, rfl⟩⟩
    · exact ⟨rfl, rfl, .inl rfl⟩
  constructor
  · exact hgroup
  · rw [hsz]
    exact h.user
  · intro x hx
    have hx := (h.group.toTeam.worker_of_join hw (hlinks ▸ hx)).1
    rw [hrest x (h.worker_ne hx), hdir, h.pgdir x hx]
  · intro x hx
    obtain ⟨hx, hxw⟩ := h.group.toTeam.worker_of_join hw (hlinks ▸ hx)
    rw [hrest x (h.worker_ne hx), hlinks]
    simpa [Links.join, hxw] using h.ready x hx
  · rw [hsz]
    rcases hfree with hfree | ⟨k, hfree⟩
    · refine h.blocks.mono fun x b hx ↦ ?_
      cases x with
      | inl l =>
        rw [hinl] at hx
        split at hx
        · cases hx
        · exact hx
      | inr l => rwa [stackTops_spare_congr (congrFun hfree l)] at hx
    · refine h.blocks.move (p := .inr k) (q := .inl j) ?_ ?_ ?_ Sum.inr_ne_inl
      · intro b hb
        rw [stackTops_spare (by rw [hfree, update_self]; exact ha0), hfree, update_self] at hb
        rwa [← hb]
      · rw [hinl, if_pos rfl]
      · intro x hx hx' b hb
        cases x with
        | inl l =>
          rw [hinl] at hb
          split at hb
          · cases hb
          · exact hb
        | inr l =>
          have hl : l ≠ k := fun he ↦ hx (congrArg _ he)
          have hsame : (t.vm.space m).freeupages l = (s.vm.space m).freeupages l := by
            rw [hfree, update_of_ne hl]
          rwa [stackTops_spare_congr hsame] at hb
  · intro k hk v hlo hhi
    rw [hdir]
    rcases hfree with hfree | ⟨l, hfree⟩
    · rw [hfree] at hk hlo hhi
      exact hgone v (.inr (h.spare k hk v hlo hhi))
    · by_cases hkl : k = l
      · rw [hfree, hkl, update_self] at hlo hhi
        exact hgone v (.inl ⟨hlo, hhi⟩)
      · rw [hfree, update_of_ne hkl] at hk hlo hhi
        exact hgone v (.inr (h.spare k hk v hlo hhi))
  · intro v hv
    rw [hsz] at hv
    rw [hdir]
    exact hgone v (.inr (h.above v hv))

/-- A new worker is given the stack that was free or is next above the memory of `m`. -/
private theorem stack (h : Layout m s) (hw : s.kernel.links.Worker m w)
    (hs : (s.vm.space w).stacked = false) (hkernel : t.kernel = s.kernel)
    (hvm : s.vm.t_allocustack m w = .ok t.vm) : Layout m t := by
  obtain ⟨j, hj⟩ := exists_index hw
  have hwm := h.worker_ne hw
  have hlt := h.nextStack_lt
  have hun : ∀ v, pageUp (s.vm.nextStack m) ≤ v → v < pageUp (s.vm.nextStack m) + 2 →
      s.vm.mem.pte (s.vm.space m).pgdir v = none := fun v hlo hhi ↦ h.unmapped hlo hhi
  have hreuse : ∀ i, s.vm.reusable m = some i →
      s.vm.nextStack m = (s.vm.space m).freeupages i := by
    intro i hi
    unfold Spaces.nextStack
    rw [hi]
  have habove : s.vm.reusable m = none → s.vm.nextStack m = (s.vm.space m).sz := by
    intro hi
    unfold Spaces.nextStack
    rw [hi]
  generalize hbase : s.vm.nextStack m = base at hlt hun hreuse habove
  have hspec := t_allocustack_spec (w := w) hbase hlt hun
  obtain ⟨huser, hspace, hpages⟩ := hspec.of_ok hvm
  have hself : (t.vm.space w).sz = base + 2 * PGSIZE ∧
      (t.vm.space w).stacked = true ∧ (t.vm.space w).pgdir = (s.vm.space w).pgdir := by
    rw [hspace, Spaces.modify_space, if_pos rfl]
    unfold Spaces.claim
    rw [Spaces.modify_space, if_neg hwm]
    exact ⟨rfl, rfl, rfl⟩
  have hrest : ∀ q, q ≠ m → q ≠ w → t.vm.space q = s.vm.space q := by
    intro q hqm hqw
    rw [hspace, Spaces.modify_space, if_neg hqw]
    exact update_of_ne hqm ..
  have hm : t.vm.space m = (s.vm.claim m (base + 2 * PGSIZE)).space m := by
    rw [hspace, Spaces.modify_space, if_neg hwm.symm]
  unfold Spaces.claim at hm
  rw [Spaces.modify_space, if_pos rfl] at hm
  have hkeep : ∀ v, ¬(pageUp (base) ≤ v ∧ v < pageUp (base) + 2) →
      s.vm.mem.pte (s.vm.space m).pgdir v = none → t.vm.mem.pte (s.vm.space m).pgdir v = none := by
    intro v hv hnone
    rw [← Option.not_isSome_iff_eq_none, hpages, hnone]
    exact fun hn ↦ hn.elim hv Bool.false_ne_true
  have hworker : ∀ x, t.kernel.links.Worker m x → s.kernel.links.Worker m x := by
    rw [hkernel]
    exact fun _ ↦ id
  have hdir : (t.vm.space m).pgdir = (s.vm.space m).pgdir := by
    rw [hm]
    split <;> rfl
  have hpgdir : ∀ x, t.kernel.links.Worker m x → (t.vm.space x).pgdir = (t.vm.space m).pgdir := by
    intro x hx
    rw [hdir, ← h.pgdir x (hworker x hx)]
    by_cases hxw : x = w
    · rw [hxw, hself.2.2]
    · rw [hrest x (h.worker_ne (hworker x hx)) hxw]
  have hready : ∀ x, t.kernel.links.Worker m x →
      (t.kernel.links x).life = .embryo ∨ (t.vm.space x).stacked = true := by
    intro x hx
    by_cases hxw : x = w
    · right
      rw [hxw, hself.2.1]
    · rw [hrest x (h.worker_ne (hworker x hx)) hxw, hkernel]
      exact h.ready x (hworker x hx)
  have hnew : stackTops t m (.inl j) = some (base + 2 * PGSIZE) := by
    have hj : t.kernel.links.Lists m j.succ w := hkernel ▸ hj
    rw [stackTops_worker hj hself.2.1, hself.1]
  have hold : ∀ k, k ≠ j → stackTops t m (.inl k) = stackTops s m (.inl k) := by
    intro k hk
    show stackTop t m k = stackTop s m k
    unfold stackTop
    rw [hkernel]
    split
    · rfl
    · next x hx =>
      have hx : s.kernel.links.Lists m k.succ x := ⟨Fin.succ_ne_zero k, hx⟩
      have hxw : x ≠ w := by
        rintro rfl
        exact hk (Fin.succ_injective _ (h.group.worker_inj hx hj))
      rw [hrest x (h.worker_ne ⟨_, hx⟩) hxw]
  cases hi : s.vm.reusable m with
  | some i =>
    -- a free stack is used again
    have hnext := hreuse i hi
    rw [hi] at hm
    dsimp only at hm
    have hi0 := reusable_eq_some hi
    have hle := h.spare_le hi0
    constructor
    · exact hkernel ▸ h.group
    · rw [hm]
      exact h.user
    · exact hpgdir
    · exact hready
    · have hsz : (t.vm.space m).sz = (s.vm.space m).sz := by rw [hm]
      rw [hsz]
      refine h.blocks.move (p := .inl j) (q := .inr i) ?_ ?_ ?_ Sum.inl_ne_inr
      · intro b hb
        rw [hnew, hnext] at hb
        rw [stackTops_spare hi0, hb]
      · apply stackTops_empty
        rw [hm]
        exact update_self ..
      · intro x hx hx' b hb
        cases x with
        | inl k => rwa [hold k fun he ↦ hx (congrArg _ he)] at hb
        | inr k =>
          have hk : k ≠ i := fun he ↦ hx' (congrArg _ he)
          have hsame : (t.vm.space m).freeupages k = (s.vm.space m).freeupages k := by
            rw [hm]
            exact update_of_ne hk ..
          rwa [stackTops_spare_congr hsame] at hb
    · intro k hk v hlo hhi
      rw [hdir]
      by_cases hki : k = i
      · rw [hm, hki] at hk
        exact absurd (update_self ..) hk
      · rw [hm] at hk hlo hhi
        dsimp only at hk hlo hhi
        rw [update_of_ne hki] at hk hlo hhi
        refine hkeep v (fun hv ↦ ?_) (h.spare k hk v hlo hhi)
        -- the two free stacks have no page in common
        rcases h.blocks.apart _ _ _ _ (stackTops_spare hk) (stackTops_spare hi0)
            fun he ↦ hki (Sum.inr_injective he) with hle' | hle'
        · have hpage := pageUp_mono (Nat.le_of_add_le_add_right hle')
          rw [pageUp_stack, ← hnext] at hpage
          omega
        · have hpage := pageUp_mono (Nat.le_of_add_le_add_right hle')
          rw [pageUp_stack, ← hnext] at hpage
          omega
    · intro v hv
      rw [hm] at hv
      rw [hdir]
      refine hkeep v (fun hv' ↦ ?_) (h.above v hv)
      have hpage := pageUp_mono hle
      rw [pageUp_stack, ← hnext] at hpage
      have hv : pageUp (s.vm.space m).sz ≤ v := hv
      omega
  | none =>
    -- the stack is made above the memory of the master
    have hnext := habove hi
    rw [hi] at hm
    dsimp only at hm
    have hfree := reusable_eq_none.mp hi
    constructor
    · exact hkernel ▸ h.group
    · rw [hm]
      exact huser
    · exact hpgdir
    · exact hready
    · have hsz : (t.vm.space m).sz = (s.vm.space m).sz + 2 * PGSIZE := by rw [hm, ← hnext]
      rw [hsz]
      refine h.blocks.carve (p := .inl j) (by rw [hnew, hnext]) fun x hx ↦ ?_
      cases x with
      | inl k => exact hold k fun he ↦ hx (congrArg _ he)
      | inr k =>
        unfold stackTops
        rw [hm]
    · intro k hk
      rw [hm] at hk
      exact absurd (hfree k) hk
    · intro v hv
      rw [hm] at hv
      rw [hdir]
      have hv : pageUp (base + 2 * PGSIZE) ≤ v := hv
      rw [pageUp_stack, hnext] at hv
      rw [hnext] at hkeep
      exact hkeep v (by omega) (h.above v (by omega))

/-! ### The size of the master -/

/-- The master is given another size. -/
private theorem resize (h : Layout m s) {sz : Nat} (hkernel : t.kernel = s.kernel)
    (hspace : t.vm.space = (s.vm.modify m fun v ↦ { v with sz }).space) (huser : sz < KERNBASE)
    (htops : ∀ x a, stackTops s m x = some a → a ≤ sz)
    (hpages : ∀ v, s.vm.mem.pte (s.vm.space m).pgdir v = none →
      t.vm.mem.pte (s.vm.space m).pgdir v = none ∨ pageUp (s.vm.space m).sz ≤ v ∧ v < pageUp sz)
    (habove : ∀ v, pageUp sz ≤ v → t.vm.mem.pte (s.vm.space m).pgdir v = none) : Layout m t := by
  have hm : t.vm.space m = { s.vm.space m with sz } := by
    rw [hspace, Spaces.modify_space, if_pos rfl]
  have hrest : ∀ q, s.kernel.links.Worker m q → t.vm.space q = s.vm.space q := by
    intro q hq
    rw [hspace, Spaces.modify_space, if_neg (h.worker_ne hq)]
  have hsame : stackTops t m = stackTops s m := by
    funext x
    cases x with
    | inl j => exact stackTop_congr (by rw [hkernel]) hrest j
    | inr j =>
      unfold stackTops
      rw [hm]
  constructor
  · exact hkernel ▸ h.group
  · rw [hm]
    exact huser
  · intro x hx
    have hx : s.kernel.links.Worker m x := hkernel ▸ hx
    rw [hm, hrest x hx, h.pgdir x hx]
  · intro x hx
    rw [hkernel] at hx ⊢
    rw [hrest x hx]
    exact h.ready x hx
  · rw [hsame, hm]
    exact h.blocks.resize htops
  · rw [hm]
    intro j hj v hlo hhi
    have hj : (s.vm.space m).freeupages j ≠ 0 := hj
    rcases hpages v (h.spare j hj v hlo hhi) with hnone | hv
    · exact hnone
    · have hpage := pageUp_mono (h.spare_le hj)
      rw [pageUp_stack] at hpage
      have hhi : v < pageUp ((s.vm.space m).freeupages j) + 2 := hhi
      omega
  · rw [hm]
    exact habove

/-- The master executes another program, without workers and free stacks. -/
private theorem exec (h : Layout m s) {ends : List Nat} {mem : Memory} {f : Frame} {sz : Nat}
    (hkernel : t.kernel = s.kernel) (hnone : ∀ w, ¬s.kernel.links.Worker m w)
    (hfree : ∀ i, (s.vm.space m).freeupages i = 0)
    (himage : image s.vm.mem ends true = .ok (mem, some (f, sz)))
    (hpages : Adds (some f) ∅ mem t.vm.mem)
    (hspace : t.vm.space = (s.vm.modify m fun v ↦ { v with pgdir := some f, sz }).space) :
    Layout m t := by
  obtain ⟨_, huser, _, habove⟩ := image_above himage
  have hm : t.vm.space m = { s.vm.space m with pgdir := some f, sz } := by
    rw [hspace, Spaces.modify_space, if_pos rfl]
  have hnone' : ∀ w, ¬t.kernel.links.Worker m w := hkernel ▸ hnone
  constructor
  · exact hkernel ▸ h.group
  · rw [hm]
    exact huser
  · exact fun x hx ↦ absurd hx (hnone' x)
  · exact fun x hx ↦ absurd hx (hnone' x)
  · have htops : ∀ x a, stackTops t m x ≠ some a := by
      intro x a hx
      cases x with
      | inl j =>
        have hx : stackTop t m j = some a := hx
        unfold stackTop at hx
        split at hx
        · cases hx
        · next w hw => exact hnone' w ⟨_, Fin.succ_ne_zero j, hw⟩
      | inr j =>
        have hj : (t.vm.space m).freeupages j = 0 := by
          rw [hm]
          exact hfree j
        rw [stackTops_empty hj] at hx
        cases hx
    exact ⟨fun x a hx ↦ absurd hx (htops x a), fun x _ a _ hx ↦ absurd hx (htops x a)⟩
  · rw [hm]
    exact fun j hj ↦ absurd (hfree j) hj
  · rw [hm]
    exact fun v hv ↦ hpages v (habove v hv) (Set.notMem_empty v)

theorem step (h : Layout m s) (ha : Peaceful m s a) (hc : Careful m s a)
    (hs : step round s a = .ok t) : Layout m t := by
  obtain ⟨hgroup, hdoes⟩ := ha.does h.group hs
  cases hdoes with
  | rests hthreads hlife hspace hpages =>
    refine h.frame hgroup hthreads hspace (fun q hq he ↦ .inl ?_) hpages
    rw [hlife q (.inr hq), he]
  | create hw _ hfree hlinks hdir hself hrest => exact h.create hgroup hw hfree hlinks hdir hself hrest
  | @ready _ _ _ w hlinks hvm _ _ hstacked =>
    refine h.frame hgroup ?_ (fun q _ ↦ by rw [hvm]) (fun q _ he ↦ ?_) (by rw [hvm])
    · rw [hlinks]
      rfl
    · by_cases hq : q = w
      · exact .inr (hq ▸ hstacked)
      · left
        rw [hlinks]
        simpa [Links.ready, hq] using he
  | @quit _ _ p hl hlinks hvm =>
    refine h.frame hgroup ?_ (fun q _ ↦ by rw [hvm]) (fun q _ he ↦ .inl ?_) (by rw [hvm])
    · rw [hlinks]
      rfl
    · have hq : q ≠ p := by
        rintro rfl
        cases hl.symm.trans he
      rw [hlinks]
      simpa [Links.quit, hq] using he
  | @join _ _ _ i w hw hz hlinks hvm =>
    obtain ⟨j, rfl⟩ : ∃ j : Fin MAXTHREAD, j.succ = i := Fin.exists_succ_eq.mpr hw.1
    exact h.join hgroup hw hz hlinks hvm
  | stack _ hw hstacked hkernel hvm => exact h.stack hw hstacked hkernel hvm
  | @grow _ _ _ k _ hp hteam hk hkernel hmem hsz hspace =>
    rcases hc with h0 | hfar | ⟨hm, _⟩
    · omega
    · exact absurd hfar (not_elsewhere hp hteam)
    · cases hp.symm.trans hm
      obtain ⟨hlt, hmax⟩ := allocuvm_size hmem hsz
      dsimp only at hmax
      rw [hmax] at hspace
      have hadds := Adds.allocuvm (g := (s.vm.space m).pgdir) (fun _ _ ↦ subset_rfl) hmem
      have huser : max (s.vm.space m).sz (Spaces.uint ((s.vm.space m).sz + k)) < KERNBASE :=
        max_lt h.user hlt
      generalize Spaces.uint _ = newsz at hspace hadds huser
      refine h.resize hkernel hspace huser ?_ ?_ ?_
      · exact fun x b hx ↦ (h.blocks.fits x b hx).2.trans (le_max_left _ _)
      · intro v hv
        by_cases hin : v ∈ Set.Ico (pageUp (s.vm.space m).sz) (pageUp newsz)
        · exact .inr ⟨hin.1, hin.2.trans_le (pageUp_mono (le_max_right _ _))⟩
        · exact .inl (hadds v hv hin)
      · intro v hv
        refine hadds v (h.above v ((pageUp_mono (le_max_left _ _)).trans hv)) fun hin ↦ ?_
        exact absurd hin.2 (not_lt.mpr ((pageUp_mono (le_max_right _ _)).trans hv))
  | shrink hp hteam hk hkernel hmem hsz hspace =>
    rcases hc with h0 | hfar | ⟨hm, htops⟩
    · omega
    · exact absurd hfar (not_elsewhere hp hteam)
    · cases hp.symm.trans hm
      have htops := htops.resolve_left (by omega)
      obtain ⟨hmin, _, hpte⟩ := deallocuvm_spec.of_ok hmem
      dsimp only at hmin hpte
      rw [hmin] at hspace
      generalize Spaces.uint _ = newsz at hspace hpte htops
      have hkept : ∀ v, s.vm.mem.pte (s.vm.space m).pgdir v = none →
          t.vm.mem.pte (s.vm.space m).pgdir v = none := by
        intro v hv
        rw [hpte, hv, ite_self]
      refine h.resize hkernel hspace (lt_of_le_of_lt (min_le_right _ _) h.user) ?_
        (fun v hv ↦ .inl (hkept v hv)) fun v hv ↦ ?_
      · exact fun x b hx ↦ le_min (htops x b hx) (h.blocks.fits x b hx).2
      · by_cases hin : pageUp (s.vm.space m).sz ≤ v
        · exact hkept v (h.above v hin)
        · rw [hpte, if_pos]
          refine ⟨?_, not_le.mp hin⟩
          rcases le_total newsz (s.vm.space m).sz with hle | hle
          · rwa [min_eq_left hle] at hv
          · rw [min_eq_right hle] at hv
            exact absurd hv hin
  | exec hp hnone hkernel himage hpages hspace =>
    rcases hc with hfail | hfar | hfree
    · cases hfail
    · exact absurd hfar (not_elsewhere hp (.inl rfl))
    · exact h.exec hkernel hnone hfree himage hpages hspace

end Layout

/-! ### Runs -/

/-- What holds of the stack that `t_allocustack` makes next in the group of `m`, and of those that
are there. -/
structure Fresh (round : Int → Int) (m : Slot) (t : State n) : Prop where
  unmapped : ∀ v, pageUp (t.vm.nextStack m) ≤ v → v < pageUp (t.vm.nextStack m + 2 * PGSIZE) →
    t.vm.mem.pte (t.vm.space m).pgdir v = none
  apart : ∀ w, HasStack t m w → Disjoint (region (t.vm.nextStack m)) (region (stackBase t w))
  noRemap : ∀ c, Acts t.kernel m c → step round t (.t_allocustack c) ≠ .error .remap
  below : ∀ w, HasStack t m w → (t.vm.space w).sz ≤ (t.vm.space m).sz

theorem Starts.begins (h : Starts s m) : Begins s m := by
  refine ⟨⟨h.alive, h.master, h.threads, h.np⟩, h.empty, h.user, fun v hv ↦ h.unmapped v ?_⟩
  refine le_trans (Nat.div_le_div_right ?_) hv
  exact Nat.le_sub_of_add_le (Nat.add_le_add_left (by decide) _)

theorem Begins.layout (h : Begins s m) : Layout m s := by
  have htops : ∀ x a, stackTops s m x ≠ some a := by
    intro x a hx
    cases x with
    | inl j =>
      have hx : stackTop s m j = some a := hx
      unfold stackTop at hx
      rw [h.threads, if_neg (Fin.succ_ne_zero j)] at hx
      cases hx
    | inr j =>
      rw [stackTops_empty (h.empty j)] at hx
      cases hx
  exact ⟨h.group, h.user, fun w hw ↦ absurd hw h.not_worker, fun w hw ↦ absurd hw h.not_worker,
    ⟨fun x a hx ↦ absurd hx (htops x a), fun x _ a _ hx ↦ absurd hx (htops x a)⟩,
    fun i hi ↦ absurd (h.empty i) hi, h.unmapped⟩

private theorem Layout.fresh (h : Layout m s) : Fresh round m s := by
  have hroom : ∀ j a, stackTops s m (.inl j) = some a →
      s.vm.nextStack m + 2 * PGSIZE ≤ a - 2 * PGSIZE ∨ a ≤ s.vm.nextStack m := by
    intro j a hj
    obtain ⟨hle, hlim⟩ := h.blocks.fits _ _ hj
    unfold Spaces.nextStack
    split
    · next i hi =>
      rcases h.blocks.apart _ _ _ _ (stackTops_spare (reusable_eq_some hi)) hj
          Sum.inr_ne_inl with hap | hap
      · left
        omega
      · right
        omega
    · exact .inr hlim
  constructor
  · intro v hlo hhi
    rw [pageUp_stack] at hhi
    exact h.unmapped hlo hhi
  · rintro w ⟨hw, hs⟩
    obtain ⟨j, hj⟩ := exists_index hw
    have htop := stackTops_worker hj hs
    have hroom := hroom j _ htop
    have hle := (h.blocks.fits _ _ htop).1
    unfold stackBase
    rw [Set.disjoint_left]
    intro v hv hv'
    have hlo : s.vm.nextStack m ≤ v ∧ v < s.vm.nextStack m + 2 * PGSIZE := Set.mem_Ico.mp hv
    have hhi : (s.vm.space w).sz - 2 * PGSIZE ≤ v ∧
        v < (s.vm.space w).sz - 2 * PGSIZE + 2 * PGSIZE := Set.mem_Ico.mp hv'
    omega
  · intro c hacts he
    have hstack : ∀ p w x, current s.kernel c = .ok p → (s.kernel.proc p).np = some w →
        (s.kernel.proc p).master = some x → (s.vm.space w).stacked = false →
        NoRemap (s.vm.t_allocustack x w) fun _ ↦ True := by
      intro p w x hp _ hx _
      have hmaster := (h.group.acts_master hacts (cpu_of_current hp)).2.2
      cases hx.symm.trans hmaster
      exact (t_allocustack_spec rfl h.nextStack_lt fun v hlo hhi ↦ h.unmapped hlo hhi).imp
        fun _ _ ↦ trivial
    exact (step_ustack hstack).of_error he rfl
  · rintro w ⟨hw, hs⟩
    obtain ⟨j, hj⟩ := exists_index hw
    exact (h.blocks.fits _ _ (stackTops_worker hj hs)).2

/-- As long as only the master changes its size, undisturbed and not below a stack, and executes
other programs with no free stacks only, a new stack is mapped nowhere yet and is no worker's, and
every stack lies below the size of the master. -/
theorem stacks_fresh {as : List (Action n)} (h0 : Begins s m)
    (hc : Along (Vm.step round)
      (fun s a ↦ (Peaceful m s a ∧ Careful m s a) ∧ Undisturbed m s a) s as)
    (h : Lib.exec (Vm.step round) s as = .ok t) : Fresh round m t :=
  (hc.invariant (fun _ _ _ hi hp hs ↦ hi.step hp.1.1 hp.1.2 hs) h0.layout h).fresh

/-! ### The first process -/

/-- The steps of `m` and its workers that are peaceful and careful. -/
def Mine (m : Slot) (s : State n) : Action n → Prop
  | .call a => Own m s (.call a) ∧ s.vm.mem.Held (s.vm.space m).pgdir
  | .t_allocustack c => Acts s.kernel m c
  | .growproc c k => Acts s.kernel m c ∧ (s.kernel.cpu c).proc = some m ∧
    (0 < k ∨ ∀ i, ∀ a ∈ stackTops s m i, a ≤ Spaces.uint ((s.vm.space m).sz + k))
  | .exec c _ _ => s.vm.mem.Held (s.vm.space m).pgdir ∧ Acts s.kernel m c ∧
    (s.kernel.cpu c).proc = some m ∧ (∀ w, ¬s.kernel.links.Worker m w) ∧
    ∀ i, (s.vm.space m).freeupages i = 0

instance (m : Slot) (s : State n) (a : Action n) : Decidable (Mine m s a) :=
  match a with
  | .call _ | .growproc _ _ | .exec _ _ _ => inferInstanceAs (Decidable (_ ∧ _))
  | .t_allocustack c => inferInstanceAs (Decidable (Acts s.kernel m c))

theorem Mine.harmless {a : Sched.Action n} (h : Own m s (.call a)) : Harmless m s.kernel a := by
  cases a with
  | scheduler c => trivial
  | wakeup chan => trivial
  | kill pid => exact h.elim
  | fork c k => exact h.elim
  | forkDone c k => exact h.elim
  | exit c => exact h.elim
  | wait c => exact h.elim
  | tick c => exact .inl h
  | boost c => exact .inl h
  | yield c => exact .inl h
  | sleep c chan => exact .inl h
  | set_cpu_share c k => exact .inl h
  | thread_create c => exact .inl h
  | threadReady c => exact .inl h
  | thread_exit c => exact .inl h
  | thread_join c thread => exact .inl h

theorem Mine.peaceful (h : Mine m s a) : Peaceful m s a := by
  cases a with
  | call a => exact ⟨harmless h.1, h.2⟩
  | t_allocustack c => exact .inl h
  | growproc c k => exact .inl h.1
  | exec c ends k => exact ⟨h.1, .inl ⟨h.2.1, h.2.2.1, h.2.2.2.1⟩⟩

private theorem Mine.careful (h : Mine m s a) : Careful m s a := by
  cases a with
  | call a => trivial
  | t_allocustack c => trivial
  | growproc c k => exact .inr (.inr h.2)
  | exec c ends k => exact .inr (.inr h.2.2.2.2)

instance (s : State n) (m w : Slot) : Decidable (HasStack s m w) :=
  inferInstanceAs (Decidable (_ ∧ _))

instance (s : State n) (m : Slot) : Decidable (NoneLive s m) :=
  inferInstanceAs (Decidable (∀ _, _))

/-- No worker of `m` can execute at a `growproc`. -/
private def GrowsAlone (m : Slot) (s : State n) : Action n → Prop
  | .growproc _ _ => NoneLive s m
  | _ => True

private instance (m : Slot) (s : State n) (a : Action n) : Decidable (GrowsAlone m s a) :=
  match a with
  | .growproc _ _ => inferInstanceAs (Decidable (NoneLive s m))
  | .call _ | .t_allocustack _ | .exec _ _ _ => inferInstanceAs (Decidable True)

private theorem Mine.undisturbed (h : Mine m s a) (halone : GrowsAlone m s a) :
    Undisturbed m s a := by
  cases a with
  | growproc c k => exact .inr (.inl ⟨h.2.1, halone⟩)
  | _ => trivial

/-- The first process executes another program, whose thread ends, and creates a second thread where
the stack of the first one was. -/
private def reuses : List (Action 1) :=
  [.call (.scheduler 0), .exec 0 [5000] true, .call (.thread_create 0), .t_allocustack 0,
    .call (.threadReady 0), .call (.yield 0), .call (.thread_exit 0), .growproc 0 100,
    .call (.thread_join 0 1), .growproc 0 (-50), .call (.thread_create 0), .t_allocustack 0]

theorem stacks_fresh_reuses : (Lib.exec (Vm.step float) booted reuses).isOk = true ∧
    Fresh float 0 (final (Vm.step float) booted reuses) := by
  have hrun : (Lib.exec (Vm.step float) booted reuses).isOk = true := by decide +kernel
  have hmine : Along (Vm.step float) (fun s a ↦ Mine 0 s a ∧ GrowsAlone 0 s a) booted reuses := by
    decide +kernel
  have hc := hmine.mono fun s a h ↦
    And.intro (And.intro (Mine.peaceful h.1) (Mine.careful h.1)) (Mine.undisturbed h.1 h.2)
  exact ⟨hrun, stacks_fresh (boot_starts boot_booted).begins hc (exec_final hrun)⟩

/-- The thread of the first process ends and is joined, the process executes another program and
creates a thread. -/
def joinsAndExecutes : List (Action 1) :=
  [.call (.scheduler 0), .call (.thread_create 0), .t_allocustack 0, .call (.threadReady 0),
    .call (.yield 0), .call (.thread_exit 0), .call (.thread_join 0 1), .exec 0 [8192] true,
    .call (.thread_create 0)]

example : ((final (Vm.step float) booted joinsAndExecutes).vm.space 0).sz = 16384 := by
  decide +kernel

/-- The stack is to be made where the program is, with a panic. -/
theorem joinsAndExecutes_remaps :
    (Lib.exec (Vm.step float) booted joinsAndExecutes).isOk = true ∧
      Acts (final (Vm.step float) booted joinsAndExecutes).kernel 0 0 ∧
      Lib.exec (Vm.step float) booted (joinsAndExecutes ++ [.t_allocustack 0]) = .error .remap := by
  decide +kernel

end

end Xv6.Vm
