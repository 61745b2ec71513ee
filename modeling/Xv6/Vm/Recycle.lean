import Xv6.Lib.Recycler
import Xv6.Sched.Team
import Xv6.Vm.Stacks
import Xv6.Vm.Steps

/-!
# The stacks of a group

The stacks of a process and its workers are numbered items: a new one is made at the top of the
memory of the process when `freeupages` is empty, and each is then either that of a worker that has
not been joined or in `freeupages`.
-/

namespace Xv6.Vm

open Function Lib Sched

section

variable {n : Nat}

/-- The bytes of a stack. -/
def region (base : Nat) : Set Nat := Set.Ico base (base + 2 * PGSIZE)

/-- `w` is a worker of `m` that has not been joined and has its stack. -/
def HasStack (s : State n) (m w : Slot) : Prop :=
  s.kernel.links.Worker m w ∧ (s.vm.space w).stacked = true

/-- Where the stack of `w` begins. -/
def stackBase (s : State n) (w : Slot) : Nat := (s.vm.space w).sz - 2 * PGSIZE

/-- `m` is a process without threads and without free stacks, and nothing is mapped above its
memory. -/
structure Starts (s : State n) (m : Slot) : Prop where
  alive : (s.kernel.proc m).state.life = .alive
  master : (s.kernel.proc m).master = some m
  threads : ∀ i, (s.kernel.proc m).threads i = if i = 0 then some m else none
  np : (s.kernel.proc m).np = none
  empty : ∀ i, (s.vm.space m).freeupages i = 0
  positive : 0 < (s.vm.space m).sz
  aligned : (s.vm.space m).sz % PGSIZE = 0
  user : (s.vm.space m).sz < KERNBASE
  unmapped : ∀ v, (s.vm.space m).sz / PGSIZE ≤ v → s.vm.mem.pte (s.vm.space m).pgdir v = none

/-- The steps of the group of `m` that are calls of `thread_create`, `thread_exit` and
`thread_join`, with at most `MAXTHREAD` workers that have not been joined, or do not concern
threads. -/
def Own (m : Slot) (s : State n) : Action n → Prop
  | .call (.scheduler _) | .call (.wakeup _) => True
  | .call (.tick c) | .call (.boost c) | .call (.yield c) | .call (.sleep c _)
  | .call (.set_cpu_share c _) | .t_allocustack c | .call (.threadReady c) => Acts s.kernel m c
  | .call (.thread_create c) =>
    Acts s.kernel m c ∧ ∃ i, i ≠ 0 ∧ (s.kernel.proc m).threads i = none
  | .call (.thread_exit c) => Acts s.kernel m c ∧ (s.kernel.cpu c).proc ≠ some m
  | .call (.thread_join c _) => Acts s.kernel m c ∧ (s.kernel.cpu c).proc = some m
  | _ => False

instance (m : Slot) (s : State n) (a : Action n) : Decidable (Own m s a) :=
  match a with
  | .call (.scheduler _) | .call (.wakeup _) => inferInstanceAs (Decidable True)
  | .call (.tick c) | .call (.boost c) | .call (.yield c) | .call (.sleep c _)
  | .call (.set_cpu_share c _) | .t_allocustack c | .call (.threadReady c) =>
    inferInstanceAs (Decidable (Acts s.kernel m c))
  | .call (.thread_create _) | .call (.thread_exit _) | .call (.thread_join _ _) =>
    inferInstanceAs (Decidable (_ ∧ _))
  | .call (.kill _) | .call (.fork _ _) | .call (.forkDone _ _) | .call (.exit _) | .call (.wait _)
  | .growproc _ _ | .exec _ _ _ => inferInstanceAs (Decidable False)

/-- A step that leaves the threads and the memory of the group of `m` alone. -/
structure Apart (m : Slot) (s t : State n) : Prop where
  threads : (t.kernel.links m).threads = (s.kernel.links m).threads
  life : ∀ p, InTeam s.kernel.links m p → (t.kernel.links p).life = (s.kernel.links p).life
  tid : ∀ p, InTeam s.kernel.links m p → (t.kernel.links p).tid = (s.kernel.links p).tid
  master : ∀ p, InTeam s.kernel.links m p → (t.kernel.links p).master = (s.kernel.links p).master
  np : ∀ p, InTeam s.kernel.links m p → (t.kernel.links p).np = (s.kernel.links p).np
  space : ∀ p, InTeam s.kernel.links m p → t.vm.space p = s.vm.space p
  pages : ∀ v, (t.vm.mem.pte (s.vm.space m).pgdir v).isSome =
    (s.vm.mem.pte (s.vm.space m).pgdir v).isSome

/-- The group of `m` makes calls about threads only, and the other processes leave it alone. -/
def Calls (m : Slot) (s : State n) (a : Action n) (t : State n) : Prop := Own m s a ∨ Apart m s t

/-- The bases of the stacks that have been handed out to the group of `m`. -/
def handed (m : Slot) (s : State n) (a : Action n) (_ : State n) (x : List Nat) : List Nat :=
  match a with
  | .t_allocustack c => if Acts s.kernel m c then s.vm.nextStack m :: x else x
  | _ => x

/-- What holds of the stacks `x` that have been handed out to the group of `m`, whose memory had
size `start` at first. -/
structure Recycled (round : Int → Int) (m : Slot) (start : Nat) (t : State n) (x : List Nat) :
    Prop where
  workers : ∀ v w, HasStack t m v → HasStack t m w → v ≠ w →
    Disjoint (region (stackBase t v)) (region (stackBase t w))
  spare : ∀ i j, (t.vm.space m).freeupages i ≠ 0 → (t.vm.space m).freeupages j ≠ 0 → i ≠ j →
    Disjoint (region ((t.vm.space m).freeupages i)) (region ((t.vm.space m).freeupages j))
  apart : ∀ w i, HasStack t m w → (t.vm.space m).freeupages i ≠ 0 →
    Disjoint (region (stackBase t w)) (region ((t.vm.space m).freeupages i))
  kept : ∀ b, b ∈ x ↔ (∃ w, HasStack t m w ∧ stackBase t w = b) ∨
    ∃ i, (t.vm.space m).freeupages i ≠ 0 ∧ (t.vm.space m).freeupages i = b
  room : ∀ w, HasStack t m w → ∃ i, (t.vm.space m).freeupages i = 0
  fresh : ∀ c, Acts t.kernel m c → step round t (.t_allocustack c) ≠ .error .remap
  bounded : (t.vm.space m).sz ≤ start + MAXTHREAD * 2 * PGSIZE

/-! ### The stacks as items -/

/-- The top of the stack of the worker at index `i + 1`. -/
def stackTop (s : State n) (m : Slot) (i : Fin MAXTHREAD) : Option Nat :=
  match (s.kernel.proc m).threads i.succ with
  | none => none
  | some w => if (s.vm.space w).stacked = true then some (s.vm.space w).sz else none

/-- The stacks of the group of `m`, which begin at page `b`, are the items of `r`: item `k` is at
page `b + 2 * k`. -/
structure Holds (m : Slot) (b : Nat) (s : State n) (r : Recycler (Fin MAXTHREAD ⊕ Fin MAXTHREAD)) :
    Prop where
  bound : r.next ≤ MAXTHREAD
  size : (s.vm.space m).sz = (b + 2 * r.next) * PGSIZE
  user : (s.vm.space m).sz < KERNBASE
  worker : ∀ i, stackTop s m i = (r.item (.inl i)).map fun k ↦ (b + 2 * k + 2) * PGSIZE
  spare : ∀ i, (s.vm.space m).freeupages i =
    match r.item (.inr i) with
    | none => 0
    | some k => (b + 2 * k) * PGSIZE
  pages : ∀ v, b ≤ v → ((s.vm.mem.pte (s.vm.space m).pgdir v).isSome = true ↔
    ∃ i k, r.item (.inl i) = some k ∧ b + 2 * k ≤ v ∧ v < b + 2 * k + 2)
  pgdir : ∀ w, s.kernel.links.Worker m w → (s.vm.space w).pgdir = (s.vm.space m).pgdir
  ready : ∀ w, s.kernel.links.Worker m w →
    (s.kernel.links w).life = .embryo ∨ (s.vm.space w).stacked = true

variable {round : Int → Int} {s t : State n} {m w : Slot} {b : Nat} {c : Fin n}
  {r : Recycler (Fin MAXTHREAD ⊕ Fin MAXTHREAD)} {a : Action n}

/-- Where the stacks end depends on the indexes and the memory of the workers. -/
theorem stackTop_congr (hthreads : (t.kernel.links m).threads = (s.kernel.links m).threads)
    (hspace : ∀ p, s.kernel.links.Worker m p → t.vm.space p = s.vm.space p) (i : Fin MAXTHREAD) :
    stackTop t m i = stackTop s m i := by
  have hi : (t.kernel.proc m).threads i.succ = (s.kernel.proc m).threads i.succ :=
    congrFun hthreads i.succ
  unfold stackTop
  rw [hi]
  split
  · rfl
  · next w hw => rw [hspace w ⟨i.succ, Fin.succ_ne_zero i, hw⟩]

/-- A new worker has no stack. -/
theorem stackTop_create (hteam : Team s.kernel.links m) {j : Fin (MAXTHREAD + 1)}
    (hfree : (s.kernel.links m).threads j = none) (hw : (s.kernel.links w).life = .unused)
    {p : Slot} {pid : Nat} (hlinks : t.kernel.links = s.kernel.links.create p m w (some j) pid)
    (hself : (t.vm.space w).stacked = false) (hrest : ∀ p, p ≠ w → t.vm.space p = s.vm.space p)
    (i : Fin MAXTHREAD) : stackTop t m i = stackTop s m i := by
  have hthreads : (t.kernel.proc m).threads i.succ =
      if j = i.succ then some w else (s.kernel.proc m).threads i.succ := by
    show (t.kernel.links m).threads i.succ = _
    rw [hlinks]
    simp only [Links.create, Option.some.injEq, true_and]
    rfl
  unfold stackTop
  rw [hthreads]
  by_cases hi : j = i.succ
  · have hnone : (s.kernel.proc m).threads i.succ = none := hi ▸ hfree
    rw [if_pos hi, hnone]
    simp [hself]
  · rw [if_neg hi]
    split
    · rfl
    · next x hx =>
      have hxw : x ≠ w := by
        rintro rfl
        exact hteam.life_ne_unused (.inr ⟨_, Fin.succ_ne_zero i, hx⟩) hw
      rw [hrest x hxw]

/-- The stack of a worker that is joined is nobody's. -/
theorem stackTop_join (hteam : Team s.kernel.links m) {i : Fin MAXTHREAD}
    (hw : s.kernel.links.Lists m i.succ w) (hlinks : t.kernel.links = s.kernel.links.join m w)
    (hrest : ∀ p, p ≠ m → t.vm.space p = s.vm.space p) (j : Fin MAXTHREAD) :
    stackTop t m j = if j = i then none else stackTop s m j := by
  have hsucc : (s.kernel.links w).tid = i.succ := (hteam.worker _ w hw).2.1
  have hthreads : (t.kernel.proc m).threads j.succ =
      if j.succ = i.succ then none else (s.kernel.proc m).threads j.succ := by
    show (t.kernel.links m).threads j.succ = _
    rw [hlinks]
    simp only [Links.join, true_and, hsucc]
    rfl
  unfold stackTop
  rw [hthreads]
  by_cases hj : j = i
  · rw [if_pos hj, if_pos (congrArg Fin.succ hj)]
  · rw [if_neg hj, if_neg fun hs ↦ hj (Fin.succ_injective _ hs)]
    split
    · rfl
    · next y hy => rw [hrest y (hteam.worker _ y ⟨Fin.succ_ne_zero j, hy⟩).1]

/-- What the items depend on. -/
theorem Holds.frame (h : Holds m b s r)
    (hthreads : (t.kernel.links m).threads = (s.kernel.links m).threads)
    (hspace : ∀ p, InTeam s.kernel.links m p → t.vm.space p = s.vm.space p)
    (hlife : ∀ p, s.kernel.links.Worker m p → (s.kernel.links p).life = .embryo →
      (t.kernel.links p).life = .embryo ∨ (s.vm.space p).stacked = true)
    (hpages : ∀ v, (t.vm.mem.pte (s.vm.space m).pgdir v).isSome =
      (s.vm.mem.pte (s.vm.space m).pgdir v).isSome) : Holds m b t r := by
  have hm : t.vm.space m = s.vm.space m := hspace m (.inl rfl)
  have hworker : ∀ w, t.kernel.links.Worker m w ↔ s.kernel.links.Worker m w := by
    intro w
    unfold Links.Worker Links.Lists
    rw [hthreads]
  constructor
  · exact h.bound
  · rw [hm, h.size]
  · rw [hm]
    exact h.user
  · intro i
    rw [stackTop_congr hthreads fun p hp ↦ hspace p (.inr hp), h.worker]
  · intro i
    rw [hm, h.spare]
  · intro v hv
    rw [hm, hpages, h.pages v hv]
  · intro w hw
    rw [hm, hspace w (.inr ((hworker w).mp hw)), h.pgdir w ((hworker w).mp hw)]
  · intro w hw
    have hw := (hworker w).mp hw
    rw [hspace w (.inr hw)]
    rcases h.ready w hw with he | hs
    · exact hlife w hw he
    · exact .inr hs

/-- The item at the index of a worker is its stack. -/
theorem Holds.item_worker (h : Holds m b s r) {i : Fin MAXTHREAD}
    (hw : s.kernel.links.Lists m i.succ w) : (s.vm.space w).stacked = false ∧ r.item (.inl i) = none ∨
      (s.vm.space w).stacked = true ∧ ∃ k, r.item (.inl i) = some k ∧
        (s.vm.space w).sz = (b + 2 * k + 2) * PGSIZE := by
  have htop := h.worker i
  have hi : (s.kernel.proc m).threads i.succ = some w := hw.2
  unfold stackTop at htop
  rw [hi] at htop
  dsimp only at htop
  cases hstack : (s.vm.space w).stacked with
  | false =>
    rw [hstack, if_neg Bool.false_ne_true] at htop
    exact .inl ⟨rfl, Option.map_eq_none_iff.mp htop.symm⟩
  | true =>
    rw [hstack, if_pos rfl] at htop
    obtain ⟨k, hk, hsz⟩ := Option.map_eq_some_iff.mp htop.symm
    exact .inr ⟨rfl, k, hk, hsz.symm⟩

/-- There is no item at the index of a worker without a stack. -/
theorem Holds.unstacked (h : Holds m b s r) (hw : s.kernel.links.Worker m w)
    (hstack : (s.vm.space w).stacked = false) : ∃ i : Fin MAXTHREAD, r.item (.inl i) = none ∧
      s.kernel.links.Lists m i.succ w := by
  obtain ⟨j, hj⟩ := hw
  obtain ⟨i, rfl⟩ : ∃ i : Fin MAXTHREAD, i.succ = j := Fin.exists_succ_eq.mpr hj.1
  rcases h.item_worker hj with ⟨_, hi⟩ | ⟨hs, _⟩
  · exact ⟨i, hi, hj⟩
  · cases hstack.symm.trans hs

/-- An item at a worker is the stack of that worker. -/
theorem Holds.worker_item (h : Holds m b s r) {i : Fin MAXTHREAD} {k : Nat}
    (hk : r.item (.inl i) = some k) : ∃ w, s.kernel.links.Lists m i.succ w ∧
      (s.vm.space w).stacked = true ∧ (s.vm.space w).sz = (b + 2 * k + 2) * PGSIZE := by
  have htop := h.worker i
  rw [hk] at htop
  unfold stackTop at htop
  split at htop
  · cases htop
  · next w hw =>
    split at htop
    · next hs => exact ⟨w, ⟨Fin.succ_ne_zero i, hw⟩, hs, Option.some.inj htop⟩
    · cases htop

private theorem page_pos (hb : 0 < b) (k : Nat) : (b + 2 * k) * PGSIZE ≠ 0 :=
  Nat.mul_ne_zero (by omega) (by decide)

private theorem stack_inj {k l : Nat} (h : (b + 2 * k) * PGSIZE = (b + 2 * l) * PGSIZE) :
    k = l := by
  have hpage : 0 < PGSIZE := by decide
  have heq : b + 2 * k = b + 2 * l := Nat.eq_of_mul_eq_mul_right hpage h
  omega

/-- An entry of `freeupages` is zero or a stack. -/
theorem Holds.item_spare (h : Holds m b s r) (hb : 0 < b) {i : Fin MAXTHREAD} :
    (s.vm.space m).freeupages i = 0 ∧ r.item (.inr i) = none ∨ ∃ k, r.item (.inr i) = some k ∧
      (s.vm.space m).freeupages i = (b + 2 * k) * PGSIZE ∧ (s.vm.space m).freeupages i ≠ 0 := by
  have hspare := h.spare i
  cases hk : r.item (.inr i) with
  | none =>
    rw [hk] at hspare
    exact .inl ⟨hspare, rfl⟩
  | some k =>
    rw [hk] at hspare
    exact .inr ⟨k, rfl, hspare, fun h0 ↦ page_pos hb k (hspare.symm.trans h0)⟩

/-- Where `t_allocustack` finds a stack: at an item in `freeupages`, or where the next one is made
if there is none. -/
theorem Holds.nextStack (h : Holds m b s r) (hb : 0 < b) :
    (∃ i k, s.vm.reusable m = some i ∧ r.item (.inr i) = some k ∧
      s.vm.nextStack m = (b + 2 * k) * PGSIZE) ∨
    s.vm.reusable m = none ∧ (∀ i, r.item (.inr i) = none) ∧
      s.vm.nextStack m = (b + 2 * r.next) * PGSIZE := by
  unfold Spaces.nextStack
  cases hi : s.vm.reusable m with
  | some i =>
    left
    rcases h.item_spare hb with ⟨h0, _⟩ | ⟨k, hk, hf, _⟩
    · exact absurd h0 (reusable_eq_some hi)
    · exact ⟨i, k, rfl, hk, hf⟩
  | none =>
    right
    refine ⟨rfl, fun i ↦ ?_, h.size⟩
    rcases h.item_spare hb with ⟨_, hk⟩ | ⟨k, _, _, hne⟩
    · exact hk
    · exact absurd (reusable_eq_none.mp hi i) hne

/-- The pages of an item that no worker has are not mapped. -/
theorem Holds.unmapped (h : Holds m b s r) {k v : Nat} (hk : ∀ i, r.item (.inl i) ≠ some k)
    (hlo : b + 2 * k ≤ v) (hhi : v < b + 2 * k + 2) :
    s.vm.mem.pte (s.vm.space m).pgdir v = none := by
  by_contra hsome
  have hsome := Option.isSome_iff_ne_none.mpr hsome
  obtain ⟨i, k', hk', hlo', hhi'⟩ := (h.pages v (by omega)).mp hsome
  obtain rfl : k' = k := by omega
  exact hk i hk'

/-- What `t_allocustack` requires of the place that it finds. -/
theorem Holds.place (h : Holds m b s r) (hb : 0 < b) : ∃ k, s.vm.nextStack m = (b + 2 * k) * PGSIZE ∧
    (b + 2 * k) * PGSIZE < KERNBASE ∧
      ∀ v, b + 2 * k ≤ v → v < b + 2 * k + 2 → s.vm.mem.pte (s.vm.space m).pgdir v = none := by
  have huser := h.user
  rw [h.size] at huser
  rcases h.nextStack hb with ⟨i, k, _, hk, hnext⟩ | ⟨_, _, hnext⟩
  · refine ⟨k, hnext, lt_of_le_of_lt (Nat.mul_le_mul_right _ ?_) huser, fun v ↦ h.unmapped ?_⟩
    · have hlt := r.item_lt hk
      omega
    · intro j hj
      cases r.inj _ _ k hk hj
  · exact ⟨r.next, hnext, huser, fun v ↦ h.unmapped fun j hj ↦ (r.item_lt hj).false⟩

/-! ### A stack is allocated -/

-- no step of a proof below computes with the two
seal Spaces.t_allocustack Spaces.t_deallocustack

/-- The stack of item `k` is now that of the worker `w`. -/
private theorem Holds.allocated (h : Holds m b s r) (hteam : Team s.kernel.links m)
    {i : Fin MAXTHREAD} (hw : s.kernel.links.Lists m i.succ w) {k : Nat}
    {r' : Recycler (Fin MAXTHREAD ⊕ Fin MAXTHREAD)} (hkernel : t.kernel = s.kernel)
    (hspace : t.vm.space = ((s.vm.claim m ((b + 2 * k + 2) * PGSIZE)).modify w fun v ↦
      { v with sz := (b + 2 * k + 2) * PGSIZE, stacked := true }).space)
    (hpages : ∀ v, (t.vm.mem.pte (s.vm.space m).pgdir v).isSome = true ↔
      (b + 2 * k ≤ v ∧ v < b + 2 * k + 2) ∨ (s.vm.mem.pte (s.vm.space m).pgdir v).isSome = true)
    (hbound : r'.next ≤ MAXTHREAD) (hsize : (t.vm.space m).sz = (b + 2 * r'.next) * PGSIZE)
    (huser : (t.vm.space m).sz < KERNBASE) (hnone : r.item (.inl i) = none)
    (hin : r'.item (.inl i) = some k) (hother : ∀ j, j ≠ i → r'.item (.inl j) = r.item (.inl j))
    (hspare : ∀ j, (t.vm.space m).freeupages j =
      match r'.item (.inr j) with
      | none => 0
      | some k => (b + 2 * k) * PGSIZE) : Holds m b t r' := by
  have hwm := (hteam.worker _ w hw).1
  have hclaim : ∀ p, (s.vm.claim m ((b + 2 * k + 2) * PGSIZE)).space p ≠ s.vm.space p → p = m := by
    intro p hp
    unfold Spaces.claim at hp
    rw [Spaces.modify_space] at hp
    by_contra hpm
    exact hp (if_neg hpm)
  have hself : t.vm.space w = { s.vm.space w with
      sz := (b + 2 * k + 2) * PGSIZE, stacked := true } := by
    rw [hspace, Spaces.modify_space, if_pos rfl, not_not.mp fun hne ↦ hwm (hclaim w hne)]
  have hrest : ∀ p, p ≠ w → p ≠ m → t.vm.space p = s.vm.space p := by
    intro p hpw hpm
    rw [hspace, Spaces.modify_space, if_neg hpw, not_not.mp fun hne ↦ hpm (hclaim p hne)]
  have hpgdir : (t.vm.space m).pgdir = (s.vm.space m).pgdir := by
    rw [hspace, Spaces.modify_space, if_neg hwm.symm]
    unfold Spaces.claim
    rw [Spaces.modify_space, if_pos rfl]
    split <;> rfl
  have htop : ∀ j, stackTop t m j = if j = i then some ((b + 2 * k + 2) * PGSIZE) else stackTop s m j := by
    intro j
    unfold stackTop
    rw [hkernel]
    by_cases hj : j = i
    · rw [if_pos hj, hj, show (s.kernel.proc m).threads i.succ = some w from hw.2]
      dsimp only
      rw [hself, if_pos rfl]
    · rw [if_neg hj]
      split
      · rfl
      · next x hx =>
        have hlists : s.kernel.links.Lists m j.succ x := ⟨Fin.succ_ne_zero j, hx⟩
        have hxw : x ≠ w := by
          rintro rfl
          exact hj (Fin.succ_injective _ (hteam.worker_inj hlists hw))
        rw [hrest x hxw (hteam.worker _ x hlists).1]
  constructor
  · exact hbound
  · exact hsize
  · exact huser
  · intro j
    rw [htop]
    by_cases hj : j = i
    · rw [if_pos hj, hj, hin]
      rfl
    · rw [if_neg hj, hother j hj, h.worker]
  · exact hspare
  · intro v hv
    rw [hpgdir, hpages, h.pages v hv]
    constructor
    · rintro (hk | ⟨j, l, hl, hlv⟩)
      · exact ⟨i, k, hin, hk⟩
      · have hj : j ≠ i := by
          rintro rfl
          cases hnone.symm.trans hl
        exact ⟨j, l, by rw [hother j hj, hl], hlv⟩
    · rintro ⟨j, l, hl, hlv⟩
      by_cases hj : j = i
      · rw [hj, hin] at hl
        cases hl
        exact .inl hlv
      · rw [hother j hj] at hl
        exact .inr ⟨j, l, hl, hlv⟩
  · intro x hx
    rw [hkernel] at hx
    have hold := h.pgdir x hx
    rw [hpgdir, ← hold]
    by_cases hxw : x = w
    · rw [hxw, hself]
    · obtain ⟨j, hj⟩ := hx
      rw [hrest x hxw (hteam.worker j x hj).1]
  · intro x hx
    rw [hkernel] at hx ⊢
    by_cases hxw : x = w
    · right
      rw [hxw, hself]
    · have hready := h.ready x hx
      obtain ⟨j, hj⟩ := hx
      rwa [hrest x hxw (hteam.worker j x hj).1]

/-- A call of `t_allocustack` for a new worker comes upon no mapped page, and gives it a stack that
was free or a new one. -/
theorem Holds.allocate (h : Holds m b s r) (hb : 0 < b) (hteam : Team s.kernel.links m)
    (hw : s.kernel.links.Worker m w) (hstack : (s.vm.space w).stacked = false) :
    NoRemap (s.vm.t_allocustack m w) fun vm ↦ ∃ r' k, s.vm.nextStack m = (b + 2 * k) * PGSIZE ∧
      Holds m b { s with vm } r' ∧ ∀ j, j < r'.next ↔ j = k ∨ j < r.next := by
  obtain ⟨i, hi, hlists⟩ := h.unstacked hw hstack
  have hwm := (hteam.worker _ w hlists).1
  obtain ⟨k, hnext, huser, hfree⟩ := h.place hb
  have hround : pageUp ((b + 2 * k) * PGSIZE) = b + 2 * k := pageUp_page _
  have hspec := t_allocustack_spec (w := w) hnext huser (by rwa [hround])
  rw [← Nat.add_mul, hround] at hspec
  refine hspec.imp fun vm ⟨htop, hspace, hpages⟩ ↦ ?_
  have hm : vm.space m = (s.vm.claim m ((b + 2 * k + 2) * PGSIZE)).space m := by
    rw [hspace, Spaces.modify_space, if_neg hwm.symm]
  unfold Spaces.claim at hm
  rw [Spaces.modify_space, if_pos rfl] at hm
  rcases h.nextStack hb with ⟨j, l, hj, hl, hbase⟩ | ⟨hnone, hall, hbase⟩
  · -- a free stack is used again
    obtain rfl : l = k := stack_inj (hbase.symm.trans hnext)
    rw [hj] at hm
    refine ⟨r.move (.inr j) (.inl i) hi, l, hnext, ?_, ?_⟩
    · refine h.allocated hteam hlists rfl hspace hpages h.bound ?_ ?_ hi ?_ ?_ ?_
      · rw [hm]
        exact h.size
      · rw [hm]
        exact h.user
      · exact (if_pos rfl).trans hl
      · intro x hx
        simp [Recycler.move, hx]
      · intro x
        rw [hm]
        by_cases hx : x = j
        · simp [Recycler.move, hx]
        · have hspare := h.spare x
          simpa [Recycler.move, hx] using hspare
    · intro x
      refine ⟨.inr, fun hx ↦ hx.elim ?_ id⟩
      rintro rfl
      exact r.item_lt hl
  · -- no stack is free, so a new one is made
    obtain rfl : k = r.next := (stack_inj (hbase.symm.trans hnext)).symm
    rw [hnone] at hm
    refine ⟨r.carve (.inl i) hi, r.next, hnext, ?_, ?_⟩
    · have hlt : r.next < MAXTHREAD := by
        have hcard := r.next_lt (s := Finset.univ.image Sum.inl) (p := .inl i) ?_ ?_ hi
        · rwa [Finset.card_image_of_injective _ Sum.inl_injective, Finset.card_fin] at hcard
        · rintro (x | x) hx
          · simp at hx
          · exact hall x
        · simp
      refine h.allocated hteam hlists rfl hspace hpages hlt ?_ ?_ hi ?_ ?_ ?_
      · rw [hm]
        rfl
      · rw [hm]
        exact htop
      · exact update_self ..
      · intro x hx
        exact update_of_ne (fun he ↦ hx (Sum.inl_injective he)) ..
      · intro x
        rw [hm]
        have hspare := h.spare x
        rw [hall x] at hspare
        simpa [Recycler.carve, hall x] using hspare
    · intro x
      simp only [Recycler.carve]
      omega

/-! ### A stack is given back -/

/-- A worker that has ended has a stack. -/
private theorem Holds.ended (h : Holds m b s r) {i : Fin MAXTHREAD}
    (hw : s.kernel.links.Lists m i.succ w) (hz : (s.kernel.links w).life = .zombie) :
    ∃ k, r.item (.inl i) = some k ∧ (s.vm.space w).sz = (b + 2 * k + 2) * PGSIZE := by
  rcases h.item_worker hw with ⟨hs, _⟩ | ⟨_, hk⟩
  · rcases h.ready w ⟨_, hw⟩ with he | hs'
    · cases hz.symm.trans he
    · cases hs.symm.trans hs'
  · exact hk

/-- There is room in `freeupages` for the stack of a worker. -/
private theorem Holds.vacant (h : Holds m b s r) (hb : 0 < b) {i : Fin MAXTHREAD} {k : Nat}
    (hk : r.item (.inl i) = some k) :
    ∃ j, s.vm.vacant m = some j ∧ r.item (.inr j) = none := by
  have hcard : r.next ≤
      (Finset.univ.image (Sum.inr : Fin MAXTHREAD → Fin MAXTHREAD ⊕ Fin MAXTHREAD)).card := by
    rw [Finset.card_image_of_injective _ Sum.inr_injective, Finset.card_fin]
    exact h.bound
  obtain ⟨q, hq, hnone⟩ := r.exists_vacant hcard (by simp) hk
  obtain ⟨x, _, rfl⟩ := Finset.mem_image.mp hq
  cases hj : s.vm.vacant m with
  | none =>
    rcases h.item_spare hb (i := x) with ⟨h0, _⟩ | ⟨l, hl, _⟩
    · exact absurd h0 (vacant_eq_none.mp hj x)
    · cases hnone.symm.trans hl
  | some j =>
    rcases h.item_spare hb (i := j) with ⟨_, hj'⟩ | ⟨_, _, _, hne⟩
    · exact ⟨j, rfl, hj'⟩
    · exact absurd (vacant_eq_some hj) hne

/-- The stack of the worker `w` is now in `freeupages`. -/
private theorem Holds.joined (h : Holds m b s r) (hteam : Team s.kernel.links m)
    {i j : Fin MAXTHREAD} (hw : s.kernel.links.Lists m i.succ w) {k : Nat}
    (hk : r.item (.inl i) = some k) (hj : r.item (.inr j) = none)
    (hlinks : t.kernel.links = s.kernel.links.join m w)
    (hm : t.vm.space m = { s.vm.space m with
      freeupages := update (s.vm.space m).freeupages j ((b + 2 * k) * PGSIZE) })
    (hrest : ∀ p, p ≠ m → t.vm.space p = s.vm.space p)
    (hpages : ∀ v, (t.vm.mem.pte (s.vm.space m).pgdir v).isSome = true ↔
      ¬(b + 2 * k ≤ v ∧ v < b + 2 * k + 2) ∧
        (s.vm.mem.pte (s.vm.space m).pgdir v).isSome = true) :
    Holds m b t (r.move (.inl i) (.inr j) hj) := by
  have hworker : ∀ x, t.kernel.links.Worker m x → s.kernel.links.Worker m x ∧ x ≠ w :=
    fun x hx ↦ hteam.worker_of_join hw (hlinks ▸ hx)
  have hne : ∀ x, s.kernel.links.Worker m x → x ≠ m := by
    intro x hx
    obtain ⟨l, hl⟩ := hx
    exact (hteam.worker l x hl).1
  constructor
  · exact h.bound
  · rw [hm]
    exact h.size
  · rw [hm]
    exact h.user
  · intro x
    rw [stackTop_join hteam hw hlinks hrest, h.worker x]
    by_cases hx : x = i
    · simp [hx, Recycler.move]
    · simp [hx, Recycler.move]
  · intro x
    rw [hm]
    by_cases hx : x = j
    · simp [Recycler.move, hx, hk]
    · have hspare := h.spare x
      simpa [Recycler.move, hx] using hspare
  · intro v hv
    rw [hm, hpages, h.pages v hv]
    constructor
    · rintro ⟨hout, x, l, hl, hlv⟩
      have hx : x ≠ i := by
        rintro rfl
        cases hk.symm.trans hl
        exact hout hlv
      exact ⟨x, l, by simpa [Recycler.move, hx] using hl, hlv⟩
    · rintro ⟨x, l, hl, hlv⟩
      simp only [Recycler.move, reduceCtorEq, if_false, Sum.inl.injEq] at hl
      split at hl
      · cases hl
      · next hx =>
        refine ⟨fun hin ↦ hx ?_, x, l, hl, hlv⟩
        obtain rfl : l = k := by omega
        exact Sum.inl_injective (r.inj _ _ l hl hk)
  · intro x hx
    rw [hm, hrest x (hne x (hworker x hx).1)]
    exact h.pgdir x (hworker x hx).1
  · intro x hx
    have hxw := (hworker x hx).2
    rw [hrest x (hne x (hworker x hx).1), hlinks]
    simpa [Links.join, hxw] using h.ready x (hworker x hx).1

/-- A join of a worker that has ended puts its stack into `freeupages`. -/
theorem Holds.join (h : Holds m b s r) (hb : 0 < b) (hteam : Team s.kernel.links m)
    {i : Fin MAXTHREAD} (hw : s.kernel.links.Lists m i.succ w)
    (hz : (s.kernel.links w).life = .zombie) :
    NoRemap (s.vm.t_deallocustack w m) fun vm ↦ ∃ r', r'.next = r.next ∧
      ∀ t : State n, t.kernel.links = s.kernel.links.join m w → t.vm = vm → Holds m b t r' := by
  obtain ⟨k, hk, hsz⟩ := h.ended hw hz
  obtain ⟨j, hj, hnone⟩ := h.vacant hb hk
  have hlt : (b + 2 * k) * PGSIZE < KERNBASE := by
    have hitem := r.item_lt hk
    have huser := h.user
    rw [h.size] at huser
    exact lt_of_le_of_lt (Nat.mul_le_mul_right _ (by omega)) huser
  have hspec := t_deallocustack_spec (m := m) (hsz.trans (Nat.add_mul ..)) (stack_lt hlt)
  rw [pageUp_page] at hspec
  refine hspec.imp fun vm ⟨_, hspace, hpages⟩ ↦ ?_
  refine ⟨r.move (.inl i) (.inr j) hnone, rfl, fun t hlinks ht ↦ ?_⟩
  subst ht
  rw [h.pgdir w ⟨_, hw⟩] at hpages
  unfold Spaces.giveBack at hspace
  rw [hj] at hspace
  refine h.joined hteam hw hk hnone hlinks ?_ ?_ hpages
  · rw [hspace, Spaces.modify_space, if_pos rfl]
  · intro p hp
    rw [hspace, Spaces.modify_space, if_neg hp]

/-! ### Steps of the group -/

/-- `allocthread` has taken `w` for a new worker, which has no stack yet. -/
private theorem Holds.created (h : Holds m b s r) (hteam : Team s.kernel.links m)
    {i : Fin (MAXTHREAD + 1)} (hfree : (s.kernel.proc m).threads i = none)
    (hw : (s.kernel.links w).life = .unused) {p : Slot} {pid : Nat}
    (hlinks : t.kernel.links = s.kernel.links.create p m w (some i) pid)
    (hdir : t.vm.mem.dir = s.vm.mem.dir)
    (hself : (t.vm.space w).stacked = false ∧ (t.vm.space w).pgdir = (s.vm.space m).pgdir)
    (hrest : ∀ p, p ≠ w → t.vm.space p = s.vm.space p) : Holds m b t r := by
  have hout : ∀ q, InTeam s.kernel.links m q → q ≠ w := by
    rintro q hq rfl
    exact hteam.life_ne_unused hq hw
  have hm : t.vm.space m = s.vm.space m := hrest m (hout m (.inl rfl))
  have hworker : ∀ x, t.kernel.links.Worker m x → x = w ∨ s.kernel.links.Worker m x :=
    fun x hx ↦ Team.worker_of_create (hlinks ▸ hx)
  constructor
  · exact h.bound
  · rw [hm, h.size]
  · rw [hm]
    exact h.user
  · intro x
    rw [stackTop_create hteam hfree hw hlinks hself.1 hrest, h.worker x]
  · intro x
    rw [hm, h.spare]
  · intro v hv
    rw [hm, Memory.pte_congr hdir, h.pages v hv]
  · intro x hx
    rw [hm]
    rcases hworker x hx with rfl | hx
    · exact hself.2
    · rw [hrest x (hout x (.inr hx)), h.pgdir x hx]
  · intro x hx
    rw [hlinks]
    rcases hworker x hx with rfl | hx
    · left
      simp [Links.create]
    · have hxw := hout x (.inr hx)
      rw [hrest x hxw]
      simpa [Links.create, hxw] using h.ready x hx

/-- The calls of the members make workers only. -/
private def Busy (l : Links) (m : Slot) : Prop :=
  ∀ p w, InTeam l m p → (l p).np = some w → l.Worker m w

private theorem Busy.create {l : Links} (h : Busy l m) {i : Fin (MAXTHREAD + 1)} {p : Slot} {pid : Nat}
    (hi : i ≠ 0) (hfree : (l m).threads i = none) : Busy (l.create p m w (some i) pid) m := by
  have hnew : (l.create p m w (some i) pid).Worker m w := ⟨i, hi, by simp [Links.create]⟩
  have hkeep : ∀ x, l.Worker m x → (l.create p m w (some i) pid).Worker m x := by
    rintro x ⟨j, hj, hx⟩
    refine ⟨j, hj, ?_⟩
    simp only [Links.create, Option.some.injEq, true_and]
    rw [if_neg, hx]
    rintro rfl
    cases hfree.symm.trans hx
  have hold : ∀ q, InTeam (l.create p m w (some i) pid) m q → q = w ∨ InTeam l m q := by
    rintro q (rfl | ⟨j, hj, hq⟩)
    · exact .inr (.inl rfl)
    · simp only [Links.create, Option.some.injEq, true_and] at hq
      split at hq
      · exact .inl (Option.some.inj hq).symm
      · exact .inr (.inr ⟨j, hj, hq⟩)
  intro q x hq hx
  simp only [Links.create] at hx
  split at hx
  · cases hx
    exact hnew
  · split at hx
    · cases hx
    · next hqw => exact hkeep x (h q x ((hold q hq).resolve_left hqw) hx)

private theorem Busy.ready {l : Links} (h : Busy l m) {p : Slot} : Busy (l.ready p m w) m := by
  intro q x hq hx
  simp only [Links.ready] at hx
  split at hx
  · cases hx
  · exact h q x hq hx

private theorem Busy.join {l : Links} (h : Busy l m) (hteam : Team l m) {t : Slot}
    {i : Fin (MAXTHREAD + 1)} (ht : l.Lists m i t) (hz : (l t).life = .zombie) :
    Busy (l.join m t) m := by
  have hold : ∀ j x, (l.join m t).Lists m j x → l.Lists m j x := by
    rintro j x ⟨hj, hx⟩
    simp only [Links.join, true_and] at hx
    split at hx
    · cases hx
    · exact ⟨hj, hx⟩
  have hin : ∀ q, InTeam (l.join m t) m q → InTeam l m q := by
    rintro q (rfl | ⟨j, hj⟩)
    · exact .inl rfl
    · exact .inr ⟨j, hold j q hj⟩
  intro q x hq hx
  obtain ⟨j, hj, hjx⟩ := h q x (hin q hq) hx
  refine ⟨j, hj, ?_⟩
  simp only [Links.join, true_and]
  rw [if_neg, hjx]
  rintro rfl
  -- the worker that is joined has ended, and that of a call has not
  rw [(hteam.worker i t ht).2.1] at hjx
  have hxt : x = t := Option.some.inj (hjx.symm.trans ht.2)
  subst hxt
  cases hz.symm.trans ((hteam.making q x (hin q hq) hx).2 ⟨i, ht⟩)

/-- The group of `m` at work: `x` lists the stacks that have been handed out. -/
private structure Working (m : Slot) (b : Nat) (s : State n) (x : List Nat) : Prop where
  team : Team s.kernel.links m
  busy : Busy s.kernel.links m
  holds : ∃ r, Holds m b s r ∧ ∀ a, a ∈ x ↔ ∃ k < r.next, a = (b + 2 * k) * PGSIZE

/-- A step that changes neither the stacks nor the threads without one. -/
private theorem Working.frame {x : List Nat} (h : Working m b s x) (hteam : Team t.kernel.links m)
    (hbusy : Busy t.kernel.links m)
    (hthreads : (t.kernel.links m).threads = (s.kernel.links m).threads) (hvm : t.vm = s.vm)
    (hlife : ∀ p, s.kernel.links.Worker m p → (s.kernel.links p).life = .embryo →
      (t.kernel.links p).life = .embryo ∨ (s.vm.space p).stacked = true) : Working m b t x := by
  obtain ⟨r, hr, hx⟩ := h.holds
  exact ⟨hteam, hbusy, r, hr.frame hthreads (fun _ _ ↦ by rw [hvm]) hlife (fun _ ↦ by rw [hvm]), hx⟩

private theorem Working.quiet {x : List Nat} (h : Working m b s x)
    (hlinks : t.kernel.links = s.kernel.links) (hvm : t.vm = s.vm) : Working m b t x := by
  refine h.frame ?_ ?_ ?_ hvm ?_
  · rw [hlinks]
    exact h.team
  · rw [hlinks]
    exact h.busy
  · rw [hlinks]
  · rw [hlinks]
    exact fun _ _ he ↦ .inl he

private theorem Working.apart {x : List Nat} (h : Working m b s x) (ht : Apart m s t) :
    Working m b t x := by
  have hworker : ∀ w, t.kernel.links.Worker m w ↔ s.kernel.links.Worker m w := by
    intro w
    unfold Links.Worker Links.Lists
    rw [ht.threads]
  have hbusy : Busy t.kernel.links m := by
    intro p w hp hw
    have hp : InTeam s.kernel.links m p := or_congr Iff.rfl (hworker p) |>.mp hp
    rw [ht.np p hp] at hw
    exact (hworker w).mpr (h.busy p w hp hw)
  obtain ⟨r, hr, hx⟩ := h.holds
  refine ⟨h.team.congr ht.threads ht.life ht.tid ht.master ?_ ?_, hbusy, r, ?_, hx⟩
  · intro p w hp _
    rw [ht.np p hp]
  · intro p w hp hw
    rw [ht.np p hp] at hw
    have hin : InTeam s.kernel.links m w := .inr (h.busy p w hp hw)
    rw [ht.life w hin]
    exact h.team.life_ne_unused hin
  refine hr.frame ht.threads ht.space (fun p hp he ↦ .inl ?_) ht.pages
  rw [ht.life p (.inr hp), he]

private theorem Working.thread_create {x : List Nat} (h : Working m b s x)
    (hacts : Acts s.kernel m c) (hfree : ∃ i, i ≠ 0 ∧ (s.kernel.proc m).threads i = none)
    (hs : step round s (.call (.thread_create c)) = .ok t) : Working m b t x := by
  obtain ⟨hk, hvm⟩ := step_call hs
  obtain ⟨p, w, i, hp, hw, hi, hnone, hlinks⟩ := h.team.thread_create hacts hfree hk
  obtain ⟨hteam, _, hmaster⟩ := h.team.acts_master hacts (cpu_of_caller hp)
  have hunused := life_of_state (state_of_findUnused hw)
  obtain ⟨hdir, hself, hrest⟩ := effect_create hvm hp hmaster hw
  obtain ⟨r, hr, hx⟩ := h.holds
  refine ⟨?_, ?_, r, hr.created h.team hnone hunused hlinks hdir hself hrest, hx⟩
  · rw [hlinks]
    exact h.team.create hteam hunused hi hnone
  · rw [hlinks]
    exact h.busy.create hi hnone

private theorem Working.threadReady {x : List Nat} (h : Working m b s x)
    (hacts : Acts s.kernel m c) (hs : step round s (.call (.threadReady c)) = .ok t) :
    Working m b t x := by
  obtain ⟨hk, hvm⟩ := step_call hs
  obtain ⟨p, w, hp, hw, hteam, hlinks⟩ := h.team.threadReady hacts hk
  obtain ⟨hvm, hstacked⟩ := effect_ready hvm hp hw
  refine h.frame ?_ ?_ ?_ hvm fun q _ he ↦ ?_
  · rw [hlinks]
    exact h.team.ready hteam (h.busy p w hteam hw) hw
  · rw [hlinks]
    exact h.busy.ready
  · rw [hlinks]
    rfl
  · by_cases hq : q = w
    · exact .inr (hq ▸ hstacked)
    · left
      rw [hlinks]
      simpa [Links.ready, hq] using he

private theorem Working.thread_exit {x : List Nat} (h : Working m b s x)
    (hacts : Acts s.kernel m c) (hne : (s.kernel.cpu c).proc ≠ some m)
    (hs : step round s (.call (.thread_exit c)) = .ok t) : Working m b t x := by
  obtain ⟨hk, hvm⟩ := step_call hs
  obtain ⟨p, _, hteam, hl, hpm, hlinks⟩ := h.team.thread_exit hacts hne hk
  refine h.frame ?_ ?_ ?_ (Except.ok.inj hvm).symm fun q _ he ↦ .inl ?_
  · rw [hlinks]
    exact h.team.quit hteam hl hpm
  · rw [hlinks]
    exact h.busy
  · rw [hlinks]
    rfl
  · have hq : q ≠ p := by
      rintro rfl
      cases hl.symm.trans he
    rw [hlinks]
    simpa [Links.quit, hq] using he

private theorem Working.thread_join {x : List Nat} (h : Working m b s x) (hb : 0 < b)
    {thread : Nat} (hacts : Acts s.kernel m c) (hm : (s.kernel.cpu c).proc = some m)
    (hs : step round s (.call (.thread_join c thread)) = .ok t) : Working m b t x := by
  obtain ⟨hk, hvm⟩ := step_call hs
  rcases h.team.thread_join hacts hm hk with ⟨hlinks, i, w, hi, hw, hz⟩ | ⟨i, w, hi, hw, hz, hlinks⟩
  · rcases effect_join hvm hm hi hw with ⟨_, hvm⟩ | ⟨hz', _⟩
    · exact h.quiet hlinks hvm
    · exact absurd hz' hz
  · rcases effect_join hvm hm hi hw.2 with ⟨hz', _⟩ | ⟨_, m', hm', hvm⟩
    · exact absurd hz hz'
    · have hlife := life_of_state hz
      have hmaster : (s.kernel.links w).master = some m := by
        rcases (h.team.worker i w hw).2.2.2 with he | hm
        · cases hlife.symm.trans he
        · exact hm
      cases hm'.symm.trans hmaster
      obtain ⟨j, rfl⟩ : ∃ j : Fin MAXTHREAD, j.succ = i := Fin.exists_succ_eq.mpr hw.1
      obtain ⟨r, hr, hx⟩ := h.holds
      obtain ⟨r', hnext, hr'⟩ := (hr.join hb h.team hw hlife).of_ok hvm
      refine ⟨?_, ?_, r', hr' t hlinks rfl, ?_⟩
      · rw [hlinks]
        exact h.team.join hw hlife
      · rw [hlinks]
        exact h.busy.join h.team hw hlife
      · rw [hnext]
        exact hx

/-- The worker that a `thread_create` in the group of `m` is about. -/
private theorem Working.maker {x : List Nat} (h : Working m b s x) (hacts : Acts s.kernel m c)
    {p w m' : Slot} (hp : current s.kernel c = .ok p) (hw : (s.kernel.proc p).np = some w)
    (hm : (s.kernel.proc p).master = some m') : m' = m ∧ s.kernel.links.Worker m w := by
  obtain ⟨hteam, _, hmaster⟩ := h.team.acts_master hacts (cpu_of_current hp)
  exact ⟨Option.some.inj (hm.symm.trans hmaster), h.busy p w hteam hw⟩

/-- No allocation comes upon a mapped page. -/
private theorem Working.t_allocustack {x : List Nat} (h : Working m b s x) (hb : 0 < b)
    (hacts : Acts s.kernel m c) :
    NoRemap (step round s (.t_allocustack c)) fun t ↦ Working m b t (s.vm.nextStack m :: x) := by
  obtain ⟨r, hr, hx⟩ := h.holds
  have halloc : ∀ p w m', current s.kernel c = .ok p → (s.kernel.proc p).np = some w →
      (s.kernel.proc p).master = some m' → (s.vm.space w).stacked = false →
      NoRemap (s.vm.t_allocustack m' w) fun vm ↦ ∃ r' k, s.vm.nextStack m = (b + 2 * k) * PGSIZE ∧
        Holds m b { s with vm } r' ∧ ∀ j, j < r'.next ↔ j = k ∨ j < r.next := by
    intro p w m' hp hw hm hs
    obtain ⟨rfl, hworker⟩ := h.maker hacts hp hw hm
    exact hr.allocate hb h.team hworker hs
  refine (step_ustack halloc).imp ?_
  rintro t ⟨vm, rfl, r', k, hnext, hr', hj⟩
  refine ⟨h.team, h.busy, r', hr', fun a ↦ ?_⟩
  rw [List.mem_cons, hx, hnext]
  constructor
  · rintro (rfl | ⟨l, hl, rfl⟩)
    · exact ⟨k, (hj k).mpr (.inl rfl), rfl⟩
    · exact ⟨l, (hj l).mpr (.inr hl), rfl⟩
  · rintro ⟨l, hl, rfl⟩
    rcases (hj l).mp hl with rfl | hl
    · exact .inl rfl
    · exact .inr ⟨l, hl, rfl⟩

private theorem Working.own {x : List Nat} (h : Working m b s x) (hb : 0 < b) (ha : Own m s a)
    (hs : step round s a = .ok t) : Working m b t (handed m s a t x) := by
  have hacting : ∀ {a : Sched.Action n} {c}, step round s (.call a) = .ok t → Acts s.kernel m c →
      a.Quiet → (∀ c', MayCall c' a → c' = c) → (∀ c' ∈ a.call, c' = c) →
      effect s a = .ok s.vm → Working m b t x := by
    intro a c hs hacts hq hc hcall he
    obtain ⟨hk, hvm⟩ := step_call hs
    exact h.quiet (h.team.quiet hacts hq hc hcall hk) (Except.ok.inj (hvm.symm.trans he))
  cases a with
  | call a =>
    cases a with
    | scheduler c =>
      obtain ⟨hk, hvm⟩ := step_call hs
      obtain ⟨r, hr, hk⟩ := bind_eq_ok.mp hk
      obtain ⟨u, hu, hr⟩ := bind_eq_ok.mp hr
      cases hr
      cases hk
      exact h.quiet (links_scheduler hu) (Except.ok.inj hvm).symm
    | wakeup chan =>
      obtain ⟨hk, hvm⟩ := step_call hs
      exact h.quiet ((congrArg _ (Except.ok.inj hk).symm).trans links_wakeup1) (Except.ok.inj hvm).symm
    | tick c => exact hacting hs ha trivial (fun _ hc ↦ hc.symm) nofun rfl
    | boost c => exact hacting hs ha trivial nofun nofun rfl
    | yield c =>
      exact hacting hs ha trivial (fun _ hc ↦ hc.symm) (fun _ hc ↦ (Option.some.inj hc).symm) rfl
    | sleep c chan =>
      exact hacting hs ha trivial (fun _ hc ↦ hc.symm) (fun _ hc ↦ (Option.some.inj hc).symm) rfl
    | set_cpu_share c k =>
      exact hacting hs ha trivial nofun (fun _ hc ↦ (Option.some.inj hc).symm) rfl
    | thread_create c => exact h.thread_create ha.1 ha.2 hs
    | threadReady c => exact h.threadReady ha hs
    | thread_exit c => exact h.thread_exit ha.1 ha.2 hs
    | thread_join c thread => exact h.thread_join hb ha.1 ha.2 hs
    | kill pid => exact ha.elim
    | fork c k => exact ha.elim
    | forkDone c k => exact ha.elim
    | exit c => exact ha.elim
    | wait c => exact ha.elim
  | t_allocustack c =>
    have hacts : Acts s.kernel m c := ha
    have hx : handed m s (.t_allocustack c) t x = s.vm.nextStack m :: x := if_pos hacts
    rw [hx]
    exact (h.t_allocustack hb hacts).of_ok hs
  | growproc c k => exact ha.elim
  | exec c ends succeeds => exact ha.elim

private theorem Working.calls {x : List Nat} (h : Working m b s x) (hb : 0 < b) (ha : Calls m s a t)
    (hs : step round s a = .ok t) : Working m b t (handed m s a t x) := by
  by_cases hown : Own m s a
  · exact h.own hb hown hs
  · have hkeep : handed m s a t x = x := by
      unfold handed
      split
      · next c => exact if_neg hown
      · rfl
    rw [hkeep]
    exact h.apart (ha.resolve_left hown)

/-- A process without threads has no stacks yet. -/
private theorem Starts.working (h : Starts s m) :
    Working m ((s.vm.space m).sz / PGSIZE) s [] := by
  have hnone : ∀ i x, ¬s.kernel.links.Lists m i x := by
    rintro i x ⟨hi, hx⟩
    have hx : (s.kernel.proc m).threads i = some x := hx
    rw [h.threads, if_neg hi] at hx
    cases hx
  have hsz : (s.vm.space m).sz = (s.vm.space m).sz / PGSIZE * PGSIZE :=
    (Nat.div_mul_cancel (Nat.dvd_of_mod_eq_zero h.aligned)).symm
  refine ⟨⟨h.alive, h.master, ?_, fun i x hx ↦ (hnone i x hx).elim, ?_, ?_⟩, ?_, .empty, ?_, ?_⟩
  · intro q hq
    have hq : (s.kernel.proc m).threads 0 = some q := hq
    rw [h.threads, if_pos rfl] at hq
    exact (Option.some.inj hq).symm
  · rintro p w (rfl | ⟨i, hi⟩) hw
    · cases h.np.symm.trans hw
    · exact (hnone i p hi).elim
  · rintro p q w _ _ ⟨i, hi⟩
    exact (hnone i w hi).elim
  · rintro p w (rfl | ⟨i, hi⟩) hw
    · cases h.np.symm.trans hw
    · exact (hnone i p hi).elim
  · constructor
    · exact Nat.zero_le _
    · exact hsz
    · exact h.user
    · intro i
      unfold stackTop
      rw [h.threads, if_neg (Fin.succ_ne_zero i)]
      rfl
    · exact h.empty
    · intro v hv
      rw [h.unmapped v hv]
      simp [Recycler.empty]
    · exact fun w ⟨i, hi⟩ ↦ (hnone i w hi).elim
    · exact fun w ⟨i, hi⟩ ↦ (hnone i w hi).elim
  · simp [Recycler.empty]

/-! ### What the items say -/

private theorem region_disjoint {k l : Nat} (h : k ≠ l) :
    Disjoint (region ((b + 2 * k) * PGSIZE)) (region ((b + 2 * l) * PGSIZE)) := by
  rw [Set.disjoint_left]
  intro v hv hv'
  have hk : (b + 2 * k) * 4096 ≤ v ∧ v < (b + 2 * k) * 4096 + 2 * 4096 := Set.mem_Ico.mp hv
  have hl : (b + 2 * l) * 4096 ≤ v ∧ v < (b + 2 * l) * 4096 + 2 * 4096 := Set.mem_Ico.mp hv'
  omega

/-- The stack of a worker is the item at its index. -/
private theorem Holds.hasStack (h : Holds m b s r) (hw : HasStack s m w) :
    ∃ i k, s.kernel.links.Lists m (Fin.succ i) w ∧ r.item (.inl i) = some k ∧
      stackBase s w = (b + 2 * k) * PGSIZE := by
  obtain ⟨⟨j, hj⟩, hs⟩ := hw
  obtain ⟨i, rfl⟩ : ∃ i : Fin MAXTHREAD, i.succ = j := Fin.exists_succ_eq.mpr hj.1
  rcases h.item_worker hj with ⟨hs', _⟩ | ⟨_, k, hk, hsz⟩
  · cases hs.symm.trans hs'
  · refine ⟨i, k, hj, hk, ?_⟩
    unfold stackBase
    rw [hsz]
    show (b + 2 * k + 2) * 4096 - 2 * 4096 = (b + 2 * k) * 4096
    omega

private theorem Holds.freeStack (h : Holds m b s r) (hb : 0 < b) {i : Fin MAXTHREAD}
    (hi : (s.vm.space m).freeupages i ≠ 0) :
    ∃ k, r.item (.inr i) = some k ∧ (s.vm.space m).freeupages i = (b + 2 * k) * PGSIZE := by
  rcases h.item_spare hb with ⟨h0, _⟩ | ⟨k, hk, hf, _⟩
  · exact absurd h0 hi
  · exact ⟨k, hk, hf⟩

/-- Each item is the stack of a worker or in `freeupages`. -/
private theorem Holds.kept (h : Holds m b s r) (hb : 0 < b) (hteam : Team s.kernel.links m)
    {a : Nat} :
    (∃ k < r.next, a = (b + 2 * k) * PGSIZE) ↔ (∃ w, HasStack s m w ∧ stackBase s w = a) ∨
      ∃ i, (s.vm.space m).freeupages i ≠ 0 ∧ (s.vm.space m).freeupages i = a := by
  constructor
  · rintro ⟨k, hk, rfl⟩
    obtain ⟨i | i, hi⟩ := (r.made k).mp hk
    · obtain ⟨w, hw, hs, _⟩ := h.worker_item hi
      have hstack : HasStack s m w := ⟨⟨_, hw⟩, hs⟩
      obtain ⟨j, l, hj, hl, hbase⟩ := h.hasStack hstack
      obtain rfl := Fin.succ_injective _ (hteam.worker_inj hj hw)
      cases hi.symm.trans hl
      exact .inl ⟨w, hstack, hbase⟩
    · rcases h.item_spare hb with ⟨_, hi'⟩ | ⟨l, hl, hf, hne⟩
      · cases hi'.symm.trans hi
      · cases hi.symm.trans hl
        exact .inr ⟨i, hne, hf⟩
  · rintro (⟨w, hw, rfl⟩ | ⟨i, hi, rfl⟩)
    · obtain ⟨i, k, _, hk, hbase⟩ := h.hasStack hw
      exact ⟨k, r.item_lt hk, hbase⟩
    · obtain ⟨k, hk, hf⟩ := h.freeStack hb hi
      exact ⟨k, r.item_lt hk, hf⟩

private theorem Working.recycled {x : List Nat} (h : Working m b s x) (hb : 0 < b) :
    Recycled round m (b * PGSIZE) s x := by
  have halloc : ∀ c, Acts s.kernel m c → NoRemap (step round s (.t_allocustack c)) fun t ↦
      Working m b t (s.vm.nextStack m :: x) := fun c hacts ↦ h.t_allocustack hb hacts
  obtain ⟨hteam, _, r, hr, hx⟩ := h
  constructor
  · intro v w hv hw hne
    obtain ⟨i, k, hi, hk, hbase⟩ := hr.hasStack hv
    obtain ⟨j, l, hj, hl, hbase'⟩ := hr.hasStack hw
    rw [hbase, hbase']
    refine region_disjoint ?_
    rintro rfl
    cases r.inj _ _ k hk hl
    exact hne (Option.some.inj (hi.2.symm.trans hj.2))
  · intro i j hi hj hne
    obtain ⟨k, hk, hf⟩ := hr.freeStack hb hi
    obtain ⟨l, hl, hf'⟩ := hr.freeStack hb hj
    rw [hf, hf']
    refine region_disjoint ?_
    rintro rfl
    cases r.inj _ _ k hk hl
    exact hne rfl
  · intro w i hw hi
    obtain ⟨j, k, _, hk, hbase⟩ := hr.hasStack hw
    obtain ⟨l, hl, hf⟩ := hr.freeStack hb hi
    rw [hbase, hf]
    refine region_disjoint ?_
    rintro rfl
    cases r.inj _ _ k hk hl
  · intro a
    rw [hx, hr.kept hb hteam]
  · intro w hw
    obtain ⟨i, k, _, hk, _⟩ := hr.hasStack hw
    obtain ⟨j, hj, _⟩ := hr.vacant hb hk
    exact ⟨j, vacant_eq_some hj⟩
  · intro c hacts he
    exact (halloc c hacts).of_error he rfl
  · rw [hr.size]
    have hbound : r.next ≤ 10 := hr.bound
    show (b + 2 * r.next) * 4096 ≤ b * 4096 + 10 * 2 * 4096
    omega

/-- Stacks are used again: over any number of creations, exits and joins the stacks of the workers
and the free ones are disjoint and none is lost, no allocation comes upon a mapped page, and the
memory of the process grows by at most `MAXTHREAD` stacks. -/
theorem stacks_recycled {as : List (Action n)} (h0 : Starts s m)
    (hc : Each (step round) (Calls m) s as) (h : Lib.exec (step round) s as = .ok t) :
    Recycled round m (s.vm.space m).sz t (history (step round) (handed m) s [] as) := by
  have hsz : (s.vm.space m).sz / PGSIZE * PGSIZE = (s.vm.space m).sz :=
    Nat.div_mul_cancel (Nat.dvd_of_mod_eq_zero h0.aligned)
  have hb : 0 < (s.vm.space m).sz / PGSIZE := by
    refine Nat.pos_of_ne_zero fun hzero ↦ h0.positive.ne' ?_
    rw [← hsz, hzero, Nat.zero_mul]
  have hworking : Working m ((s.vm.space m).sz / PGSIZE) t
      (history (step round) (handed m) s [] as) :=
    hc.history (fun _ _ _ _ hi hp hs ↦ hi.calls hb hp hs) h0.working h
  rw [← hsz]
  exact hworking.recycled hb

/-! ### The first process -/

/-- The first process starts with one page. -/
theorem boot_starts {pages : List Frame} (h : boot n pages = .ok s) : Starts s 0 := by
  obtain ⟨vm, hvm, h⟩ := bind_eq_ok.mp h
  cases h
  unfold inituvm at hvm
  split at hvm
  · cases hvm
  · next kstack mem hk =>
    obtain ⟨⟨mem₁, pgdir⟩, hsetup, hvm⟩ := bind_eq_ok.mp hvm
    dsimp only at hvm
    split at hvm
    · cases hvm
    · next f mem₂ hf =>
      obtain ⟨⟨mem₃, mapped⟩, hmap, hvm⟩ := bind_eq_ok.mp hvm
      cases hvm
      have hnone : ∀ v, mem₂.pte pgdir v = none := by
        intro v
        rw [Memory.pte_congr (kalloc_eq_some hf).2]
        cases pgdir with
        | none => rfl
        | some d => exact setupkvm_unmapped hsetup v
      constructor
      · rfl
      · rfl
      · exact fun i ↦ rfl
      · rfl
      · exact fun i ↦ rfl
      · exact Nat.zero_lt_succ _
      · exact Nat.mod_self PGSIZE
      · show PGSIZE < KERNBASE
        decide
      · intro v hv
        have hv : PGSIZE / PGSIZE ≤ v := hv
        have hone : PGSIZE / PGSIZE = 1 := by decide
        show mem₃.pte pgdir v = none
        cases mapped with
        | false => rw [mappages_false hmap, hnone]
        | true =>
          rw [(mappages_spec (hnone 0)).of_ok hmap rfl, if_neg (by omega), hnone]

/-- Process 0 makes two threads and joins them in the other order, and makes a third one. -/
private def cycle : List (Action 1) :=
  [.call (.scheduler 0), .call (.thread_create 0), .t_allocustack 0, .call (.threadReady 0),
    .call (.thread_create 0), .t_allocustack 0, .call (.threadReady 0), .call (.yield 0),
    .call (.thread_exit 0), .call (.thread_exit 0), .call (.thread_join 0 2),
    .call (.thread_join 0 1), .call (.thread_create 0), .t_allocustack 0]

theorem stacks_recycled_cycle : (Lib.exec (step float) booted cycle).isOk = true ∧
    Recycled float 0 (booted.vm.space 0).sz (final (step float) booted cycle)
      (history (step float) (handed 0) booted [] cycle) :=
  have hrun : (Lib.exec (step float) booted cycle).isOk = true := by decide +kernel
  have hown : Each (step float) (fun s a _ ↦ Own 0 s a) booted cycle := by decide +kernel
  ⟨hrun, stacks_recycled (boot_starts boot_booted) (hown.mono fun _ _ _ ↦ .inl) (exec_final hrun)⟩

end

end Xv6.Vm
