import Xv6.Sched.Outsiders
import Xv6.Vm.Mapping

/-!
# The memory of a group among other processes

What a step does to the memory of one process and its workers while the group is at work: threads
are created and joined, members grow the memory, the master executes another program, and the other
processes leave it alone.
-/

namespace Xv6.Vm

open Function Lib Sched

open Memory (Adds)

section

variable {n : Nat}

/-- A process executes on CPU `c` that has no way to the group of `m` and another address space. -/
def Elsewhere (s : State n) (m : Slot) (c : Fin n) : Prop :=
  ∃ p ∈ (s.kernel.cpu c).proc, (s.kernel.links p).life = .alive ∧
    ∀ q, Relation.ReflTransGen s.kernel.links.Names p q →
      ¬Concerns s.kernel.links m q ∧ (s.vm.space q).pgdir ≠ (s.vm.space m).pgdir

/-- The steps that leave the group of `m` at work, with a page directory that is not free: only the
master calls `exec`, when it has no workers. -/
def Peaceful (m : Slot) (s : State n) : Action n → Prop
  | .call a => Harmless m s.kernel a ∧ s.vm.mem.Held (s.vm.space m).pgdir
  | .t_allocustack c | .growproc c _ => Acts s.kernel m c ∨ Elsewhere s m c
  | .exec c _ _ => s.vm.mem.Held (s.vm.space m).pgdir ∧
    (Acts s.kernel m c ∧ (s.kernel.cpu c).proc = some m ∧ (∀ w, ¬s.kernel.links.Worker m w) ∨
      Elsewhere s m c)

/-- What a step does to the group of `m`. -/
inductive Does (m : Slot) (s : State n) : Action n → State n → Prop
  | rests {a t} (hthreads : (t.kernel.links m).threads = (s.kernel.links m).threads)
      (hlife : ∀ p, InTeam s.kernel.links m p →
        (t.kernel.links p).life = (s.kernel.links p).life)
      (hspace : ∀ p, InTeam s.kernel.links m p → t.vm.space p = s.vm.space p)
      (hpages : Adds (s.vm.space m).pgdir ∅ s.vm.mem t.vm.mem) : Does m s a t
  | create {c t p w i pid} (hw : (s.kernel.links w).life = .unused) (hi : i ≠ 0)
      (hfree : (s.kernel.links m).threads i = none)
      (hlinks : t.kernel.links = s.kernel.links.create p m w (some i) pid)
      (hdir : t.vm.mem.dir = s.vm.mem.dir)
      (hself : (t.vm.space w).stacked = false ∧ (t.vm.space w).pgdir = (s.vm.space m).pgdir)
      (hrest : ∀ q, q ≠ w → t.vm.space q = s.vm.space q) : Does m s (.call (.thread_create c)) t
  | ready {c t p w} (hlinks : t.kernel.links = s.kernel.links.ready p m w) (hvm : t.vm = s.vm)
      (hw : s.kernel.links.Worker m w) (he : (s.kernel.links w).life = .embryo)
      (hs : (s.vm.space w).stacked = true) : Does m s (.call (.threadReady c)) t
  | quit {c t p} (hl : (s.kernel.links p).life = .alive)
      (hlinks : t.kernel.links = s.kernel.links.quit p m) (hvm : t.vm = s.vm) :
      Does m s (.call (.thread_exit c)) t
  | join {c t thread i w} (hw : s.kernel.links.Lists m i w)
      (hz : (s.kernel.links w).life = .zombie)
      (hlinks : t.kernel.links = s.kernel.links.join m w)
      (hvm : s.vm.t_deallocustack w m = .ok t.vm) : Does m s (.call (.thread_join c thread)) t
  | stack {c t w} (hacts : Acts s.kernel m c) (hw : s.kernel.links.Worker m w)
      (hs : (s.vm.space w).stacked = false) (hkernel : t.kernel = s.kernel)
      (hvm : s.vm.t_allocustack m w = .ok t.vm) : Does m s (.t_allocustack c) t
  | grow {c t p k sz} (hp : (s.kernel.cpu c).proc = some p) (hteam : InTeam s.kernel.links m p)
      (hk : 0 < k) (hkernel : t.kernel = s.kernel)
      (hmem : s.vm.mem.allocuvm (s.vm.space p).pgdir (s.vm.space p).sz
        (Spaces.uint ((s.vm.space p).sz + k)) = .ok (t.vm.mem, sz)) (hsz : sz ≠ 0)
      (hspace : t.vm.space = (s.vm.modify p fun v ↦ { v with sz }).space) :
      Does m s (.growproc c k) t
  | shrink {c t p k sz} (hp : (s.kernel.cpu c).proc = some p) (hteam : InTeam s.kernel.links m p)
      (hk : k < 0) (hkernel : t.kernel = s.kernel)
      (hmem : s.vm.mem.deallocuvm (s.vm.space p).pgdir (s.vm.space p).sz
        (Spaces.uint ((s.vm.space p).sz + k)) = .ok (t.vm.mem, sz)) (hsz : sz ≠ 0)
      (hspace : t.vm.space = (s.vm.modify p fun v ↦ { v with sz }).space) :
      Does m s (.growproc c k) t
  | exec {c t ends mem f sz} (hp : (s.kernel.cpu c).proc = some m)
      (hnone : ∀ w, ¬s.kernel.links.Worker m w) (hkernel : t.kernel = s.kernel)
      (himage : image s.vm.mem ends true = .ok (mem, some (f, sz)))
      (hpages : Adds (some f) ∅ mem t.vm.mem)
      (hspace : t.vm.space = (s.vm.modify m fun v ↦ { v with pgdir := some f, sz }).space) :
      Does m s (.exec c ends true) t

variable {round : Int → Int} {s t : State n} {vm vm' : Spaces} {m p q w x : Slot} {c : Fin n}
  {g : Option Frame} {S : Set Nat} {a : Action n}

/-! ### What the calls do to memory -/

theorem Memory.Adds.t_deallocustack (h : vm.t_deallocustack w x = .ok vm') :
    Adds g S vm.mem vm'.mem := by
  unfold Spaces.t_deallocustack at h
  dsimp only at h
  obtain ⟨mem, hfree, h⟩ := bind_eq_ok.mp h
  obtain ⟨⟨mem', sz⟩, hdealloc, h⟩ := bind_eq_ok.mp h
  dsimp only at h
  split at h
  · cases h
  · cases h
    exact (Adds.kfree hfree).trans (Adds.deallocuvm hdealloc)

/-- What a call of `t_deallocustack` does to the entries. -/
theorem giveBack_of_deallocustack (h : vm.t_deallocustack w x = .ok vm') :
    ∃ a, vm'.space = (vm.giveBack x a).space := by
  unfold Spaces.t_deallocustack at h
  dsimp only at h
  obtain ⟨mem, _, h⟩ := bind_eq_ok.mp h
  obtain ⟨⟨mem', sz⟩, _, h⟩ := bind_eq_ok.mp h
  dsimp only at h
  split at h
  · cases h
  · cases h
    exact ⟨sz, rfl⟩

/-- What a call of `t_allocustack` does to the entries. -/
theorem claim_of_allocustack (h : vm.t_allocustack x w = .ok vm') :
    Spaces.uint (vm.nextStack x + 2 * PGSIZE) < KERNBASE ∧
      ∃ top, top = max (vm.nextStack x) (Spaces.uint (vm.nextStack x + 2 * PGSIZE)) ∧
        vm'.space = ((vm.claim x top).modify w fun v ↦ { v with sz := top, stacked := true }).space := by
  unfold Spaces.t_allocustack at h
  dsimp only at h
  obtain ⟨⟨mem, sz⟩, halloc, h⟩ := bind_eq_ok.mp h
  dsimp only at h
  split at h
  · cases h
  · next hpos =>
    obtain ⟨mem', _, h⟩ := bind_eq_ok.mp h
    cases h
    obtain ⟨hlt, hsz⟩ := allocuvm_size halloc hpos
    exact ⟨hlt, sz, hsz, rfl⟩

theorem space_t_deallocustack (h : vm.t_deallocustack w x = .ok vm') (hq : q ≠ x) :
    vm'.space q = vm.space q := by
  obtain ⟨a, hspace⟩ := giveBack_of_deallocustack h
  rw [hspace]
  exact update_of_ne hq ..

theorem space_t_allocustack (h : vm.t_allocustack x w = .ok vm') (hx : q ≠ x) (hw : q ≠ w) :
    vm'.space q = vm.space q := by
  obtain ⟨_, top, _, hspace⟩ := claim_of_allocustack h
  rw [hspace]
  exact (update_of_ne hw ..).trans (update_of_ne hx ..)

/-- A stack is allocated in another address space. -/
theorem Memory.Adds.t_allocustack (hg : g ≠ (vm.space x).pgdir)
    (h : vm.t_allocustack x w = .ok vm') : Adds g S vm.mem vm'.mem := by
  unfold Spaces.t_allocustack at h
  dsimp only at h
  obtain ⟨⟨mem, sz⟩, halloc, h⟩ := bind_eq_ok.mp h
  dsimp only at h
  split at h
  · cases h
  · obtain ⟨mem', hclear, h⟩ := bind_eq_ok.mp h
    cases h
    exact (Adds.allocuvm (fun he ↦ absurd he hg) halloc).trans (Adds.clearpteu hclear)

private theorem freeThread_eq_ok {y : Ptr} (h : freeThread s vm y = .ok vm') :
    Adds g S vm.mem vm'.mem ∧ ∀ q, (∀ w, y = some w → q ≠ w ∧
      (s.kernel.proc w).master ≠ some q) → vm'.space q = vm.space q := by
  unfold freeThread at h
  split at h
  · cases h
    exact ⟨.refl _, fun _ _ ↦ rfl⟩
  · next w =>
    split at h
    · cases h
    · next x hx =>
      obtain ⟨vm₁, hdealloc, h⟩ := bind_eq_ok.mp h
      cases h
      have hadds : Adds g S vm.mem vm₁.mem := Adds.t_deallocustack hdealloc
      refine ⟨hadds, fun q hq ↦ ?_⟩
      obtain ⟨hqw, hqx⟩ := hq w rfl
      have hqx : q ≠ x := by
        rintro rfl
        exact hqx hx
      exact (update_of_ne hqw ..).trans (space_t_deallocustack hdealloc hqx)

private theorem freeThreads_eq_ok {l : List Ptr} (h : l.foldlM (freeThread s) vm = .ok vm') :
    Adds g S vm.mem vm'.mem ∧ ∀ q, (∀ w, some w ∈ l → q ≠ w ∧
      (s.kernel.proc w).master ≠ some q) → vm'.space q = vm.space q := by
  induction l generalizing vm with
  | nil =>
    cases h
    exact ⟨.refl _, fun _ _ ↦ rfl⟩
  | cons y l ih =>
    rw [List.foldlM_cons] at h
    obtain ⟨vm₁, h₁, h⟩ := bind_eq_ok.mp h
    obtain ⟨hadds, hspace⟩ := freeThread_eq_ok (g := g) (S := S) h₁
    obtain ⟨hadds', hspace'⟩ := ih h
    refine ⟨hadds.trans hadds', fun q hq ↦ ?_⟩
    rw [hspace' q fun w hw ↦ hq w (List.mem_cons_of_mem _ hw)]
    exact hspace q fun w hw ↦ hq w (hw ▸ List.mem_cons_self)

/-- No call of the processes adds pages to an address space that is in use. -/
theorem Memory.Adds.effect {b : Sched.Action n} (hg : s.vm.mem.Held g)
    (h : effect s b = .ok vm) : Adds g S s.vm.mem vm.mem := by
  cases b with
  | fork c kalloc =>
    have h : fork s kalloc = .ok vm := h
    unfold fork at h
    split at h
    · cases h
      rfl
    · split at h
      · cases h
        rfl
      · next f mem hk _ =>
        cases h
        exact Adds.kalloc hk
      · cases h
  | forkDone c copied =>
    obtain ⟨p, _, h⟩ := bind_eq_ok.mp h
    unfold forkDone at h
    split at h
    · cases h
    · split at h
      · cases h
      · obtain ⟨⟨mem, pgdir⟩, hcopy, h⟩ := bind_eq_ok.mp h
        have hadds : Adds g S s.vm.mem mem := Adds.copyuvm hg hcopy
        dsimp only at h
        split at h
        · obtain ⟨mem', hfree, h⟩ := bind_eq_ok.mp h
          cases h
          exact hadds.trans (Adds.kfree hfree)
        · cases h
          exact hadds
        · cases h
  | exit c =>
    obtain ⟨p, _, h⟩ := bind_eq_ok.mp h
    unfold exit at h
    split at h
    · cases h
    · split at h
      · exact (freeThreads_eq_ok h).1
      · cases h
        rfl
  | wait c =>
    obtain ⟨p, _, h⟩ := bind_eq_ok.mp h
    unfold wait at h
    split at h
    · cases h
      rfl
    · obtain ⟨mem, hfree, h⟩ := bind_eq_ok.mp h
      obtain ⟨mem', hfreevm, h⟩ := bind_eq_ok.mp h
      cases h
      exact (Adds.kfree hfree).trans (Adds.freevm hfreevm)
  | thread_create c =>
    obtain ⟨p, _, h⟩ := bind_eq_ok.mp h
    unfold thread_create at h
    split at h
    · split at h
      · cases h
      · next hk =>
        cases h
        exact Adds.kalloc hk
    · cases h
  | threadReady c =>
    obtain ⟨p, _, h⟩ := bind_eq_ok.mp h
    unfold threadReady at h
    split at h
    · cases h
    · split at h
      · cases h
        rfl
      · cases h
  | thread_join c thread =>
    obtain ⟨p, _, h⟩ := bind_eq_ok.mp h
    unfold thread_join at h
    split at h
    · split at h
      · cases h
      · split at h
        · cases h
          rfl
        · split at h
          · cases h
          · exact Adds.t_deallocustack h
    · cases h
  | _ =>
    cases h
    rfl

private theorem space_fork {kalloc : Bool} (h : effect s (.fork c kalloc) = .ok vm)
    (hw : ∀ w, findUnused s.kernel = some w → q ≠ w) : vm.space q = s.vm.space q := by
  have h : fork s kalloc = .ok vm := h
  unfold fork at h
  split at h
  · cases h
    rfl
  · next w hu =>
    have hqw := hw w hu
    split at h
    · cases h
      exact update_of_ne hqw ..
    · cases h
      exact update_of_ne hqw ..
    · cases h

/-- `fork` goes on with a process that is not a thread. -/
private theorem forkDone_eq_ok {copied : Bool} (h : effect s (.forkDone c copied) = .ok vm) :
    ∃ p w, current s.kernel c = .ok p ∧ (s.kernel.proc p).np = some w ∧
      (s.kernel.proc w).isthread = false ∧ ∀ q, q ≠ w → vm.space q = s.vm.space q := by
  obtain ⟨p, hp, h⟩ := bind_eq_ok.mp h
  unfold forkDone at h
  split at h
  · cases h
  · next w hw =>
    split at h
    · cases h
    · next hi =>
      refine ⟨p, w, sched_eq_ok.mp hp, hw, by simpa using hi, fun q hq ↦ ?_⟩
      obtain ⟨⟨mem, pgdir⟩, _, h⟩ := bind_eq_ok.mp h
      dsimp only at h
      split at h
      · obtain ⟨mem', _, h⟩ := bind_eq_ok.mp h
        cases h
        exact update_of_ne hq ..
      · cases h
        exact update_of_ne hq ..
      · cases h

private theorem space_wait (h : effect s (.wait c) = .ok vm)
    (hx : ∀ p ∈ (s.kernel.cpu c).proc, ∀ x, zombieChild s.kernel p = some x → q ≠ x) :
    vm.space q = s.vm.space q := by
  obtain ⟨p, hp, h⟩ := bind_eq_ok.mp h
  have hcpu := cpu_of_caller (sched_eq_ok.mp hp)
  unfold wait at h
  split at h
  · cases h
    rfl
  · next x hzombie =>
    obtain ⟨mem, _, h⟩ := bind_eq_ok.mp h
    obtain ⟨mem', _, h⟩ := bind_eq_ok.mp h
    cases h
    exact update_of_ne (hx p hcpu x hzombie) ..

private theorem space_create (h : effect s (.thread_create c) = .ok vm)
    (hw : ∀ w, findUnused s.kernel = some w → q ≠ w) : vm.space q = s.vm.space q := by
  obtain ⟨p, hp, h⟩ := bind_eq_ok.mp h
  unfold thread_create at h
  split at h
  · next hu =>
    split at h
    · cases h
    · cases h
      exact update_of_ne (hw _ hu) ..
  · cases h

private theorem ready_eq_ok (h : effect s (.threadReady c) = .ok vm) :
    vm = s.vm ∧ ∃ p w, current s.kernel c = .ok p ∧ (s.kernel.proc p).np = some w ∧
      (s.kernel.proc w).isthread = true ∧ (s.vm.space w).stacked = true := by
  obtain ⟨p, hp, h⟩ := bind_eq_ok.mp h
  unfold threadReady at h
  split at h
  · cases h
  · next w hw =>
    split at h
    · next hs =>
      cases h
      exact ⟨rfl, p, w, sched_eq_ok.mp hp, hw, hs⟩
    · cases h

/-- `exit` changes the threads that it frees and their masters. -/
private theorem space_exit (h : effect s (.exit c) = .ok vm)
    (hfar : ∀ p ∈ (s.kernel.cpu c).proc, ∀ x, Relation.ReflTransGen s.kernel.links.Names p x →
      q ≠ x) : vm.space q = s.vm.space q := by
  obtain ⟨p, hp, h⟩ := bind_eq_ok.mp h
  have hfar := hfar p (cpu_of_caller (sched_eq_ok.mp hp))
  unfold exit at h
  split at h
  · cases h
  · next m hm =>
    have hpm : Relation.ReflTransGen s.kernel.links.Names p m := by
      unfold exiting at hm
      split at hm
      · exact .single (.inr (.inl hm))
      · cases hm
        exact .refl
    split at h
    · refine (freeThreads_eq_ok (g := none) (S := ∅) h).2 q fun w hw ↦ ?_
      obtain ⟨i, _, hi⟩ := List.mem_map.mp hw
      have hpw := hpm.tail (.inr (.inr ⟨i.succ, hi⟩))
      exact ⟨hfar w hpw, fun hq ↦ hfar q (hpw.tail (.inr (.inl hq))) rfl⟩
    · cases h
      rfl

private theorem space_join {thread : Nat} (h : effect s (.thread_join c thread) = .ok vm)
    (hfar : ∀ p ∈ (s.kernel.cpu c).proc, ∀ x, Relation.ReflTransGen s.kernel.links.Names p x →
      q ≠ x) : vm.space q = s.vm.space q := by
  obtain ⟨p, hp, h⟩ := bind_eq_ok.mp h
  have hfar := hfar p (cpu_of_caller (sched_eq_ok.mp hp))
  unfold thread_join at h
  split at h
  · split at h
    · cases h
    · next w hw =>
      split at h
      · cases h
        rfl
      · split at h
        · cases h
        · next x hx =>
          refine space_t_deallocustack h (hfar x ?_)
          exact (Relation.ReflTransGen.single (.inr (.inr ⟨_, hw⟩))).tail (.inr (.inl hx))
  · cases h

/-- What a harmless call changes, if it joins no worker of the group. -/
private theorem space_harmless {b : Sched.Action n} (h : effect s b = .ok vm)
    (hgroup : Sched.Group s.kernel.links m) (hb : Harmless m s.kernel b)
    (hjoin : ∀ c thread, b = .thread_join c thread → Outside s.kernel m c)
    (hq : InTeam s.kernel.links m q) : vm.space q = s.vm.space q := by
  have hfar : ∀ {c}, Outside s.kernel m c → ∀ p ∈ (s.kernel.cpu c).proc,
      ∀ x, Relation.ReflTransGen s.kernel.links.Names p x → q ≠ x := by
    rintro c ⟨p', hp', _, hfar⟩ p hp x hx rfl
    cases Option.mem_unique hp hp'
    exact hfar q hx (.inl hq)
  have hnew : ∀ w, findUnused s.kernel = some w → q ≠ w := fun w hw ↦
    hgroup.ne_of_unused (life_of_state (state_of_findUnused hw)) (.inl hq)
  cases b with
  | fork c kalloc => exact space_fork h hnew
  | forkDone c copied =>
    obtain ⟨p, w, hp, hw, hi, hspace⟩ := forkDone_eq_ok h
    refine hspace q ?_
    rcases hb with hacts | hout
    · have hteam := (hgroup.toTeam.acts_master hacts (cpu_of_current hp)).1
      rintro rfl
      rcases hq with rfl | hq
      · exact hgroup.other p _ hteam hw rfl
      · cases hi.symm.trans ((hgroup.kind p _ hteam hw).mpr hq)
    · exact hfar hout p (cpu_of_current hp) w (.single (.inl hw))
  | exit c => exact space_exit h (hfar hb)
  | wait c =>
    refine space_wait h fun p hp x hx hqx ↦ ?_
    exact hb.2 p hp x hx (hqx ▸ .inl hq)
  | thread_create c => exact space_create h hnew
  | threadReady c => rw [(ready_eq_ok h).1]
  | thread_join c thread => exact space_join h (hfar (hjoin c thread rfl))
  | _ =>
    cases h
    rfl

/-! ### Steps -/

private theorem does_call {b : Sched.Action n} (hgroup : Sched.Group s.kernel.links m)
    (hb : Harmless m s.kernel b) (hheld : s.vm.mem.Held (s.vm.space m).pgdir)
    (hs : step round s (.call b) = .ok t) :
    Sched.Group t.kernel.links m ∧ Does m s (.call b) t := by
  obtain ⟨hk, hvm⟩ := step_call hs
  have hrightful : Sched.Rightful s.kernel b := by
    cases b with
    | forkDone c copied =>
      obtain ⟨p, w, hp, hw, hi, _⟩ := forkDone_eq_ok hvm
      intro p' hp' w' hw'
      cases hp.symm.trans hp'
      cases Option.mem_unique hw hw'
      exact hi
    | threadReady c =>
      obtain ⟨_, p, w, hp, hw, hi, _⟩ := ready_eq_ok hvm
      intro p' hp' w' hw'
      cases hp.symm.trans hp'
      cases Option.mem_unique hw hw'
      exact hi
    | _ => trivial
  obtain ⟨hgroup', hlinks⟩ := hgroup.step hb hrightful hk
  refine ⟨hgroup', ?_⟩
  have hpages : Adds (s.vm.space m).pgdir ∅ s.vm.mem t.vm.mem := Adds.effect hheld hvm
  generalize hl : t.kernel.links = l at hlinks
  cases hlinks with
  | keeps hthreads hlife hjoin =>
    subst hl
    exact .rests hthreads hlife (fun q hq ↦ space_harmless hvm hgroup hb hjoin hq) hpages
  | create hp hm hw hi hfree =>
    obtain ⟨hdir, hself, hrest⟩ := effect_create hvm hp hm hw
    exact .create (life_of_state (state_of_findUnused hw)) hi hfree hl hdir hself hrest
  | @ready c p w hp hnp hw =>
    obtain ⟨hvm, p', w', hp', hnp', _, hs'⟩ := ready_eq_ok hvm
    cases hp.symm.trans hp'
    cases hnp.symm.trans hnp'
    refine .ready hl hvm hw ?_ hs'
    rcases hb with hacts | ⟨q, hq, _, hfar⟩
    · obtain ⟨hteam, _, _⟩ := hgroup.toTeam.acts_master hacts (cpu_of_current hp)
      exact (hgroup.making p w hteam hnp).2 hw
    · cases Option.mem_unique (cpu_of_current hp) hq
      exact absurd (.inl (.inr hw)) (hfar w (.single (.inl hnp)))
  | quit hp hlife => exact .quit hlife hl (Except.ok.inj hvm).symm
  | awaits hm hi hx hz =>
    rcases effect_join hvm hm hi hx with ⟨_, hvm⟩ | ⟨hz', _⟩
    · refine .rests ?_ ?_ (fun q _ ↦ by rw [hvm]) hpages
      · rw [hl]
      · rw [hl]
        exact fun _ _ ↦ rfl
    · exact absurd hz' hz
  | @join c x _ i hm hi hx hz =>
    rcases effect_join hvm hm hi hx.2 with ⟨hz', _⟩ | ⟨_, m', hm', hvm⟩
    · exact absurd hz hz'
    · have hlife := life_of_state hz
      have hmaster : (s.kernel.links x).master = some m := by
        rcases (hgroup.worker i x hx).2.2.2 with he | hm
        · cases hlife.symm.trans he
        · exact hm
      cases hm'.symm.trans hmaster
      exact .join hx hlife hl hvm

private theorem ustack_eq_ok (h : ustack s p = .ok vm) : ∃ w x, (s.kernel.proc p).np = some w ∧
    (s.kernel.proc p).master = some x ∧ (s.kernel.proc w).isthread = true ∧
      (s.vm.space w).stacked = false ∧ s.vm.t_allocustack x w = .ok vm := by
  unfold ustack at h
  split at h
  · next w x hw hx =>
    split at h
    · next hs =>
      obtain ⟨vm', halloc, h⟩ := bind_eq_ok.mp h
      obtain ⟨copied, _, h⟩ := bind_eq_ok.mp h
      split at h
      · cases h
        exact ⟨w, x, hw, hx, hs.1, hs.2, halloc⟩
      · cases h
    · cases h
  · cases h

private theorem does_stack (hgroup : Sched.Group s.kernel.links m)
    (ha : Acts s.kernel m c ∨ Elsewhere s m c) (hs : step round s (.t_allocustack c) = .ok t) :
    Sched.Group t.kernel.links m ∧ Does m s (.t_allocustack c) t := by
  obtain ⟨p, hp, h⟩ := bind_eq_ok.mp hs
  have hcpu := cpu_of_current (sched_eq_ok.mp hp)
  obtain ⟨vm, hvm, h⟩ := bind_eq_ok.mp h
  cases h
  obtain ⟨w, x, hw, hx, hi, hstack, halloc⟩ := ustack_eq_ok hvm
  refine ⟨hgroup, ?_⟩
  rcases ha with hacts | ⟨p', hp', _, hfar⟩
  · obtain ⟨hteam, _, hmaster⟩ := hgroup.toTeam.acts_master hacts hcpu
    cases hx.symm.trans hmaster
    exact .stack hacts ((hgroup.kind p w hteam hw).mp hi) hstack rfl halloc
  · cases Option.mem_unique hcpu hp'
    obtain ⟨hxm, hdir⟩ := hfar x (.single (.inr (.inl hx)))
    obtain ⟨hwm, _⟩ := hfar w (.single (.inl hw))
    refine .rests rfl (fun _ _ ↦ rfl) (fun q hq ↦ ?_) (Adds.t_allocustack hdir.symm halloc)
    refine space_t_allocustack halloc ?_ ?_
    · rintro rfl
      exact hxm (.inl hq)
    · rintro rfl
      exact hwm (.inl hq)

/-- What `growproc` comes to. -/
private theorem growproc_eq_ok {k : Int} (h : growproc s c p k = .ok t) :
    ∃ sz, t.kernel = s.kernel ∧
      ((0 < k ∧ s.vm.mem.allocuvm (s.vm.space p).pgdir (s.vm.space p).sz
        (Spaces.uint ((s.vm.space p).sz + k)) = .ok (t.vm.mem, sz)) ∨
      (k < 0 ∧ s.vm.mem.deallocuvm (s.vm.space p).pgdir (s.vm.space p).sz
        (Spaces.uint ((s.vm.space p).sz + k)) = .ok (t.vm.mem, sz)) ∨
      (k = 0 ∧ t.vm.mem = s.vm.mem ∧ sz = (s.vm.space p).sz)) ∧
      (k ≠ 0 ∧ sz = 0 ∧ t.vm.space = s.vm.space ∨
        ¬(k ≠ 0 ∧ sz = 0) ∧ t.vm.space = (s.vm.modify p fun v ↦ { v with sz }).space) := by
  have hrest : ∀ {mem : Memory} {sz : Nat}, (if k ≠ 0 ∧ sz = 0 then
        .ok { s with vm := { s.vm with mem } }
      else switchuvm { s with vm := { s.vm with mem }.modify p fun v ↦ { v with sz } } c p) = .ok t →
      t.kernel = s.kernel ∧ t.vm.mem = mem ∧ (k ≠ 0 ∧ sz = 0 ∧ t.vm.space = s.vm.space ∨
        ¬(k ≠ 0 ∧ sz = 0) ∧ t.vm.space = (s.vm.modify p fun v ↦ { v with sz }).space) := by
    intro mem sz h
    split at h
    · next hz =>
      cases h
      exact ⟨rfl, rfl, .inl ⟨hz.1, hz.2, rfl⟩⟩
    · next hz =>
      obtain ⟨rfl, _⟩ := switchuvm_eq_ok h
      exact ⟨rfl, rfl, .inr ⟨hz, rfl⟩⟩
  unfold growproc at h
  dsimp only at h
  split at h
  · next hk =>
    obtain ⟨⟨mem, sz⟩, hmem, h⟩ := bind_eq_ok.mp h
    obtain ⟨hkernel, rfl, hspace⟩ := hrest h
    exact ⟨sz, hkernel, .inl ⟨hk, hmem⟩, hspace⟩
  · split at h
    · next hk =>
      obtain ⟨⟨mem, sz⟩, hmem, h⟩ := bind_eq_ok.mp h
      obtain ⟨hkernel, rfl, hspace⟩ := hrest h
      exact ⟨sz, hkernel, .inr (.inl ⟨hk, hmem⟩), hspace⟩
    · obtain ⟨hkernel, hmem, hspace⟩ := hrest h
      exact ⟨_, hkernel, .inr (.inr ⟨by omega, hmem, rfl⟩), hspace⟩

private theorem does_grow {k : Int} (hgroup : Sched.Group s.kernel.links m)
    (ha : Acts s.kernel m c ∨ Elsewhere s m c) (hs : step round s (.growproc c k) = .ok t) :
    Sched.Group t.kernel.links m ∧ Does m s (.growproc c k) t := by
  obtain ⟨p, hp, h⟩ := bind_eq_ok.mp hs
  have hcpu := cpu_of_caller (sched_eq_ok.mp hp)
  obtain ⟨sz, hkernel, hmem, hspace⟩ := growproc_eq_ok h
  rw [hkernel]
  refine ⟨hgroup, ?_⟩
  have hrests : (∀ q, InTeam s.kernel.links m q → t.vm.space q = s.vm.space q) →
      Adds (s.vm.space m).pgdir ∅ s.vm.mem t.vm.mem → Does m s (.growproc c k) t := by
    intro hspace hpages
    refine .rests ?_ ?_ hspace hpages
    · rw [hkernel]
    · rw [hkernel]
      exact fun _ _ ↦ rfl
  rcases ha with hacts | ⟨p', hp', _, hfar⟩
  · obtain ⟨hteam, _, _⟩ := hgroup.toTeam.acts_master hacts hcpu
    rcases hspace with ⟨_, hz, hspace⟩ | ⟨hz, hspace⟩
    · refine hrests (fun q _ ↦ by rw [hspace]) ?_
      rcases hmem with ⟨_, hmem⟩ | ⟨_, hmem⟩ | ⟨_, hmem, _⟩
      · exact Adds.allocuvm (fun _ hr ↦ absurd hz hr) hmem
      · have hadds : Adds (s.vm.space m).pgdir ∅ s.vm.mem t.vm.mem := Adds.deallocuvm hmem
        exact hadds
      · rw [hmem]
    · rcases hmem with ⟨hk, hmem⟩ | ⟨hk, hmem⟩ | ⟨_, hmem, hsz⟩
      · exact .grow hcpu hteam hk hkernel hmem (fun h0 ↦ hz ⟨by omega, h0⟩) hspace
      · exact .shrink hcpu hteam hk hkernel hmem (fun h0 ↦ hz ⟨by omega, h0⟩) hspace
      · refine hrests (fun q _ ↦ ?_) (by rw [hmem])
        rw [hspace, hsz, Spaces.modify_space]
        split
        · next hq => rw [hq]
        · rfl
  · cases Option.mem_unique hcpu hp'
    obtain ⟨hpm, hdir⟩ := hfar p .refl
    refine hrests (fun q hq ↦ ?_) ?_
    · rcases hspace with ⟨_, _, hspace⟩ | ⟨_, hspace⟩
      · rw [hspace]
      · have hqp : q ≠ p := by
          rintro rfl
          exact hpm (.inl hq)
        rw [hspace, Spaces.modify_space, if_neg hqp]
    · rcases hmem with ⟨_, hmem⟩ | ⟨_, hmem⟩ | ⟨_, hmem, _⟩
      · exact Adds.allocuvm (fun he ↦ absurd he.symm hdir) hmem
      · have hadds : Adds (s.vm.space m).pgdir ∅ s.vm.mem t.vm.mem := Adds.deallocuvm hmem
        exact hadds
      · rw [hmem]

/-- What `exec` comes to. -/
private theorem exec_eq_ok {ends : List Nat} {ok : Bool} (h : exec s c p ends ok = .ok t) :
    t.kernel = s.kernel ∧ ∃ mem new, image s.vm.mem ends ok = .ok (mem, new) ∧
      (new = none ∧ t.vm.space = s.vm.space ∧ t.vm.mem = mem ∨
        ∃ f sz, new = some (f, sz) ∧ (∀ g S, Adds g S mem t.vm.mem) ∧
          t.vm.space = (s.vm.modify p fun v ↦ { v with pgdir := some f, sz }).space) := by
  obtain ⟨⟨mem, new⟩, himage, h⟩ := bind_eq_ok.mp h
  dsimp only at h
  cases new with
  | none =>
    cases h
    exact ⟨rfl, mem, none, himage, .inl ⟨rfl, rfl, rfl⟩⟩
  | some r =>
    obtain ⟨f, sz⟩ := r
    dsimp only at h
    obtain ⟨s₁, hswitch, h⟩ := bind_eq_ok.mp h
    obtain ⟨mem', hfree, h⟩ := bind_eq_ok.mp h
    cases h
    obtain ⟨rfl, _⟩ := switchuvm_eq_ok hswitch
    exact ⟨rfl, mem, _, himage, .inr ⟨f, sz, rfl, fun g S ↦ Adds.freevm hfree, rfl⟩⟩

private theorem does_exec {ends : List Nat} {ok : Bool} (hgroup : Sched.Group s.kernel.links m)
    (ha : Peaceful m s (.exec c ends ok)) (hs : step round s (.exec c ends ok) = .ok t) :
    Sched.Group t.kernel.links m ∧ Does m s (.exec c ends ok) t := by
  obtain ⟨hheld, ha⟩ := ha
  obtain ⟨p, hp, h⟩ := bind_eq_ok.mp hs
  have hcpu := cpu_of_caller (sched_eq_ok.mp hp)
  obtain ⟨hkernel, mem, new, himage, hnew⟩ := exec_eq_ok h
  rw [hkernel]
  refine ⟨hgroup, ?_⟩
  have hadds : Adds (s.vm.space m).pgdir ∅ s.vm.mem mem := Adds.image hheld himage
  have hrests : (∀ q, InTeam s.kernel.links m q → t.vm.space q = s.vm.space q) →
      Adds (s.vm.space m).pgdir ∅ s.vm.mem t.vm.mem → Does m s (.exec c ends ok) t := by
    intro hspace hpages
    refine .rests ?_ ?_ hspace hpages
    · rw [hkernel]
    · rw [hkernel]
      exact fun _ _ ↦ rfl
  rcases hnew with ⟨_, hspace, hmem⟩ | ⟨f, sz, rfl, hpages, hspace⟩
  · exact hrests (fun q _ ↦ by rw [hspace]) (by rwa [hmem])
  · rcases ha with ⟨_, hm, hnone⟩ | ⟨p', hp', _, hfar⟩
    · cases hcpu.symm.trans hm
      obtain ⟨rfl, _⟩ := image_above himage
      exact .exec hm hnone hkernel himage (hpages _ _) hspace
    · cases Option.mem_unique hcpu hp'
      obtain ⟨hpm, _⟩ := hfar p .refl
      refine hrests (fun q hq ↦ ?_) (hadds.trans (hpages _ _))
      have hqp : q ≠ p := by
        rintro rfl
        exact hpm (.inl hq)
      rw [hspace, Spaces.modify_space, if_neg hqp]

/-- What a peaceful step does to the group of `m`, which stays at work. -/
theorem Peaceful.does (ha : Peaceful m s a) (hgroup : Sched.Group s.kernel.links m)
    (hs : step round s a = .ok t) : Sched.Group t.kernel.links m ∧ Does m s a t := by
  cases a with
  | call b => exact does_call hgroup ha.1 ha.2 hs
  | t_allocustack c => exact does_stack hgroup ha hs
  | growproc c k => exact does_grow hgroup ha hs
  | exec c ends ok => exact does_exec hgroup ha hs

end

end Xv6.Vm
