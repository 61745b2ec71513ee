import Xv6.Vm.Layout

/-!
# The checks of arguments

`fetchint`, `fetchstr` and `argptr` compare an address with the size of the caller. A worker keeps the
size that its stack gave it, so the answers for all members are the same as long as that is the size
of the master.
-/

namespace Xv6.Vm

open Function Lib Sched

/-! ### The checks -/

/-- The `int` at `addr`, none when the call returns -1; `syscall.c:17-26`. -/
def fetchint (sz : Nat) (int : Nat → Int) (addr : Nat) : Option Int :=
  if addr ≥ sz ∨ (addr + 4) % 2 ^ 32 > sz then none else some (int addr)

/-- The length of the string at `addr`; `syscall.c:31-46`. -/
def fetchstr (sz : Nat) (byte : Nat → Nat) (addr : Nat) : Option Nat :=
  if addr ≥ sz then none else (List.range (sz - addr)).find? fun k ↦ byte (addr + k) = 0

/-- `syscall.c:49-53`. -/
def argint (sz : Nat) (int : Nat → Int) (esp : Nat) (k : Int) : Option Int :=
  fetchint sz int (Spaces.uint (esp + 4 + 4 * k))

/-- The pointer to `size` bytes in argument `k`; `syscall.c:58-70`. -/
def argptr (sz : Nat) (int : Nat → Int) (esp : Nat) (k size : Int) : Option Nat :=
  match argint sz int esp k with
  | none => none
  | some i =>
    if size < 0 ∨ Spaces.uint i ≥ sz ∨ Spaces.uint (Spaces.uint i + size) > sz then none
    else some (Spaces.uint i)

/-- Callers with the two sizes are given the same answers, whatever the memory holds. -/
structure SameChecks (sz sz' : Nat) : Prop where
  fetchint : ∀ int addr, (fetchint sz int addr).isSome = (fetchint sz' int addr).isSome
  fetchstr : ∀ byte addr, (fetchstr sz byte addr).isSome = (fetchstr sz' byte addr).isSome
  argptr : ∀ int esp k size,
    (argptr sz int esp k size).isSome = (argptr sz' int esp k size).isSome

/-- Only callers with one size are given the same answers. -/
theorem sameChecks_iff {sz sz' : Nat} : SameChecks sz sz' ↔ sz = sz' := by
  constructor
  · intro h
    have haccept : ∀ sz addr, (Vm.fetchstr sz (fun _ ↦ 0) addr).isSome = true ↔ addr < sz := by
      intro sz addr
      unfold Vm.fetchstr
      split
      · next hle => simp only [Option.isSome_none, Bool.false_eq_true, false_iff]; omega
      · next hlt =>
        rw [List.find?_isSome]
        refine iff_of_true ⟨0, ?_, by simp⟩ (by omega)
        rw [List.mem_range]
        omega
    refine Nat.le_antisymm ?_ ?_
    · by_contra hlt
      have hsz := (haccept sz sz').mpr (by omega)
      rw [h.fetchstr, haccept] at hsz
      omega
    · by_contra hlt
      have hsz := (haccept sz' sz).mpr (by omega)
      rw [← h.fetchstr, haccept] at hsz
      omega
  · rintro rfl
    exact ⟨fun _ _ ↦ rfl, fun _ _ ↦ rfl, fun _ _ _ _ ↦ rfl⟩

section

variable {n : Nat}

/-- The size of the master is changed by the master only, or with a stack, while no worker can
execute; a stack that is used again is the one below that size. -/
def Steady (m : Slot) (s : State n) : Action n → Prop
  | .t_allocustack c => Elsewhere s m c ∨ s.vm.reusable m = none ∧ NoneLive s m ∨
    s.vm.nextStack m + 2 * PGSIZE = (s.vm.space m).sz
  | .growproc c k => k = 0 ∨ Elsewhere s m c ∨ (s.kernel.cpu c).proc = some m ∧ NoneLive s m
  | _ => True

/-- The workers that can execute have the size of the master. -/
structure Sized (m : Slot) (s : State n) : Prop where
  group : Sched.Group s.kernel.links m
  user : (s.vm.space m).sz < KERNBASE
  ready : ∀ w, s.kernel.links.Worker m w →
    (s.kernel.links w).life = .embryo ∨ (s.vm.space w).stacked = true
  same : ∀ w, HasStack s m w → (s.kernel.links w).life ≠ .zombie →
    (s.vm.space w).sz = (s.vm.space m).sz

variable {round : Int → Int} {s t : State n} {m p w : Slot} {c : Fin n} {a : Action n}

theorem sz_giveBack {vm : Spaces} {b : Nat} : ((vm.giveBack m b).space m).sz = (vm.space m).sz := by
  unfold Spaces.giveBack
  rw [Spaces.modify_space, if_pos rfl]
  split <;> rfl

namespace Sized

theorem worker_ne (h : Sized m s) (hw : s.kernel.links.Worker m w) : w ≠ m := by
  obtain ⟨i, hi⟩ := hw
  exact (h.group.worker i w hi).1

/-- A step that changes no size and no thread but for how far it has come. -/
private theorem frame (h : Sized m s) (hgroup : Sched.Group t.kernel.links m)
    (hthreads : (t.kernel.links m).threads = (s.kernel.links m).threads)
    (hspace : ∀ p, InTeam s.kernel.links m p → t.vm.space p = s.vm.space p)
    (hlife : ∀ p, s.kernel.links.Worker m p → (s.kernel.links p).life = .zombie →
      (t.kernel.links p).life = .zombie)
    (hready : ∀ p, s.kernel.links.Worker m p → (s.kernel.links p).life = .embryo →
      (t.kernel.links p).life = .embryo ∨ (s.vm.space p).stacked = true) : Sized m t := by
  have hm : t.vm.space m = s.vm.space m := hspace m (.inl rfl)
  have hworker : ∀ x, t.kernel.links.Worker m x → s.kernel.links.Worker m x := by
    intro x hx
    unfold Links.Worker Links.Lists at hx
    rwa [hthreads] at hx
  constructor
  · exact hgroup
  · rw [hm]
    exact h.user
  · intro x hx
    have hx := hworker x hx
    rw [hspace x (.inr hx)]
    rcases h.ready x hx with he | hs
    · exact hready x hx he
    · exact .inr hs
  · rintro x ⟨hx, hs⟩ hz
    have hx := hworker x hx
    rw [hspace x (.inr hx)] at hs
    rw [hspace x (.inr hx), hm]
    exact h.same x ⟨hx, hs⟩ fun hz' ↦ hz (hlife x hx hz')

private theorem create (h : Sized m s) (hgroup : Sched.Group t.kernel.links m)
    {j : Fin (MAXTHREAD + 1)} {pid : Nat} (hw : (s.kernel.links w).life = .unused)
    (hlinks : t.kernel.links = s.kernel.links.create p m w (some j) pid)
    (hself : (t.vm.space w).stacked = false)
    (hrest : ∀ q, q ≠ w → t.vm.space q = s.vm.space q) : Sized m t := by
  have hne : ∀ q, InTeam s.kernel.links m q → q ≠ w := fun q hq ↦ h.group.ne_of_unused hw (.inl hq)
  have hm : t.vm.space m = s.vm.space m := hrest m (hne m (.inl rfl))
  have hworker : ∀ x, t.kernel.links.Worker m x → x = w ∨ s.kernel.links.Worker m x :=
    fun x hx ↦ Team.worker_of_create (hlinks ▸ hx)
  constructor
  · exact hgroup
  · rw [hm]
    exact h.user
  · intro x hx
    rw [hlinks]
    rcases hworker x hx with rfl | hx
    · left
      simp [Links.create]
    · have hxw := hne x (.inr hx)
      rw [hrest x hxw]
      simpa [Links.create, hxw] using h.ready x hx
  · rintro x ⟨hx, hs⟩ hz
    rcases hworker x hx with rfl | hx
    · cases hself.symm.trans hs
    · have hxw := hne x (.inr hx)
      rw [hrest x hxw] at hs
      rw [hrest x hxw, hm]
      refine h.same x ⟨hx, hs⟩ ?_
      rw [hlinks] at hz
      simpa [Links.create, hxw] using hz

private theorem join (h : Sized m s) (hgroup : Sched.Group t.kernel.links m)
    {j : Fin (MAXTHREAD + 1)} (hw : s.kernel.links.Lists m j w)
    (hlinks : t.kernel.links = s.kernel.links.join m w)
    (hvm : s.vm.t_deallocustack w m = .ok t.vm) : Sized m t := by
  obtain ⟨b, hspace⟩ := giveBack_of_deallocustack hvm
  have hsz : (t.vm.space m).sz = (s.vm.space m).sz := by rw [hspace, sz_giveBack]
  constructor
  · exact hgroup
  · rw [hsz]
    exact h.user
  · intro x hx
    obtain ⟨hx, hxw⟩ := h.group.toTeam.worker_of_join hw (hlinks ▸ hx)
    rw [space_t_deallocustack hvm (h.worker_ne hx), hlinks]
    simpa [Links.join, hxw] using h.ready x hx
  · rintro x ⟨hx, hs⟩ hz
    obtain ⟨hx, hxw⟩ := h.group.toTeam.worker_of_join hw (hlinks ▸ hx)
    rw [space_t_deallocustack hvm (h.worker_ne hx)] at hs
    rw [space_t_deallocustack hvm (h.worker_ne hx), hsz]
    refine h.same x ⟨hx, hs⟩ ?_
    rw [hlinks] at hz
    simpa [Links.join, hxw] using hz

/-- A worker is given a stack below the size of the master. -/
private theorem stack (h : Sized m s) (hw : s.kernel.links.Worker m w)
    (hkernel : t.kernel = s.kernel) (hvm : s.vm.t_allocustack m w = .ok t.vm)
    (hc : s.vm.reusable m = none ∧ NoneLive s m ∨
      s.vm.nextStack m + 2 * PGSIZE = (s.vm.space m).sz) : Sized m t := by
  have hwm := h.worker_ne hw
  obtain ⟨hlt, top, htop, hspace⟩ := claim_of_allocustack hvm
  have hself : (t.vm.space w).sz = top ∧ (t.vm.space w).stacked = true := by
    rw [hspace, Spaces.modify_space, if_pos rfl]
    exact ⟨rfl, rfl⟩
  have hrest : ∀ q, q ≠ m → q ≠ w → t.vm.space q = s.vm.space q :=
    fun q hqm hqw ↦ space_t_allocustack hvm hqm hqw
  have hm : t.vm.space m = (s.vm.claim m top).space m := by
    rw [hspace, Spaces.modify_space, if_neg hwm.symm]
  unfold Spaces.claim at hm
  rw [Spaces.modify_space, if_pos rfl] at hm
  have hready : ∀ x, t.kernel.links.Worker m x →
      (t.kernel.links x).life = .embryo ∨ (t.vm.space x).stacked = true := by
    intro x hx
    rw [hkernel] at hx ⊢
    by_cases hxw : x = w
    · right
      rw [hxw, hself.2]
    · rw [hrest x (h.worker_ne hx) hxw]
      exact h.ready x hx
  -- what the size of the master becomes, and who else has it
  obtain ⟨huser, hsz, hsame⟩ : top < KERNBASE ∧ (t.vm.space m).sz = top ∧
      ∀ x, HasStack s m x → (s.kernel.links x).life ≠ .zombie → (s.vm.space x).sz = top := by
    rcases hc with ⟨hnone, hdead⟩ | hbelow
    · have hnext : s.vm.nextStack m = (s.vm.space m).sz := by
        unfold Spaces.nextStack
        rw [hnone]
      rw [hm, hnone]
      refine ⟨?_, rfl, fun x hx hz ↦ absurd (hdead x hx) hz⟩
      rw [htop]
      exact max_lt (hnext ▸ h.user) hlt
    · have huint : Spaces.uint (s.vm.nextStack m + 2 * PGSIZE) = (s.vm.space m).sz := by
        have hsmall : s.vm.nextStack m + 2 * PGSIZE < 2 ^ 32 := by
          rw [hbelow]
          exact h.user.trans (by decide)
        rw [uint_above hsmall, hbelow]
      rw [huint, max_eq_right (hbelow ▸ Nat.le_add_right _ _)] at htop
      rw [htop]
      refine ⟨h.user, ?_, h.same⟩
      rw [hm]
      split
      · rfl
      · next hnone => exact htop
  constructor
  · exact hkernel ▸ h.group
  · rw [hsz]
    exact huser
  · exact hready
  · rintro x ⟨hx, hs⟩ hz
    rw [hsz]
    by_cases hxw : x = w
    · rw [hxw, hself.1]
    · rw [hkernel] at hx hz
      rw [hrest x (h.worker_ne hx) hxw] at hs ⊢
      exact hsame x ⟨hx, hs⟩ hz

/-- The size of the master is changed while no worker can execute. -/
private theorem resize (h : Sized m s) {sz : Nat} {pgdir : Option Frame}
    (hkernel : t.kernel = s.kernel) (huser : sz < KERNBASE)
    (hspace : t.vm.space = (s.vm.modify m fun v ↦ { v with pgdir, sz }).space)
    (hdead : NoneLive s m) : Sized m t := by
  have hrest : ∀ q, s.kernel.links.Worker m q → t.vm.space q = s.vm.space q := by
    intro q hq
    rw [hspace, Spaces.modify_space, if_neg (h.worker_ne hq)]
  constructor
  · exact hkernel ▸ h.group
  · rw [hspace, Spaces.modify_space, if_pos rfl]
    exact huser
  · intro x hx
    rw [hkernel] at hx ⊢
    rw [hrest x hx]
    exact h.ready x hx
  · rintro x ⟨hx, hs⟩ hz
    rw [hkernel] at hx hz
    rw [hrest x hx] at hs
    exact absurd (hdead x ⟨hx, hs⟩) hz

theorem step (h : Sized m s) (ha : Peaceful m s a) (hc : Steady m s a)
    (hs : step round s a = .ok t) : Sized m t := by
  obtain ⟨hgroup, hdoes⟩ := ha.does h.group hs
  cases hdoes with
  | rests hthreads hlife hspace _ =>
    refine h.frame hgroup hthreads hspace (fun q hq hz ↦ ?_) fun q hq he ↦ .inl ?_
    · rw [hlife q (.inr hq), hz]
    · rw [hlife q (.inr hq), he]
  | create hw _ _ hlinks _ hself hrest => exact h.create hgroup hw hlinks hself.1 hrest
  | @ready _ _ _ w hlinks hvm _ he hstacked =>
    refine h.frame hgroup ?_ (fun q _ ↦ by rw [hvm]) (fun q _ hz ↦ ?_) fun q _ he' ↦ ?_
    · rw [hlinks]
      rfl
    · have hq : q ≠ w := by
        rintro rfl
        cases he.symm.trans hz
      rw [hlinks]
      simpa [Links.ready, hq] using hz
    · by_cases hq : q = w
      · exact .inr (hq ▸ hstacked)
      · left
        rw [hlinks]
        simpa [Links.ready, hq] using he'
  | @quit _ _ p hl hlinks hvm =>
    refine h.frame hgroup ?_ (fun q _ ↦ by rw [hvm]) (fun q _ hz ↦ ?_) fun q _ he ↦ .inl ?_
    · rw [hlinks]
      rfl
    · rw [hlinks]
      simp only [Links.quit]
      split
      · rfl
      · exact hz
    · have hq : q ≠ p := by
        rintro rfl
        cases hl.symm.trans he
      rw [hlinks]
      simpa [Links.quit, hq] using he
  | join hw hz hlinks hvm => exact h.join hgroup hw hlinks hvm
  | stack hacts hw _ hkernel hvm =>
    obtain ⟨q, hq, hteam, _⟩ := hacts
    exact h.stack hw hkernel hvm (hc.resolve_left (not_elsewhere hq hteam))
  | grow hp hteam hk hkernel hmem hsz hspace =>
    rcases hc with h0 | hfar | ⟨hm, hdead⟩
    · omega
    · exact absurd hfar (not_elsewhere hp hteam)
    · cases hp.symm.trans hm
      obtain ⟨hlt, hmax⟩ := allocuvm_size hmem hsz
      dsimp only at hmax
      rw [hmax] at hspace
      exact h.resize hkernel (max_lt h.user hlt) hspace hdead
  | shrink hp hteam hk hkernel hmem hsz hspace =>
    rcases hc with h0 | hfar | ⟨hm, hdead⟩
    · omega
    · exact absurd hfar (not_elsewhere hp hteam)
    · cases hp.symm.trans hm
      obtain ⟨hmin, _⟩ := deallocuvm_spec.of_ok hmem
      dsimp only at hmin
      rw [hmin] at hspace
      exact h.resize hkernel (lt_of_le_of_lt (min_le_right _ _) h.user) hspace hdead
  | exec hp hnone hkernel himage _ hspace =>
    obtain ⟨_, huser, _⟩ := image_above himage
    exact h.resize hkernel huser hspace fun w hw ↦ absurd hw.1 (hnone w)

end Sized

/-! ### Runs -/

/-- As long as the size of a process changes only while none of its workers can execute, or a stack
just below that size is used again, the checks give the members the same answers. -/
theorem checks_agree {as : List (Action n)} (h0 : Single s m) (huser : (s.vm.space m).sz < KERNBASE)
    (hc : Along (step round) (fun s a ↦ Peaceful m s a ∧ Steady m s a) s as)
    (h : Lib.exec (step round) s as = .ok t) (hw : t.kernel.links.Worker m w)
    (hl : (t.kernel.links w).life = .alive) :
    SameChecks (t.vm.space w).sz (t.vm.space m).sz := by
  have hstart : Sized m s := ⟨h0.group, huser, fun w hw ↦ absurd hw h0.not_worker,
    fun w hw ↦ absurd hw.1 h0.not_worker⟩
  have hsized : Sized m t :=
    hc.invariant (fun _ _ _ hi hp hs ↦ hi.step hp.1 hp.2 hs) hstart h
  rw [sameChecks_iff]
  refine hsized.same w ⟨hw, ?_⟩ ?_
  · rcases hsized.ready w hw with he | hs
    · cases hl.symm.trans he
    · exact hs
  · rw [hl]
    exact nofun

/-! ### The first process -/

/-- The first process creates a thread, which ends, and a second one with the stack of the first. -/
private def oneByOne : List (Action 1) :=
  [.call (.scheduler 0), .growproc 0 100, .call (.thread_create 0), .t_allocustack 0,
    .call (.threadReady 0), .call (.yield 0), .call (.thread_exit 0), .call (.thread_join 0 1),
    .call (.thread_create 0), .t_allocustack 0, .call (.threadReady 0)]

/-- The steps of `m` and its workers that are peaceful and steady. -/
private def Settled (m : Slot) (s : State n) (a : Action n) : Prop :=
  Mine m s a ∧ match a with
    | .t_allocustack _ => s.vm.reusable m = none ∧ NoneLive s m ∨
      s.vm.nextStack m + 2 * PGSIZE = (s.vm.space m).sz
    | .growproc _ _ => NoneLive s m
    | _ => True

private instance (m : Slot) (s : State n) (a : Action n) : Decidable (Settled m s a) := by
  unfold Settled
  cases a <;> dsimp only <;> infer_instance

private theorem Settled.steady (h : Settled m s a) : Peaceful m s a ∧ Steady m s a := by
  refine ⟨h.1.peaceful, ?_⟩
  cases a with
  | call a => trivial
  | t_allocustack c => exact .inr h.2
  | growproc c k => exact .inr (.inr ⟨h.1.2.1, h.2⟩)
  | exec c ends k => trivial

theorem checks_agree_oneByOne : (Lib.exec (step float) booted oneByOne).isOk = true ∧
    SameChecks ((final (step float) booted oneByOne).vm.space 1).sz
      ((final (step float) booted oneByOne).vm.space 0).sz := by
  have hrun : (Lib.exec (step float) booted oneByOne).isOk = true := by decide +kernel
  have hsettled : Along (step float) (Settled 0) booted oneByOne := by decide +kernel
  have hstart := (boot_starts boot_booted).begins
  refine ⟨hrun, checks_agree hstart.toSingle hstart.user
    (hsettled.mono fun _ _ h ↦ Settled.steady h) (exec_final hrun) ?_ ?_⟩
  · decide +kernel
  · decide +kernel

example : ((final (step float) booted oneByOne).vm.space 1).sz =
    ((final (step float) booted oneByOne).vm.space 0).sz := by
  decide +kernel

/-- The first process creates two threads. -/
def createsTwo : List (Action 1) :=
  [.call (.scheduler 0), .call (.thread_create 0), .t_allocustack 0, .call (.threadReady 0),
    .call (.thread_create 0), .t_allocustack 0, .call (.threadReady 0)]

/-- The first thread may not name the stack of the second one, which the process may. -/
theorem createsTwo_differ : (Lib.exec (step float) booted createsTwo).isOk = true ∧
    (final (step float) booted createsTwo).kernel.links.Worker 0 1 ∧
    ((final (step float) booted createsTwo).kernel.links 1).life = .alive ∧
    (∀ int, fetchint ((final (step float) booted createsTwo).vm.space 1).sz int 16384 = none ∧
      fetchint ((final (step float) booted createsTwo).vm.space 0).sz int 16384 ≠ none) ∧
    ¬SameChecks ((final (step float) booted createsTwo).vm.space 1).sz
      ((final (step float) booted createsTwo).vm.space 0).sz := by
  have hworker : ((final (step float) booted createsTwo).vm.space 1).sz = 12288 := by
    decide +kernel
  have hmaster : ((final (step float) booted createsTwo).vm.space 0).sz = 20480 := by
    decide +kernel
  refine ⟨by decide +kernel, by decide +kernel, by decide +kernel, fun int ↦ ?_, ?_⟩
  · rw [hworker, hmaster]
    exact ⟨rfl, nofun⟩
  · rw [sameChecks_iff, hworker, hmaster]
    decide

end

end Xv6.Vm
