import Xv6.Vm.Checks

/-!
# The memory that `sbrk` returns

`growproc` extends the memory of its caller, and stacks are made above that of the master. What
`sbrk` returns to a group overlaps neither, and all members see it, as long as only the master calls
it, while none of its workers can execute.
-/

namespace Xv6.Vm

open Function Lib Sched

section

variable {n : Nat}

/-- A machine with what `sbrk` has returned to the group of one process: the addresses and the
numbers of bytes, the last one first. -/
structure Grants (n : Nat) where
  state : State n
  regions : List (Nat × Nat)

/-- The regions after the step `a` from `s` to `t`: `sbrk` returns the size of its caller, if
`growproc` changes it; `sysproc.c:45-57`. -/
def granted (m : Slot) (s : State n) (a : Action n) (t : State n) (x : List (Nat × Nat)) :
    List (Nat × Nat) :=
  match a with
  | .growproc c k =>
    match (s.kernel.cpu c).proc with
    | none => x
    | some p =>
      if Acts s.kernel m c ∧ 0 < k ∧ (t.vm.space p).sz ≠ (s.vm.space p).sz then
        ((s.vm.space p).sz, k.toNat) :: x
      else x
  | _ => x

/-- One step, with what is returned to the group of `m`. -/
def Grants.step (round : Int → Int) (m : Slot) (g : Grants n) (a : Action n) :
    Except Fault (Grants n) := do
  let t ← Vm.step round g.state a
  pure ⟨t, granted m g.state a t g.regions⟩

/-- The bytes of a region. -/
def bytes (r : Nat × Nat) : Set Nat := Set.Ico r.1 (r.1 + r.2)

/-- `m` calls `sbrk` while none of its workers can execute, and the page that its memory ends in is
there. -/
structure Extends (m : Slot) (s : State n) (c : Fin n) (k : Int) : Prop where
  positive : 0 < k
  int : k < 2 ^ 31
  caller : (s.kernel.cpu c).proc = some m
  alone : NoneLive s m
  ends : (s.vm.space m).sz % PGSIZE = 0 ∨
    (s.vm.mem.pte (s.vm.space m).pgdir ((s.vm.space m).sz / PGSIZE)).isSome = true

/-- Only the master calls `sbrk`, and a stack that is used again does not lie below memory that has
been returned. -/
def OnlyMaster (m : Slot) (g : Grants n) : Action n → Prop
  | .growproc c k => k = 0 ∨ Elsewhere g.state m c ∨ Extends m g.state c k
  | .t_allocustack c => Elsewhere g.state m c ∨ g.state.vm.reusable m = none ∨
    ∀ r ∈ g.regions, r.1 + r.2 ≤ g.state.vm.nextStack m + 2 * PGSIZE
  | .exec c _ succeeds => succeeds = false ∨ Elsewhere g.state m c
  | _ => True

/-- What is returned to a group: regions that overlap neither each other nor the stacks, that the
members who can execute have in their memory, and whose pages are new. -/
structure Served (round : Int → Int) (m : Slot) (g : Grants n) : Prop where
  apart : g.regions.Pairwise fun r r' ↦ Disjoint (bytes r) (bytes r')
  ustacks : ∀ r ∈ g.regions, ∀ w, HasStack g.state m w →
    Disjoint (bytes r) (region (stackBase g.state w))
  master : ∀ r ∈ g.regions, r.1 + r.2 ≤ (g.state.vm.space m).sz
  workers : ∀ r ∈ g.regions, ∀ w, HasStack g.state m w →
    (g.state.kernel.links w).life ≠ .zombie → r.1 + r.2 ≤ (g.state.vm.space w).sz
  noRemap : ∀ c k, Extends m g.state c k → Vm.step round g.state (.growproc c k) ≠ .error .remap
  fresh : ∀ c k t, Extends m g.state c k → Vm.step round g.state (.growproc c k) = .ok t →
    (t.vm.space m).sz ≠ (g.state.vm.space m).sz →
    (∀ v, pageUp (g.state.vm.space m).sz ≤ v →
      g.state.vm.mem.pte (g.state.vm.space m).pgdir v = none) ∧
    ∀ v, (g.state.vm.space m).sz / PGSIZE ≤ v →
      v < pageUp ((g.state.vm.space m).sz + k.toNat) →
      (t.vm.mem.pte (t.vm.space m).pgdir v).isSome = true

/-- What a run keeps of the regions `x`. -/
structure Ledger (m : Slot) (s : State n) (x : List (Nat × Nat)) : Prop where
  layout : Layout m s
  sorted : x.Pairwise fun r r' ↦ r'.1 + r'.2 ≤ r.1
  master : ∀ r ∈ x, r.1 + r.2 ≤ (s.vm.space m).sz
  workers : ∀ r ∈ x, ∀ w, HasStack s m w → (s.kernel.links w).life ≠ .zombie →
    r.1 + r.2 ≤ (s.vm.space w).sz
  ustacks : ∀ r ∈ x, ∀ i a, stackTops s m i = some a → a ≤ r.1 ∨ r.1 + r.2 + 2 * PGSIZE ≤ a

variable {round : Int → Int} {s t : State n} {g u : Grants n} {m p q w : Slot} {c : Fin n}
  {k : Int} {a : Action n} {x : List (Nat × Nat)}

-- no step of a proof below computes with it
seal Spaces.t_allocustack

/-! ### Stacks -/

private theorem top_of_join (h : Layout m s) {j : Fin MAXTHREAD}
    (hw : s.kernel.links.Lists m j.succ w) (hz : (s.kernel.links w).life = .zombie)
    (hlinks : t.kernel.links = s.kernel.links.join m w)
    (hvm : s.vm.t_deallocustack w m = .ok t.vm) {i : Fin MAXTHREAD ⊕ Fin MAXTHREAD} {b : Nat}
    (hi : stackTops t m i = some b) : ∃ j, stackTops s m j = some b := by
  have hs : (s.vm.space w).stacked = true := by
    rcases h.ready w ⟨_, hw⟩ with he | hs
    · cases hz.symm.trans he
    · exact hs
  have htop := stackTops_worker hw hs
  obtain ⟨hle, hlim⟩ := h.blocks.fits _ _ htop
  obtain ⟨a, ha⟩ : ∃ a, (s.vm.space w).sz = a + 2 * PGSIZE := ⟨_, (Nat.sub_add_cancel hle).symm⟩
  rw [ha] at htop hlim
  have hlt : a < KERNBASE := lt_of_le_of_lt ((Nat.le_add_right _ _).trans hlim) h.user
  obtain ⟨_, hspace, _⟩ := (t_deallocustack_spec ha (stack_lt hlt)).of_ok hvm
  cases i with
  | inl l =>
    have hrest : ∀ q, q ≠ m → t.vm.space q = s.vm.space q :=
      fun q hq ↦ space_t_deallocustack hvm hq
    have hl := (stackTop_join h.group.toTeam hw hlinks hrest l).symm.trans hi
    split at hl
    · cases hl
    · exact ⟨.inl l, hl⟩
  | inr l =>
    have hm : (t.vm.space m).freeupages l = (s.vm.space m).freeupages l ∨
        (t.vm.space m).freeupages l = a := by
      rw [hspace]
      unfold Spaces.giveBack
      rw [Spaces.modify_space, if_pos rfl]
      split
      · next k _ =>
        by_cases hlk : l = k
        · right
          rw [hlk]
          exact update_self ..
        · exact .inl (update_of_ne hlk ..)
      · exact .inl rfl
    rcases hm with hm | hm
    · exact ⟨.inr l, (stackTops_spare_congr hm).symm.trans hi⟩
    · refine ⟨.inl j, htop.trans ?_⟩
      by_cases hl : (t.vm.space m).freeupages l = 0
      · rw [stackTops_empty hl] at hi
        cases hi
      · rw [← hi, stackTops_spare hl, hm]

/-- The stack of a new worker was free or is above the memory of the master. -/
private theorem next_or :
    (∃ j, stackTops s m j = some (s.vm.nextStack m + 2 * PGSIZE)) ∨
      s.vm.nextStack m = (s.vm.space m).sz := by
  unfold Spaces.nextStack
  split
  · next i hi => exact .inl ⟨.inr i, stackTops_spare (reusable_eq_some hi)⟩
  · exact .inr rfl

/-- What a stack changes in the entries of a group. -/
theorem space_of_stack (h : Layout m s) {vm : Spaces} (hvm : s.vm.t_allocustack m w = .ok vm) :
    vm.space = ((s.vm.claim m (s.vm.nextStack m + 2 * PGSIZE)).modify w fun v ↦
      { v with sz := s.vm.nextStack m + 2 * PGSIZE, stacked := true }).space := by
  obtain ⟨_, top, htop, hspace⟩ := claim_of_allocustack hvm
  rw [uint_above (stack_lt h.nextStack_lt), max_eq_right (Nat.le_add_right _ _)] at htop
  rwa [htop] at hspace

private theorem top_of_stack (h : Layout m s) (hw : s.kernel.links.Worker m w)
    (hkernel : t.kernel = s.kernel) (hvm : s.vm.t_allocustack m w = .ok t.vm)
    {i : Fin MAXTHREAD ⊕ Fin MAXTHREAD} {b : Nat} (hi : stackTops t m i = some b) :
    (∃ j, stackTops s m j = some b) ∨ b = (s.vm.space m).sz + 2 * PGSIZE := by
  have hspace := space_of_stack h hvm
  cases i with
  | inl l =>
    have hl : stackTop t m l = some b := hi
    unfold stackTop at hl
    rw [hkernel] at hl
    split at hl
    · cases hl
    · next x hx =>
      by_cases hxw : x = w
      · rw [hxw, hspace, Spaces.modify_space, if_pos rfl, if_pos rfl] at hl
        cases hl
        exact next_or.imp_right fun he ↦ congrArg (· + 2 * PGSIZE) he
      · have hx : s.kernel.links.Lists m l.succ x := ⟨Fin.succ_ne_zero l, hx⟩
        rw [space_t_allocustack hvm (h.worker_ne ⟨_, hx⟩) hxw] at hl
        split at hl
        · next hs => exact .inl ⟨.inl l, (stackTops_worker hx hs).trans hl⟩
        · cases hl
  | inr l =>
    have hm : (t.vm.space m).freeupages l = 0 ∨
        (t.vm.space m).freeupages l = (s.vm.space m).freeupages l := by
      rw [hspace, Spaces.modify_space, if_neg (h.worker_ne hw).symm]
      unfold Spaces.claim
      rw [Spaces.modify_space, if_pos rfl]
      split
      · next k _ =>
        by_cases hlk : l = k
        · left
          rw [hlk]
          exact update_self ..
        · exact .inr (update_of_ne hlk ..)
      · exact .inr rfl
    rcases hm with hm | hm
    · rw [stackTops_empty hm] at hi
      cases hi
    · exact .inl ⟨.inr l, (stackTops_spare_congr hm).symm.trans hi⟩

private theorem top_congr (hm : (t.vm.space m).freeupages = (s.vm.space m).freeupages)
    (hold : ∀ l, stackTops t m (.inl l) = stackTops s m (.inl l))
    (i : Fin MAXTHREAD ⊕ Fin MAXTHREAD) : stackTops t m i = stackTops s m i := by
  cases i with
  | inl l => exact hold l
  | inr l => exact stackTops_spare_congr (congrFun hm l)

/-- The stacks of a group stay where they are, unless one is made above the memory of the master. -/
theorem top_of_does (h : Layout m s) (hc : Careful m s a) (hd : Does m s a t)
    {i : Fin MAXTHREAD ⊕ Fin MAXTHREAD} {b : Nat} (hi : stackTops t m i = some b) : (∃ j, stackTops s m j = some b) ∨
      (∃ c, a = .t_allocustack c) ∧ b = (s.vm.space m).sz + 2 * PGSIZE := by
  have hsame : stackTops t m i = stackTops s m i → ∃ j, stackTops s m j = some b :=
    fun he ↦ ⟨i, he.symm.trans hi⟩
  have hresized : ∀ sz, t.kernel = s.kernel →
      t.vm.space = (s.vm.modify m fun v ↦ { v with sz }).space →
      stackTops t m i = stackTops s m i := by
    intro sz hkernel hspace
    refine top_congr ?_ (stackTop_congr (by rw [hkernel]) fun q hq ↦ ?_) i
    · rw [hspace, Spaces.modify_space, if_pos rfl]
    · rw [hspace, Spaces.modify_space, if_neg (h.worker_ne hq)]
  cases hd with
  | rests hthreads _ hspace _ =>
    refine .inl (hsame (top_congr ?_ ?_ i))
    · rw [hspace m (.inl rfl)]
    · exact stackTop_congr hthreads fun q hq ↦ hspace q (.inr hq)
  | create hw _ hfree hlinks _ hself hrest =>
    refine .inl (hsame (top_congr ?_ ?_ i))
    · rw [hrest m (h.group.ne_of_unused hw (.inl (.inl rfl)))]
    · exact stackTop_create h.group.toTeam hfree hw hlinks hself.1 hrest
  | ready hlinks hvm _ _ _ =>
    refine .inl (hsame (top_congr (by rw [hvm]) (stackTop_congr ?_ fun q _ ↦ by rw [hvm]) i))
    rw [hlinks]
    rfl
  | quit _ hlinks hvm =>
    refine .inl (hsame (top_congr (by rw [hvm]) (stackTop_congr ?_ fun q _ ↦ by rw [hvm]) i))
    rw [hlinks]
    rfl
  | @join _ _ _ i w hw hz hlinks hvm =>
    obtain ⟨j, rfl⟩ : ∃ j : Fin MAXTHREAD, j.succ = i := Fin.exists_succ_eq.mpr hw.1
    exact .inl (top_of_join h hw hz hlinks hvm hi)
  | stack _ hw _ hkernel hvm =>
    exact (top_of_stack h hw hkernel hvm hi).imp_right fun hb ↦ ⟨⟨_, rfl⟩, hb⟩
  | grow hp hteam hk hkernel _ _ hspace =>
    rcases hc with h0 | hfar | ⟨hm, _⟩
    · omega
    · exact absurd hfar (not_elsewhere hp hteam)
    · cases hp.symm.trans hm
      exact .inl (hsame (hresized _ hkernel hspace))
  | shrink hp hteam hk hkernel _ _ hspace =>
    rcases hc with h0 | hfar | ⟨hm, _⟩
    · omega
    · exact absurd hfar (not_elsewhere hp hteam)
    · cases hp.symm.trans hm
      exact .inl (hsame (hresized _ hkernel hspace))
  | exec _ hnone hkernel _ _ hspace =>
    refine .inl (hsame (top_congr ?_ (stackTop_congr (by rw [hkernel]) fun q hq ↦ ?_) i))
    · rw [hspace, Spaces.modify_space, if_pos rfl]
    · exact absurd hq (hnone q)

/-! ### Steps -/

theorem OnlyMaster.careful (h : OnlyMaster m g a) : Careful m g.state a := by
  cases a with
  | call a => trivial
  | t_allocustack c => trivial
  | growproc c k => exact h.imp_right (Or.imp_right fun he ↦ ⟨he.caller, .inl he.positive⟩)
  | exec c ends succeeds => exact h.imp_right .inl

private theorem uint_grow {a : Nat} (ha : a < KERNBASE) (hk : 0 < k) (hk' : k < 2 ^ 31) :
    Spaces.uint (a + k) = a + k.toNat := by
  have ha : a < 2 ^ 31 := ha
  show (((a : Int) + k) % 2 ^ 32).toNat = a + k.toNat
  omega

namespace Ledger

/-- A step that returns nothing to the group. -/
private theorem keep (h : Ledger m s x) (hl : Layout m t)
    (hsz : (s.vm.space m).sz ≤ (t.vm.space m).sz)
    (hworkers : ∀ w, HasStack t m w → (t.kernel.links w).life ≠ .zombie →
      (HasStack s m w ∧ (s.kernel.links w).life ≠ .zombie ∧
        (t.vm.space w).sz = (s.vm.space w).sz) ∨ ∀ r ∈ x, r.1 + r.2 ≤ (t.vm.space w).sz)
    (htops : ∀ i b, stackTops t m i = some b →
      (∃ j, stackTops s m j = some b) ∨ b = (s.vm.space m).sz + 2 * PGSIZE) : Ledger m t x := by
  constructor
  · exact hl
  · exact h.sorted
  · exact fun r hr ↦ (h.master r hr).trans hsz
  · intro r hr w hw hz
    rcases hworkers w hw hz with ⟨hw', hz', hsame⟩ | hbelow
    · rw [hsame]
      exact h.workers r hr w hw' hz'
    · exact hbelow r hr
  · intro r hr i b hi
    rcases htops i b hi with ⟨j, hj⟩ | rfl
    · exact h.ustacks r hr j b hj
    · exact .inr (Nat.add_le_add_right (h.master r hr) _)

/-- The master is given the bytes above its memory. -/
private theorem extend (h : Ledger m s x) (hl : Layout m t)
    (hsz : (t.vm.space m).sz = (s.vm.space m).sz + k.toNat)
    (hdead : ∀ w, HasStack t m w → (t.kernel.links w).life = .zombie)
    (htops : ∀ i b, stackTops t m i = some b → ∃ j, stackTops s m j = some b) :
    Ledger m t (((s.vm.space m).sz, k.toNat) :: x) := by
  constructor
  · exact hl
  · exact List.pairwise_cons.mpr ⟨fun r hr ↦ h.master r hr, h.sorted⟩
  · intro r hr
    rcases List.mem_cons.mp hr with rfl | hr
    · exact hsz.ge
    · exact (h.master r hr).trans (hsz ▸ Nat.le_add_right _ _)
  · exact fun r _ w hw hz ↦ absurd (hdead w hw) hz
  · intro r hr i b hi
    obtain ⟨j, hj⟩ := htops i b hi
    rcases List.mem_cons.mp hr with rfl | hr
    · exact .inl (h.layout.blocks.fits j b hj).2
    · exact h.ustacks r hr j b hj

/-- Nothing is returned to a group whose members keep their sizes. -/
private theorem granted_rests (hspace : ∀ q, InTeam s.kernel.links m q → t.vm.space q = s.vm.space q) :
    granted m s a t x = x := by
  unfold granted
  split
  · split
    · rfl
    · next p hp =>
      refine if_neg fun ⟨hacts, _, hsz⟩ ↦ hsz ?_
      obtain ⟨q, hq, hteam, _⟩ := hacts
      cases Option.mem_unique hp hq
      rw [hspace p hteam]
  · rfl

/-- A worker that can execute has the size that it had, or one above what has been returned. -/
private theorem workers_of_does (h : Ledger m s x) (hc : OnlyMaster m ⟨s, x⟩ a) (hd : Does m s a t)
    (hw : HasStack t m w) (hz : (t.kernel.links w).life ≠ .zombie) :
    (HasStack s m w ∧ (s.kernel.links w).life ≠ .zombie ∧ (t.vm.space w).sz = (s.vm.space w).sz) ∨
      ∀ r ∈ x, r.1 + r.2 ≤ (t.vm.space w).sz := by
  rcases live_of_does h.layout.group hd hw hz with
    ⟨hw', hz', hsz | ⟨c, k, rfl, hk, hp⟩⟩ | ⟨c, rfl, ⟨q, hq, hteam, _⟩, hw', hvm⟩
  · exact .inl ⟨hw', hz', hsz⟩
  · rcases hc with h0 | hfar | hext
    · exact absurd h0 hk
    · exact absurd hfar (not_elsewhere hp (.inr hw'.1))
    · cases hp.symm.trans hext.caller
      exact absurd rfl (h.layout.worker_ne hw'.1)
  · right
    rw [space_of_stack h.layout hvm, Spaces.modify_space, if_pos rfl]
    rcases hc with hfar | hnone | hbelow
    · exact absurd hfar (not_elsewhere hq hteam)
    · have hnext : s.vm.nextStack m = (s.vm.space m).sz := by
        unfold Spaces.nextStack
        rw [hnone]
      rw [hnext]
      exact fun r hr ↦ (h.master r hr).trans (Nat.le_add_right _ _)
    · exact hbelow

theorem step (h : Ledger m s x) (ha : Peaceful m s a) (hc : OnlyMaster m ⟨s, x⟩ a)
    (hs : Vm.step round s a = .ok t) : Ledger m t (granted m s a t x) := by
  have hcareful : Careful m s a := OnlyMaster.careful hc
  have hl : Layout m t := h.layout.step ha hcareful hs
  obtain ⟨_, hdoes⟩ := ha.does h.layout.group hs
  have hworkers := fun w ↦ h.workers_of_does hc hdoes (w := w)
  have htops := fun i b ↦ top_of_does h.layout hcareful hdoes (i := i) (b := b)
  have htops' := fun i b hi ↦ (htops i b hi).imp_right And.right
  cases hdoes with
  | rests _ _ hspace _ =>
    rw [granted_rests hspace]
    exact h.keep hl (by rw [hspace m (.inl rfl)]) hworkers htops'
  | create hw _ _ _ _ _ hrest =>
    have hm : t.vm.space m = s.vm.space m :=
      hrest m (h.layout.group.ne_of_unused hw (.inl (.inl rfl)))
    exact h.keep hl (by rw [hm]) hworkers htops'
  | ready _ hvm _ _ _ => exact h.keep hl (by rw [hvm]) hworkers htops'
  | quit _ _ hvm => exact h.keep hl (by rw [hvm]) hworkers htops'
  | join _ _ _ hvm =>
    obtain ⟨b, hspace⟩ := giveBack_of_deallocustack hvm
    exact h.keep hl (by rw [hspace, sz_giveBack]) hworkers htops'
  | stack _ hw _ _ hvm =>
    refine h.keep hl ?_ hworkers htops'
    rw [space_of_stack h.layout hvm, Spaces.modify_space, if_neg (h.layout.worker_ne hw).symm]
    unfold Spaces.claim
    rw [Spaces.modify_space, if_pos rfl]
    split
    · rfl
    · next hnone =>
      have hnext : s.vm.nextStack m = (s.vm.space m).sz := by
        unfold Spaces.nextStack
        rw [hnone]
      rw [hnext]
      exact Nat.le_add_right _ _
  | @grow c _ p k sz hp hteam hk hkernel hmem hsz hspace =>
    rcases hc with h0 | hfar | hext
    · omega
    · exact absurd hfar (not_elsewhere hp hteam)
    · cases hp.symm.trans hext.caller
      obtain ⟨_, hmax⟩ := allocuvm_size hmem hsz
      dsimp only at hmax
      rw [uint_grow h.layout.user hk hext.int, max_eq_right (Nat.le_add_right _ _)] at hmax
      have hm : (t.vm.space m).sz = (s.vm.space m).sz + k.toNat := by
        rw [hspace, Spaces.modify_space, if_pos rfl, hmax]
      have hgranted : granted m s (.growproc c k) t x = ((s.vm.space m).sz, k.toNat) :: x := by
        unfold granted
        dsimp only
        rw [hp]
        refine if_pos ⟨⟨m, hp, .inl rfl, h.layout.group.alive⟩, hk, ?_⟩
        rw [hm]
        omega
      rw [hgranted]
      refine h.extend hl hm (fun w hw ↦ ?_) fun i b hi ↦ ?_
      · by_contra hz
        rcases live_of_does h.layout.group
            (.grow hp (.inl rfl) hk hkernel hmem hsz hspace) hw hz with ⟨hw', hz', _⟩ | ⟨_, he, _⟩
        · exact hz' (hext.alone w hw')
        · cases he
      · rcases htops i b hi with hold | ⟨⟨_, he⟩, _⟩
        · exact hold
        · cases he
  | shrink hp hteam hk _ _ _ _ =>
    rcases hc with h0 | hfar | hext
    · omega
    · exact absurd hfar (not_elsewhere hp hteam)
    · exact absurd hext.positive (by omega)
  | exec hp _ _ _ _ _ =>
    rcases hc with hfail | hfar
    · cases hfail
    · exact absurd hfar (not_elsewhere hp (.inl rfl))

end Ledger

/-! ### Runs -/

private theorem switchuvm_spec : NoRemap (switchuvm s c p) fun t ↦ t.vm = s.vm := by
  unfold switchuvm switchable
  split
  · exact nofun
  · split
    · exact nofun
    · rfl

/-- The page that an unaligned size is in. -/
private theorem last_page {sz v : Nat} (hlo : sz / PGSIZE ≤ v) (hhi : v < pageUp sz) :
    sz % PGSIZE ≠ 0 ∧ sz / PGSIZE = v := by
  have hlo : sz / 4096 ≤ v := hlo
  have hhi : v < (sz + 4096 - 1) / 4096 := hhi
  show sz % 4096 ≠ 0 ∧ sz / 4096 = v
  omega

/-- The pages above the memory of the master are mapped, and its last one. -/
private theorem grow_spec (h : Layout m s) (he : Extends m s c k) :
    NoRemap (Vm.step round s (.growproc c k)) fun t ↦
      (t.vm.space m).sz ≠ (s.vm.space m).sz → ∀ v, (s.vm.space m).sz / PGSIZE ≤ v →
        v < pageUp ((s.vm.space m).sz + k.toNat) →
        (t.vm.mem.pte (t.vm.space m).pgdir v).isSome = true := by
  unfold Vm.step
  refine sched_spec.bind fun p hp ↦ ?_
  cases he.caller.symm.trans (cpu_of_caller hp)
  unfold growproc
  dsimp only
  rw [if_pos he.positive, uint_grow h.user he.positive he.int]
  have hends := he.ends
  have habove := h.above
  generalize hsz : (s.vm.space m).sz = sz at hends habove ⊢
  refine (allocuvm_spec (Nat.le_add_right _ _) fun v hlo _ ↦ habove v hlo).bind
    fun ⟨mem, newsz⟩ halloc ↦ ?_
  dsimp only at halloc ⊢
  split
  · exact fun hne ↦ absurd hsz hne
  · next hpos =>
    obtain ⟨_, _, hin, hout⟩ := halloc fun h0 ↦ hpos ⟨by have := he.positive; omega, h0⟩
    refine switchuvm_spec.imp fun t ht _ v hlo hhi ↦ ?_
    rw [ht, Spaces.modify_space, if_pos rfl]
    show (mem.pte (s.vm.space m).pgdir v).isSome = true
    by_cases hv : pageUp sz ≤ v
    · obtain ⟨f, hf⟩ := hin v hv hhi
      rw [hf]
      rfl
    · -- the page that the memory ended in
      rw [hout v fun hv' ↦ hv hv'.1]
      obtain ⟨hpart, rfl⟩ := last_page hlo (not_le.mp hv)
      exact hends.resolve_left hpart

private theorem Ledger.served (h : Ledger m g.state g.regions) : Served round m g := by
  constructor
  · refine h.sorted.imp fun {r r'} hle ↦ ?_
    rw [Set.disjoint_left]
    intro v hv hv'
    exact absurd (hle.trans (Set.mem_Ico.mp hv).1) (not_le.mpr (Set.mem_Ico.mp hv').2)
  · rintro r hr w ⟨hw, hs⟩
    obtain ⟨j, hj⟩ := exists_index hw
    have htop := stackTops_worker hj hs
    have hfit := (h.layout.blocks.fits _ _ htop).1
    have hap := h.ustacks r hr _ _ htop
    rw [Set.disjoint_left]
    intro v hv hv'
    have hv : r.1 ≤ v ∧ v < r.1 + r.2 := Set.mem_Ico.mp hv
    unfold stackBase at hv'
    have hv' : (g.state.vm.space w).sz - 2 * PGSIZE ≤ v ∧
        v < (g.state.vm.space w).sz - 2 * PGSIZE + 2 * PGSIZE := Set.mem_Ico.mp hv'
    omega
  · exact h.master
  · exact h.workers
  · exact fun c k he hr ↦ (grow_spec h.layout he).of_error hr rfl
  · exact fun c k t he ht hne ↦ ⟨h.layout.above, (grow_spec h.layout he).of_ok ht hne⟩

private theorem Begins.ledger (h : Begins s m) : Ledger m s [] :=
  ⟨h.layout, .nil, fun _ hr ↦ absurd hr List.not_mem_nil, fun _ hr ↦ absurd hr List.not_mem_nil,
    fun _ hr ↦ absurd hr List.not_mem_nil⟩

instance (m : Slot) (s : State n) (c : Fin n) (k : Int) : Decidable (Extends m s c k) :=
  decidable_of_iff (0 < k ∧ k < 2 ^ 31 ∧ (s.kernel.cpu c).proc = some m ∧ NoneLive s m ∧
    ((s.vm.space m).sz % PGSIZE = 0 ∨
      (s.vm.mem.pte (s.vm.space m).pgdir ((s.vm.space m).sz / PGSIZE)).isSome = true))
    ⟨fun ⟨h₁, h₂, h₃, h₄, h₅⟩ ↦ ⟨h₁, h₂, h₃, h₄, h₅⟩, fun h ↦ ⟨h.1, h.2, h.3, h.4, h.5⟩⟩

/-- The steps of `m` and its workers that are peaceful, with `sbrk` called by `m` only. -/
private def Sole (m : Slot) (g : Grants n) (a : Action n) : Prop :=
  Mine m g.state a ∧ match a with
    | .t_allocustack _ => g.state.vm.reusable m = none ∨
      ∀ r ∈ g.regions, r.1 + r.2 ≤ g.state.vm.nextStack m + 2 * PGSIZE
    | .growproc c k => Extends m g.state c k
    | .exec _ _ succeeds => succeeds = false
    | .call _ => True

private instance (m : Slot) (g : Grants n) : ∀ a : Action n, Decidable (Sole m g a)
  | .call a => inferInstanceAs (Decidable (Mine m g.state (.call a) ∧ True))
  | .t_allocustack c => inferInstanceAs (Decidable (Mine m g.state (.t_allocustack c) ∧
      (g.state.vm.reusable m = none ∨
        ∀ r ∈ g.regions, r.1 + r.2 ≤ g.state.vm.nextStack m + 2 * PGSIZE)))
  | .growproc c k =>
    inferInstanceAs (Decidable (Mine m g.state (.growproc c k) ∧ Extends m g.state c k))
  | .exec c ends succeeds =>
    inferInstanceAs (Decidable (Mine m g.state (.exec c ends succeeds) ∧ succeeds = false))

private theorem Sole.only (h : Sole m g a) : Peaceful m g.state a ∧ OnlyMaster m g a := by
  refine ⟨h.1.peaceful, ?_⟩
  cases a with
  | call a => trivial
  | t_allocustack c => exact .inr h.2
  | growproc c k => exact .inr (.inr h.2)
  | exec c ends succeeds => exact .inl h.2

/-- The first process calls `sbrk`, creates a thread that ends, calls `sbrk` again and creates a
second one. -/
private def alternates : List (Action 1) :=
  [.call (.scheduler 0), .growproc 0 100, .call (.thread_create 0), .t_allocustack 0,
    .call (.threadReady 0), .call (.yield 0), .call (.thread_exit 0), .growproc 0 5000,
    .call (.thread_create 0), .t_allocustack 0, .call (.threadReady 0)]

example : (final (Grants.step float 0) ⟨booted, []⟩ alternates).regions.length = 2 := by
  decide +kernel

/-- The first process and its thread call `sbrk(1000)` in turn. -/
def bothCall : List (Action 1) :=
  [.call (.scheduler 0), .growproc 0 100, .call (.thread_create 0), .t_allocustack 0,
    .call (.threadReady 0), .growproc 0 1000, .call (.yield 0), .growproc 0 1000]

/-- The first process and its thread are to be given a page each. -/
def bothGrow : List (Action 1) :=
  [.call (.scheduler 0), .call (.thread_create 0), .t_allocustack 0, .call (.threadReady 0),
    .growproc 0 4096, .call (.yield 0)]

end

end Xv6.Vm
