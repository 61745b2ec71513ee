import Xv6.Vm.Stacks
import Xv6.Vm.Steps

/-!
# The guard page of a stack

For a stack, `allocuvm` rounds the start up to a page, `clearpteu` rounds it down and `deallocuvm`
rounds the end up, so that the three mean the same pages when the stack begins at a page.
-/

namespace Xv6.Vm

open Function Lib Sched

section

variable {vm vm' vm₁ vm₂ vm₃ : Spaces} {m w x : Slot} {u v : Nat}

/-- Pages `v` and `v + 1` are a new stack in the memory of `m`, the first one not accessible to the
user, and everything else is as before. -/
structure Guarded (vm vm' : Spaces) (m : Slot) (v : Nat) : Prop where
  fresh : vm.mem.pte (vm.space m).pgdir v = none ∧ vm.mem.pte (vm.space m).pgdir (v + 1) = none
  guard : ∃ e, vm'.mem.pte (vm.space m).pgdir v = some e ∧ e.user = false
  stack : ∃ e, vm'.mem.pte (vm.space m).pgdir (v + 1) = some e ∧ e.user = true
  frame : ∀ u, u ≠ v → u ≠ v + 1 →
    vm'.mem.pte (vm.space m).pgdir u = vm.mem.pte (vm.space m).pgdir u

/-- Pages `v` and `v + 1` of `w` are unmapped and no other one is changed. -/
def Unmaps (vm vm' : Spaces) (w : Slot) (v : Nat) : Prop :=
  ∀ u, vm'.mem.pte (vm.space w).pgdir u =
    if u = v ∨ u = v + 1 then none else vm.mem.pte (vm.space w).pgdir u

/-- The thread `w` is in the memory of `m`, where it still has pages `v` and `v + 1`. -/
structure Occupies (vm vm' : Spaces) (m w : Slot) (v : Nat) : Prop where
  pgdir : (vm'.space w).pgdir = (vm.space m).pgdir
  kstack : (vm'.space w).kstack ≠ (vm.space m).pgdir
  size : (vm'.space w).sz < 2 ^ 32
  mapped : ∀ u, u = v ∨ u = v + 1 → vm'.mem.pte (vm.space m).pgdir u ≠ none

/-! ### Allocation -/

private theorem uint_wrapped {a : Nat} (ha : a < 2 ^ 32) (h : ¬a + 2 * PGSIZE < 2 ^ 32) :
    Spaces.uint ((a : Int) + 2 * PGSIZE) < KERNBASE ∧
      Spaces.uint ((a : Int) + 2 * PGSIZE) < a := by
  have hlarge : ¬a + 2 * 4096 < 2 ^ 32 := h
  show (((a : Int) + 2 * 4096) % 2 ^ 32).toNat < 0x80000000 ∧
    (((a : Int) + 2 * 4096) % 2 ^ 32).toNat < a
  omega

/-- What a successful call does to the pages: two are new, and the one that has the first byte of
the stack is not accessible any more. -/
private theorem t_allocustack_pages (h : vm.t_allocustack m w = .ok vm')
    (hlt : vm.nextStack m + 2 * PGSIZE < 2 ^ 32) :
    (vm'.space w).sz = vm.nextStack m + 2 * PGSIZE ∧
      (∀ u, pageUp (vm.nextStack m) ≤ u → u < pageUp (vm.nextStack m) + 2 →
        vm.mem.pte (vm.space m).pgdir u = none ∧ ∃ e, e.user = decide (u ≠ vm.nextStack m / PGSIZE) ∧
          vm'.mem.pte (vm.space m).pgdir u = some e) ∧
      ∀ u, ¬(pageUp (vm.nextStack m) ≤ u ∧ u < pageUp (vm.nextStack m) + 2) →
        vm'.mem.pte (vm.space m).pgdir u = if u = vm.nextStack m / PGSIZE then
          (vm.mem.pte (vm.space m).pgdir u).map fun e ↦ { e with user := false }
          else vm.mem.pte (vm.space m).pgdir u := by
  have hround := pageUp_stack (vm.nextStack m)
  have hbelow := uint_below hlt
  have hle : vm.nextStack m ≤ vm.nextStack m + 2 * PGSIZE := Nat.le_add_right _ _
  unfold Spaces.t_allocustack at h
  dsimp only at h
  rw [uint_above hlt] at h
  generalize vm.nextStack m + 2 * PGSIZE = top at h hround hbelow hle ⊢
  obtain ⟨⟨mem, sz⟩, halloc, h⟩ := bind_eq_ok.mp h
  dsimp only at h
  split at h
  · cases h
  · next hpos =>
    obtain ⟨mem', hclear, h⟩ := bind_eq_ok.mp h
    cases h
    have hnone : ∀ u, pageUp (vm.nextStack m) ≤ u → u < pageUp top →
        vm.mem.pte (vm.space m).pgdir u = none :=
      fun u hlo hhi ↦ unmapped_of_allocuvm hle halloc hpos hlo hhi
    obtain ⟨hsz, _, hin, hout⟩ := (allocuvm_spec hle hnone).of_ok halloc hpos
    dsimp only at hsz hin hout
    rw [hround] at hnone hin hout
    rw [hsz, hbelow] at hclear
    have hclear := clearpteu_spec.of_ok hclear
    refine ⟨?_, fun u hlo hhi ↦ ⟨hnone u hlo hhi, ?_⟩, fun u hu ↦ ?_⟩
    · rw [Spaces.modify_space, if_pos rfl, hsz]
    · obtain ⟨f, hf⟩ := hin u hlo hhi
      show ∃ e : Pte, _ ∧ mem'.pte (vm.space m).pgdir u = some e
      rw [hclear, hf]
      by_cases hu : u = vm.nextStack m / PGSIZE
      · rw [if_pos hu]
        exact ⟨_, by simp [hu], rfl⟩
      · rw [if_neg hu]
        exact ⟨_, by simp [hu], rfl⟩
    · show mem'.pte (vm.space m).pgdir u = _
      rw [hclear, hout u hu]

/-- A stack that wraps around is not mapped. -/
private theorem t_allocustack_wrapped (h : vm.t_allocustack m w = .ok vm')
    (hb : vm.nextStack m < 2 ^ 32) (hlt : ¬vm.nextStack m + 2 * PGSIZE < 2 ^ 32)
    (hu : vm.mem.pte (vm.space m).pgdir u = none) : vm'.mem.pte (vm.space m).pgdir u = none := by
  obtain ⟨hbase, hwrap⟩ := uint_wrapped hb hlt
  unfold Spaces.t_allocustack at h
  dsimp only at h
  obtain ⟨⟨mem, sz⟩, halloc, h⟩ := bind_eq_ok.mp h
  unfold Memory.allocuvm at halloc
  rw [if_neg (not_le.mpr hbase), if_pos hwrap] at halloc
  cases halloc
  dsimp only at h
  split at h
  · cases h
  · obtain ⟨mem', hclear, h⟩ := bind_eq_ok.mp h
    cases h
    show mem'.pte (vm.space m).pgdir u = none
    rw [clearpteu_spec.of_ok hclear, hu]
    split <;> rfl

/-- A stack has its guard page if and only if it begins at a page. -/
private theorem guarded_iff (hb : vm.nextStack m < 2 ^ 32) (h : vm.t_allocustack m w = .ok vm') :
    (∃ v, Guarded vm vm' m v) ↔
      vm.nextStack m % PGSIZE = 0 ∧ vm.nextStack m + 2 * PGSIZE < 2 ^ 32 := by
  constructor
  · rintro ⟨v, hv⟩
    obtain ⟨e, he, huser⟩ := hv.guard
    by_cases hlt : vm.nextStack m + 2 * PGSIZE < 2 ^ 32
    · obtain ⟨_, hin, hout⟩ := t_allocustack_pages h hlt
      refine ⟨?_, hlt⟩
      -- the page that has become inaccessible is a new one
      have hrange : pageUp (vm.nextStack m) ≤ v ∧ v < pageUp (vm.nextStack m) + 2 := by
        by_contra hnot
        have hsame := hout v hnot
        rw [he, hv.fresh.1] at hsame
        split at hsame <;> cases hsame
      obtain ⟨_, e', he', hpte⟩ := hin v hrange.1 hrange.2
      cases he.symm.trans hpte
      rw [huser] at he'
      have hpage : v = vm.nextStack m / PGSIZE := by simpa using he'.symm
      have hlo := hrange.1
      rw [hpage] at hlo
      have hround : (vm.nextStack m + 4096 - 1) / 4096 ≤ vm.nextStack m / 4096 := hlo
      show vm.nextStack m % 4096 = 0
      omega
    · have hnone := t_allocustack_wrapped h hb hlt hv.fresh.1
      cases he.symm.trans hnone
  · rintro ⟨halign, hlt⟩
    obtain ⟨_, hin, hout⟩ := t_allocustack_pages h hlt
    have halign : vm.nextStack m % 4096 = 0 := halign
    have hround : pageUp (vm.nextStack m) = vm.nextStack m / PGSIZE := by
      show (vm.nextStack m + 4096 - 1) / 4096 = vm.nextStack m / 4096
      omega
    rw [hround] at hin hout
    obtain ⟨hfresh, e, he, hpte⟩ := hin _ le_rfl (by omega)
    obtain ⟨hfresh', e', he', hpte'⟩ := hin _ (Nat.le_succ _) (by omega)
    refine ⟨vm.nextStack m / PGSIZE, ⟨hfresh, hfresh'⟩, ⟨e, hpte, by simpa using he⟩,
      ⟨e', hpte', by simpa using he'⟩, fun u hu hu' ↦ ?_⟩
    rw [hout u (by omega), if_neg hu]

/-! ### Deallocation -/

private theorem uint_stack {a : Nat} (ha : a < 2 ^ 32) : 2 * PGSIZE ≤ a ∧
    Spaces.uint ((a : Int) - 2 * PGSIZE) + 2 * PGSIZE = a ∨
      a < 2 * PGSIZE ∧ a ≤ Spaces.uint ((a : Int) - 2 * PGSIZE) := by
  show 2 * 4096 ≤ a ∧ (((a : Int) - 2 * 4096) % 2 ^ 32).toNat + 2 * 4096 = a ∨
    a < 2 * 4096 ∧ a ≤ (((a : Int) - 2 * 4096) % 2 ^ 32).toNat
  omega

/-- The two pages that end with the memory of the thread are unmapped. -/
private theorem t_deallocustack_pages (h : vm.t_deallocustack w x = .ok vm')
    (hk : (vm.space w).kstack ≠ (vm.space w).pgdir) (hsz : (vm.space w).sz < 2 ^ 32) :
    vm'.mem.pte (vm.space w).pgdir u =
      if 2 * PGSIZE ≤ (vm.space w).sz ∧ pageUp (vm.space w).sz ≤ u + 2 ∧
          u < pageUp (vm.space w).sz then none
      else vm.mem.pte (vm.space w).pgdir u := by
  unfold Spaces.t_deallocustack at h
  dsimp only at h
  obtain ⟨mem, hfree, h⟩ := bind_eq_ok.mp h
  obtain ⟨f, hf, rfl⟩ := kfree_spec.of_ok hfree
  obtain ⟨⟨mem', sz⟩, hdealloc, h⟩ := bind_eq_ok.mp h
  obtain ⟨_, _, hpte⟩ := deallocuvm_spec.of_ok hdealloc
  have hsame : Memory.pte ⟨f :: vm.mem.freelist, update vm.mem.dir f none⟩ (vm.space w).pgdir u =
      vm.mem.pte (vm.space w).pgdir u := by
    rw [hf] at hk
    unfold Memory.pte
    cases hg : (vm.space w).pgdir with
    | none => rfl
    | some g =>
      have hne : g ≠ f := fun he ↦ hk (by rw [hg, he])
      dsimp only [Option.bind_some]
      rw [update_of_ne hne]
  split at h
  · cases h
  · cases h
    show mem'.pte (vm.space w).pgdir u = _
    rw [hpte, hsame]
    rcases uint_stack hsz with ⟨hle, hlow⟩ | ⟨hlt, hhigh⟩
    · have hround : pageUp (vm.space w).sz =
          pageUp (Spaces.uint ((vm.space w).sz - 2 * PGSIZE)) + 2 := by
        rw [← pageUp_stack, hlow]
      rw [hround]
      congr 1
      simp only [eq_iff_iff]
      omega
    · have hround : pageUp (vm.space w).sz ≤ pageUp (Spaces.uint ((vm.space w).sz - 2 * PGSIZE)) :=
        Nat.div_le_div_right (by omega)
      rw [if_neg (by omega), if_neg (by omega)]

/-- The pages of a stack are unmapped if and only if the memory of the thread still ends with
them. -/
private theorem unmaps_iff (hx : Occupies vm₁ vm₂ m w v) (h : vm₂.t_deallocustack w x = .ok vm₃) :
    Unmaps vm₂ vm₃ w v ↔ 2 * PGSIZE ≤ (vm₂.space w).sz ∧ pageUp (vm₂.space w).sz = v + 2 := by
  have hk : (vm₂.space w).kstack ≠ (vm₂.space w).pgdir := by
    rw [hx.pgdir]
    exact hx.kstack
  have hpages := fun u ↦ t_deallocustack_pages (u := u) h hk hx.size
  constructor
  · intro hun
    have hgone : ∀ u, u = v ∨ u = v + 1 → 2 * PGSIZE ≤ (vm₂.space w).sz ∧
        pageUp (vm₂.space w).sz ≤ u + 2 ∧ u < pageUp (vm₂.space w).sz := by
      intro u hu
      by_contra hnot
      have hnone := hun u
      rw [hpages, if_neg hnot, if_pos hu, hx.pgdir] at hnone
      exact hx.mapped u hu hnone
    have hlo := hgone v (.inl rfl)
    have hhi := hgone (v + 1) (.inr rfl)
    exact ⟨hlo.1, by omega⟩
  · rintro ⟨hle, hround⟩ u
    rw [hpages, hround]
    congr 1
    simp only [eq_iff_iff]
    omega

/-- A successful `t_allocustack` makes two new pages, of which the lower one and no other becomes
inaccessible, if and only if the stack begins at a page; and `t_deallocustack` unmaps these two and
no other if and only if the memory of the thread then ends in the same page as before. -/
theorem guard_page (hb : vm.nextStack m < 2 ^ 32) (h : vm.t_allocustack m w = .ok vm₁) :
    ((∃ v, Guarded vm vm₁ m v) ↔
      vm.nextStack m % PGSIZE = 0 ∧ vm.nextStack m + 2 * PGSIZE < 2 ^ 32) ∧
    ∀ v vm₂ vm₃ x, Guarded vm vm₁ m v → Occupies vm vm₂ m w v →
      vm₂.t_deallocustack w x = .ok vm₃ → (Unmaps vm₂ vm₃ w v ↔
        2 * PGSIZE ≤ (vm₂.space w).sz ∧ pageUp (vm₂.space w).sz = pageUp (vm₁.space w).sz) := by
  refine ⟨guarded_iff hb h, fun v vm₂ vm₃ x hv hx hd ↦ ?_⟩
  obtain ⟨halign, hlt⟩ := (guarded_iff hb h).mp ⟨v, hv⟩
  obtain ⟨hsz, hin, hout⟩ := t_allocustack_pages h hlt
  have hpage : v = pageUp (vm.nextStack m) := by
    -- both pages are new, so they are those that were mapped
    have hnew : ∀ u, u = v ∨ u = v + 1 →
        pageUp (vm.nextStack m) ≤ u ∧ u < pageUp (vm.nextStack m) + 2 := by
      intro u hu
      by_contra hnot
      have hsame := hout u hnot
      obtain ⟨e, he, _⟩ := hv.guard
      obtain ⟨e', he', _⟩ := hv.stack
      rcases hu with rfl | rfl
      · rw [he, hv.fresh.1] at hsame
        split at hsame <;> cases hsame
      · rw [he', hv.fresh.2] at hsame
        split at hsame <;> cases hsame
    have hlo := hnew v (.inl rfl)
    have hhi := hnew (v + 1) (.inr rfl)
    omega
  rw [unmaps_iff hx hd, hsz, pageUp_stack, hpage]

end

section

/-- The first process is in the middle of a `thread_create`. -/
private def creating : State 1 :=
  final (step float) booted [.call (.scheduler 0), .call (.thread_create 0)]

private def created : Spaces :=
  match creating.vm.t_allocustack 0 1 with
  | .ok vm => vm
  | .error _ => creating.vm

example : creating.vm.nextStack 0 = 4096 := by decide +kernel

/-- The stack of the first thread is made, and freed when it is joined. -/
theorem guard_page_created : creating.vm.t_allocustack 0 1 = .ok created ∧
    ∃ v vm, Guarded creating.vm created 0 v ∧ created.t_deallocustack 1 0 = .ok vm ∧
      Unmaps created vm 1 v := by
  have hok : creating.vm.t_allocustack 0 1 = .ok created := by
    have h : (creating.vm.t_allocustack 0 1).isOk = true := by decide +kernel
    unfold created
    cases ht : creating.vm.t_allocustack 0 1 with
    | ok vm => rfl
    | error e =>
      rw [ht] at h
      cases h
  have hsmall : creating.vm.nextStack 0 < 2 ^ 32 := by decide +kernel
  have hbase : creating.vm.nextStack 0 % PGSIZE = 0 ∧
      creating.vm.nextStack 0 + 2 * PGSIZE < 2 ^ 32 := by decide +kernel
  have hspace : (created.space 1).pgdir = (creating.vm.space 0).pgdir ∧
      (created.space 1).kstack ≠ (creating.vm.space 0).pgdir ∧
      2 * PGSIZE ≤ (created.space 1).sz ∧ (created.space 1).sz < 2 ^ 32 := by
    decide +kernel
  have hfree : (created.t_deallocustack 1 0).isOk = true := by decide +kernel
  obtain ⟨hguarded, hlater⟩ := guard_page hsmall hok
  obtain ⟨v, hv⟩ := hguarded.mpr hbase
  obtain ⟨hpgdir, hkstack, hsize, hlt⟩ := hspace
  have hx : Occupies creating.vm created 0 1 v := by
    refine ⟨hpgdir, hkstack, hlt, fun u hu ↦ ?_⟩
    obtain ⟨e, he, _⟩ := hv.guard
    obtain ⟨e', he', _⟩ := hv.stack
    rcases hu with rfl | rfl
    · simp [he]
    · simp [he']
  cases hd : created.t_deallocustack 1 0 with
  | error e =>
    rw [hd] at hfree
    cases hfree
  | ok vm => exact ⟨hok, v, vm, hv, rfl, (hlater v created vm 0 hv hx hd).mpr ⟨hsize, rfl⟩⟩

/-- The first process asks for 100 bytes and is in the middle of a `thread_create`. -/
def growsFirst : List (Action 1) :=
  [.call (.scheduler 0), .growproc 0 100, .call (.thread_create 0)]

private def unaligned : State 1 := final (step float) booted growsFirst

/-- The page with the 100 bytes becomes inaccessible. -/
theorem growsFirst_unguarded : (Lib.exec (step float) booted growsFirst).isOk = true ∧
    ∃ vm, unaligned.vm.t_allocustack 0 1 = .ok vm ∧ ¬∃ v, Guarded unaligned.vm vm 0 v := by
  refine ⟨by decide +kernel, ?_⟩
  have hbefore : (unaligned.vm.mem.pte (unaligned.vm.space 0).pgdir 1).map (·.user) = some true := by
    decide +kernel
  have hafter : (match unaligned.vm.t_allocustack 0 1 with
      | .ok vm => decide ((vm.mem.pte (unaligned.vm.space 0).pgdir 1).map (·.user) = some false)
      | .error _ => false) = true := by decide +kernel
  generalize unaligned.vm = vm at *
  split at hafter
  · next vm' hok =>
    refine ⟨vm', hok, fun ⟨v, hv⟩ ↦ ?_⟩
    have hgone := of_decide_eq_true hafter
    have hne : ∀ u, u = v ∨ u = v + 1 → u ≠ 1 := by
      rintro u hu rfl
      rcases hu with rfl | hu
      · rw [hv.fresh.1] at hbefore
        cases hbefore
      · rw [hu, hv.fresh.2] at hbefore
        cases hbefore
    rw [hv.frame 1 (hne v (.inl rfl)).symm (hne (v + 1) (.inr rfl)).symm, hbefore] at hgone
    cases hgone
  · cases hafter

end

end Xv6.Vm
