import Xv6.Vm.Pages

/-!
# The stacks of threads

A stack has two pages. `t_allocustack` takes the first one in `freeupages` or else the pages above
the memory of the process, and `t_deallocustack` puts the pages of a thread into `freeupages`.
-/

namespace Xv6.Vm

open Function Lib Sched

section

variable {vm : Spaces} {m w : Slot} {b : Nat} {i : Fin MAXTHREAD}

theorem pageUp_page (b : Nat) : pageUp (b * PGSIZE) = b := by
  show (b * 4096 + 4096 - 1) / 4096 = b
  omega

theorem pageUp_stack (a : Nat) : pageUp (a + 2 * PGSIZE) = pageUp a + 2 := by
  show (a + 2 * 4096 + 4096 - 1) / 4096 = (a + 4096 - 1) / 4096 + 2
  omega

theorem uint_above {a : Nat} (h : a + 2 * PGSIZE < 2 ^ 32) :
    Spaces.uint ((a : Int) + 2 * PGSIZE) = a + 2 * PGSIZE := by
  have hsmall : a + 2 * 4096 < 2 ^ 32 := h
  show (((a : Int) + 2 * 4096) % 2 ^ 32).toNat = a + 2 * 4096
  omega

theorem uint_below {a : Nat} (h : a + 2 * PGSIZE < 2 ^ 32) :
    Spaces.uint (((a + 2 * PGSIZE : Nat) : Int) - 2 * PGSIZE) = a := by
  have hsmall : a + 2 * 4096 < 2 ^ 32 := h
  show ((((a + 2 * 4096 : Nat) : Int) - 2 * 4096) % 2 ^ 32).toNat = a
  omega

theorem Spaces.modify_space {f : Space → Space} (p : Slot) :
    (vm.modify w f).space p = if p = w then f (vm.space w) else vm.space p := by
  unfold Spaces.modify
  exact update_apply ..

theorem stack_lt {a : Nat} (h : a < KERNBASE) : a + 2 * PGSIZE < 2 ^ 32 := by
  have hbase : KERNBASE + 2 * PGSIZE < 2 ^ 32 := by decide
  exact (Nat.add_lt_add_right h _).trans hbase

/-- Two pages that are not mapped become the stack of `w`. -/
theorem t_allocustack_spec {a : Nat} (ha : vm.nextStack m = a) (hlt : a < KERNBASE)
    (hnone : ∀ v, pageUp a ≤ v → v < pageUp a + 2 → vm.mem.pte (vm.space m).pgdir v = none) :
    NoRemap (vm.t_allocustack m w) fun vm' ↦ a + 2 * PGSIZE < KERNBASE ∧
      vm'.space = ((vm.claim m (a + 2 * PGSIZE)).modify w fun v ↦
        { v with sz := a + 2 * PGSIZE, stacked := true }).space ∧
      ∀ u, (vm'.mem.pte (vm.space m).pgdir u).isSome = true ↔
        (pageUp a ≤ u ∧ u < pageUp a + 2) ∨ (vm.mem.pte (vm.space m).pgdir u).isSome = true := by
  unfold Spaces.t_allocustack
  dsimp only
  rw [ha, uint_above (stack_lt hlt)]
  have hround := pageUp_stack a
  have hle : a ≤ a + 2 * PGSIZE := Nat.le_add_right _ _
  generalize a + 2 * PGSIZE = top at hround hle ⊢
  refine (allocuvm_spec hle (hround ▸ hnone)).bind fun ⟨mem, sz⟩ halloc ↦ ?_
  dsimp only at halloc ⊢
  split
  · exact nofun
  · next hpos =>
    obtain ⟨rfl, hk, hin, hout⟩ := halloc hpos
    rw [hround] at hin hout
    refine clearpteu_spec.bind fun mem' hmem' ↦ ⟨hk, rfl, fun u ↦ ?_⟩
    have hsame : (mem'.pte (vm.space m).pgdir u).isSome = (mem.pte (vm.space m).pgdir u).isSome := by
      rw [hmem']
      split <;> simp
    dsimp only [Spaces.modify]
    rw [hsame]
    by_cases hu : pageUp a ≤ u ∧ u < pageUp a + 2
    · obtain ⟨f, hf⟩ := hin u hu.1 hu.2
      simp [hf, hu]
    · rw [hout u hu]
      simp [hu]

/-- The pages of the stack of `w` are unmapped. -/
theorem t_deallocustack_spec {a : Nat} (hsz : (vm.space w).sz = a + 2 * PGSIZE)
    (hlt : a + 2 * PGSIZE < 2 ^ 32) :
    NoRemap (vm.t_deallocustack w m) fun vm' ↦ a ≠ 0 ∧ vm'.space = (vm.giveBack m a).space ∧
      ∀ u, (vm'.mem.pte (vm.space w).pgdir u).isSome = true ↔
        ¬(pageUp a ≤ u ∧ u < pageUp a + 2) ∧ (vm.mem.pte (vm.space w).pgdir u).isSome = true := by
  unfold Spaces.t_deallocustack
  dsimp only
  refine kfree_spec.bind fun mem ⟨f, _, hmem⟩ ↦ ?_
  rw [hsz, uint_below hlt]
  have hround := pageUp_stack a
  have hle : a < a + 2 * PGSIZE := Nat.lt_add_of_pos_right (by decide)
  generalize a + 2 * PGSIZE = top at hround hle
  refine deallocuvm_spec.bind fun ⟨mem', sz⟩ ⟨hmin, hdir, hpte⟩ ↦ ?_
  have hmin : sz = a := hmin.trans (min_eq_left hle.le)
  have hthere := hdir hle
  subst hmem hmin
  dsimp only at hpte ⊢
  split
  · exact nofun
  · next hne =>
    refine ⟨hne, rfl, fun u ↦ ?_⟩
    show (mem'.pte (vm.space w).pgdir u).isSome = true ↔ _
    rw [hpte, hround, Memory.pte_kfree hthere]
    by_cases hu : pageUp sz ≤ u ∧ u < pageUp sz + 2
    · simp [hu]
    · simp [hu]

/-! ### The free stacks -/

theorem reusable_eq_some (h : vm.reusable m = some i) : (vm.space m).freeupages i ≠ 0 := by
  simpa using List.find?_some h

theorem reusable_eq_none : vm.reusable m = none ↔ ∀ i, (vm.space m).freeupages i = 0 := by
  simp [Spaces.reusable, List.find?_eq_none]

theorem vacant_eq_some (h : vm.vacant m = some i) : (vm.space m).freeupages i = 0 := by
  simpa using List.find?_some h

theorem vacant_eq_none : vm.vacant m = none ↔ ∀ i, (vm.space m).freeupages i ≠ 0 := by
  simp [Spaces.vacant, List.find?_eq_none]

end

end Xv6.Vm
