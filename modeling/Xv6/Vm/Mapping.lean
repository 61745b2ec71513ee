import Xv6.Vm.Stacks
import Xv6.Vm.Steps

/-!
# Where pages are mapped

Which pages a function adds to an address space. Only `mappages` adds any, to the page directory
that it is given; what frees memory may at most lose pages of other address spaces.
-/

namespace Xv6.Vm

open Function Lib Sched

section

variable {mem mem' mem₁ mem₂ : Memory} {g pgdir : Option Frame} {f : Frame} {d d' : PageDir}
  {S T : Set Nat} {v : Nat} {e : Pte} {oldsz newsz : Nat}

/-- The pages that are added to the address space at `g` are in `S`. -/
def Memory.Adds (g : Option Frame) (S : Set Nat) (mem mem' : Memory) : Prop :=
  ∀ v, mem.pte g v = none → v ∉ S → mem'.pte g v = none

namespace Memory.Adds

theorem of_dir (h : mem'.dir = mem.dir) : Adds g S mem mem' := by
  intro v hv _
  rwa [Memory.pte_congr h]

@[refl] theorem refl (mem : Memory) : Adds g S mem mem := of_dir rfl

theorem trans (h : Adds g S mem mem₁) (h' : Adds g S mem₁ mem₂) : Adds g S mem mem₂ :=
  fun v hv hS ↦ h' v (h v hv hS) hS

theorem mono (h : Adds g S mem mem') (hST : S ⊆ T) : Adds g T mem mem' :=
  fun v hv hT ↦ h v hv fun hS ↦ hT (hST hS)

/-- A page directory is written with no more entries than it had. -/
theorem write (h : Adds g S mem mem₁) (hd : mem.dir f = some d)
    (hpte : ∀ v, d.pte v = none → d'.pte v = none) : Adds g S mem (mem₁.write f d') := by
  intro v hv hS
  by_cases hf : g = some f
  · subst hf
    rw [Memory.pte_some hd] at hv
    rw [Memory.pte_write, hpte v hv]
  · have hold := h v hv hS
    cases g with
    | none => rfl
    | some x =>
      have hx : x ≠ f := fun he ↦ hf (congrArg some he)
      unfold Memory.pte Memory.write at *
      dsimp only [Option.bind_some] at *
      rwa [update_of_ne hx]

/-- Another page directory is written. -/
theorem write_other (h : Adds g S mem mem₁) (hf : g ≠ some f) : Adds g S mem (mem₁.write f d') := by
  intro v hv hS
  have hold := h v hv hS
  cases g with
  | none => rfl
  | some x =>
    have hx : x ≠ f := fun he ↦ hf (congrArg some he)
    unfold Memory.pte Memory.write at *
    dsimp only [Option.bind_some] at *
    rwa [update_of_ne hx]

theorem kalloc (h : mem.kalloc = some (f, mem')) : Adds g S mem mem' :=
  of_dir (kalloc_eq_some h).2

theorem kfree {x : Option Frame} (h : mem.kfree x = .ok mem') : Adds g S mem mem' := by
  obtain ⟨f, _, rfl⟩ := kfree_spec.of_ok h
  intro v hv _
  cases g with
  | none => rfl
  | some y =>
    unfold Memory.pte at *
    dsimp only [Option.bind_some] at *
    by_cases hy : y = f
    · rw [hy, update_self]
      rfl
    · rwa [update_of_ne hy]

end Memory.Adds

open Memory (Adds)

/-! ### Freeing -/

private theorem adds_freePage (h : mem.freePage pgdir v = .ok mem') : Adds g S mem mem' := by
  obtain ⟨⟨f, d⟩, hd, h⟩ := bind_eq_ok.mp h
  obtain ⟨_, hdir⟩ := lookup_eq_ok.mp hd
  dsimp only at h
  split at h
  · cases h
    rfl
  · next e he =>
    obtain ⟨mem₁, hfree, h⟩ := bind_eq_ok.mp h
    cases h
    refine (Adds.kfree hfree).write hdir fun u hu ↦ ?_
    have hpde : (d.pde (v / NPTENTRIES)).isSome = true := by
      cases hp : d.pde (v / NPTENTRIES) with
      | none => cases (PageDir.pte_of_pde hp).symm.trans he
      | some => rfl
    rw [PageDir.pte_setPte hpde, hu, ite_self]

private theorem adds_foldlM {α : Type} {step : Memory → α → Except Fault Memory}
    (hstep : ∀ {mem mem' x}, step mem x = .ok mem' → Adds g S mem mem') {l : List α}
    (h : l.foldlM step mem = .ok mem') : Adds g S mem mem' := by
  induction l generalizing mem with
  | nil =>
    cases h
    rfl
  | cons x l ih =>
    rw [List.foldlM_cons] at h
    obtain ⟨mem₁, h₁, h⟩ := bind_eq_ok.mp h
    exact (hstep h₁).trans (ih h)

theorem Memory.Adds.deallocuvm {r : Memory × Nat} (h : mem.deallocuvm pgdir oldsz newsz = .ok r) :
    Adds g S mem r.1 := by
  unfold Memory.deallocuvm at h
  split at h
  · cases h
    rfl
  · obtain ⟨_, _, h⟩ := bind_eq_ok.mp h
    obtain ⟨mem₁, hfree, h⟩ := bind_eq_ok.mp h
    cases h
    exact adds_foldlM adds_freePage hfree

theorem Memory.Adds.freevm (h : mem.freevm pgdir = .ok mem') : Adds g S mem mem' := by
  unfold Memory.freevm at h
  split at h
  · cases h
  · obtain ⟨⟨mem₁, _⟩, hdealloc, h⟩ := bind_eq_ok.mp h
    obtain ⟨_, _, h⟩ := bind_eq_ok.mp h
    obtain ⟨mem₂, hfold, h⟩ := bind_eq_ok.mp h
    exact ((Adds.deallocuvm hdealloc).trans (adds_foldlM Adds.kfree hfold)).trans (Adds.kfree h)

theorem Memory.Adds.clearpteu {uva : Nat} (h : mem.clearpteu pgdir uva = .ok mem') :
    Adds g S mem mem' := by
  obtain ⟨⟨f, d⟩, hd, h⟩ := bind_eq_ok.mp h
  obtain ⟨_, hdir⟩ := lookup_eq_ok.mp hd
  dsimp only at h
  split at h
  · cases h
  · next tbl htbl =>
    cases h
    refine (Adds.refl mem).write hdir fun u hu ↦ ?_
    rw [PageDir.pte_setPte (by rw [htbl]; rfl), hu]
    split
    · next huv =>
      rw [← huv, hu]
      rfl
    · rfl

/-! ### Mapping -/

/-- A page is mapped in another address space. -/
private theorem adds_mappages {r : Memory × Bool} (hg : g ≠ pgdir)
    (h : mem.mappages pgdir v e = .ok r) : Adds g S mem r.1 := by
  obtain ⟨⟨f, d⟩, hd, h⟩ := bind_eq_ok.mp h
  obtain ⟨hf, _⟩ := lookup_eq_ok.mp hd
  rw [hf] at hg
  dsimp only at h
  split at h
  · split at h
    · cases h
    · cases h
      exact (Adds.refl mem).write_other hg
  · split at h
    · cases h
      rfl
    · next tbl mem₁ hk =>
      cases h
      exact (Adds.kalloc hk).write_other hg

/-- The loop of `allocuvm` maps pages of its list. -/
private theorem adds_allocPages {vs : List Nat} {r : Memory × Nat} (hvs : g = pgdir → ∀ v ∈ vs, v ∈ S)
    (h : Memory.allocPages pgdir oldsz newsz vs mem = .ok r) : Adds g S mem r.1 := by
  induction vs generalizing mem with
  | nil =>
    cases h
    rfl
  | cons v vs ih =>
    unfold Memory.allocPages at h
    split at h
    · obtain ⟨⟨mem₁, sz⟩, hdealloc, h⟩ := bind_eq_ok.mp h
      cases h
      have hadds : Adds g S mem mem₁ := Adds.deallocuvm hdealloc
      exact hadds
    · next f mem₁ hk =>
      obtain ⟨⟨mem₂, mapped⟩, hmap, h⟩ := bind_eq_ok.mp h
      have hadds : Adds g S mem mem₂ := by
        refine (Adds.kalloc hk).trans ?_
        by_cases hg : g = pgdir
        · intro u hu hS
          have hne : u ≠ v := by
            rintro rfl
            exact hS (hvs hg _ List.mem_cons_self)
          subst hg
          cases mapped with
          | true => rw [(mappages_spec (unmapped_of_mappages hmap)).of_ok hmap rfl, if_neg hne, hu]
          | false => rw [mappages_false hmap, hu]
        · exact adds_mappages hg hmap
      dsimp only at h
      split at h
      · exact hadds.trans (ih (fun hg u hu ↦ hvs hg u (List.mem_cons_of_mem _ hu)) h)
      · obtain ⟨⟨mem₃, sz⟩, hdealloc, h⟩ := bind_eq_ok.mp h
        obtain ⟨mem₄, hfree, h⟩ := bind_eq_ok.mp h
        cases h
        have hgone : Adds g S mem₂ mem₃ := Adds.deallocuvm hdealloc
        exact (hadds.trans hgone).trans (Adds.kfree hfree)

/-- If the loop of `allocuvm` fails, the pages are unmapped again. -/
private theorem allocPages_fails {vs : List Nat} {r : Memory × Nat} (hsz : newsz ≠ 0)
    (h : Memory.allocPages pgdir oldsz newsz vs mem = .ok r) (hr : r.2 = 0)
    (hv : v ∈ Set.Ico (pageUp oldsz) (pageUp newsz)) : r.1.pte pgdir v = none := by
  induction vs generalizing mem with
  | nil =>
    cases h
    exact absurd hr hsz
  | cons u vs ih =>
    unfold Memory.allocPages at h
    split at h
    · obtain ⟨⟨mem₁, sz⟩, hdealloc, h⟩ := bind_eq_ok.mp h
      cases h
      exact ((deallocuvm_spec.of_ok hdealloc).2.2 v).trans (if_pos hv)
    · next f mem₁ hk =>
      obtain ⟨⟨mem₂, mapped⟩, hmap, h⟩ := bind_eq_ok.mp h
      dsimp only at h
      split at h
      · exact ih h
      · obtain ⟨⟨mem₃, sz⟩, hdealloc, h⟩ := bind_eq_ok.mp h
        obtain ⟨mem₄, hfree, h⟩ := bind_eq_ok.mp h
        cases h
        have hgone := ((deallocuvm_spec.of_ok hdealloc).2.2 v).trans (if_pos hv)
        exact (Adds.kfree (S := ∅) hfree) v hgone (Set.notMem_empty v)

/-- `allocuvm` adds the pages up to `newsz` to the address space that it is given, if it succeeds,
and none otherwise. -/
theorem Memory.Adds.allocuvm {r : Memory × Nat}
    (hS : g = pgdir → r.2 ≠ 0 → Set.Ico (pageUp oldsz) (pageUp newsz) ⊆ S)
    (h : mem.allocuvm pgdir oldsz newsz = .ok r) : Adds g S mem r.1 := by
  unfold Memory.allocuvm at h
  split at h
  · cases h
    rfl
  · split at h
    · cases h
      rfl
    · have hrange : ∀ v ∈ List.range' (pageUp oldsz) (pageUp newsz - pageUp oldsz),
          v ∈ Set.Ico (pageUp oldsz) (pageUp newsz) := by
        intro v hv
        rw [List.mem_range'_1] at hv
        rw [Set.mem_Ico]
        omega
      by_cases hg : g = pgdir
      · by_cases hr : r.2 = 0
        · -- the pages of the failed allocation are unmapped
          have hall : Adds g (Set.Ico (pageUp oldsz) (pageUp newsz)) mem r.1 :=
            adds_allocPages (fun _ ↦ hrange) h
          intro v hv _
          by_cases hin : v ∈ Set.Ico (pageUp oldsz) (pageUp newsz)
          · have hsz : newsz ≠ 0 := by
              rintro rfl
              have hzero : pageUp 0 = 0 := by decide
              rw [hzero] at hin
              exact absurd hin.2 (Nat.not_lt_zero v)
            rw [hg]
            exact allocPages_fails hsz h hr hin
          · exact hall v hv hin
        · exact adds_allocPages (fun _ v hv ↦ hS hg hr (hrange v hv)) h
      · exact adds_allocPages (fun he ↦ absurd he hg) h

/-- The size that `allocuvm` returns if it succeeds. -/
theorem allocuvm_size {r : Memory × Nat} (h : mem.allocuvm pgdir oldsz newsz = .ok r)
    (hr : r.2 ≠ 0) : newsz < KERNBASE ∧ r.2 = max oldsz newsz := by
  have hloop : ∀ {vs : List Nat} {mem : Memory},
      Memory.allocPages pgdir oldsz newsz vs mem = .ok r → r.2 = newsz := by
    intro vs
    induction vs with
    | nil =>
      intro mem h
      cases h
      rfl
    | cons v vs ih =>
      intro mem h
      unfold Memory.allocPages at h
      split at h
      · obtain ⟨_, _, h⟩ := bind_eq_ok.mp h
        cases h
        exact absurd rfl hr
      · obtain ⟨⟨mem₂, mapped⟩, _, h⟩ := bind_eq_ok.mp h
        dsimp only at h
        split at h
        · exact ih h
        · obtain ⟨_, _, h⟩ := bind_eq_ok.mp h
          obtain ⟨_, _, h⟩ := bind_eq_ok.mp h
          cases h
          exact absurd rfl hr
  unfold Memory.allocuvm at h
  split at h
  · cases h
    exact absurd rfl hr
  · next hk =>
    split at h
    · next hlt =>
      cases h
      exact ⟨by omega, (max_eq_left (by omega)).symm⟩
    · next hle => exact ⟨by omega, (hloop h).trans (max_eq_right (by omega)).symm⟩

/-! ### New address spaces -/

/-- The frame at `g` is not free. -/
def Memory.Held (mem : Memory) (g : Option Frame) : Prop := ∀ f ∈ mem.freelist, g ≠ some f

instance (mem : Memory) (g : Option Frame) : Decidable (mem.Held g) :=
  inferInstanceAs (Decidable (∀ f ∈ mem.freelist, _))

private theorem adds_setupkvm {r : Memory × Option Frame} (hg : mem.Held g)
    (h : mem.setupkvm = .ok r) : Adds g S mem r.1 ∧ ∀ f, r.2 = some f → g ≠ some f := by
  unfold Memory.setupkvm at h
  split at h
  · cases h
    exact ⟨.refl _, nofun⟩
  · next f mem₁ hk =>
    have hf : g ≠ some f := hg f (by simp [(kalloc_eq_some hk).1])
    have hadds : ∀ {d : PageDir} {l : List Frame},
        Adds g S mem (({ mem₁ with freelist := l } : Memory).write f d) :=
      fun {d l} ↦ ((Adds.kalloc hk).trans (.of_dir rfl)).write_other hf
    dsimp only at h
    split at h
    · obtain ⟨mem₂, hfree, h⟩ := bind_eq_ok.mp h
      cases h
      exact ⟨hadds.trans (Adds.freevm hfree), nofun⟩
    · cases h
      refine ⟨hadds, ?_⟩
      rintro x hx
      cases hx
      exact hf

private theorem adds_copyPages {vs : List Nat} {child : Option Frame} {r : Memory × Option Frame}
    (hg : g ≠ child) (h : Memory.copyPages pgdir child vs mem = .ok r) : Adds g S mem r.1 := by
  induction vs generalizing mem with
  | nil =>
    cases h
    rfl
  | cons v vs ih =>
    unfold Memory.copyPages at h
    obtain ⟨⟨f, d⟩, _, h⟩ := bind_eq_ok.mp h
    dsimp only at h
    split at h
    · cases h
    · split at h
      · cases h
      · split at h
        · obtain ⟨mem₁, hfree, h⟩ := bind_eq_ok.mp h
          cases h
          exact Adds.freevm hfree
        · next x mem₁ hk =>
          obtain ⟨⟨mem₂, mapped⟩, hmap, h⟩ := bind_eq_ok.mp h
          have hadds : Adds g S mem mem₂ := (Adds.kalloc hk).trans (adds_mappages hg hmap)
          dsimp only at h
          split at h
          · exact hadds.trans (ih h)
          · obtain ⟨mem₃, hfree, h⟩ := bind_eq_ok.mp h
            obtain ⟨mem₄, hfree', h⟩ := bind_eq_ok.mp h
            cases h
            exact (hadds.trans (Adds.kfree hfree)).trans (Adds.freevm hfree')

theorem Memory.Adds.copyuvm {sz : Nat} {r : Memory × Option Frame} (hg : mem.Held g)
    (h : mem.copyuvm pgdir sz = .ok r) : Adds g S mem r.1 := by
  obtain ⟨⟨mem₁, child⟩, hsetup, h⟩ := bind_eq_ok.mp h
  obtain ⟨hadds, hchild⟩ := adds_setupkvm (S := S) hg hsetup
  cases child with
  | none =>
    cases h
    exact hadds
  | some f => exact hadds.trans (adds_copyPages (hchild f rfl) h)

/-- The pages of the program end with its size. -/
private theorem adds_load {es : List Nat} {sz sz' : Nat}
    (h : load pgdir es sz mem = .ok (mem', some sz')) :
    sz ≤ sz' ∧ Adds pgdir (Set.Iio (pageUp sz')) mem mem' := by
  induction es generalizing sz mem with
  | nil =>
    cases h
    exact ⟨le_rfl, .refl _⟩
  | cons e es ih =>
    obtain ⟨⟨mem₁, sz₁⟩, halloc, h⟩ := bind_eq_ok.mp h
    dsimp only at h
    split at h
    · cases h
    · next hpos =>
      obtain ⟨hle, hrest⟩ := ih h
      have hsz : sz₁ = max sz e := (allocuvm_size halloc hpos).2
      refine ⟨(hsz ▸ le_max_left sz e).trans hle, .trans ?_ hrest⟩
      have hfit : Set.Ico (pageUp sz) (pageUp e) ⊆ Set.Iio (pageUp sz') := by
        intro v hv
        have hround : pageUp e ≤ pageUp sz' :=
          Nat.div_le_div_right (Nat.sub_le_sub_right (Nat.add_le_add_right
            ((hsz ▸ le_max_right sz e).trans hle) _) _)
        exact lt_of_lt_of_le hv.2 hround
      exact Adds.allocuvm (fun _ _ ↦ hfit) halloc

private theorem adds_load_other {es : List Nat} {sz : Nat} {r : Memory × Option Nat}
    (hg : g ≠ pgdir) (h : load pgdir es sz mem = .ok r) : Adds g S mem r.1 := by
  induction es generalizing sz mem with
  | nil =>
    cases h
    rfl
  | cons e es ih =>
    obtain ⟨⟨mem₁, sz₁⟩, halloc, h⟩ := bind_eq_ok.mp h
    have hadds : Adds g S mem mem₁ := Adds.allocuvm (fun he ↦ absurd he hg) halloc
    dsimp only at h
    split at h
    · cases h
      exact hadds
    · exact hadds.trans (ih h)

/-- `exec` adds no pages to an address space that is in use. -/
theorem Memory.Adds.image {ends : List Nat} {ok : Bool} {r : Memory × Option (Frame × Nat)}
    (hg : mem.Held g) (h : image mem ends ok = .ok r) : Adds g S mem r.1 := by
  obtain ⟨⟨mem₁, pgdir⟩, hsetup, h⟩ := bind_eq_ok.mp h
  obtain ⟨hadds, hnew⟩ := adds_setupkvm (S := S) hg hsetup
  cases pgdir with
  | none =>
    cases h
    exact hadds
  | some f =>
    have hf := hnew f rfl
    have hbad : ∀ {mem : Memory}, (do .ok (← mem.freevm (some f), none) :
        Except Fault (Memory × Option (Frame × Nat))) = .ok r → Adds g S mem r.1 := by
      intro mem h
      obtain ⟨mem', hfree, h⟩ := bind_eq_ok.mp h
      cases h
      exact Adds.freevm hfree
    dsimp only at h
    obtain ⟨⟨mem₂, sz⟩, hload, h⟩ := bind_eq_ok.mp h
    have hadds := hadds.trans (adds_load_other hf hload)
    dsimp only at h
    cases sz with
    | none => exact hadds.trans (hbad h)
    | some sz =>
      dsimp only at h
      obtain ⟨⟨mem₃, sz'⟩, halloc, h⟩ := bind_eq_ok.mp h
      have hadds := hadds.trans (Adds.allocuvm (fun he ↦ absurd he hf) halloc)
      dsimp only at h
      split at h
      · exact hadds.trans (hbad h)
      · obtain ⟨mem₄, hclear, h⟩ := bind_eq_ok.mp h
        have hadds := hadds.trans (Adds.clearpteu hclear)
        split at h
        · cases h
          exact hadds
        · exact hadds.trans (hbad h)

/-- The new address space of `exec` has pages up to its size, at which one begins. -/
theorem image_above {ends : List Nat} {ok : Bool} {sz : Nat}
    (h : image mem ends ok = .ok (mem', some (f, sz))) :
    ok = true ∧ sz < KERNBASE ∧ sz % PGSIZE = 0 ∧
      ∀ v, pageUp sz ≤ v → mem'.pte (some f) v = none := by
  obtain ⟨⟨mem₁, pgdir⟩, hsetup, h⟩ := bind_eq_ok.mp h
  cases pgdir with
  | none => cases h
  | some x =>
    have hnone := setupkvm_unmapped hsetup
    have hbad : ∀ {mem : Memory}, (do .ok (← mem.freevm (some x), none) :
        Except Fault (Memory × Option (Frame × Nat))) ≠ .ok (mem', some (f, sz)) := by
      intro mem h
      obtain ⟨_, _, h⟩ := bind_eq_ok.mp h
      cases h
    dsimp only at h
    obtain ⟨⟨mem₂, sz₁⟩, hload, h⟩ := bind_eq_ok.mp h
    dsimp only at h
    cases sz₁ with
    | none => exact absurd h hbad
    | some sz₁ =>
      obtain ⟨_, hadds⟩ := adds_load hload
      dsimp only at h
      obtain ⟨⟨mem₃, sz₂⟩, halloc, h⟩ := bind_eq_ok.mp h
      dsimp only at h
      split at h
      · exact absurd h hbad
      · next hpos =>
        obtain ⟨mem₄, hclear, h⟩ := bind_eq_ok.mp h
        split at h
        · next hok =>
          cases h
          obtain ⟨hk, hsz⟩ := allocuvm_size halloc hpos
          have hsz : sz = pageUp sz₁ * PGSIZE + 2 * PGSIZE :=
            hsz.trans (max_eq_right (Nat.le_add_right _ _))
          have hround : pageUp sz = pageUp sz₁ + 2 := by
            rw [hsz, ← Nat.add_mul]
            exact pageUp_page _
          refine ⟨hok, hsz ▸ hk, ?_, fun v hv ↦ ?_⟩
          · rw [hsz, ← Nat.add_mul]
            exact Nat.mul_mod_left _ _
          · have hfit : Set.Ico (pageUp (pageUp sz₁ * PGSIZE))
                (pageUp (pageUp sz₁ * PGSIZE + 2 * PGSIZE)) ⊆ Set.Iio (pageUp sz) := by
              intro u hu
              rw [hsz]
              exact hu.2
            have hnew : v ∉ Set.Iio (pageUp sz) := Set.notMem_Iio.mpr hv
            have hload : v ∉ Set.Iio (pageUp sz₁) := Set.notMem_Iio.mpr (by omega)
            have halloc := Adds.allocuvm (fun _ _ ↦ hfit) halloc v (hadds v (hnone v) hload) hnew
            exact Adds.clearpteu hclear v halloc hnew
        · exact absurd h hbad

end

end Xv6.Vm
