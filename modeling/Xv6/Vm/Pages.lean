import Xv6.Vm.Model

/-!
# What the page functions do to an address space

For each function of `vm.c`, what it makes of the entries of the page table that it is given, and
that it does not come upon a mapped page where it maps one.
-/

namespace Xv6.Vm

open Function Lib

/-- The entry for page `v` in the address space at `pgdir`. -/
def Memory.pte (mem : Memory) (pgdir : Option Frame) (v : Nat) : Option Pte :=
  (pgdir.bind mem.dir).bind fun d ↦ d.pte v

/-- The result of a function that panics with "remap" under no circumstances. -/
abbrev NoRemap {α : Type} (x : Except Fault α) (ok : α → Prop) : Prop := Ensures x (· ≠ .remap) ok

section

variable {mem : Memory} {pgdir : Option Frame} {f : Frame} {d : PageDir} {u v : Nat} {e : Pte}
  {oldsz newsz : Nat}

/-! ### Entries -/

theorem PageDir.pte_setPte {x : Option Pte} (h : (d.pde (v / NPTENTRIES)).isSome = true) :
    (d.setPte v x).pte u = if u = v then x else d.pte u := by
  obtain ⟨tbl, htbl⟩ := Option.isSome_iff_exists.mp h
  unfold PageDir.setPte PageDir.pte
  rw [htbl]
  dsimp only
  by_cases hdir : u / NPTENTRIES = v / NPTENTRIES
  · rw [hdir, update_self, htbl]
    dsimp only [Option.bind_some]
    by_cases hidx : u % NPTENTRIES = v % NPTENTRIES
    · rw [hidx, update_self, if_pos]
      rw [← Nat.div_add_mod u NPTENTRIES, ← Nat.div_add_mod v NPTENTRIES, hdir, hidx]
    · rw [update_of_ne hidx, if_neg]
      rintro rfl
      exact hidx rfl
  · rw [update_of_ne hdir, if_neg]
    rintro rfl
    exact hdir rfl

theorem PageDir.pte_of_pde (h : d.pde (v / NPTENTRIES) = none) : d.pte v = none := by
  unfold PageDir.pte
  rw [h]
  rfl

private theorem pde_of_pte (h : d.pte v = some e) : (d.pde (v / NPTENTRIES)).isSome = true := by
  cases hp : d.pde (v / NPTENTRIES) with
  | none => cases (PageDir.pte_of_pde hp).symm.trans h
  | some => rfl

theorem lookup_eq_ok {x : Frame × PageDir} :
    mem.lookup pgdir = .ok x ↔ pgdir = some x.1 ∧ mem.dir x.1 = some x.2 := by
  obtain ⟨f, d⟩ := x
  unfold Memory.lookup
  split
  · simp
  · next g =>
    split
    · next h =>
      simp only [reduceCtorEq, Option.some.injEq, false_iff, not_and]
      rintro rfl hd
      cases h.symm.trans hd
    · next d' h =>
      simp only [Except.ok.injEq, Prod.mk.injEq, Option.some.injEq]
      constructor
      · rintro ⟨rfl, rfl⟩
        exact ⟨rfl, h⟩
      · rintro ⟨rfl, hd⟩
        exact ⟨rfl, Option.some.inj (h.symm.trans hd)⟩

theorem lookup_spec : NoRemap (mem.lookup pgdir) fun x ↦ pgdir = some x.1 ∧ mem.dir x.1 = some x.2 := by
  cases h : mem.lookup pgdir with
  | ok x => exact lookup_eq_ok.mp h
  | error e =>
    unfold Memory.lookup at h
    split at h
    · cases h
      exact nofun
    · split at h
      · cases h
        exact nofun
      · cases h

theorem Memory.pte_some (h : mem.dir f = some d) : mem.pte (some f) v = d.pte v := by
  unfold Memory.pte
  rw [Option.bind_some, h]
  rfl

theorem Memory.pte_write : (mem.write f d).pte (some f) v = d.pte v :=
  Memory.pte_some (update_self ..)

/-! ### The allocator -/

theorem kalloc_eq_some {mem' : Memory} (h : mem.kalloc = some (f, mem')) :
    mem.freelist = f :: mem'.freelist ∧ mem'.dir = mem.dir := by
  unfold Memory.kalloc at h
  split at h
  · cases h
  · next hf =>
    cases h
    exact ⟨hf, rfl⟩

theorem Memory.pte_congr {mem' : Memory} (h : mem'.dir = mem.dir) : mem'.pte pgdir v = mem.pte pgdir v := by
  unfold Memory.pte
  rw [h]

theorem kfree_spec {x : Option Frame} : NoRemap (mem.kfree x) fun mem' ↦ ∃ f, x = some f ∧
    mem' = ⟨f :: mem.freelist, update mem.dir f none⟩ := by
  unfold Memory.kfree
  split
  · exact nofun
  · next f => exact ⟨f, rfl, rfl⟩

/-- A page directory that is still there has not been freed. -/
theorem Memory.pte_kfree {l : List Frame}
    (h : (pgdir.bind (update mem.dir f none)).isSome = true) :
    Memory.pte ⟨l, update mem.dir f none⟩ pgdir v = mem.pte pgdir v := by
  cases pgdir with
  | none => cases h
  | some g =>
    have hne : g ≠ f := by
      rintro rfl
      rw [Option.bind_some, update_self] at h
      cases h
    unfold Memory.pte
    dsimp only [Option.bind_some]
    rw [update_of_ne hne]

/-! ### Mapping -/

/-- A page that is not mapped is mapped, if there is memory for its page table. -/
theorem mappages_spec (hv : mem.pte pgdir v = none) : NoRemap (mem.mappages pgdir v e) fun r ↦
    r.2 = true → ∀ u, r.1.pte pgdir u = if u = v then some e else mem.pte pgdir u := by
  unfold Memory.mappages
  refine lookup_spec.bind fun ⟨f, d⟩ h ↦ ?_
  obtain ⟨rfl, hd⟩ := h
  dsimp only at hd ⊢
  rw [Memory.pte_some hd] at hv
  split
  · next tbl htbl =>
    rw [if_neg (by simp [hv])]
    intro _ u
    rw [Memory.pte_write, PageDir.pte_setPte (by rw [htbl]; rfl), Memory.pte_some hd]
  · next htbl =>
    split
    · exact nofun
    · next tbl mem' halloc =>
      intro _ u
      rw [Memory.pte_write, PageDir.pte_setPte (by dsimp only; rw [update_self]; rfl),
        Memory.pte_some hd]
      split
      · rfl
      · -- the new page table has no entries, and no other page used it before
        unfold PageDir.pte
        dsimp only
        by_cases hdir : u / NPTENTRIES = v / NPTENTRIES
        · rw [hdir, update_self, htbl]
          rfl
        · rw [update_of_ne hdir]

/-- A page that has been mapped was not mapped before. -/
theorem unmapped_of_mappages {r : Memory × Bool} (h : mem.mappages pgdir v e = .ok r) :
    mem.pte pgdir v = none := by
  obtain ⟨⟨f, d⟩, hd, h⟩ := bind_eq_ok.mp h
  obtain ⟨hf, hdir⟩ := lookup_eq_ok.mp hd
  rw [hf, Memory.pte_some hdir]
  dsimp only at h
  split at h
  · split at h
    · cases h
    · next hnone => simpa using hnone
  · next htbl => exact PageDir.pte_of_pde htbl

/-- Without memory for a page table nothing is mapped. -/
theorem mappages_false {mem' : Memory} (h : mem.mappages pgdir v e = .ok (mem', false)) : mem' = mem := by
  obtain ⟨⟨f, d⟩, _, h⟩ := bind_eq_ok.mp h
  dsimp only at h
  split at h
  · split at h <;> cases h
  · split at h
    · cases h
      rfl
    · cases h

/-- A new address space has no user pages. -/
theorem setupkvm_unmapped {mem' : Memory} (h : mem.setupkvm = .ok (mem', some f)) (v : Nat) :
    mem'.pte (some f) v = none := by
  unfold Memory.setupkvm at h
  split at h
  · cases h
  · dsimp only at h
    split at h
    · obtain ⟨mem, _, h⟩ := bind_eq_ok.mp h
      cases h
    · cases h
      exact Memory.pte_write

/-! ### Unmapping -/

theorem freePage_spec : NoRemap (mem.freePage pgdir v) fun mem' ↦
    ∀ u, mem'.pte pgdir u = if u = v then none else mem.pte pgdir u := by
  unfold Memory.freePage
  refine lookup_spec.bind fun ⟨f, d⟩ h ↦ ?_
  obtain ⟨rfl, hd⟩ := h
  dsimp only at hd ⊢
  split
  · next hv =>
    intro u
    split
    · next h =>
      rw [h, Memory.pte_some hd, hv]
    · rfl
  · next e he =>
    refine kfree_spec.bind fun mem' _ u ↦ ?_
    rw [Memory.pte_write, PageDir.pte_setPte (pde_of_pte he), Memory.pte_some hd]

private theorem freePages_spec {vs : List Nat} :
    NoRemap (vs.foldlM (fun mem v ↦ mem.freePage pgdir v) mem) fun mem' ↦
      ∀ u, mem'.pte pgdir u = if u ∈ vs then none else mem.pte pgdir u := by
  induction vs generalizing mem with
  | nil => exact fun u ↦ rfl
  | cons v vs ih =>
    rw [List.foldlM_cons]
    refine freePage_spec.bind fun mem' h ↦ ih.imp fun mem'' h' u ↦ ?_
    rw [h', h]
    by_cases hu : u ∈ vs <;> by_cases huv : u = v <;> simp [hu, huv]

private theorem mem_walked {lo hi : Nat} : v ∈ Memory.walked d lo hi ↔
    lo ≤ v ∧ v < hi ∧ (d.pde (v / NPTENTRIES)).isSome = true := by
  unfold Memory.walked
  simp only [List.mem_flatMap, List.mem_range'_1]
  constructor
  · rintro ⟨i, _, hv⟩
    split at hv
    · next hi =>
      simp only [List.mem_filter, List.mem_range'_1, decide_eq_true_eq, Bool.decide_and,
        Bool.and_eq_true] at hv
      have hpage : i * 1024 ≤ v ∧ v < i * 1024 + 1024 := hv.1
      have hdiv : v / 1024 = i := by omega
      exact ⟨hv.2.1, hv.2.2, by rw [show v / NPTENTRIES = i from hdiv]; exact hi⟩
    · cases hv
  · rintro ⟨hlo, hhi, hsome⟩
    have hle : lo / 1024 ≤ v / 1024 ∧ v / 1024 ≤ hi / 1024 := by omega
    have hpage : v / 1024 * 1024 ≤ v ∧ v < v / 1024 * 1024 + 1024 := by omega
    refine ⟨v / NPTENTRIES, by dsimp only [NPTENTRIES]; omega, ?_⟩
    rw [if_pos hsome]
    simp only [List.mem_filter, List.mem_range'_1, decide_eq_true_eq, Bool.decide_and,
      Bool.and_eq_true]
    exact ⟨hpage, hlo, hhi⟩

/-- The pages from `PGROUNDUP(newsz)` up to `PGROUNDUP(oldsz)` are unmapped. -/
theorem deallocuvm_spec : NoRemap (mem.deallocuvm pgdir oldsz newsz) fun r ↦
    r.2 = min newsz oldsz ∧ (newsz < oldsz → (pgdir.bind mem.dir).isSome = true) ∧
      ∀ u, r.1.pte pgdir u =
        if pageUp newsz ≤ u ∧ u < pageUp oldsz then none else mem.pte pgdir u := by
  unfold Memory.deallocuvm
  split
  · next h =>
    have hpages : pageUp oldsz ≤ pageUp newsz := Nat.div_le_div_right (by omega)
    refine ⟨by dsimp only; omega, fun hlt ↦ absurd h (by omega), fun u ↦ ?_⟩
    rw [if_neg (by omega)]
  · next h =>
    refine lookup_spec.bind fun ⟨f, d⟩ hd ↦ freePages_spec.bind fun mem' hmem' ↦ ?_
    obtain ⟨rfl, hd⟩ := hd
    dsimp only at hd hmem'
    refine ⟨by dsimp only; omega, fun _ ↦ by rw [Option.bind_some, hd]; rfl, fun u ↦ ?_⟩
    rw [hmem']
    simp only [mem_walked]
    by_cases hrange : pageUp newsz ≤ u ∧ u < pageUp oldsz
    · rw [if_pos hrange]
      split
      · rfl
      · next hmem =>
        rw [Memory.pte_some hd]
        apply PageDir.pte_of_pde
        have hnone : (d.pde (u / NPTENTRIES)).isSome ≠ true := fun hs ↦ hmem ⟨hrange.1, hrange.2, hs⟩
        simpa using hnone
    · rw [if_neg hrange, if_neg fun hmem ↦ hrange ⟨hmem.1, hmem.2.1⟩]

/-! ### Allocation -/

/-- The loop maps the pages if it succeeds. -/
private theorem allocPages_spec {vs : List Nat} (hvs : vs.Nodup)
    (hnone : ∀ v ∈ vs, mem.pte pgdir v = none) :
    NoRemap (Memory.allocPages pgdir oldsz newsz vs mem) fun r ↦ r.2 ≠ 0 → r.2 = newsz ∧
      (∀ u ∈ vs, ∃ f, r.1.pte pgdir u = some ⟨f, true, true⟩) ∧
        ∀ u, u ∉ vs → r.1.pte pgdir u = mem.pte pgdir u := by
  induction vs generalizing mem with
  | nil => exact fun _ ↦ ⟨rfl, nofun, fun _ _ ↦ rfl⟩
  | cons v vs ih =>
    obtain ⟨hv, hvs⟩ := List.nodup_cons.mp hvs
    unfold Memory.allocPages
    split
    · exact deallocuvm_spec.bind fun _ _ hr ↦ absurd rfl hr
    · next f mem' halloc =>
      have hsame : ∀ u, mem'.pte pgdir u = mem.pte pgdir u :=
        fun u ↦ Memory.pte_congr (kalloc_eq_some halloc).2
      have hfree : mem'.pte pgdir v = none := by
        rw [hsame]
        exact hnone v List.mem_cons_self
      refine (mappages_spec hfree).bind fun ⟨mem'', mapped⟩ hmap ↦ ?_
      dsimp only at hmap ⊢
      split
      · next hm =>
        have hmap := hmap hm
        have hrest : ∀ x ∈ vs, mem''.pte pgdir x = none := by
          intro x hx
          rw [hmap, if_neg (by rintro rfl; exact hv hx), hsame]
          exact hnone x (List.mem_cons_of_mem _ hx)
        refine (ih hvs hrest).imp fun r hr hpos ↦ ?_
        obtain ⟨hsz, hin, hout⟩ := hr hpos
        refine ⟨hsz, fun x hx ↦ ?_, fun x hx ↦ ?_⟩
        · rcases List.mem_cons.mp hx with rfl | hx
          · exact ⟨f, by rw [hout x hv, hmap, if_pos rfl]⟩
          · exact hin x hx
        · rw [List.mem_cons, not_or] at hx
          obtain ⟨hxv, hx⟩ := hx
          rw [hout x hx, hmap, if_neg hxv, hsame]
      · exact deallocuvm_spec.bind fun _ _ ↦ kfree_spec.bind fun _ _ hr ↦ absurd rfl hr

/-- The pages from `PGROUNDUP(oldsz)` up to `PGROUNDUP(newsz)` are mapped, if there is room. -/
theorem allocuvm_spec (hle : oldsz ≤ newsz)
    (hnone : ∀ v, pageUp oldsz ≤ v → v < pageUp newsz → mem.pte pgdir v = none) :
    NoRemap (mem.allocuvm pgdir oldsz newsz) fun r ↦ r.2 ≠ 0 → r.2 = newsz ∧ newsz < KERNBASE ∧
      (∀ u, pageUp oldsz ≤ u → u < pageUp newsz → ∃ f, r.1.pte pgdir u = some ⟨f, true, true⟩) ∧
        ∀ u, ¬(pageUp oldsz ≤ u ∧ u < pageUp newsz) → r.1.pte pgdir u = mem.pte pgdir u := by
  unfold Memory.allocuvm
  split
  · exact fun hr ↦ absurd rfl hr
  · next hbase =>
    rw [if_neg (by omega)]
    have hmem : ∀ u, u ∈ List.range' (pageUp oldsz) (pageUp newsz - pageUp oldsz) ↔
        pageUp oldsz ≤ u ∧ u < pageUp newsz := by
      intro u
      rw [List.mem_range'_1]
      omega
    refine (allocPages_spec List.nodup_range' fun v hv ↦ ?_).imp fun r hr hpos ↦ ?_
    · obtain ⟨hlo, hhi⟩ := (hmem v).mp hv
      exact hnone v hlo hhi
    · obtain ⟨hsz, hin, hout⟩ := hr hpos
      exact ⟨hsz, by omega, fun u hlo hhi ↦ hin u ((hmem u).mpr ⟨hlo, hhi⟩),
        fun u hu ↦ hout u fun h ↦ hu ((hmem u).mp h)⟩

private theorem unmapped_of_allocPages {vs : List Nat} {r : Memory × Nat} (hvs : vs.Nodup)
    (h : Memory.allocPages pgdir oldsz newsz vs mem = .ok r) (hr : r.2 ≠ 0) :
    ∀ v ∈ vs, mem.pte pgdir v = none := by
  induction vs generalizing mem with
  | nil => exact nofun
  | cons v vs ih =>
    obtain ⟨hv, hvs⟩ := List.nodup_cons.mp hvs
    unfold Memory.allocPages at h
    split at h
    · obtain ⟨_, _, h⟩ := bind_eq_ok.mp h
      cases h
      exact absurd rfl hr
    · next f mem' halloc =>
      have hsame : ∀ u, mem'.pte pgdir u = mem.pte pgdir u :=
        fun u ↦ Memory.pte_congr (kalloc_eq_some halloc).2
      obtain ⟨⟨mem'', mapped⟩, hmap, h⟩ := bind_eq_ok.mp h
      have hfree := unmapped_of_mappages hmap
      dsimp only at h
      split at h
      · next hm =>
        have hmapped := (mappages_spec hfree).of_ok hmap hm
        intro u hu
        rcases List.mem_cons.mp hu with rfl | hu
        · rw [← hsame, hfree]
        · have hrest := ih hvs h u hu
          have hne : u ≠ v := fun he ↦ hv (he ▸ hu)
          rwa [hmapped, if_neg hne, hsame] at hrest
      · obtain ⟨_, _, h⟩ := bind_eq_ok.mp h
        obtain ⟨_, _, h⟩ := bind_eq_ok.mp h
        cases h
        exact absurd rfl hr

/-- The pages that `allocuvm` has mapped were not mapped before. -/
theorem unmapped_of_allocuvm {r : Memory × Nat} (hle : oldsz ≤ newsz)
    (h : mem.allocuvm pgdir oldsz newsz = .ok r) (hr : r.2 ≠ 0) (hlo : pageUp oldsz ≤ v)
    (hhi : v < pageUp newsz) : mem.pte pgdir v = none := by
  unfold Memory.allocuvm at h
  split at h
  · cases h
    exact absurd rfl hr
  · rw [if_neg (by omega)] at h
    apply unmapped_of_allocPages List.nodup_range' h hr v
    rw [List.mem_range'_1]
    omega

/-- Only the entry of the page is changed, and it stays present. -/
theorem clearpteu_spec {uva : Nat} : NoRemap (mem.clearpteu pgdir uva) fun mem' ↦
    ∀ u, mem'.pte pgdir u = if u = uva / PGSIZE then
      (mem.pte pgdir u).map fun e ↦ { e with user := false } else mem.pte pgdir u := by
  unfold Memory.clearpteu
  refine lookup_spec.bind fun ⟨f, d⟩ h ↦ ?_
  obtain ⟨rfl, hd⟩ := h
  dsimp only at hd ⊢
  split
  · exact nofun
  · next tbl htbl =>
    intro u
    rw [Memory.pte_write, PageDir.pte_setPte (by rw [htbl]; rfl), Memory.pte_some hd]
    split
    · next h => rw [h]
    · rfl

end

end Xv6.Vm
