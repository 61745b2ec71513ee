import Mathlib

/-!
# Hierarchies

A hierarchy on a type of nodes is a partial map that gives each directory its parent and the
multiset of its children. Every directory is reached from the root, is a child of its parent
only and once, and names its parent. Nodes that are not directories may be children as often
as one likes. The rules say how adding and removing a child changes the names of all nodes.
-/

namespace Xv6.Lib

open Function Relation

variable {α : Type*}

/-- A directory's parent and its children. -/
abbrev Shape (α : Type*) := α → Option (α × Multiset α)

/-- The children of a directory; others have none. -/
def children (S : Shape α) (d : α) : Multiset α :=
  match S d with
  | some (_, es) => es
  | none => 0

/-- The nodes that a directory names: its parent and its children. -/
def names (S : Shape α) (d : α) : Multiset α :=
  match S d with
  | some (p, es) => p ::ₘ es
  | none => 0

/-- All names that nodes have, in the directories of a finite set. -/
def allNames (N : Finset α) (S : Shape α) : Multiset α := ∑ d ∈ N, names S d

/-- One node is a child of the other. -/
def ChildOf (S : Shape α) (d c : α) : Prop := c ∈ children S d

variable {N : Finset α} {root c d i p : α} {es : Multiset α} {S : Shape α}

theorem children_of (h : S d = some (p, es)) : children S d = es := by
  rw [children, h]

theorem names_of (h : S d = some (p, es)) : names S d = p ::ₘ es := by
  rw [names, h]

theorem children_of_none (h : S d = none) : children S d = 0 := by
  rw [children, h]

/-- A directory has children only if it is one. -/
theorem ne_none_of_child (h : c ∈ children S d) : S d ≠ none := by
  intro hn
  rw [children_of_none hn] at h
  exact Multiset.notMem_zero c h

theorem mem_allNames : i ∈ allNames N S ↔ ∃ d ∈ N, i ∈ names S d :=
  Multiset.mem_sum

variable [DecidableEq α]

/-- The directories form a tree below the root. -/
structure Hierarchy (N : Finset α) (root : α) (S : Shape α) : Prop where
  mem : ∀ d, S d ≠ none → d ∈ N
  root_dir : ∃ es, S root = some (root, es)
  parent : ∀ c p es, S c = some (p, es) → c ≠ root → c ∈ children S p
  child : ∀ d c, c ∈ children S d → ∀ p es, S c = some (p, es) →
    p = d ∧ (children S d).count c = 1 ∧ c ≠ root
  reach : ∀ d, S d ≠ none → ReflTransGen (ChildOf S) root d

/-! ### Names after an update -/

theorem children_update (x : α) (v : Option (α × Multiset α)) :
    children (update S d v) x = if x = d then children (fun _ ↦ v) d else children S x := by
  unfold children
  by_cases h : x = d
  · rw [if_pos h, h, update_self]
  · rw [if_neg h, update_of_ne h]

/-- Changing what one node names exchanges its names among all. -/
theorem allNames_update (hd : d ∈ N) (v : Option (α × Multiset α)) :
    allNames N (update S d v) + names S d = allNames N S + names (fun _ ↦ v) d := by
  have hne : ∀ x ∈ N \ {d}, names (update S d v) x = names S x := by
    intro x hx
    have hxd : x ≠ d := by simpa using (Finset.mem_sdiff.mp hx).2
    rw [names, names, update_of_ne hxd]
  have hself : names (update S d v) d = names (fun _ ↦ v) d := by
    rw [names, names, update_self]
  rw [allNames, allNames, Finset.sum_eq_add_sum_sdiff_singleton_of_mem hd,
    Finset.sum_eq_add_sum_sdiff_singleton_of_mem hd, Finset.sum_congr rfl hne, hself]
  abel

/-- One directory gets a child more. -/
theorem allNames_add (hd : d ∈ N) (h : S d = some (p, es)) :
    allNames N (update S d (some (p, i ::ₘ es))) = i ::ₘ allNames N S := by
  have hsum := allNames_update hd (S := S) (some (p, i ::ₘ es))
  have hnew : names (fun _ ↦ some (p, i ::ₘ es)) d = i ::ₘ p ::ₘ es := Multiset.cons_swap p i es
  rw [names_of h, hnew, Multiset.add_cons i, ← Multiset.cons_add i] at hsum
  exact add_right_cancel hsum

/-- A node becomes a directory without children. -/
theorem allNames_promote (hc : c ∈ N) (h : S c = none) :
    allNames N (update S c (some (d, 0))) = d ::ₘ allNames N S := by
  have hsum := allNames_update hc (S := S) (some (d, 0))
  have hnew : names (fun _ ↦ some (d, 0)) c = d ::ₘ 0 := rfl
  have hold : names S c = 0 := by rw [names, h]
  rwa [hold, hnew, add_zero, Multiset.add_cons, add_zero] at hsum

/-- One directory loses a child. -/
theorem allNames_remove (hd : d ∈ N) (h : S d = some (p, i ::ₘ es)) :
    allNames N S = i ::ₘ allNames N (update S d (some (p, es))) := by
  rw [← allNames_add hd (update_self d (some (p, es)) S), update_idem, ← h, update_eq_self]

/-- A directory without children stops being one. -/
theorem allNames_demote (hc : c ∈ N) (h : S c = some (d, 0)) :
    allNames N S = d ::ₘ allNames N (update S c none) := by
  rw [← allNames_promote hc (update_self c none S), update_idem, ← h, update_eq_self]

/-! ### The rules -/

namespace Hierarchy

/-- A directory is a node that has children and a parent. -/
theorem mem_of (h : Hierarchy N root S) (hes : S d = some (p, es)) : d ∈ N :=
  h.mem d (by rw [hes]; exact Option.some_ne_none _)

theorem ne_root_of_none (h : Hierarchy N root S) (hc : S c = none) : root ≠ c := by
  rintro rfl
  obtain ⟨es, hroot⟩ := h.root_dir
  rw [hroot] at hc
  cases hc

/-- The parent of a directory is one. -/
theorem parent_dir (h : Hierarchy N root S) (hes : S d = some (p, es)) : S p ≠ none := by
  by_cases hr : d = root
  · obtain ⟨es', hroot⟩ := h.root_dir
    rw [hr, hroot] at hes
    cases hes
    rw [hroot]
    exact Option.some_ne_none _
  · exact ne_none_of_child (h.parent d p es hes hr)

/-- Every directory has a name. -/
theorem dir_named (h : Hierarchy N root S) (hd : S d ≠ none) : d ∈ allNames N S := by
  obtain ⟨⟨p, es⟩, hes⟩ := Option.ne_none_iff_exists'.mp hd
  rw [mem_allNames]
  by_cases hr : d = root
  · obtain ⟨es', hroot⟩ := h.root_dir
    refine ⟨root, h.mem_of hroot, ?_⟩
    rw [names_of hroot, hr]
    exact Multiset.mem_cons_self root es'
  · have hc := h.parent d p es hes hr
    have hp := ne_none_of_child hc
    obtain ⟨⟨q, es'⟩, hes'⟩ := Option.ne_none_iff_exists'.mp hp
    refine ⟨p, h.mem p hp, ?_⟩
    rw [children_of hes'] at hc
    rw [names_of hes']
    exact Multiset.mem_cons_of_mem hc

/-- What is named can be reached. -/
theorem reach_of_named (h : Hierarchy N root S) (hi : i ∈ allNames N S) :
    ReflTransGen (ChildOf S) root i := by
  obtain ⟨d, -, hi⟩ := mem_allNames.mp hi
  have hd : S d ≠ none := by
    intro hn
    rw [names, hn] at hi
    exact Multiset.notMem_zero i hi
  obtain ⟨⟨p, es⟩, hes⟩ := Option.ne_none_iff_exists'.mp hd
  rw [names_of hes, Multiset.mem_cons] at hi
  cases hi with
  | inl he =>
    rw [he]
    exact h.reach p (h.parent_dir hes)
  | inr hc =>
    apply (h.reach d hd).tail
    show i ∈ children S d
    rwa [children_of hes]

/-- No directory is a child of itself: from the root there is no way into it. -/
theorem not_child_self (h : Hierarchy N root S) (hes : S d = some (p, es)) :
    d ∉ children S d := by
  intro hc
  obtain ⟨rfl, -, hroot⟩ := h.child d d hc p es hes
  have hne : ∀ x, ReflTransGen (ChildOf S) root x → x ≠ p := by
    intro x hx
    induction hx with
    | refl => exact hroot.symm
    | tail _ hab ih =>
      rintro rfl
      exact ih (h.child _ _ hab _ es hes).1.symm
  exact hne p (h.reach p (ne_none_of_child hc)) rfl

/-- The children of a directory may change as long as it has the same directories among
them. -/
theorem rechild (h : Hierarchy N root S) (hes : S d = some (p, es)) {es' : Multiset α}
    (hcount : ∀ y, S y ≠ none → es'.count y = es.count y) :
    Hierarchy N root (update S d (some (p, es'))) := by
  have hkids : ∀ x y, S y ≠ none →
      (children (update S d (some (p, es'))) x).count y = (children S x).count y := by
    intro x y hy
    rw [children_update]
    split
    · next he =>
      rw [he, children_of hes]
      exact hcount y hy
    · rfl
  have hmem : ∀ x y, S y ≠ none →
      (y ∈ children (update S d (some (p, es'))) x ↔ y ∈ children S x) := by
    intro x y hy
    rw [← Multiset.count_pos, hkids x y hy, Multiset.count_pos]
  have hdir : ∀ x q es₁, update S d (some (p, es')) x = some (q, es₁) →
      ∃ es₂, S x = some (q, es₂) := by
    intro x q es₁ hx
    by_cases he : x = d
    · rw [he, update_self] at hx
      cases hx
      exact ⟨es, he ▸ hes⟩
    · rw [update_of_ne he] at hx
      exact ⟨es₁, hx⟩
  have hsome : ∀ x, update S d (some (p, es')) x ≠ none → S x ≠ none := by
    intro x hx
    obtain ⟨⟨q, es₁⟩, hx⟩ := Option.ne_none_iff_exists'.mp hx
    obtain ⟨es₂, hx⟩ := hdir x q es₁ hx
    rw [hx]
    exact Option.some_ne_none _
  constructor
  · exact fun x hx ↦ h.mem x (hsome x hx)
  · obtain ⟨es₁, hroot⟩ := h.root_dir
    by_cases he : root = d
    · subst he
      rw [hroot] at hes
      cases hes
      exact ⟨es', update_self _ _ _⟩
    · exact ⟨es₁, by rw [update_of_ne he, hroot]⟩
  · intro x q es₁ hx hne
    obtain ⟨es₂, hx⟩ := hdir x q es₁ hx
    exact (hmem q x (by rw [hx]; exact Option.some_ne_none _)).mpr (h.parent x q es₂ hx hne)
  · intro x y hy q es₁ hq
    obtain ⟨es₂, hq⟩ := hdir y q es₁ hq
    have hy' : S y ≠ none := by
      rw [hq]
      exact Option.some_ne_none _
    rw [hkids x y hy']
    exact h.child x y ((hmem x y hy').mp hy) q es₂ hq
  · intro x hx
    have hreach := h.reach x (hsome x hx)
    have hx := hsome x hx
    clear * - hreach hx hmem
    induction hreach with
    | refl => exact ReflTransGen.refl
    | tail _ hab ih => exact (ih (ne_none_of_child hab)).tail ((hmem _ _ hx).mpr hab)

/-- A node that is not a directory becomes a child. -/
theorem add (h : Hierarchy N root S) (hes : S d = some (p, es)) (hi : S i = none) :
    Hierarchy N root (update S d (some (p, i ::ₘ es))) := by
  apply h.rechild hes
  intro y hy
  apply Multiset.count_cons_of_ne
  rintro rfl
  exact hy hi

/-- A child that is not a directory goes. -/
theorem remove (h : Hierarchy N root S) (hes : S d = some (p, i ::ₘ es)) (hi : S i = none) :
    Hierarchy N root (update S d (some (p, es))) := by
  apply h.rechild hes
  intro y hy
  symm
  apply Multiset.count_cons_of_ne
  rintro rfl
  exact hy hi

private theorem children_promote (hc : S c = none) :
    children (update S c (some (d, 0))) = children S := by
  funext x
  rw [children_update]
  split
  · next he =>
    rw [he, children_of_none hc]
    rfl
  · rfl

/-- A node that is a child once becomes a directory without children. -/
theorem promote (h : Hierarchy N root S) (hN : c ∈ N) (hc : S c = none)
    (hchild : (children S d).count c = 1) (honly : ∀ x, c ∈ children S x → x = d) :
    Hierarchy N root (update S c (some (d, 0))) := by
  have hkids := children_promote (d := d) hc
  have hrel : ChildOf (update S c (some (d, 0))) = ChildOf S := by
    unfold ChildOf
    rw [hkids]
  have hroot := h.ne_root_of_none hc
  have hmem : c ∈ children S d := Multiset.count_pos.mp (by omega)
  constructor
  · intro x hx
    by_cases he : x = c
    · rwa [he]
    · exact h.mem x (by rwa [update_of_ne he] at hx)
  · obtain ⟨es, hes⟩ := h.root_dir
    exact ⟨es, by rw [update_of_ne hroot, hes]⟩
  · intro x q es hx hne
    rw [hkids]
    by_cases he : x = c
    · rw [he, update_self] at hx
      cases hx
      rwa [he]
    · rw [update_of_ne he] at hx
      exact h.parent x q es hx hne
  · intro x y hy q es hq
    rw [hkids] at hy ⊢
    by_cases he : y = c
    · rw [he] at hy hq ⊢
      rw [update_self] at hq
      cases hq
      have hx := honly x hy
      exact ⟨hx.symm, hx ▸ hchild, hroot.symm⟩
    · rw [update_of_ne he] at hq
      exact h.child x y hy q es hq
  · intro x hx
    rw [hrel]
    by_cases he : x = c
    · rw [he]
      exact (h.reach d (ne_none_of_child hmem)).tail hmem
    · exact h.reach x (by rwa [update_of_ne he] at hx)

/-- A directory without children stops being one. -/
theorem demote (h : Hierarchy N root S) (hes : S c = some (d, 0)) (hroot : c ≠ root) :
    Hierarchy N root (update S c none) := by
  have hkids : children (update S c none) = children S := by
    funext x
    rw [children_update]
    split
    · next he =>
      rw [he, children_of hes]
      rfl
    · rfl
  have hrel : ChildOf (update S c none) = ChildOf S := by
    unfold ChildOf
    rw [hkids]
  have hold : ∀ x q, update S c none x = some q → S x = some q := by
    intro x q hx
    have hne : x ≠ c := by
      rintro rfl
      rw [update_self] at hx
      cases hx
    rwa [update_of_ne hne] at hx
  constructor
  · intro x hx
    obtain ⟨q, hx⟩ := Option.ne_none_iff_exists'.mp hx
    exact h.mem x (by rw [hold x q hx]; exact Option.some_ne_none _)
  · obtain ⟨es, hroot'⟩ := h.root_dir
    exact ⟨es, by rw [update_of_ne hroot.symm, hroot']⟩
  · intro x q es hx hne
    rw [hkids]
    exact h.parent x q es (hold x _ hx) hne
  · intro x y hy q es hq
    rw [hkids] at hy ⊢
    exact h.child x y hy q es (hold y _ hq)
  · intro x hx
    obtain ⟨q, hx⟩ := Option.ne_none_iff_exists'.mp hx
    rw [hrel]
    exact h.reach x (by rw [hold x q hx]; exact Option.some_ne_none _)

/-- A directory without children other than the root has one name: in its parent. -/
theorem count_childless (h : Hierarchy N root S) (hes : S c = some (d, 0)) (hroot : c ≠ root) :
    (allNames N S).count c = 1 := by
  have hchild := h.parent c d 0 hes hroot
  have hdir := ne_none_of_child hchild
  obtain ⟨⟨p, es⟩, hd⟩ := Option.ne_none_iff_exists'.mp hdir
  have hone := (h.child d c hchild d 0 hes).2.1
  have hparents : ∀ x q es', S x = some (q, es') → q ≠ c := by
    rintro x q es' hx rfl
    by_cases he : x = root
    · obtain ⟨es'', hr⟩ := h.root_dir
      rw [he, hr] at hx
      cases hx
      exact hroot rfl
    · have hmem := h.parent x q es' hx he
      rw [children_of hes] at hmem
      exact Multiset.notMem_zero x hmem
  have hnames : ∀ x, (names S x).count c = if x = d then 1 else 0 := by
    intro x
    cases hx : S x with
    | none =>
      have hne : x ≠ d := by
        rintro rfl
        exact hdir hx
      rw [if_neg hne, names, hx, Multiset.count_zero]
    | some r =>
      obtain ⟨q, es'⟩ := r
      rw [names_of hx, Multiset.count_cons_of_ne (hparents x q es' hx).symm, ← children_of hx]
      split
      · next he => rw [he, hone]
      · next he =>
        rw [Multiset.count_eq_zero]
        exact fun hmem ↦ he (h.child x c hmem d 0 hes).1.symm
  rw [allNames, Multiset.count_sum']
  simp only [hnames]
  rw [Finset.sum_ite_eq', if_pos (h.mem_of hd)]

end Hierarchy

end Xv6.Lib
