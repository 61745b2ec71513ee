import Xv6.Fs.Path
import Xv6.Lib.Hierarchy

/-!
# The tree of directories

What holds of the inodes in use between two system calls: the directories with links form a
tree, each begins with its two dots, and the link count of an inode is the number of entries
that name it, other than its own dot.
-/

namespace Xv6.Fs

open Function

open Mkfs (DIRSIZ T_DIR T_FILE ROOTINO)

/-- `"."`. -/
def dot : CString := [period]

/-- `".."`. -/
def dotdot : CString := [period, period]

/-- The parent of a directory with links, which its second entry names, and what its other
entries name. -/
def shapeOf (o : Option Node) : Option (Nat × Multiset Nat) :=
  match o with
  | some nd =>
    if nd.type = T_DIR ∧ nd.nlink ≠ 0 then
      some (((entries nd.data).getD 1 ⟨0, []⟩).inum, named ((entries nd.data).drop 2))
    else none
  | none => none

/-- The shape of the tree. -/
def shape (v : Nat → Option Node) : Lib.Shape Nat := fun i ↦ shapeOf (v i)

/-- The inodes that entries of directories with links name, as often as they do. -/
def linksIn (n : Nat) (v : Nat → Option Node) : Multiset Nat :=
  Lib.allNames (Finset.range n) (shape v)

/-- The contents of directory `d`: entries for itself, its parent and names of their own. -/
structure DirOk (d : Nat) (data : List UInt8) : Prop where
  aligned : 16 ∣ data.length
  dots : ∃ p rest, entries data = ⟨d, dot⟩ :: ⟨p, dotdot⟩ :: rest
  unique : Unique (entries data)

/-- The invariant of the inodes in use, with numbers below `n`. -/
structure Tree (n : Nat) (v : Nat → Option Node) : Prop where
  bound : ∀ i nd, v i = some nd → 0 < i ∧ i < n
  dirOk : ∀ d nd, v d = some nd → nd.type = T_DIR → nd.nlink ≠ 0 → DirOk d nd.data
  inUse : ∀ i ∈ linksIn n v, v i ≠ none
  links : ∀ i nd, v i = some nd → nd.nlink.toInt = (linksIn n v).count i
  hierarchy : Lib.Hierarchy (Finset.range n) ROOTINO (shape v)

section

variable {n d i : Nat} {v : Nat → Option Node} {nd : Node} {es rest : List Entry} {e : Entry}
  {nm : CString}

/-! ### Link counts -/

theorem toInt_succ {a : Int16} (h : a.toInt < 32767) : (a + 1).toInt = a.toInt + 1 := by
  have hle := a.le_toInt
  rw [Int16.toInt_add, show (1 : Int16).toInt = 1 from rfl]
  apply Int.bmod_eq_of_le
  · omega
  · omega

theorem toInt_pred {a : Int16} (h : 0 < a.toInt) : (a - 1).toInt = a.toInt - 1 := by
  have hlt := a.toInt_lt
  rw [Int16.toInt_sub, show (1 : Int16).toInt = 1 from rfl]
  apply Int.bmod_eq_of_le
  · omega
  · omega

theorem toInt_eq_zero {a : Int16} : a.toInt = 0 ↔ a = 0 := by
  rw [← show (0 : Int16).toInt = 0 from rfl]
  exact Int16.toInt_inj

/-! ### Shapes -/

theorem shape_update (v : Nat → Option Node) (i : Nat) (o : Option Node) :
    shape (update v i o) = update (shape v) i (shapeOf o) := by
  funext j
  unfold shape
  by_cases h : j = i
  · rw [h, update_self, update_self]
  · rw [update_of_ne h, update_of_ne h]

theorem shapeOf_none_of (h : nd.type ≠ T_DIR ∨ nd.nlink = 0) : shapeOf (some nd) = none := by
  unfold shapeOf
  dsimp only
  rw [if_neg]
  rintro ⟨ht, hl⟩
  cases h with
  | inl h => exact h ht
  | inr h => exact hl h

theorem shapeOf_dir (ht : nd.type = T_DIR) (hl : nd.nlink ≠ 0) {e₀ : Entry} {p : Nat}
    (he : entries nd.data = e₀ :: ⟨p, nm⟩ :: rest) :
    shapeOf (some nd) = some (p, named rest) := by
  unfold shapeOf
  dsimp only
  rw [if_pos ⟨ht, hl⟩, he]
  rfl

/-- A directory in the shape is a directory with links. -/
theorem of_shapeOf {o : Option Node} (h : shapeOf o ≠ none) :
    ∃ nd, o = some nd ∧ nd.type = T_DIR ∧ nd.nlink ≠ 0 := by
  cases o with
  | none => exact absurd rfl h
  | some nd =>
    by_cases hc : nd.type = T_DIR ∧ nd.nlink ≠ 0
    · exact ⟨nd, rfl, hc⟩
    · refine absurd (shapeOf_none_of ?_) h
      exact (not_and_or.mp hc).imp id not_not.mp

/-! ### Entries after the dots -/

private theorem put_tail (e₀ e₁ : Entry) (rest : List Entry) (k : Nat) (e : Entry) :
    put (e₀ :: e₁ :: rest) (k + 2) e = e₀ :: e₁ :: put rest k e := by
  simp [put]

private theorem vacancy_tail {e₀ e₁ : Entry} (h₀ : e₀.inum ≠ 0) (h₁ : e₁.inum ≠ 0)
    (rest : List Entry) : vacancy (e₀ :: e₁ :: rest) = vacancy rest + 2 := by
  rw [vacancy, List.findIdx_cons, List.findIdx_cons]
  simp [h₀, h₁, vacancy]

private theorem search_tail {e₀ e₁ : Entry} (h₀ : e₀.name ≠ nm) (h₁ : e₁.name ≠ nm)
    (rest : List Entry) : search (e₀ :: e₁ :: rest) nm = (search rest nm).map (· + 2) := by
  have hn₀ : ¬e₀.Names nm := fun h ↦ h₀ h.2
  have hn₁ : ¬e₁.Names nm := fun h ↦ h₁ h.2
  rw [search, List.findIdx?_cons, List.findIdx?_cons]
  simp [hn₀, hn₁, search, Option.map_map, Function.comp_def]

/-! ### What the invariant says -/

namespace Tree

theorem root_pos (h : Tree n v) : ∃ nd, v ROOTINO = some nd ∧ nd.type = T_DIR ∧ nd.nlink ≠ 0 := by
  obtain ⟨es, hes⟩ := h.hierarchy.root_dir
  have hne : shape v ROOTINO ≠ none := by
    rw [hes]
    exact Option.some_ne_none _
  exact of_shapeOf hne

/-- What an entry names has links. -/
theorem hasLinks (h : Tree n v) (hi : i ∈ linksIn n v) : HasLinks v i := by
  obtain ⟨nd, hnd⟩ := Option.ne_none_iff_exists'.mp (h.inUse i hi)
  refine ⟨nd, hnd, fun hz ↦ ?_⟩
  have hlinks := h.links i nd hnd
  have hpos := Multiset.count_pos.mpr hi
  rw [toInt_eq_zero.mpr hz] at hlinks
  omega

/-- An inode with links is named by an entry. -/
theorem mem_linksIn (h : Tree n v) (hi : HasLinks v i) : i ∈ linksIn n v := by
  obtain ⟨nd, hnd, hl⟩ := hi
  have hlinks := h.links i nd hnd
  have hne := mt toInt_eq_zero.mp hl
  rw [← Multiset.count_pos]
  omega

/-- The shape of a directory with links, and its entries. -/
theorem shape_eq (h : Tree n v) (hd : v d = some nd) (ht : nd.type = T_DIR) (hl : nd.nlink ≠ 0) :
    ∃ p rest, entries nd.data = ⟨d, dot⟩ :: ⟨p, dotdot⟩ :: rest ∧
      shape v d = some (p, named rest) ∧ p ≠ 0 ∧ d ≠ 0 := by
  obtain ⟨p, rest, hes⟩ := (h.dirOk d nd hd ht hl).dots
  have hshape : shape v d = some (p, named rest) := by
    rw [shape, hd, shapeOf_dir ht hl hes]
  have hp := h.hierarchy.parent_dir hshape
  obtain ⟨nd', hnd', -⟩ := of_shapeOf hp
  have hp0 := (h.bound p nd' hnd').1
  have hd0 := (h.bound d nd hd).1
  exact ⟨p, rest, hes, hshape, by omega, by omega⟩

/-- The inodes that a directory names, but for itself. -/
theorem mem_of_entry (h : Tree n v) {p : Nat} (hd : shape v d = some (p, named rest))
    (he : i ∈ p ::ₘ named rest) : i ∈ linksIn n v := by
  apply Lib.mem_allNames.mpr
  refine ⟨d, h.hierarchy.mem_of hd, ?_⟩
  rwa [Lib.names_of hd]

/-- A directory with links has no names for itself but its dots, of which the second is for itself
in the root only. -/
theorem self_name (h : Tree n v) (hd : v d = some nd) (ht : nd.type = T_DIR)
    (hl : nd.nlink ≠ 0) :
    lookup (entries nd.data) nm = some d ↔ nm = dot ∨ nm = dotdot ∧ d = ROOTINO := by
  obtain ⟨p, rest, hes, hshape, hp, hd0⟩ := h.shape_eq hd ht hl
  have hself := h.hierarchy.not_child_self hshape
  rw [lookup_eq_some (h.dirOk d nd hd ht hl).unique, hes]
  constructor
  · rintro ⟨e, he, ⟨hinum, rfl⟩, hed⟩
    rw [List.mem_cons, List.mem_cons] at he
    rcases he with rfl | rfl | he
    · exact Or.inl rfl
    · refine Or.inr ⟨rfl, ?_⟩
      by_contra hroot
      have hpd : p = d := hed
      have hchild := h.hierarchy.parent d p _ hshape hroot
      rw [hpd] at hchild
      exact hself hchild
    · rw [Lib.children_of hshape] at hself
      exact absurd (mem_named.mpr ⟨hed ▸ hinum, e, he, hed⟩) hself
  · rintro (rfl | ⟨rfl, hroot⟩)
    · exact ⟨⟨d, dot⟩, List.mem_cons_self, ⟨hd0, rfl⟩, rfl⟩
    · obtain ⟨es, hes'⟩ := h.hierarchy.root_dir
      rw [← hroot, hshape] at hes'
      cases hes'
      exact ⟨⟨d, dotdot⟩, List.mem_cons_of_mem _ List.mem_cons_self, ⟨hd0, rfl⟩, rfl⟩

/-- Paths can be followed. -/
theorem sane (h : Tree n v) : Sane v where
  root := by
    obtain ⟨nd, hnd, -, hl⟩ := h.root_pos
    exact ⟨nd, hnd, hl⟩
  aligned d nd hd hl ht := (h.dirOk d nd hd ht hl).aligned
  linked := by
    intro d es hlinks hes nm j hj
    obtain ⟨nd, hnd, ht, rfl⟩ := dirAt_eq_some.mp hes
    obtain ⟨nd', hnd', hl⟩ := hlinks
    rw [hnd] at hnd'
    cases hnd'
    obtain ⟨p, rest, hes', hshape, -⟩ := h.shape_eq hnd ht hl
    obtain ⟨e, he, hn, rfl⟩ := (lookup_eq_some (h.dirOk d nd hnd ht hl).unique).mp hj
    rw [hes', List.mem_cons, List.mem_cons] at he
    rcases he with rfl | rfl | he
    · exact ⟨nd, hnd, hl⟩
    · exact h.hasLinks (h.mem_of_entry hshape (Multiset.mem_cons_self _ _))
    · apply h.hasLinks (h.mem_of_entry hshape (Multiset.mem_cons_of_mem _))
      exact mem_named.mpr ⟨hn.1, e, he, rfl⟩

end Tree

/-! ### One entry more or less -/

/-- A new entry goes behind the dots. -/
private theorem link_entries {p : Nat} (hes : es = ⟨d, dot⟩ :: ⟨p, dotdot⟩ :: rest) (hd : d ≠ 0)
    (hp : p ≠ 0) (he : e.inum ≠ 0) : ∃ rest',
    put es (vacancy es) e = ⟨d, dot⟩ :: ⟨p, dotdot⟩ :: rest' ∧
      named rest' = e.inum ::ₘ named rest := by
  subst hes
  refine ⟨put rest (vacancy rest) e, ?_, named_put_new (vacancy_le rest) ?_ he⟩
  · rw [vacancy_tail hd hp, put_tail]
  · exact fun e' he' ↦ inum_vacancy he'

/-- The entry of a name other than the dots is behind them. -/
private theorem unlink_entries {p k : Nat} (hes : es = ⟨d, dot⟩ :: ⟨p, dotdot⟩ :: rest)
    (hdot : nm ≠ dot) (hdotdot : nm ≠ dotdot) (hs : search es nm = some k) : ∃ i rest',
    lookup es nm = some i ∧ put es k ⟨0, []⟩ = ⟨d, dot⟩ :: ⟨p, dotdot⟩ :: rest' ∧
      named rest = i ::ₘ named rest' := by
  subst hes
  obtain ⟨e, he, hn, hlook⟩ := search_eq_some hs
  rw [search_tail hdot.symm hdotdot.symm, Option.map_eq_some_iff] at hs
  obtain ⟨k, -, rfl⟩ := hs
  exact ⟨e.inum, put rest k ⟨0, []⟩, hlook, put_tail _ _ _ _ _, named_put_zero he hn.1⟩

/-- The two dots are apart. -/
theorem unique_dots (c d : Nat) : Unique [⟨c, dot⟩, ⟨d, dotdot⟩] := by
  have hne : dot ≠ dotdot := by decide
  intro j k e e' hj hk _ _ hname
  rcases j with _ | _ | j
  · rcases k with _ | _ | k
    · rfl
    · cases hj
      cases hk
      exact absurd hname hne
    · cases hk
  · rcases k with _ | _ | k
    · cases hj
      cases hk
      exact absurd hname.symm hne
    · rfl
    · cases hk
  · cases hj

namespace Tree

/-! ### Steps -/

variable {i c : Nat} {x y : Node}

/-- What is to be shown when two nodes change. -/
private theorem updates (h : Tree n v) {a b : Nat} (ha : 0 < a ∧ a < n) (hb : 0 < b ∧ b < n)
    (hab : a ≠ b) (hdx : x.type = T_DIR → x.nlink ≠ 0 → DirOk a x.data)
    (hdy : y.type = T_DIR → y.nlink ≠ 0 → DirOk b y.data)
    (hier : Lib.Hierarchy (Finset.range n) ROOTINO
      (shape (update (update v a (some x)) b (some y))))
    (hcount : ∀ j, j ≠ a → j ≠ b →
      (linksIn n (update (update v a (some x)) b (some y))).count j = (linksIn n v).count j)
    (hx : x.nlink.toInt = (linksIn n (update (update v a (some x)) b (some y))).count a)
    (hy : y.nlink.toInt = (linksIn n (update (update v a (some x)) b (some y))).count b) :
    Tree n (update (update v a (some x)) b (some y)) := by
  have hcases : ∀ j nd, update (update v a (some x)) b (some y) j = some nd →
      (j = a ∧ nd = x) ∨ (j = b ∧ nd = y) ∨ (j ≠ a ∧ j ≠ b ∧ v j = some nd) := by
    intro j nd hj
    by_cases hjb : j = b
    · rw [hjb, update_self] at hj
      exact Or.inr (Or.inl ⟨hjb, (Option.some.inj hj).symm⟩)
    · rw [update_of_ne hjb] at hj
      by_cases hja : j = a
      · rw [hja, update_self] at hj
        exact Or.inl ⟨hja, (Option.some.inj hj).symm⟩
      · rw [update_of_ne hja] at hj
        exact Or.inr (Or.inr ⟨hja, hjb, hj⟩)
  constructor
  · intro j nd hj
    rcases hcases j nd hj with ⟨rfl, -⟩ | ⟨rfl, -⟩ | ⟨-, -, hj⟩
    · exact ha
    · exact hb
    · exact h.bound j nd hj
  · intro j nd hj ht hl
    rcases hcases j nd hj with ⟨rfl, rfl⟩ | ⟨rfl, rfl⟩ | ⟨-, -, hj⟩
    · exact hdx ht hl
    · exact hdy ht hl
    · exact h.dirOk j nd hj ht hl
  · intro j hj
    by_cases hjb : j = b
    · rw [hjb, update_self]
      exact Option.some_ne_none _
    · rw [update_of_ne hjb]
      by_cases hja : j = a
      · rw [hja, update_self]
        exact Option.some_ne_none _
      · rw [update_of_ne hja]
        apply h.inUse
        rwa [← Multiset.count_pos, ← hcount j hja hjb, Multiset.count_pos]
  · intro j nd hj
    rcases hcases j nd hj with ⟨rfl, rfl⟩ | ⟨rfl, rfl⟩ | ⟨hja, hjb, hj⟩
    · exact hx
    · exact hy
    · rw [hcount j hja hjb]
      exact h.links j nd hj
  · exact hier

/-- An inode that is not a directory gets a name in a directory. -/
theorem add_name (h : Tree n v) (hd : v d = some nd) (ht : nd.type = T_DIR) (hl : nd.nlink ≠ 0)
    (hi : 0 < i ∧ i < n) (hid : i ≠ d) (hshape : shape v i = none) (hx : x.type ≠ T_DIR)
    (hxl : x.nlink.toInt = (linksIn n v).count i + 1) (hs : search (entries nd.data) nm = none)
    (hyt : y.type = T_DIR) (hyl : y.nlink = nd.nlink) (hdvd : 16 ∣ y.data.length)
    (hes : entries y.data = put (entries nd.data) (vacancy (entries nd.data)) ⟨i, nm⟩) :
    Tree n (update (update v i (some x)) d (some y)) := by
  obtain ⟨p, rest, hold, hsh, hp, hd0⟩ := h.shape_eq hd ht hl
  obtain ⟨rest', hput, hnamed⟩ := link_entries hold hd0 hp (show (⟨i, nm⟩ : Entry).inum ≠ 0 by
    show i ≠ 0
    omega)
  rw [← hes] at hput
  have hyl' : y.nlink ≠ 0 := by rwa [hyl]
  have hshape' : shape (update (update v i (some x)) d (some y)) =
      update (shape v) d (some (p, i ::ₘ named rest)) := by
    rw [shape_update, shape_update, shapeOf_none_of (Or.inl hx), ← hshape, update_eq_self,
      shapeOf_dir hyt hyl' hput, hnamed]
  have hlinks : linksIn n (update (update v i (some x)) d (some y)) = i ::ₘ linksIn n v := by
    rw [linksIn, hshape', Lib.allNames_add (h.hierarchy.mem_of hsh) hsh]
    rfl
  apply h.updates hi (h.bound d nd hd) hid
  · exact fun hc ↦ absurd hc hx
  · intro _ _
    refine ⟨hdvd, ⟨p, rest', hput⟩, ?_⟩
    rw [hes]
    exact (h.dirOk d nd hd ht hl).unique.put_new (vacancy_le _) hs
  · rw [hshape']
    exact h.hierarchy.add hsh hshape
  · intro j hji _
    rw [hlinks, Multiset.count_cons_of_ne hji]
  · rw [hlinks, Multiset.count_cons_self, hxl]
    rfl
  · rw [hlinks, Multiset.count_cons_of_ne hid.symm, hyl]
    exact h.links d nd hd

/-- A new directory gets a name in a directory, and names it as its parent. -/
theorem add_dir (h : Tree n v) (hd : v d = some nd) (ht : nd.type = T_DIR) (hl : nd.nlink ≠ 0)
    (hc : 0 < c ∧ c < n) (hnew : v c = none) (hs : search (entries nd.data) nm = none)
    (hxt : x.type = T_DIR) (hxl : x.nlink = 1) (hxd : 16 ∣ x.data.length)
    (hxes : entries x.data = [⟨c, dot⟩, ⟨d, dotdot⟩])
    (hyt : y.type = T_DIR) (hyl : y.nlink.toInt = nd.nlink.toInt + 1) (hdvd : 16 ∣ y.data.length)
    (hes : entries y.data = put (entries nd.data) (vacancy (entries nd.data)) ⟨c, nm⟩) :
    Tree n (update (update v c (some x)) d (some y)) := by
  obtain ⟨p, rest, hold, hsh, hp, hd0⟩ := h.shape_eq hd ht hl
  obtain ⟨rest', hput, hnamed⟩ := link_entries hold hd0 hp (show (⟨c, nm⟩ : Entry).inum ≠ 0 by
    show c ≠ 0
    omega)
  rw [← hes] at hput
  have hcd : c ≠ d := by
    rintro rfl
    rw [hnew] at hd
    cases hd
  have hfresh : c ∉ linksIn n v := fun hm ↦ h.inUse c hm hnew
  have hkids : ∀ j, c ∉ Lib.children (shape v) j := by
    intro j hj
    obtain ⟨⟨q, es'⟩, hq⟩ := Option.ne_none_iff_exists'.mp (Lib.ne_none_of_child hj)
    apply hfresh
    rw [Lib.children_of hq] at hj
    refine Lib.mem_allNames.mpr ⟨j, h.hierarchy.mem_of hq, ?_⟩
    rw [Lib.names_of hq]
    exact Multiset.mem_cons_of_mem hj
  have hyl' : y.nlink ≠ 0 := by
    have hpos := h.links d nd hd
    exact fun hc ↦ (show ¬y.nlink.toInt = 0 by omega) (toInt_eq_zero.mpr hc)
  have hxl' : x.nlink ≠ 0 := by
    rw [hxl]
    decide
  have hshapec : shape v c = none := by rw [shape, hnew, shapeOf]
  have hshape' : shape (update (update v c (some x)) d (some y)) =
      update (update (shape v) d (some (p, c ::ₘ named rest))) c (some (d, 0)) := by
    rw [shape_update, shape_update, update_comm hcd, shapeOf_dir hxt hxl' hxes,
      shapeOf_dir hyt hyl' hput, hnamed]
    rfl
  have hmid := h.hierarchy.add hsh hshapec
  have hnone : update (shape v) d (some (p, c ::ₘ named rest)) c = none := by
    rw [update_of_ne hcd, hshapec]
  have hkids' : ∀ j, Lib.children (update (shape v) d (some (p, c ::ₘ named rest))) j =
      if j = d then c ::ₘ named rest else Lib.children (shape v) j :=
    fun j ↦ Lib.children_update j _
  have hlinks : linksIn n (update (update v c (some x)) d (some y)) =
      d ::ₘ c ::ₘ linksIn n v := by
    rw [linksIn, hshape', Lib.allNames_promote (Finset.mem_range.mpr hc.2) hnone,
      Lib.allNames_add (h.hierarchy.mem_of hsh) hsh]
    rfl
  apply h.updates hc (h.bound d nd hd) hcd
  · intro _ _
    refine ⟨hxd, ⟨d, [], hxes⟩, ?_⟩
    rw [hxes]
    exact unique_dots c d
  · intro _ _
    refine ⟨hdvd, ⟨p, rest', hput⟩, ?_⟩
    rw [hes]
    exact (h.dirOk d nd hd ht hl).unique.put_new (vacancy_le _) hs
  · rw [hshape']
    apply hmid.promote (Finset.mem_range.mpr hc.2) hnone
    · have hnot := hkids d
      rw [Lib.children_of hsh] at hnot
      rw [hkids', if_pos rfl, Multiset.count_cons_self, Multiset.count_eq_zero.mpr hnot]
    · intro j hj
      by_contra hne
      rw [hkids', if_neg hne] at hj
      exact hkids j hj
  · intro j hjc hjd
    rw [hlinks, Multiset.count_cons_of_ne hjd, Multiset.count_cons_of_ne hjc]
  · rw [hlinks, Multiset.count_cons_of_ne hcd, Multiset.count_cons_self,
      Multiset.count_eq_zero.mpr hfresh, hxl]
    rfl
  · rw [hlinks, Multiset.count_cons_self, Multiset.count_cons_of_ne hcd.symm, hyl,
      h.links d nd hd]
    rfl

/-- The inode of a name, which is not one of the dots, is named behind them. -/
private theorem entry_of_search (h : Tree n v) (hd : v d = some nd) (ht : nd.type = T_DIR)
    (hl : nd.nlink ≠ 0) {k : Nat} (hdot : nm ≠ dot) (hdotdot : nm ≠ dotdot)
    (hs : search (entries nd.data) nm = some k) (hi : lookup (entries nd.data) nm = some i) :
    ∃ p rest', shape v d = some (p, i ::ₘ named rest') ∧
      put (entries nd.data) k ⟨0, []⟩ = ⟨d, dot⟩ :: ⟨p, dotdot⟩ :: rest' := by
  obtain ⟨p, rest, hold, hsh, -⟩ := h.shape_eq hd ht hl
  obtain ⟨j, rest', hlook, hput, hnamed⟩ := unlink_entries hold hdot hdotdot hs
  rw [hi] at hlook
  cases hlook
  refine ⟨p, rest', ?_, hput⟩
  rw [hsh, hnamed]

/-- A name of an inode that is not a directory goes. -/
theorem remove_name (h : Tree n v) (hd : v d = some nd) (ht : nd.type = T_DIR) (hl : nd.nlink ≠ 0)
    {ndi : Node} {k : Nat} (hi : v i = some ndi) (hti : ndi.type ≠ T_DIR) (hdot : nm ≠ dot)
    (hdotdot : nm ≠ dotdot) (hs : search (entries nd.data) nm = some k)
    (hlook : lookup (entries nd.data) nm = some i) (hyt : y.type = T_DIR)
    (hyl : y.nlink = nd.nlink) (hdvd : 16 ∣ y.data.length)
    (hes : entries y.data = put (entries nd.data) k ⟨0, []⟩) (hxt : x.type = ndi.type)
    (hxl : x.nlink.toInt = ndi.nlink.toInt - 1) :
    Tree n (update (update v d (some y)) i (some x)) := by
  obtain ⟨p, rest', hsh, hput⟩ := h.entry_of_search hd ht hl hdot hdotdot hs hlook
  rw [← hes] at hput
  have hdi : d ≠ i := by
    rintro rfl
    rw [hd] at hi
    cases hi
    exact hti ht
  have hyl' : y.nlink ≠ 0 := by rwa [hyl]
  have hx : x.type ≠ T_DIR := by rwa [hxt]
  have hshape : shape v i = none := by rw [shape, hi, shapeOf_none_of (Or.inl hti)]
  have hshape' : shape (update (update v d (some y)) i (some x)) =
      update (shape v) d (some (p, named rest')) := by
    rw [shape_update, shape_update, shapeOf_none_of (Or.inl hx), shapeOf_dir hyt hyl' hput,
      update_comm hdi, ← hshape, update_eq_self]
  have hlinks : linksIn n v = i ::ₘ linksIn n (update (update v d (some y)) i (some x)) := by
    rw [linksIn, Lib.allNames_remove (h.hierarchy.mem_of hsh) hsh, linksIn, hshape']
  apply h.updates (h.bound d nd hd) (h.bound i ndi hi) hdi
  · intro _ _
    refine ⟨hdvd, ⟨p, rest', hput⟩, ?_⟩
    obtain ⟨e, he, -⟩ := search_eq_some hs
    rw [hes]
    exact (h.dirOk d nd hd ht hl).unique.put_zero (List.getElem?_eq_some_iff.mp he).1.le
  · exact fun hc ↦ absurd hc hx
  · rw [hshape']
    exact h.hierarchy.remove hsh hshape
  · intro j _ hji
    rw [hlinks, Multiset.count_cons_of_ne hji]
  · have hold := h.links d nd hd
    rw [hlinks, Multiset.count_cons_of_ne hdi] at hold
    rw [hyl, hold]
  · have hold := h.links i ndi hi
    rw [hlinks, Multiset.count_cons_self] at hold
    omega

/-- The name of an empty directory goes, and with it all its links. -/
theorem remove_dir (h : Tree n v) (hd : v d = some nd) (ht : nd.type = T_DIR) (hl : nd.nlink ≠ 0)
    {ndc : Node} {k : Nat} (hc : v c = some ndc) (htc : ndc.type = T_DIR) (hlc : ndc.nlink ≠ 0)
    (hempty : ∀ e ∈ (entries ndc.data).drop 2, e.inum = 0) (hdot : nm ≠ dot)
    (hdotdot : nm ≠ dotdot) (hs : search (entries nd.data) nm = some k)
    (hlook : lookup (entries nd.data) nm = some c) (hyt : y.type = T_DIR)
    (hyl : y.nlink.toInt = nd.nlink.toInt - 1) (hdvd : 16 ∣ y.data.length)
    (hes : entries y.data = put (entries nd.data) k ⟨0, []⟩)
    (hxl : x.nlink.toInt = ndc.nlink.toInt - 1) :
    d ≠ c ∧ y.nlink ≠ 0 ∧ Tree n (update (update v d (some y)) c (some x)) := by
  obtain ⟨p, rest', hsh, hput⟩ := h.entry_of_search hd ht hl hdot hdotdot hs hlook
  obtain ⟨q, restc, hesc, hshc, -⟩ := h.shape_eq hc htc hlc
  rw [← hes] at hput
  have hkids : named restc = 0 := by
    apply Multiset.eq_zero_of_forall_notMem
    intro j hj
    obtain ⟨hj0, e, he, rfl⟩ := mem_named.mp hj
    apply hj0
    apply hempty
    rw [hesc]
    exact he
  rw [hkids] at hshc
  have hmem : c ∈ Lib.children (shape v) d := by
    rw [Lib.children_of hsh]
    exact Multiset.mem_cons_self _ _
  obtain ⟨rfl, -, hroot⟩ := h.hierarchy.child d c hmem q 0 hshc
  have hdc : q ≠ c := by
    rintro rfl
    rw [Lib.children_of hshc] at hmem
    exact Multiset.notMem_zero _ hmem
  have hone := h.hierarchy.count_childless hshc hroot
  have hlinksc := h.links c ndc hc
  rw [linksIn, hone] at hlinksc
  have hx0 : x.nlink = 0 := toInt_eq_zero.mp (by omega)
  have hmid := h.hierarchy.demote hshc hroot
  have hshd : update (shape v) c none q = some (p, c ::ₘ named rest') := by
    rw [update_of_ne hdc, hsh]
  have hdN := Finset.mem_range.mpr (h.bound q nd hd).2
  have hcN := Finset.mem_range.mpr (h.bound c ndc hc).2
  -- the directory itself still has links
  have hyl' : y.nlink ≠ 0 := by
    intro hz
    have hq := h.links q nd hd
    rw [toInt_eq_zero.mpr hz] at hyl
    have hnames := Lib.allNames_demote hcN hshc
    have hnamed := hmid.dir_named (d := q) (by rw [hshd]; exact Option.some_ne_none _)
    have hpos := Multiset.count_pos.mpr hnamed
    rw [linksIn, hnames, Multiset.count_cons_self] at hq
    omega
  have hshape' : shape (update (update v q (some y)) c (some x)) =
      update (update (shape v) c none) q (some (p, named rest')) := by
    rw [shape_update, shape_update, shapeOf_none_of (Or.inr hx0), shapeOf_dir hyt hyl' hput,
      update_comm hdc]
  have hlinks : linksIn n v =
      q ::ₘ c ::ₘ linksIn n (update (update v q (some y)) c (some x)) := by
    rw [linksIn, Lib.allNames_demote hcN hshc, Lib.allNames_remove hdN hshd, linksIn, hshape']
  refine ⟨hdc, hyl', h.updates (h.bound q nd hd) (h.bound c ndc hc) hdc ?_ ?_ ?_ ?_ ?_ ?_⟩
  · intro _ _
    refine ⟨hdvd, ⟨p, rest', hput⟩, ?_⟩
    obtain ⟨e, he, -⟩ := search_eq_some hs
    rw [hes]
    exact (h.dirOk q nd hd ht hl).unique.put_zero (List.getElem?_eq_some_iff.mp he).1.le
  · exact fun _ hc ↦ absurd hx0 hc
  · rw [hshape']
    apply hmid.remove hshd
    exact update_self _ _ _
  · intro j hjq hjc
    rw [hlinks, Multiset.count_cons_of_ne hjq, Multiset.count_cons_of_ne hjc]
  · have hold := h.links q nd hd
    rw [hlinks, Multiset.count_cons_self, Multiset.count_cons_of_ne hdc] at hold
    omega
  · have hold := h.links c ndc hc
    rw [hlinks, Multiset.count_cons_of_ne hdc.symm, Multiset.count_cons_self] at hold
    omega

/-- A node without links may go. -/
theorem free (h : Tree n v) (hi : v i = some nd) (hl : nd.nlink = 0) :
    Tree n (update v i none) := by
  have hshape : shape (update v i none) = shape v := by
    have hnone : shape v i = none := by rw [shape, hi, shapeOf_none_of (Or.inr hl)]
    rw [shape_update, show shapeOf none = none from rfl, ← hnone, update_eq_self]
  have hlinks : linksIn n (update v i none) = linksIn n v := by rw [linksIn, hshape, linksIn]
  have hold : ∀ j nd', update v i none j = some nd' → v j = some nd' := by
    intro j nd' hj
    have hne : j ≠ i := by
      rintro rfl
      rw [update_self] at hj
      cases hj
    rwa [update_of_ne hne] at hj
  constructor
  · exact fun j nd' hj ↦ h.bound j nd' (hold j nd' hj)
  · exact fun j nd' hj ↦ h.dirOk j nd' (hold j nd' hj)
  · intro j hj
    rw [hlinks] at hj
    have hne : j ≠ i := by
      rintro rfl
      obtain ⟨nd', hnd', hl'⟩ := h.hasLinks hj
      rw [hi] at hnd'
      cases hnd'
      exact hl' hl
    rw [update_of_ne hne]
    exact h.inUse j hj
  · intro j nd' hj
    rw [hlinks]
    exact h.links j nd' (hold j nd' hj)
  · rw [hshape]
    exact h.hierarchy

/-- The contents of an inode that is not a directory do not matter. -/
theorem write (h : Tree n v) (hi : v i = some nd) (ht : nd.type ≠ T_DIR) (data : List UInt8) :
    Tree n (update v i (some ⟨nd.type, nd.nlink, data⟩)) := by
  have hshape : shape (update v i (some ⟨nd.type, nd.nlink, data⟩)) = shape v := by
    have hnone : shape v i = none := by rw [shape, hi, shapeOf_none_of (Or.inl ht)]
    have hnew : shapeOf (some ⟨nd.type, nd.nlink, data⟩) = none := shapeOf_none_of (Or.inl ht)
    rw [shape_update, hnew, ← hnone, update_eq_self]
  have hlinks : linksIn n (update v i (some ⟨nd.type, nd.nlink, data⟩)) = linksIn n v := by
    rw [linksIn, hshape, linksIn]
  have hold : ∀ j nd', update v i (some ⟨nd.type, nd.nlink, data⟩) j = some nd' →
      ∃ nd'', v j = some nd'' ∧ nd''.type = nd'.type ∧ nd''.nlink = nd'.nlink ∧
        (nd'.type = T_DIR → nd'' = nd') := by
    intro j nd' hj
    by_cases hji : j = i
    · rw [hji, update_self] at hj
      cases hj
      exact ⟨nd, hji ▸ hi, rfl, rfl, fun hc ↦ absurd hc ht⟩
    · rw [update_of_ne hji] at hj
      exact ⟨nd', hj, rfl, rfl, fun _ ↦ rfl⟩
  constructor
  · intro j nd' hj
    obtain ⟨nd'', hj, -⟩ := hold j nd' hj
    exact h.bound j nd'' hj
  · intro j nd' hj ht' hl'
    obtain ⟨nd'', hj, -, -, hsame⟩ := hold j nd' hj
    rw [hsame ht'] at hj
    exact h.dirOk j nd' hj ht' hl'
  · intro j hj
    rw [hlinks] at hj
    by_cases hji : j = i
    · rw [hji, update_self]
      exact Option.some_ne_none _
    · rw [update_of_ne hji]
      exact h.inUse j hj
  · intro j nd' hj
    obtain ⟨nd'', hj, -, hnl, -⟩ := hold j nd' hj
    rw [hlinks, ← hnl]
    exact h.links j nd'' hj
  · rw [hshape]
    exact h.hierarchy

end Tree

end

end Xv6.Fs
