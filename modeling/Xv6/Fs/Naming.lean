import Xv6.Fs.Tree

/-!
# Giving and taking names

The three changes that system calls make to the tree: a new inode gets its first name, an inode
that is not a directory gets another one, a name goes. Each keeps the invariant and changes what
one name in one directory means.
-/

namespace Xv6.Fs

open Function

open Mkfs (DIRSIZ T_DIR T_FILE ROOTINO)

/-- The inode that directory `d` gives to a name. -/
def nameIn (v : Nat → Option Node) (d : Nat) (nm : CString) : Option Nat :=
  (dirAt v d).bind fun es ↦ lookup es nm

/-- Inode `d` is a directory with links. -/
structure LinkedDir (v : Nat → Option Node) (d : Nat) (nd : Node) : Prop where
  node : v d = some nd
  dir : nd.type = T_DIR
  links : nd.nlink ≠ 0

/-- The node of a directory whose entries have become `es`. -/
structure Rewritten (y : Node) (nlink : Int16) (es : List Entry) : Prop where
  dir : y.type = T_DIR
  nlink_eq : y.nlink = nlink
  aligned : 16 ∣ y.data.length
  entries_eq : entries y.data = es

/-- Inode `i` gets name `nm` in directory `d`, which is free, besides the names it has. -/
def Links (d i : Nat) (nm : CString) (v v' : Nat → Option Node) : Prop :=
  ∃ nd ndi y, LinkedDir v d nd ∧ v i = some ndi ∧ ndi.type ≠ T_DIR ∧
    ndi.nlink.toInt < 32767 ∧ search (entries nd.data) nm = none ∧
    Rewritten y nd.nlink (put (entries nd.data) (vacancy (entries nd.data)) ⟨i, nm⟩) ∧
    v' = update (update v i (some ⟨ndi.type, ndi.nlink + 1, ndi.data⟩)) d (some y)

/-- A new inode `i` of the given type gets name `nm` in directory `d`, which is free. -/
def Creates (n d i : Nat) (nm : CString) (type : Int16) (v v' : Nat → Option Node) : Prop :=
  ∃ nd x y, LinkedDir v d nd ∧ (0 < i ∧ i < n) ∧ v i = none ∧ x.type = type ∧ x.nlink = 1 ∧
    (type = T_DIR → 16 ∣ x.data.length ∧ entries x.data = [⟨i, dot⟩, ⟨d, dotdot⟩]) ∧
    (type ≠ T_DIR → x.data = []) ∧ nd.nlink.toInt < 32767 ∧ search (entries nd.data) nm = none ∧
    Rewritten y (if type = T_DIR then nd.nlink + 1 else nd.nlink)
      (put (entries nd.data) (vacancy (entries nd.data)) ⟨i, nm⟩) ∧
    v' = update (update v i (some x)) d (some y)

/-- Name `nm` in directory `d`, which is that of inode `i`, goes; if the inode is a directory,
it is empty. -/
def Unlinks (d i : Nat) (nm : CString) (v v' : Nat → Option Node) : Prop :=
  ∃ nd ndi y k, LinkedDir v d nd ∧ v i = some ndi ∧ nm ≠ dot ∧ nm ≠ dotdot ∧
    search (entries nd.data) nm = some k ∧ lookup (entries nd.data) nm = some i ∧
    (ndi.type = T_DIR → ∀ e ∈ (entries ndi.data).drop 2, e.inum = 0) ∧
    Rewritten y (if ndi.type = T_DIR then nd.nlink - 1 else nd.nlink)
      (put (entries nd.data) k ⟨0, []⟩) ∧
    v' = update (update v d (some y)) i (some ⟨ndi.type, ndi.nlink - 1, ndi.data⟩)

section

variable {n d i : Nat} {nm : CString} {type : Int16} {v v' : Nat → Option Node}

/-! ### The invariant -/

private theorem nlink_pos (h : Tree n v) {nd : Node} (hd : v d = some nd) (hl : nd.nlink ≠ 0) :
    0 < nd.nlink.toInt := by
  have hlinks := h.links d nd hd
  have hne := mt toInt_eq_zero.mp hl
  omega

theorem Links.tree (h : Tree n v) (hl : Links d i nm v v') : Tree n v' := by
  obtain ⟨nd, ndi, y, hd, hi, ht, hmax, hs, hy, rfl⟩ := hl
  have hid : i ≠ d := by
    rintro rfl
    rw [hd.node] at hi
    cases hi
    exact ht hd.dir
  have hshape : shape v i = none := by rw [shape, hi, shapeOf_none_of (Or.inl ht)]
  apply h.add_name hd.node hd.dir hd.links (h.bound i ndi hi) hid hshape
    (x := ⟨ndi.type, ndi.nlink + 1, ndi.data⟩) ht
  · rw [toInt_succ hmax, h.links i ndi hi]
  · exact hs
  · exact hy.dir
  · exact hy.nlink_eq
  · exact hy.aligned
  · exact hy.entries_eq

theorem Creates.tree (h : Tree n v) (hc : Creates n d i nm type v v') : Tree n v' := by
  obtain ⟨nd, x, y, hd, hi, hnew, hxt, hxl, hdots, -, hmax, hs, hy, rfl⟩ := hc
  by_cases ht : type = T_DIR
  · obtain ⟨hxd, hxes⟩ := hdots ht
    have hyl := hy.nlink_eq
    rw [if_pos ht] at hyl
    apply h.add_dir hd.node hd.dir hd.links hi hnew hs (hxt.trans ht) hxl hxd hxes hy.dir
    · rw [hyl, toInt_succ hmax]
    · exact hy.aligned
    · exact hy.entries_eq
  · have hyl := hy.nlink_eq
    rw [if_neg ht] at hyl
    have hid : i ≠ d := by
      rintro rfl
      rw [hd.node] at hnew
      cases hnew
    have hshape : shape v i = none := by rw [shape, hnew, shapeOf]
    have hfresh : i ∉ linksIn n v := fun hm ↦ h.inUse i hm hnew
    apply h.add_name hd.node hd.dir hd.links hi hid hshape (by rwa [hxt])
    · rw [hxl, Multiset.count_eq_zero.mpr hfresh]
      rfl
    · exact hs
    · exact hy.dir
    · exact hyl
    · exact hy.aligned
    · exact hy.entries_eq

theorem Unlinks.tree (h : Tree n v) (hu : Unlinks d i nm v v') :
    d ≠ i ∧ HasLinks v' d ∧ Tree n v' := by
  obtain ⟨nd, ndi, y, k, hd, hi, hdot, hdotdot, hs, hlook, hempty, hy, rfl⟩ := hu
  have hlinked : HasLinks v i :=
    h.sane.linked d _ ⟨nd, hd.node, hd.links⟩
      (dirAt_eq_some.mpr ⟨nd, hd.node, hd.dir, rfl⟩) nm i hlook
  obtain ⟨ndi', hi', hli⟩ := hlinked
  rw [hi] at hi'
  cases hi'
  have hpos := nlink_pos h hi hli
  have hposd := nlink_pos h hd.node hd.links
  have hyl := hy.nlink_eq
  by_cases ht : ndi.type = T_DIR
  · rw [if_pos ht] at hyl
    obtain ⟨hne, hlinks, htree⟩ := h.remove_dir hd.node hd.dir hd.links hi ht hli (hempty ht) hdot
      hdotdot hs hlook hy.dir (by rw [hyl, toInt_pred hposd]) hy.aligned hy.entries_eq
      (x := ⟨ndi.type, ndi.nlink - 1, ndi.data⟩) (toInt_pred hpos)
    refine ⟨hne, ⟨y, ?_, hlinks⟩, htree⟩
    rw [update_of_ne hne, update_self]
  · rw [if_neg ht] at hyl
    have hne : d ≠ i := by
      rintro rfl
      rw [hd.node] at hi
      cases hi
      exact ht hd.dir
    refine ⟨hne, ⟨y, ?_, by rw [hyl]; exact hd.links⟩,
      h.remove_name hd.node hd.dir hd.links hi ht hdot hdotdot hs hlook hy.dir hyl hy.aligned
        hy.entries_eq rfl (toInt_pred hpos)⟩
    rw [update_of_ne hne, update_self]

/-! ### What names mean afterwards -/

private theorem nameIn_of {nd : Node} (hd : v d = some nd) (ht : nd.type = T_DIR) (m : CString) :
    nameIn v d m = lookup (entries nd.data) m := by
  rw [nameIn, dirAt_eq_some.mpr ⟨nd, hd, ht, rfl⟩, Option.bind_some]

/-- The names in a directory with links are its entries. -/
theorem LinkedDir.nameIn_eq {nd : Node} (hd : LinkedDir v d nd) (m : CString) :
    nameIn v d m = lookup (entries nd.data) m :=
  nameIn_of hd.node hd.dir m

private theorem nameIn_congr {d' : Nat} (h : dirAt v' d' = dirAt v d') (m : CString) :
    nameIn v' d' m = nameIn v d' m := by
  rw [nameIn, nameIn, h]

private theorem dirAt_update_ne {o : Option Node} {a b : Nat} (h : b ≠ a) :
    dirAt (update v a o) b = dirAt v b := by
  rw [dirAt, update_of_ne h, dirAt]

private theorem dirAt_update_self {x : Node} (a : Nat) :
    dirAt (update v a (some x)) a = if x.type = T_DIR then some (entries x.data) else none := by
  rw [dirAt, update_self]

/-- A link gives the inode to the new name, and changes no other name. -/
theorem Links.nameIn_eq (h : Tree n v) (hl : Links d i nm v v') (d' : Nat) (m : CString) :
    nameIn v' d' m = if d' = d ∧ m = nm then some i else nameIn v d' m := by
  obtain ⟨nd, ndi, y, hd, hi, ht, -, hs, hy, rfl⟩ := hl
  have hi0 := (h.bound i ndi hi).1
  by_cases hdd : d' = d
  · subst hdd
    have hnew := nameIn_of (v := update (update v i (some ⟨ndi.type, ndi.nlink + 1, ndi.data⟩))
      d' (some y)) (update_self _ _ _) hy.dir m
    have hput := lookup_put_new (h.dirOk d' nd hd.node hd.dir hd.links).unique
      (vacancy_le (entries nd.data)) (fun e' he' ↦ inum_vacancy he')
      (show (⟨i, nm⟩ : Entry).inum ≠ 0 from Nat.ne_of_gt hi0) hs
    rw [hnew, hy.entries_eq, hput, nameIn_of hd.node hd.dir]
    by_cases hm : m = nm
    · rw [hm, update_self, if_pos ⟨rfl, rfl⟩]
    · rw [update_of_ne hm, if_neg fun hc ↦ hm hc.2]
  · rw [if_neg fun hc ↦ hdd hc.1]
    apply nameIn_congr
    rw [dirAt_update_ne hdd]
    by_cases hdi : d' = i
    · rw [hdi, dirAt_update_self, if_neg ht, dirAt, hi]
      exact (if_neg ht).symm
    · exact dirAt_update_ne hdi

/-- A new inode has the new name, no other name changes, and a new directory has its dots. -/
theorem Creates.nameIn_eq (h : Tree n v) (hc : Creates n d i nm type v v') (d' : Nat)
    (m : CString) : nameIn v' d' m = if d' = d ∧ m = nm then some i
      else if d' = i ∧ type = T_DIR ∧ m = dot then some i
      else if d' = i ∧ type = T_DIR ∧ m = dotdot then some d else nameIn v d' m := by
  obtain ⟨nd, x, y, hd, hi, hnew, hxt, -, hdots, -, -, hs, hy, rfl⟩ := hc
  have hid : i ≠ d := by
    rintro rfl
    rw [hd.node] at hnew
    cases hnew
  have hd0 := (h.bound d nd hd.node).1
  by_cases hdd : d' = d
  · subst hdd
    have hself := nameIn_of (v := update (update v i (some x)) d' (some y)) (update_self _ _ _)
      hy.dir m
    have hput := lookup_put_new (h.dirOk d' nd hd.node hd.dir hd.links).unique
      (vacancy_le (entries nd.data)) (fun e' he' ↦ inum_vacancy he')
      (show (⟨i, nm⟩ : Entry).inum ≠ 0 from Nat.ne_of_gt hi.1) hs
    rw [hself, hy.entries_eq, hput, nameIn_of hd.node hd.dir]
    by_cases hm : m = nm
    · rw [hm, update_self, if_pos ⟨rfl, rfl⟩]
    · rw [update_of_ne hm, if_neg fun hc ↦ hm hc.2, if_neg fun hc ↦ hid hc.1.symm,
        if_neg fun hc ↦ hid hc.1.symm]
  · rw [if_neg fun hc ↦ hdd hc.1]
    by_cases hdi : d' = i
    · subst hdi
      have hold : nameIn v d' m = none := by
        rw [nameIn, dirAt, hnew]
        rfl
      have hself : dirAt (update (update v d' (some x)) d (some y)) d' =
          if x.type = T_DIR then some (entries x.data) else none := by
        rw [dirAt_update_ne hdd, dirAt_update_self]
      rw [hold, nameIn, hself, hxt]
      by_cases ht : type = T_DIR
      · have hne : dot ≠ dotdot := by decide
        rw [if_pos ht, Option.bind_some, (hdots ht).2]
        by_cases hm : m = dot
        · rw [if_pos ⟨rfl, ht, hm⟩, hm]
          simp [lookup, Entry.Names, Nat.ne_of_gt hi.1]
        · rw [if_neg fun hc ↦ hm hc.2.2]
          by_cases hm' : m = dotdot
          · rw [if_pos ⟨rfl, ht, hm'⟩, hm']
            simp [lookup, Entry.Names, hne, Nat.ne_of_gt hd0]
          · rw [if_neg fun hc ↦ hm' hc.2.2]
            simp [lookup, Entry.Names, Ne.symm hm, Ne.symm hm']
      · rw [if_neg ht, if_neg fun hc ↦ ht hc.2.1, if_neg fun hc ↦ ht hc.2.1]
        rfl
    · rw [if_neg fun hc ↦ hdi hc.1, if_neg fun hc ↦ hdi hc.1]
      apply nameIn_congr
      rw [dirAt_update_ne hdd, dirAt_update_ne hdi]

/-- Unlinking takes the name away, and changes no other name. -/
theorem Unlinks.nameIn_eq (h : Tree n v) (hu : Unlinks d i nm v v') (d' : Nat) (m : CString) :
    nameIn v' d' m = if d' = d ∧ m = nm then none else nameIn v d' m := by
  have hdi := (hu.tree h).1
  obtain ⟨nd, ndi, y, k, hd, hi, -, -, hs, -, -, hy, rfl⟩ := hu
  by_cases hdd : d' = d
  · subst hdd
    have hself : update (update v d' (some y)) i (some ⟨ndi.type, ndi.nlink - 1, ndi.data⟩) d' =
        some y := by
      rw [update_of_ne hdi, update_self]
    have hput := lookup_put_zero (h.dirOk d' nd hd.node hd.dir hd.links).unique hs
    rw [nameIn_of hself hy.dir, hy.entries_eq, hput, nameIn_of hd.node hd.dir]
    by_cases hm : m = nm
    · rw [hm, update_self, if_pos ⟨rfl, rfl⟩]
    · rw [update_of_ne hm, if_neg fun hc ↦ hm hc.2]
  · rw [if_neg fun hc ↦ hdd hc.1]
    apply nameIn_congr
    by_cases hdi : d' = i
    · rw [hdi, dirAt_update_self, dirAt, hi]
    · rw [dirAt_update_ne hdi, dirAt_update_ne hdd]

/-! ### What paths mean afterwards -/

theorem resolve_cons (i : Nat) (ns : List CString) :
    resolve v i (nm :: ns) = (nameIn v i nm).bind fun j ↦ resolve v j ns := by
  rw [resolve, nameIn]
  cases dirAt v i with
  | none => rfl
  | some es => rfl

/-- Paths that lead somewhere still lead there when names are only added. -/
theorem resolve_mono (hmono : ∀ d m j, nameIn v d m = some j → nameIn v' d m = some j) {j : Nat}
    {ns : List CString} (hr : resolve v i ns = some j) : resolve v' i ns = some j := by
  induction ns generalizing i with
  | nil => exact hr
  | cons m ns ih =>
    rw [resolve_cons] at hr ⊢
    obtain ⟨k, hk, hr⟩ := Option.bind_eq_some_iff.mp hr
    rw [hmono i m k hk]
    exact ih hr

/-- The parent of a path, as an inode and a name. -/
theorem resolveParent_eq_some {ns : List CString} :
    resolveParent v i ns = some (d, nm) ↔ ∃ init, ns = init ++ [nm] ∧ resolve v i init = some d ∧
      dirAt v d ≠ none := by
  induction ns generalizing i with
  | nil => simp [resolveParent]
  | cons m ns ih =>
    rw [resolveParent]
    by_cases hns : ns = []
    · subst hns
      constructor
      · intro h
        obtain ⟨es, hes, h⟩ := Option.bind_eq_some_iff.mp h
        rw [if_pos rfl] at h
        cases h
        exact ⟨[], rfl, rfl, by rw [hes]; exact Option.some_ne_none _⟩
      · rintro ⟨init, hinit, hr, hd⟩
        obtain ⟨rfl, rfl⟩ : init = [] ∧ m = nm := by
          cases init with
          | nil => exact ⟨rfl, List.head_eq_of_cons_eq hinit⟩
          | cons a init => simp at hinit
        cases hr
        obtain ⟨es, hes⟩ := Option.ne_none_iff_exists'.mp hd
        rw [hes]
        rfl
    · simp only [if_neg hns]
      have hsplit : (dirAt v i).bind (fun es ↦ (lookup es m).bind fun j ↦ resolveParent v j ns) =
          (nameIn v i m).bind fun j ↦ resolveParent v j ns := by
        rw [nameIn]
        cases dirAt v i with
        | none => rfl
        | some es => rfl
      rw [hsplit]
      constructor
      · intro h
        obtain ⟨j, hj, h⟩ := Option.bind_eq_some_iff.mp h
        obtain ⟨init, rfl, hr, hd⟩ := ih.mp h
        refine ⟨m :: init, rfl, ?_, hd⟩
        rw [resolve_cons, hj]
        exact hr
      · rintro ⟨init, hinit, hr, hd⟩
        cases init with
        | nil =>
          simp only [List.nil_append, List.cons.injEq] at hinit
          exact absurd hinit.2 hns
        | cons a init =>
          rw [List.cons_append, List.cons.injEq] at hinit
          obtain ⟨rfl, rfl⟩ := hinit
          rw [resolve_cons] at hr
          obtain ⟨j, hj, hr⟩ := Option.bind_eq_some_iff.mp hr
          rw [hj]
          exact ih.mpr ⟨init, rfl, hr, hd⟩

/-- A single name has the directory itself for its parent. -/
theorem resolveParent_single (hd : dirAt v d ≠ none) (nm : CString) :
    resolveParent v d [nm] = some (d, nm) :=
  resolveParent_eq_some.mpr ⟨[], rfl, rfl, hd⟩

theorem resolve_append {ns ms : List CString} : resolve v i (ns ++ ms) =
    (resolve v i ns).bind fun j ↦ resolve v j ms := by
  induction ns generalizing i with
  | nil => rfl
  | cons m ns ih =>
    rw [List.cons_append, resolve_cons, resolve_cons]
    cases nameIn v i m with
    | none => rfl
    | some j => exact ih

end

end Xv6.Fs
