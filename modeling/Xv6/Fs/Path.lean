import Xv6.Fs.Directory

/-!
# Path names

`namex` of `fs.c` walks along the elements of a path. It finds what the entries of the
directories on the way say, leaves the disk alone, and ends with one reference more or, when it
finds nothing, with the references it began with.
-/

namespace Xv6.Fs

open Function

open Mkfs (DIRSIZ T_DIR T_FILE ROOTINO)

section

variable (sb : Superblock) (dev : Devsw)

/-- The loop of `namex` and its end; `fs.c:751-773`. -/
def namexLoop (isParent : Bool) (s : State) (ip : Slot) (path : CString) (name : Nat → UInt8) :
    Except DirPanic (State × Option (Slot × (Nat → UInt8))) :=
  match _h : skipelem path name with
  | some (path', name) => do
    let s ← (ilock sb s ip).mapError .fs
    if (s.icache ip).type ≠ T_DIR then do
      let s ← (iput sb s ip).mapError .fs
      pure (s, none)
    else if isParent = true ∧ path' = [] then
      pure (s, some (ip, name))
    else do
      let (s, r) ← dirlookup sb dev s ip name
      match r with
      | none => do
        let s ← (iput sb s ip).mapError .fs
        pure (s, none)
      | some (next, _) => do
        let s ← (iput sb s ip).mapError .fs
        namexLoop isParent s next path' name
  | none =>
    if isParent = true then do
      let s ← (iput sb s ip).mapError .fs
      pure (s, none)
    else
      .ok (s, some (ip, name))
termination_by path.length
decreasing_by exact length_lt_of_skipelem _h

/-- Look up the inode of a path, or the one of its parent with the last element in `name`;
`fs.c:741-774`. -/
def namex (s : State) (cwd : Slot) (path : CString) (isParent : Bool) (name : Nat → UInt8) :
    Except DirPanic (State × Option (Slot × (Nat → UInt8))) := do
  let (s, ip) ←
    if path.head? = some slash then (iget s ROOTINO).mapError .fs
    else pure (idup s cwd, cwd)
  namexLoop sb dev isParent s ip path name

/-- `fs.c:776-781`. -/
def namei (s : State) (cwd : Slot) (path : CString) (name : Nat → UInt8) :
    Except DirPanic (State × Option Slot) := do
  let (s, r) ← namex sb dev s cwd path false name
  pure (s, r.map Prod.fst)

/-- `fs.c:783-787`. -/
def nameiparent (s : State) (cwd : Slot) (path : CString) (name : Nat → UInt8) :
    Except DirPanic (State × Option (Slot × (Nat → UInt8))) :=
  namex sb dev s cwd path true name

end

/-! ### What a path means -/

/-- The entries of inode `i`, if it is a directory. -/
def dirAt (v : Nat → Option Node) (i : Nat) : Option (List Entry) :=
  match v i with
  | some nd => if nd.type = T_DIR then some (entries nd.data) else none
  | none => none

/-- The inode that the names lead to from inode `i`. -/
def resolve (v : Nat → Option Node) : Nat → List CString → Option Nat
  | i, [] => some i
  | i, n :: ns => (dirAt v i).bind fun es ↦ (lookup es n).bind fun j ↦ resolve v j ns

/-- The directory that all names but the last lead to from inode `i`, with the last. -/
def resolveParent (v : Nat → Option Node) : Nat → List CString → Option (Nat × CString)
  | _, [] => none
  | i, n :: ns => (dirAt v i).bind fun es ↦
    if ns = [] then some (i, n) else (lookup es n).bind fun j ↦ resolveParent v j ns

/-- The inode is in use and has links. -/
def HasLinks (v : Nat → Option Node) (i : Nat) : Prop := ∃ nd, v i = some nd ∧ nd.nlink ≠ 0

/-- Where a path can be followed without harm: there is a root, and the directories with links
are made of entries, which lead to inodes with links. -/
structure Sane (v : Nat → Option Node) : Prop where
  root : HasLinks v ROOTINO
  aligned : ∀ i nd, v i = some nd → nd.nlink ≠ 0 → nd.type = T_DIR → 16 ∣ nd.data.length
  linked : ∀ i es, HasLinks v i → dirAt v i = some es → ∀ n j, lookup es n = some j → HasLinks v j

section

variable {v : Nat → Option Node} {i : Nat} {ns : List CString} {n : CString}

theorem dirAt_eq_some {es : List Entry} :
    dirAt v i = some es ↔ ∃ nd, v i = some nd ∧ nd.type = T_DIR ∧ entries nd.data = es := by
  unfold dirAt
  cases v i with
  | none => simp
  | some nd => simp

/-- The last name of a path is looked up in its parent. -/
theorem resolve_eq_parent (hne : ns ≠ []) : resolve v i ns =
    (resolveParent v i ns).bind fun d ↦ (dirAt v d.1).bind fun es ↦ lookup es d.2 := by
  induction ns generalizing i with
  | nil => exact absurd rfl hne
  | cons n ns ih =>
    unfold resolve resolveParent
    cases hd : dirAt v i with
    | none => rfl
    | some es =>
      simp only [Option.bind_some]
      by_cases hns : ns = []
      · rw [if_pos hns, hns, Option.bind_some, hd, Option.bind_some]
        cases lookup es n with
        | none => rfl
        | some j => rfl
      · rw [if_neg hns]
        cases lookup es n with
        | none => rfl
        | some j => exact ih hns

/-- What a path leads to has links. -/
theorem Sane.resolve (h : Sane v) (hi : HasLinks v i) {j : Nat} (hw : resolve v i ns = some j) :
    HasLinks v j := by
  induction ns generalizing i with
  | nil =>
    cases hw
    exact hi
  | cons n ns ih =>
    obtain ⟨es, hd, hw⟩ := Option.bind_eq_some_iff.mp hw
    obtain ⟨k, hk, hw⟩ := Option.bind_eq_some_iff.mp hw
    exact ih (h.linked i es hi hd n k hk) hw

/-- The parent of a path is a directory with links. -/
theorem Sane.resolveParent (h : Sane v) (hi : HasLinks v i) {d : Nat}
    (hw : resolveParent v i ns = some (d, n)) : HasLinks v d ∧ ∃ es, dirAt v d = some es := by
  induction ns generalizing i with
  | nil => cases hw
  | cons m ns ih =>
    obtain ⟨es, hd, hw⟩ := Option.bind_eq_some_iff.mp hw
    split at hw
    · cases hw
      exact ⟨hi, es, hd⟩
    · obtain ⟨k, hk, hw⟩ := Option.bind_eq_some_iff.mp hw
      exact ih (h.linked i es hi hd m k hk) hw

/-! ### `namex` -/

variable {sb : Superblock} {s t : State} {ip cwd : Slot} {H : Multiset Slot} {path : CString}

/-- What a path means to `namex`: the inode, or the parent with the last name. -/
def resolveFor (isParent : Bool) (v : Nat → Option Node) :
    Nat → List CString → Option (Nat × Option CString)
  | i, [] => if isParent = true then none else some (i, none)
  | i, n :: ns => (dirAt v i).bind fun es ↦
    if isParent = true ∧ ns = [] then some (i, some n)
    else (lookup es n).bind fun j ↦ resolveFor isParent v j ns

private theorem resolveFor_false :
    resolveFor false v i ns = (resolve v i ns).map fun j ↦ (j, none) := by
  induction ns generalizing i with
  | nil => rfl
  | cons n ns ih =>
    unfold resolveFor resolve
    cases dirAt v i with
    | none => rfl
    | some es =>
      simp only [Option.bind_some, Bool.false_eq_true, false_and, if_false]
      cases lookup es n with
      | none => rfl
      | some j => exact ih

private theorem resolveFor_true :
    resolveFor true v i ns = (resolveParent v i ns).map fun d ↦ (d.1, some d.2) := by
  induction ns generalizing i with
  | nil => rfl
  | cons n ns ih =>
    unfold resolveFor resolveParent
    cases dirAt v i with
    | none => rfl
    | some es =>
      simp only [Option.bind_some, true_and]
      by_cases hns : ns = []
      · rw [if_pos hns, if_pos hns]
        rfl
      · rw [if_neg hns, if_neg hns]
        cases lookup es n with
        | none => rfl
        | some j => exact ih

/-- What `namex` returns for what the path means: one reference more, or none. A parent has been
read, and the last name is in the buffer. -/
def Returned (sb : Superblock) (H : Multiset Slot) (t : State) :
    Option (Nat × Option CString) → Option (Slot × (Nat → UInt8)) → Prop
  | some (i, last), some (ip, name) => Holding sb (ip ::ₘ H) t ∧ (t.icache ip).inum = i ∧
      ∀ n, last = some n → (t.icache ip).valid = true ∧ stringAt name DIRSIZ = n
  | none, none => Holding sb H t
  | _, _ => False

/-- Dropping the directory that the walk has come through. -/
private theorem drop_dir {v : Nat → Option Node} (h : Holding sb (ip ::ₘ H) s)
    (hv : view sb s.blocks = v) (hlinks : HasLinks v (s.icache ip).inum) :
    Lib.Ensures ((iput sb s ip).mapError DirPanic.fs) (· = .fs .igetNoInodes) fun t ↦
      Holding sb H t ∧ Steady H s t ∧ t.blocks = s.blocks := by
  obtain ⟨nd, hnd, hnz⟩ := hlinks
  rw [← hv] at hnd
  have hiput := iput_refs h hnd hnz fun _ ↦ False
  exact Lib.Ensures.mapError_iff.mpr (hiput.mono (fun _ hr ↦ hr) fun _ he ↦ he.elim)

/-- The walk along a path from an inode with links. -/
private theorem namexLoop_spec (dev : Devsw) (isParent : Bool) (hsane : Sane v)
    (h : Holding sb (ip ::ₘ H) s) (hv : view sb s.blocks = v)
    (hlinks : HasLinks v (s.icache ip).inum) (path : CString) (name : Nat → UInt8) :
    Lib.Ensures (namexLoop sb dev isParent s ip path name) (· = .fs .igetNoInodes) fun r ↦
      Steady H s r.1 ∧ r.1.blocks = s.blocks ∧
        Returned sb H r.1 (resolveFor isParent v (s.icache ip).inum (elements path)) r.2 := by
  induction hlen : path.length using Nat.strong_induction_on generalizing s ip path name with
  | h len ih =>
    have hself := Multiset.mem_cons_self ip H
    have hsub : ∀ iq ∈ H, iq ∈ ip ::ₘ H := fun iq hq ↦ Multiset.mem_cons_of_mem hq
    unfold namexLoop
    split
    · next path' name' hskip =>
      obtain ⟨helems, hrest⟩ := skipelem_eq_some hskip
      have hshort := length_lt_of_skipelem hskip
      rw [helems]
      apply Lib.Ensures.bind (Lib.Ensures.mapError_iff.mpr (ilock_refs h hself _))
      rintro t ⟨ht, hsteady, hb, hvalid⟩
      have hinum := (hsteady ip hself).1
      have hvt : view sb t.blocks = v := by rw [hb, hv]
      obtain ⟨nd, hnd, hnz⟩ := hlinks
      have hnode : view sb t.blocks (t.icache ip).inum = some nd := by rw [hvt, hinum, hnd]
      have htype := (ht.fields hself hvalid hnode).1
      have hlinks' : HasLinks v (t.icache ip).inum := ⟨nd, by rw [hinum, hnd], hnz⟩
      rw [htype]
      split
      · next hdir =>
        -- the inode is not a directory
        have hnone : dirAt v (s.icache ip).inum = none := by
          rw [dirAt, hnd]
          exact if_neg hdir
        apply Lib.Ensures.bind (drop_dir ht hvt hlinks')
        rintro u ⟨hu, hsteady', hb'⟩
        refine ⟨(hsteady.mono hsub).trans hsteady', hb'.trans hb, ?_⟩
        rw [resolveFor, hnone]
        exact hu
      · next hdir =>
        have hdir' : nd.type = T_DIR := not_not.mp hdir
        have hes : dirAt v (s.icache ip).inum = some (entries nd.data) := by
          rw [dirAt, hnd]
          exact if_pos hdir'
        have haligned := hsane.aligned _ nd hnd hnz hdir'
        rw [resolveFor, hes, Option.bind_some]
        split
        · next hlast =>
          rw [if_pos ⟨hlast.1, hrest.mp hlast.2⟩]
          refine ⟨hsteady.mono hsub, hb, ht, hinum, fun n hn ↦ ⟨hvalid, Option.some.inj hn⟩⟩
        · next hlast =>
          rw [if_neg fun hc ↦ hlast ⟨hc.1, hrest.mpr hc.2⟩]
          have hlive : ∀ j, lookup (entries nd.data) (stringAt name' DIRSIZ) = some j →
              Live sb t.blocks j := by
            intro j hj
            obtain ⟨nd', hnd', -⟩ := hsane.linked _ _ ⟨nd, hnd, hnz⟩ hes _ j hj
            exact live_of_view (by rw [hvt, hnd'])
          have hlook := dirlookup_spec dev ht hself ⟨hvalid, hnode, hdir', haligned⟩ _ hlive
          apply Lib.Ensures.bind hlook
          rintro ⟨u, r⟩ ⟨hsteadyu, hbu, hfound⟩
          dsimp only at hsteadyu hbu hfound ⊢
          have hinumu := (hsteadyu ip hself).1
          have hvu : view sb u.blocks = v := by rw [hbu, hvt]
          have hlinksu : HasLinks v (u.icache ip).inum := by rwa [hinumu]
          have hsteady' := (hsteady.trans hsteadyu).mono hsub
          cases r with
          | none =>
            obtain ⟨hs, hu⟩ := hfound
            have hnone : lookup (entries nd.data) (stringAt name' DIRSIZ) = none :=
              lookup_eq_none.mpr (search_eq_none.mp hs)
            apply Lib.Ensures.bind (drop_dir hu hvu hlinksu)
            rintro w ⟨hw, hsteadyw, hbw⟩
            refine ⟨hsteady'.trans hsteadyw, hbw.trans (hbu.trans hb), ?_⟩
            rw [hnone]
            exact hw
          | some r =>
            obtain ⟨next, off⟩ := r
            obtain ⟨hu, hlookup, -⟩ := hfound
            rw [Multiset.cons_swap] at hu
            have hnext := hsane.linked _ _ ⟨nd, hnd, hnz⟩ hes _ _ hlookup
            apply Lib.Ensures.bind (drop_dir hu hvu hlinksu)
            rintro w ⟨hw, hsteadyw, hbw⟩
            have hinumw := (hsteadyw next (Multiset.mem_cons_self next H)).1
            have hvw : view sb w.blocks = v := by rw [hbw, hvu]
            have hloop := ih _ (hlen ▸ hshort) hw hvw (by rwa [hinumw]) path' name' rfl
            apply hloop.imp
            rintro ⟨x, r⟩ ⟨hsteadyx, hbx, hret⟩
            dsimp only at hsteadyx hbx hret ⊢
            have hsubw : ∀ iq ∈ H, iq ∈ next ::ₘ H := fun iq hq ↦ Multiset.mem_cons_of_mem hq
            refine ⟨(hsteady'.trans (hsteadyw.mono hsubw)).trans hsteadyx,
              hbx.trans (hbw.trans (hbu.trans hb)), ?_⟩
            rw [hlookup, Option.bind_some, ← hinumw]
            exact hret
    · next hskip =>
      have helems := skipelem_eq_none.mp hskip
      rw [helems, resolveFor]
      split
      · apply Lib.Ensures.bind (drop_dir h hv hlinks)
        rintro t ⟨ht, hsteady, hb⟩
        exact ⟨hsteady, hb, ht⟩
      · exact ⟨Steady.refl H s, rfl, h, rfl, fun n hn ↦ by cases hn⟩

/-- The inode that a path is followed from, for a process in directory `cwd`. -/
def origin (cwd : Nat) (path : CString) : Nat := if path.head? = some slash then ROOTINO else cwd

/-- `namex` finds what the path means, or nothing, and changes neither the disk nor the references
that were held; it can only run out of slots for inodes. -/
theorem namex_spec (dev : Devsw) (isParent : Bool) (h : Holding sb H s) (hcwd : cwd ∈ H)
    (hsane : Sane (view sb s.blocks))
    (hlinks : HasLinks (view sb s.blocks) (origin (s.icache cwd).inum path)) (name : Nat → UInt8) :
    Lib.Ensures (namex sb dev s cwd path isParent name) (· = .fs .igetNoInodes) fun r ↦
      Steady H s r.1 ∧ r.1.blocks = s.blocks ∧
        Returned sb H r.1 (resolveFor isParent (view sb s.blocks)
          (origin (s.icache cwd).inum path) (elements path)) r.2 := by
  -- what both ways to start have done
  have hstart : ∀ r : State × Slot, Holding sb (r.2 ::ₘ H) r.1 ∧ Steady H s r.1 ∧
      r.1.blocks = s.blocks ∧ (r.1.icache r.2).inum = origin (s.icache cwd).inum path →
      Lib.Ensures (namexLoop sb dev isParent r.1 r.2 path name) (· = .fs .igetNoInodes) fun r ↦
        Steady H s r.1 ∧ r.1.blocks = s.blocks ∧
          Returned sb H r.1 (resolveFor isParent (view sb s.blocks)
            (origin (s.icache cwd).inum path) (elements path)) r.2 := by
    rintro ⟨t, ip⟩ ⟨ht, hsteady, hb, hinum⟩
    dsimp only at ht hsteady hb hinum ⊢
    have hloop := namexLoop_spec dev isParent hsane ht (by rw [hb]) (by rwa [hinum]) path name
    apply hloop.imp
    rintro ⟨u, r⟩ ⟨hsteadyu, hbu, hret⟩
    rw [hinum] at hret
    exact ⟨hsteady.trans hsteadyu, hbu.trans hb, hret⟩
  unfold namex
  by_cases hroot : path.head? = some slash
  · have horigin : origin (s.icache cwd).inum path = ROOTINO := if_pos hroot
    obtain ⟨nd, hnd, -⟩ := hlinks
    rw [horigin] at hnd
    have higet := iget_refs h (live_of_view hnd)
    rw [if_pos hroot]
    apply Lib.Ensures.bind (Lib.Ensures.mapError_iff.mpr (higet.mono (fun r hr ↦ hr) ?_))
    · intro r hr
      apply hstart r
      rwa [horigin]
    · rintro e rfl
      rfl
  · have horigin : origin (s.icache cwd).inum path = (s.icache cwd).inum := if_neg hroot
    rw [if_neg hroot]
    apply hstart (idup s cwd, cwd)
    rw [horigin]
    exact idup_refs h hcwd

/-- What `namei` returns. -/
theorem namei_spec (dev : Devsw) (h : Holding sb H s) (hcwd : cwd ∈ H)
    (hsane : Sane (view sb s.blocks))
    (hlinks : HasLinks (view sb s.blocks) (origin (s.icache cwd).inum path)) (name : Nat → UInt8) :
    Lib.Ensures (namei sb dev s cwd path name) (· = .fs .igetNoInodes) fun r ↦
      Steady H s r.1 ∧ r.1.blocks = s.blocks ∧
        (r.2 = none → Holding sb H r.1 ∧ resolve (view sb s.blocks)
          (origin (s.icache cwd).inum path) (elements path) = none) ∧
        ∀ ip, r.2 = some ip → Holding sb (ip ::ₘ H) r.1 ∧ resolve (view sb s.blocks)
          (origin (s.icache cwd).inum path) (elements path) = some (r.1.icache ip).inum := by
  apply Lib.Ensures.bind (namex_spec dev false h hcwd hsane hlinks name)
  rintro ⟨t, r⟩ ⟨hsteady, hb, hret⟩
  rw [resolveFor_false] at hret
  refine ⟨hsteady, hb, ?_⟩
  cases hres : resolve (view sb s.blocks) (origin (s.icache cwd).inum path) (elements path) with
  | none =>
    rw [hres] at hret
    cases r with
    | none => exact ⟨fun _ ↦ ⟨hret, rfl⟩, fun ip hip ↦ by cases hip⟩
    | some r => exact hret.elim
  | some i =>
    rw [hres] at hret
    cases r with
    | none => exact hret.elim
    | some r =>
      obtain ⟨ip, name'⟩ := r
      refine ⟨fun hc ↦ (by cases hc), fun iq hiq ↦ ?_⟩
      cases hiq
      exact ⟨hret.1, by rw [hret.2.1]⟩

/-- What `nameiparent` returns. -/
theorem nameiparent_spec (dev : Devsw) (h : Holding sb H s) (hcwd : cwd ∈ H)
    (hsane : Sane (view sb s.blocks))
    (hlinks : HasLinks (view sb s.blocks) (origin (s.icache cwd).inum path)) (name : Nat → UInt8) :
    Lib.Ensures (nameiparent sb dev s cwd path name) (· = .fs .igetNoInodes) fun r ↦
      Steady H s r.1 ∧ r.1.blocks = s.blocks ∧
        (r.2 = none → Holding sb H r.1 ∧ resolveParent (view sb s.blocks)
          (origin (s.icache cwd).inum path) (elements path) = none) ∧
        ∀ dp name', r.2 = some (dp, name') → Holding sb (dp ::ₘ H) r.1 ∧
          (r.1.icache dp).valid = true ∧ resolveParent (view sb s.blocks)
            (origin (s.icache cwd).inum path) (elements path) =
              some ((r.1.icache dp).inum, stringAt name' DIRSIZ) := by
  apply (namex_spec dev true h hcwd hsane hlinks name).imp
  rintro ⟨t, r⟩ ⟨hsteady, hb, hret⟩
  rw [resolveFor_true] at hret
  refine ⟨hsteady, hb, ?_⟩
  cases hres : resolveParent (view sb s.blocks) (origin (s.icache cwd).inum path)
      (elements path) with
  | none =>
    rw [hres] at hret
    cases r with
    | none => exact ⟨fun _ ↦ ⟨hret, rfl⟩, fun dp name' hdp ↦ by cases hdp⟩
    | some r => exact hret.elim
  | some d =>
    obtain ⟨i, n⟩ := d
    rw [hres] at hret
    cases r with
    | none => exact hret.elim
    | some r =>
      obtain ⟨ip, name'⟩ := r
      obtain ⟨hh, hinum, hlast⟩ := hret
      obtain ⟨hv, hn⟩ := hlast n rfl
      refine ⟨fun hc ↦ (by cases hc), fun dp name'' hdp ↦ ?_⟩
      cases hdp
      exact ⟨hh, hv, by rw [hinum, hn]⟩

end

end Xv6.Fs
