import Xv6.Fs.Intact

/-!
# Giving an inode another name

`sys_link` counts the link before it looks for the place of the new name, and takes it back when
there is none. In between the disk has an inode with more links than names. It locks the directory
of the new name, and never gets further when that name is the directory's own.
-/

namespace Xv6.Fs

open Function

open Mkfs (DIRSIZ T_DIR T_FILE ROOTINO)

/-- What a successful `sys_link` has done: the inode at the old path has the new path too. -/
def GainsName (sb : Superblock) (s : State) (cwd : Slot) (old new : CString)
    (v' : Nat → Option Node) : Prop :=
  ∃ d i nm, resolve (view sb s.blocks) (origin (s.icache cwd).inum old) (elements old) = some i ∧
    resolveParent (view sb s.blocks) (origin (s.icache cwd).inum new) (elements new) =
      some (d, nm) ∧ Links d i nm (view sb s.blocks) v'

/-- The last name of the path is that of an inode other than its directory, or there is no directory
for it. -/
def Elsewhere (v : Nat → Option Node) (i : Nat) (ns : List CString) : Prop :=
  ∀ d nm, resolveParent v i ns = some (d, nm) → ∃ j, j ≠ d ∧ nameIn v d nm = some j

/-- There is no file at the old path, or the new one leads elsewhere. -/
def NoLink (sb : Superblock) (s : State) (cwd : Slot) (old new : CString) : Prop :=
  (∀ i, resolve (view sb s.blocks) (origin (s.icache cwd).inum old) (elements old) = some i →
    dirAt (view sb s.blocks) i ≠ none) ∨
  Elsewhere (view sb s.blocks) (origin (s.icache cwd).inum new) (elements new)

/-- The path ends in a name that a directory has for itself: in `.`, or in `..` at the root. -/
def EndsInSelf (v : Nat → Option Node) (i : Nat) (ns : List CString) : Prop :=
  ∃ d nm, resolveParent v i ns = some (d, nm) ∧ (nm = dot ∨ nm = dotdot ∧ d = ROOTINO)

section

variable {sb : Superblock} {dev : Devsw} {s t : State} {ip dp cwd : Slot} {H : Multiset Slot}
  {old new : CString} {v : Nat → Option Node} {nd ndi : Node} {i : Nat}

/-! ### One link more -/

private theorem dirAt_more (hi : v i = some ndi) (x : Node) (hx : x.type = ndi.type)
    (hdata : x.data = ndi.data) : dirAt (update v i (some x)) = dirAt v := by
  funext j
  by_cases hj : j = i
  · rw [hj, dirAt, dirAt, update_self, hi]
    dsimp only
    rw [hx, hdata]
  · rw [dirAt, dirAt, update_of_ne hj]

private theorem hasLinks_more (hi : v i = some ndi) (hl : ndi.nlink ≠ 0) {x : Node}
    (hx : x.nlink ≠ 0) (j : Nat) : HasLinks (update v i (some x)) j ↔ HasLinks v j := by
  by_cases hj : j = i
  · rw [hj]
    exact iff_of_true ⟨x, update_self _ _ _, hx⟩ ⟨ndi, hi, hl⟩
  · rw [HasLinks, HasLinks, update_of_ne hj]

private theorem resolveParent_congr {v' : Nat → Option Node} (h : dirAt v' = dirAt v) (i : Nat)
    (ns : List CString) : resolveParent v' i ns = resolveParent v i ns := by
  induction ns generalizing i with
  | nil => rfl
  | cons n ns ih =>
    rw [resolveParent, resolveParent, h]
    simp only [ih]

private theorem Elsewhere.congr {v' : Nat → Option Node} (h : dirAt v' = dirAt v) {i : Nat}
    {ns : List CString} (ht : Elsewhere v' i ns) : Elsewhere v i ns := by
  intro d nm hp
  obtain ⟨j, hj, hname⟩ := ht d nm ((resolveParent_congr h i ns).trans hp)
  refine ⟨j, hj, ?_⟩
  rwa [nameIn, h, ← nameIn] at hname

/-- One link more to an inode that is not a directory does no harm to paths. -/
private theorem Sane.more (h : Sane v) (hi : v i = some ndi) (ht : ndi.type ≠ T_DIR)
    (hl : ndi.nlink ≠ 0) {x : Node} (hx : x.type = ndi.type) (hdata : x.data = ndi.data)
    (hxl : x.nlink ≠ 0) : Sane (update v i (some x)) where
  root := (hasLinks_more hi hl hxl ROOTINO).mpr h.root
  aligned j nd hj hlj htj := by
    have hji : j ≠ i := by
      rintro rfl
      rw [update_self] at hj
      cases hj
      exact ht (hx.symm.trans htj)
    rw [update_of_ne hji] at hj
    exact h.aligned j nd hj hlj htj
  linked j es hj hes nm k hk := by
    rw [dirAt_more hi x hx hdata] at hes
    rw [hasLinks_more hi hl hxl] at hj ⊢
    exact h.linked j es hj hes nm k hk

/-! ### `linkNew` -/

/-- `linkNew` gives the inode its new name in the parent of the path, or changes nothing since the
name is taken; it waits for itself when the name is that of the parent. -/
private theorem linkNew_spec (dev : Devsw) (hsmall : sb.ninodes ≤ 65536) (h : Holding sb H s)
    (hcwd : cwd ∈ H) (hip : ip ∈ H) (hv : view sb s.blocks = v) (hsane : Sane v)
    (ha : HasLinks v (origin (s.icache cwd).inum new)) (name : Nat → UInt8) :
    Lib.Ensures (linkNew sb dev s cwd ip new name)
      (fun e ↦ LinkFails e ∨ e = .deadlock ∧ ∃ d nm nd,
        resolveParent v (origin (s.icache cwd).inum new) (elements new) = some (d, nm) ∧
          LinkedDir v d nd ∧ lookup (entries nd.data) nm = some d) fun r ↦
      Holding sb H r.1 ∧ Steady H s r.1 ∧
        (r.2 = false → view sb r.1.blocks = v ∧
          Elsewhere v (origin (s.icache cwd).inum new) (elements new)) ∧
        (r.2 = true → ∃ d nm nd y, resolveParent v (origin (s.icache cwd).inum new)
          (elements new) = some (d, nm) ∧ LinkedDir v d nd ∧ search (entries nd.data) nm = none ∧
          Rewritten y nd.nlink (put (entries nd.data) (vacancy (entries nd.data))
            ⟨(s.icache ip).inum, nm⟩) ∧ view sb r.1.blocks = update v d (some y)) := by
  subst hv
  have hparent := nameiparent_spec dev h hcwd hsane ha name
  apply Lib.Ensures.bind (hparent.mono (fun _ hr ↦ hr) fun _ he ↦ Or.inl (Or.inl he))
  rintro ⟨t₁, r⟩ ⟨hs₁, hb₁, hnone, hsome⟩
  dsimp only at hs₁ hb₁ hnone hsome ⊢
  cases r with
  | none =>
    obtain ⟨ht₁, hres⟩ := hnone rfl
    refine ⟨ht₁, hs₁, fun _ ↦ ⟨by rw [hb₁], fun d nm hp ↦ ?_⟩, fun hc ↦ by cases hc⟩
    rw [hres] at hp
    cases hp
  | some r =>
    obtain ⟨dp, name'⟩ := r
    obtain ⟨ht₁, hdv₁, hres⟩ := hsome dp name' rfl
    have hself := Multiset.mem_cons_self dp H
    obtain ⟨⟨nd, hnd, hl⟩, es, hes⟩ := hsane.resolveParent ha hres
    obtain ⟨nd', hnd', htype, -⟩ := dirAt_eq_some.mp hes
    rw [hnd] at hnd'
    cases hnd'
    have hd : LinkedDir (view sb s.blocks) (t₁.icache dp).inum nd := ⟨hnd, htype, hl⟩
    apply Lib.Ensures.bind (lock_spec ht₁ hself _)
    rintro t₂ ⟨ht₂, hs₂, hb₂, hdv₂⟩
    have hdp₂ := (hs₂ dp hself).1
    have hip₂ : (t₂.icache ip).inum = (s.icache ip).inum :=
      ((hs₂ ip (mem_cons_of dp ip hip)).1).trans (hs₁ ip hip).1
    have hv₂ : view sb t₂.blocks = view sb s.blocks := by rw [hb₂, hb₁]
    have hs₀₂ : Steady H s t₂ := hs₁.trans (hs₂.mono (mem_cons_of dp))
    have hlock : LockedDir sb t₂ dp nd := by
      refine ⟨hdv₂, ?_, htype, hsane.aligned _ nd hnd hl htype⟩
      rw [hv₂, hdp₂, hnd]
    have hilt : (t₂.icache ip).inum < 65536 :=
      Nat.lt_of_lt_of_le (ht₂.live ip (mem_cons_of dp ip hip)).1 hsmall
    have hlink := dirlink_spec dev ht₂ hself hlock name' hilt fun j hj ↦ by
      rw [hv₂]
      exact hsane.linked _ _ ⟨nd, hnd, hl⟩ (dirAt_eq_some.mpr ⟨nd, hnd, htype, rfl⟩) _ j hj
    have hfails : ∀ e, (LinkFails e ∨ e = .deadlock ∧
        lookup (entries nd.data) (stringAt name' DIRSIZ) = some (t₂.icache dp).inum) →
        LinkFails e ∨ e = .deadlock ∧ ∃ d nm nd,
          resolveParent (view sb s.blocks) (origin (s.icache cwd).inum new) (elements new) =
            some (d, nm) ∧ LinkedDir (view sb s.blocks) d nd ∧
              lookup (entries nd.data) nm = some d := by
      rintro e (he | ⟨he, hself⟩)
      · exact Or.inl he
      · exact Or.inr ⟨he, _, _, nd, hres, hd, hself.trans (congrArg some hdp₂)⟩
    apply Lib.Ensures.bind (hlink.mono (fun _ hr ↦ hr) hfails)
    rintro ⟨t₃, ok⟩ ⟨ht₃, hs₃, hlinked⟩
    dsimp only at ht₃ hs₃ hlinked ⊢
    have hdp₃ : (t₃.icache dp).inum = (t₁.icache dp).inum := ((hs₃ dp hself).1).trans hdp₂
    have hs₀₃ : Steady H s t₃ := hs₀₂.trans (hs₃.mono (mem_cons_of dp))
    cases ok with
    | false =>
      obtain ⟨⟨j, hlook, hne⟩, hb₃⟩ := hlinked
      have hlinks₃ : HasLinks (view sb t₃.blocks) (t₃.icache dp).inum := by
        rw [hb₃, hv₂, hdp₃]
        exact ⟨nd, hnd, hl⟩
      apply Lib.Ensures.bind (iput_links ht₃ hlinks₃ _)
      rintro t₄ ⟨ht₄, hs₄, hb₄⟩
      refine ⟨ht₄, hs₀₃.trans hs₄, fun _ ↦ ⟨?_, fun d nm hp ↦ ?_⟩, fun hc ↦ by cases hc⟩
      · rw [hb₄, hb₃, hv₂]
      · rw [hres] at hp
        cases hp
        exact ⟨j, hdp₂ ▸ hne, (hd.nameIn_eq _).trans hlook⟩
    | true =>
      obtain ⟨hno, y, hlock₃, hyl, hye, hv₃⟩ := hlinked
      rw [hv₂, hdp₂] at hv₃
      rw [hip₂] at hye
      have hlinks₃ : HasLinks (view sb t₃.blocks) (t₃.icache dp).inum :=
        ⟨y, by rw [hv₃, hdp₃, update_self], by rw [hyl]; exact hl⟩
      apply Lib.Ensures.bind (iput_links ht₃ hlinks₃ _)
      rintro t₄ ⟨ht₄, hs₄, hb₄⟩
      refine ⟨ht₄, hs₀₃.trans hs₄, fun hc ↦ (by cases hc), fun _ ↦ ?_⟩
      refine ⟨_, _, nd, y, hres, hd, hno, ⟨hlock₃.dir, hyl, hlock₃.aligned, hye⟩, ?_⟩
      rw [hb₄, hv₃]

/-! ### `sys_link` -/

/-- `sys_link` gives the inode at the old path the new one too, or changes nothing since there is
no file or no free name. It waits for itself only when the new path ends in a dot name of a
directory for itself. -/
theorem sys_link_spec (dev : Devsw) (hsmall : sb.ninodes ≤ 65536) (h : Intact sb H s)
    (hcwd : cwd ∈ H) (hold : Attached sb s cwd old) (hnew : Attached sb s cwd new)
    (hroom : Roomy (view sb s.blocks)) (name : Nat → UInt8) :
    Lib.Ensures (sys_link sb dev s cwd old new name)
      (fun e ↦ LinkFails e ∨ e = .deadlock ∧
        EndsInSelf (view sb s.blocks) (origin (s.icache cwd).inum new) (elements new))
      (Outcome sb H s (NoLink sb s cwd old new) (GainsName sb s cwd old new)) := by
  have hnamei := namei_spec dev h.holding hcwd h.tree.sane hold name
  apply Lib.Ensures.bind (hnamei.mono (fun _ hr ↦ hr) fun _ he ↦ Or.inl (Or.inl he))
  rintro ⟨t₁, r⟩ ⟨hs₁, hb₁, hnone, hsome⟩
  dsimp only at hs₁ hb₁ hnone hsome ⊢
  cases r with
  | none =>
    obtain ⟨ht₁, hres⟩ := hnone rfl
    refine Outcome.fail h ht₁ hs₁ hb₁ (Or.inl fun i hi ↦ ?_)
    rw [hres] at hi
    cases hi
  | some ip =>
    obtain ⟨ht₁, hres⟩ := hsome ip rfl
    have hself := Multiset.mem_cons_self ip H
    apply Lib.Ensures.bind (lock_spec ht₁ hself _)
    rintro t₂ ⟨ht₂, hs₂, hb₂, hiv₂⟩
    have hv₂ : view sb t₂.blocks = view sb s.blocks := by rw [hb₂, hb₁]
    have hs₀₂ : Steady H s t₂ := hs₁.trans (hs₂.mono (mem_cons_of ip))
    rw [← (hs₂ ip hself).1] at hres
    obtain ⟨ndi, hndi, hl⟩ := h.tree.sane.resolve hold hres
    have hnode : view sb t₂.blocks (t₂.icache ip).inum = some ndi := by rw [hv₂, hndi]
    obtain ⟨htype, hnlink, -⟩ := ht₂.fields hself hiv₂ hnode
    rw [htype]
    split
    · next hdir =>
      have hlinks₂ : HasLinks (view sb t₂.blocks) (t₂.icache ip).inum := ⟨ndi, hnode, hl⟩
      apply Lib.Ensures.bind (iput_links ht₂ hlinks₂ _)
      rintro t₃ ⟨ht₃, hs₃, hb₃⟩
      refine Outcome.fail h ht₃ (hs₀₂.trans hs₃) (hb₃.trans (hb₂.trans hb₁)) (Or.inl fun i hi ↦ ?_)
      rw [hres] at hi
      cases hi
      rw [dirAt_eq_some.mpr ⟨ndi, hndi, hdir, rfl⟩]
      exact Option.some_ne_none _
    · next hdir =>
      obtain ⟨i, hi⟩ : ∃ i, i = (t₂.icache ip).inum := ⟨_, rfl⟩
      rw [← hi] at hres hndi hnode
      have hmax := hroom i ndi hndi
      have hxl : ndi.nlink + 1 ≠ 0 := by
        have hnn := h.tree.links i ndi hndi
        have hsucc := toInt_succ hmax
        intro hz
        rw [hz] at hsucc
        have hzero : (0 : Int16).toInt = 0 := rfl
        omega
      -- the link is counted
      have hset := setFields_node ht₂ hself hiv₂ (by rw [← hi]; exact hnode) (t₂.icache ip).major
        (t₂.icache ip).minor ((t₂.icache ip).nlink + 1)
      rw [hnlink, hv₂, ← hi] at hset
      rw [setLink, hnlink]
      generalize setFields sb t₂ ip (t₂.icache ip).major (t₂.icache ip).minor (ndi.nlink + 1) = t₃
        at hset ⊢
      obtain ⟨ht₃, hs₃, hv₃⟩ := hset
      have hsub := mem_cons_of (H := H) ip
      have hs₀₃ : Steady H s t₃ := hs₀₂.trans (hs₃.mono hsub)
      have hinum₃ : (t₃.icache ip).inum = i := (hs₃ ip hself).1.trans hi.symm
      have hsane₃ := h.tree.sane.more hndi hdir hl (x := ⟨ndi.type, ndi.nlink + 1, ndi.data⟩) rfl
        rfl hxl
      have ha₃ : HasLinks (update (view sb s.blocks) i (some ⟨ndi.type, ndi.nlink + 1, ndi.data⟩))
          (origin (t₃.icache cwd).inum new) := by
        rw [hasLinks_more hndi hl hxl, (hs₀₃ cwd hcwd).1]
        exact hnew
      have hdirs := dirAt_more hndi ⟨ndi.type, ndi.nlink + 1, ndi.data⟩ rfl rfl
      have hcwd₃ := (hs₀₃ cwd hcwd).1
      -- the directory that is locked is not the inode that is linked
      have hlocked : ∀ d nd, LinkedDir (update (view sb s.blocks) i
          (some ⟨ndi.type, ndi.nlink + 1, ndi.data⟩)) d nd →
          i ≠ d ∧ LinkedDir (view sb s.blocks) d nd := by
        intro d nd hd
        have hid : i ≠ d := by
          rintro rfl
          have hnode' := hd.node
          rw [update_self] at hnode'
          cases hnode'
          exact hdir hd.dir
        refine ⟨hid, ?_, hd.dir, hd.links⟩
        rw [← hd.node, update_of_ne hid.symm]
      have hlinkNew := linkNew_spec dev hsmall ht₃ (hsub cwd hcwd) hself hv₃ hsane₃ ha₃ name
      rw [resolveParent_congr hdirs, hcwd₃] at hlinkNew
      have hfails : ∀ e, (LinkFails e ∨ e = .deadlock ∧ ∃ d nm nd,
          resolveParent (view sb s.blocks) (origin (s.icache cwd).inum new) (elements new) =
            some (d, nm) ∧ LinkedDir (update (view sb s.blocks) i
              (some ⟨ndi.type, ndi.nlink + 1, ndi.data⟩)) d nd ∧
                lookup (entries nd.data) nm = some d) →
          LinkFails e ∨ e = .deadlock ∧
            EndsInSelf (view sb s.blocks) (origin (s.icache cwd).inum new) (elements new) := by
        rintro e (he | ⟨he, d, nm, nd, hresp, hd, hlook⟩)
        · exact Or.inl he
        · have hd' := (hlocked d nd hd).2
          exact Or.inr ⟨he, d, nm, hresp, (h.tree.self_name hd'.node hd'.dir hd'.links).mp hlook⟩
      apply Lib.Ensures.bind (hlinkNew.mono (fun _ hr ↦ hr) hfails)
      rintro ⟨t₄, ok⟩ ⟨ht₄, hs₄, hfalse, htrue⟩
      dsimp only at ht₄ hs₄ hfalse htrue ⊢
      have hs₀₄ : Steady H s t₄ := hs₀₃.trans (hs₄.mono hsub)
      have hinum₄ : (t₄.icache ip).inum = i := (hs₄ ip hself).1.trans hinum₃
      cases ok with
      | false =>
        rw [if_neg (by decide)]
        obtain ⟨hv₄, helse⟩ := hfalse rfl
        apply Lib.Ensures.bind (lock_spec ht₄ hself _)
        rintro t₅ ⟨ht₅, hs₅, hb₅, hiv₅⟩
        have hinum₅ : (t₅.icache ip).inum = i := (hs₅ ip hself).1.trans hinum₄
        have hnode₅ : view sb t₅.blocks (t₅.icache ip).inum =
            some ⟨ndi.type, ndi.nlink + 1, ndi.data⟩ := by
          rw [hb₅, hv₄, hinum₅, update_self]
        -- the link is taken back
        have hset := setFields_node ht₅ hself hiv₅ hnode₅ (t₅.icache ip).major
          (t₅.icache ip).minor ((t₅.icache ip).nlink - 1)
        rw [(ht₅.fields hself hiv₅ hnode₅).2.1, hb₅, hv₄, hinum₅, update_idem] at hset
        rw [setLink, (ht₅.fields hself hiv₅ hnode₅).2.1]
        dsimp only at hset ⊢
        have hback : ndi.nlink + 1 - 1 = ndi.nlink := by simp
        rw [hback] at hset ⊢
        have hsame : update (view sb s.blocks) i (some ⟨ndi.type, ndi.nlink, ndi.data⟩) =
            view sb s.blocks := by
          rw [← hndi, update_eq_self]
        rw [hsame] at hset
        generalize setFields sb t₅ ip (t₅.icache ip).major (t₅.icache ip).minor ndi.nlink = t₆
          at hset ⊢
        obtain ⟨ht₆, hs₆, hv₆⟩ := hset
        have hlinks₆ : HasLinks (view sb t₆.blocks) (t₆.icache ip).inum :=
          ⟨ndi, by rw [hv₆, (hs₆ ip hself).1, hinum₅, hndi], hl⟩
        apply Lib.Ensures.bind (iput_links ht₆ hlinks₆ _)
        rintro t₇ ⟨ht₇, hs₇, hb₇⟩
        have hv₇ : view sb t₇.blocks = view sb s.blocks := by rw [hb₇, hv₆]
        have hs₀₇ : Steady H s t₇ := (hs₀₄.trans ((hs₅.trans hs₆).mono hsub)).trans hs₇
        exact ⟨h.congr ht₇ hs₀₇ hv₇, hs₀₇, Or.inl ⟨rfl, Or.inr (helse.congr hdirs), hv₇⟩⟩
      | true =>
        rw [if_pos rfl]
        obtain ⟨d, nm, nd, y, hresp, hd, hno, hy, hv₄⟩ := htrue rfl
        obtain ⟨hid, hd'⟩ := hlocked d nd hd
        rw [hinum₃] at hy
        have hgain : Links d i nm (view sb s.blocks) (view sb t₄.blocks) :=
          ⟨nd, ndi, y, hd', hndi, hdir, hmax, hno, hy, hv₄⟩
        have hlinks₄ : HasLinks (view sb t₄.blocks) (t₄.icache ip).inum :=
          ⟨⟨ndi.type, ndi.nlink + 1, ndi.data⟩,
            by rw [hv₄, hinum₄, update_of_ne hid, update_self], hxl⟩
        apply Lib.Ensures.bind (iput_links ht₄ hlinks₄ _)
        rintro t₅ ⟨ht₅, hs₅, hb₅⟩
        have hs₀₅ : Steady H s t₅ := hs₀₄.trans hs₅
        have hv₅ : view sb t₅.blocks = view sb t₄.blocks := by rw [hb₅]
        refine ⟨⟨ht₅, ?_, ?_⟩, hs₀₅, Or.inr ⟨rfl, d, i, nm, hres, hresp, ?_⟩⟩
        · rw [hv₅]
          exact hgain.tree h.tree
        · intro j ndj hj hlj
          rw [hv₅, hv₄] at hj
          have hjd : j ≠ d := by
            rintro rfl
            rw [update_self] at hj
            cases hj
            exact hd.links (hy.nlink_eq.symm.trans hlj)
          have hji : j ≠ i := by
            rintro rfl
            rw [update_of_ne hjd, update_self] at hj
            cases hj
            exact hxl hlj
          rw [update_of_ne hjd, update_of_ne hji] at hj
          obtain ⟨iq, hiq, hinum, hvq⟩ := h.orphans j ndj hj hlj
          exact ⟨iq, hiq, (hs₀₅ iq hiq).1.trans hinum, (hs₀₅ iq hiq).2 hvq⟩
        · rw [hv₅]
          exact hgain

/-- A link of a file to a path that ends so never returns. -/
theorem sys_link_waits (dev : Devsw) (hsmall : sb.ninodes ≤ 65536) (h : Intact sb H s)
    (hcwd : cwd ∈ H) (hold : Attached sb s cwd old) (hnew : Attached sb s cwd new)
    (hroom : Roomy (view sb s.blocks)) (name : Nat → UInt8)
    (hi : resolve (view sb s.blocks) (origin (s.icache cwd).inum old) (elements old) = some i)
    (hfile : dirAt (view sb s.blocks) i = none)
    (hself : EndsInSelf (view sb s.blocks) (origin (s.icache cwd).inum new) (elements new)) :
    Lib.Ensures (sys_link sb dev s cwd old new name) (fun e ↦ LinkFails e ∨ e = .deadlock)
      fun _ ↦ False := by
  obtain ⟨d, nm, hp, hdots⟩ := hself
  obtain ⟨nd, hd⟩ := h.parent hnew hp
  have hlook := (h.tree.self_name hd.node hd.dir hd.links).mpr hdots
  apply (sys_link_spec dev hsmall h hcwd hold hnew hroom name).mono
  · rintro r ⟨-, -, ⟨-, hno | helse, -⟩ | ⟨-, d', i', nm', -, hp', nd', -, -, hd', -, -, -, hs, -⟩⟩
    · exact hno i hi hfile
    · obtain ⟨j, hj, hname⟩ := helse d nm hp
      rw [hd.nameIn_eq, hlook] at hname
      exact hj (Option.some.inj hname).symm
    · rw [hp] at hp'
      cases hp'
      have hnode := hd'.node
      rw [hd.node] at hnode
      cases hnode
      rw [lookup_eq_none.mpr (search_eq_none.mp hs)] at hlook
      cases hlook
  · exact fun e he ↦ he.imp id And.left

end

end Xv6.Fs
