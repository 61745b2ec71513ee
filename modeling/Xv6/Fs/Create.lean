import Xv6.Fs.Intact

/-!
# Making inodes

`create` makes an inode with its first name, for `sys_mkdir`, `sys_mknod` and `sys_open`.
-/

namespace Xv6.Fs

open Function

open Mkfs (DIRSIZ T_DIR T_FILE ROOTINO)

/-- What `create` has done when it returns inode `i`: it has found a file at the path, or it has
made a new inode there. -/
def Created (sb : Superblock) (s : State) (cwd : Slot) (path : CString) (type : Int16) (i : Nat)
    (v' : Nat → Option Node) : Prop :=
  (type = T_FILE ∧ v' = view sb s.blocks ∧
    resolve (view sb s.blocks) (origin (s.icache cwd).inum path) (elements path) = some i ∧
    ∃ nd, view sb s.blocks i = some nd ∧ nd.type = T_FILE) ∨
  ∃ d nm, resolveParent (view sb s.blocks) (origin (s.icache cwd).inum path)
      (elements path) = some (d, nm) ∧ Creates sb.ninodes d i nm type (view sb s.blocks) v'

/-- What `sys_mkdir` and `sys_mknod` have done: there is a new inode at the path. -/
def Makes (sb : Superblock) (s : State) (cwd : Slot) (path : CString) (type : Int16)
    (v' : Nat → Option Node) : Prop :=
  ∃ d i nm, resolveParent (view sb s.blocks) (origin (s.icache cwd).inum path)
      (elements path) = some (d, nm) ∧ Creates sb.ninodes d i nm type (view sb s.blocks) v'

/-- What `sys_open` has opened: what was at the path, or a new file there. -/
def Opens (sb : Superblock) (s : State) (cwd : Slot) (path : CString) (omode : UInt32) (i : Nat)
    (v' : Nat → Option Node) : Prop :=
  if omode &&& O_CREATE ≠ 0 then Created sb s cwd path T_FILE i v'
  else v' = view sb s.blocks ∧
    resolve (view sb s.blocks) (origin (s.icache cwd).inum path) (elements path) = some i ∧
    ∃ nd, view sb s.blocks i = some nd ∧ (nd.type = T_DIR → omode = O_RDONLY)

section

variable {sb : Superblock} {dev : Devsw} {s t : State} {ip dp cwd : Slot} {H : Multiset Slot}
  {path : CString} {nd : Node}

/-- `makeDots` completes a new inode, and counts the link from a new directory to its parent. -/
private theorem makeDots_spec (dev : Devsw) (hsmall : sb.ninodes ≤ 65536)
    {v : Nat → Option Node} {i d : Nat} {type : Int16} (h : Holding sb H s) (hpmem : dp ∈ H)
    (himem : ip ∈ H) (hview : view sb s.blocks = update v i (some ⟨type, 1, []⟩))
    (hdv : (s.icache dp).valid = true) (hiv : (s.icache ip).valid = true)
    (hdp : (s.icache dp).inum = d) (hip : (s.icache ip).inum = i) (hid : i ≠ d) (hi0 : 0 < i)
    (hd : LinkedDir v d nd) :
    Lib.Ensures (makeDots sb dev s dp ip type) Full fun t ↦
      Holding sb H t ∧ Steady H s t ∧ ∃ x : Node, x.type = type ∧ x.nlink = 1 ∧
        (type = T_DIR → 16 ∣ x.data.length ∧ entries x.data = [⟨i, dot⟩, ⟨d, dotdot⟩]) ∧
        (type ≠ T_DIR → x.data = []) ∧
        view sb t.blocks = update (update v i (some x)) d (some ⟨T_DIR,
          if type = T_DIR then nd.nlink + 1 else nd.nlink, nd.data⟩) := by
  have hnd : nd = ⟨T_DIR, nd.nlink, nd.data⟩ := by rw [← hd.dir]
  have hbounds : ∀ iq ∈ H, (s.icache iq).inum < 65536 := fun iq hq ↦
    Nat.lt_of_lt_of_le (h.live iq hq).1 hsmall
  have hi := hbounds ip himem
  have hdlt := hbounds dp hpmem
  rw [hip] at hi
  rw [hdp] at hdlt
  unfold makeDots
  by_cases hdir : type = T_DIR
  · rw [if_pos hdir]
    have hnode : view sb s.blocks (s.icache dp).inum = some nd := by
      rw [hview, hdp, update_of_ne hid.symm, hd.node]
    have hset := setFields_node h hpmem hdv hnode (s.icache dp).major (s.icache dp).minor
      ((s.icache dp).nlink + 1)
    rw [(h.fields hpmem hdv hnode).2.1, hview, hdp, hd.dir] at hset
    have hset' : Holding sb H (setLink sb s dp ((s.icache dp).nlink + 1)) ∧
        Steady H s (setLink sb s dp ((s.icache dp).nlink + 1)) ∧
        view sb (setLink sb s dp ((s.icache dp).nlink + 1)).blocks =
          update (update v i (some ⟨type, 1, []⟩)) d
            (some ⟨T_DIR, nd.nlink + 1, nd.data⟩) := by
      rw [setLink, (h.fields hpmem hdv hnode).2.1]
      exact hset
    dsimp only
    generalize setLink sb s dp ((s.icache dp).nlink + 1) = t₁ at hset' ⊢
    obtain ⟨ht₁, hs₁, hv₁⟩ := hset'
    have hlock₁ : LockedDir sb t₁ ip ⟨type, 1, []⟩ := by
      refine ⟨(hs₁ ip himem).2 hiv, ?_, hdir, Nat.dvd_zero 16⟩
      rw [hv₁, (hs₁ ip himem).1, hip, update_of_ne hid, update_self]
    have hi₁ : (t₁.icache ip).inum < 65536 := by rwa [(hs₁ ip himem).1, hip]
    have hempty : search (entries ([] : List UInt8)) dot = none :=
      search_eq_none.mpr (List.forall_mem_nil _)
    have hlink₁ := dirlink_new dev ht₁ himem hlock₁ (stringAt_chars (s := dot) (by decide)) hi₁
      hempty
    apply Lib.Ensures.bind (hlink₁.mono (fun _ hr ↦ hr) fun _ ↦ Full.of_link)
    rintro ⟨t₂, _⟩ ⟨rfl, ht₂, hs₂, x₁, hlock₂, hx₁l, hx₁e, hv₂⟩
    dsimp only at ht₂ hs₂ hlock₂ hv₂ ⊢
    rw [if_neg (by decide)]
    rw [(hs₁ ip himem).1, hip] at hx₁e hv₂
    have hes₁ : entries x₁.data = [⟨i, dot⟩] := hx₁e.trans (by simp [entries, vacancy, put])
    have hdp₂ : (t₂.icache dp).inum < 65536 := by
      rwa [(hs₂ dp hpmem).1, (hs₁ dp hpmem).1, hdp]
    have hnone : search (entries x₁.data) dotdot = none := by
      rw [hes₁]
      apply search_eq_none.mpr
      intro e he hn
      rw [List.mem_singleton] at he
      subst he
      exact absurd hn.2 (show dot ≠ dotdot by decide)
    have hlink₂ := dirlink_new dev ht₂ himem hlock₂ (stringAt_chars (s := dotdot) (by decide)) hdp₂
      hnone
    apply Lib.Ensures.bind (hlink₂.mono (fun _ hr ↦ hr) fun _ ↦ Full.of_link)
    rintro ⟨t₃, _⟩ ⟨rfl, ht₃, hs₃, x, hlock₃, hxl, hxe, hv₃⟩
    dsimp only at ht₃ hs₃ hlock₃ hv₃ ⊢
    rw [if_neg (by decide)]
    refine ⟨ht₃, (hs₁.trans hs₂).trans hs₃, x, ?_, ?_, fun _ ↦ ⟨hlock₃.aligned, ?_⟩,
      fun hc ↦ absurd hdir hc, ?_⟩
    · rw [hlock₃.dir, hdir]
    · rw [hxl, hx₁l]
    · rw [hxe, hes₁, (hs₂ dp hpmem).1, (hs₁ dp hpmem).1, hdp]
      have hvac : vacancy [⟨i, dot⟩] = 1 := by simp [vacancy, hi0.ne']
      rw [hvac]
      rfl
    · rw [hv₃, hv₂, (hs₂ ip himem).1, (hs₁ ip himem).1, hip, hv₁, if_pos hdir, update_idem,
        update_comm hid, update_idem, update_comm hid.symm]
  · rw [if_neg hdir]
    refine ⟨h, Steady.refl H s, ⟨type, 1, []⟩, rfl, rfl, fun hc ↦ absurd hc hdir, fun _ ↦ rfl, ?_⟩
    rw [hview, if_neg hdir, ← hnd, ← hd.node]
    symm
    have hsame : update v i (some (⟨type, 1, []⟩ : Node)) d = v d := update_of_ne hid.symm _ _
    rw [← hsame, update_eq_self]

/-- The part of `create` that makes a new inode. -/
private theorem create_new (dev : Devsw) (hsmall : sb.ninodes ≤ 65536) (h : Intact sb H s)
    {v : Nat → Option Node} {d : Nat} {nm : CString} {type : Int16} (hv : view sb s.blocks = v)
    (htype : type ≠ 0) (hroom : Roomy v) (ht : Holding sb (dp ::ₘ H) t) (hs : Steady H s t)
    (hb : view sb t.blocks = v) (hdv : (t.icache dp).valid = true) (hdp : (t.icache dp).inum = d)
    (hd : LinkedDir v d nd) (hnone : search (entries nd.data) nm = none) {name : Nat → UInt8}
    (hname : stringAt name DIRSIZ = nm) (major minor : Int16) :
    Lib.Ensures (do
      let (s, ip) ← (ialloc sb t type).mapError DirPanic.fs
      let s ← (ilock sb s ip).mapError DirPanic.fs
      let s := setFields sb s ip major minor 1
      let s ← makeDots sb dev s dp ip type
      let (s, ok) ← dirlink sb dev s dp name (s.icache ip).inum
      if ok = false then
        .error DirPanic.createDirlink
      else do
        let s ← (iput sb s dp).mapError DirPanic.fs
        pure (s, some ip)) Full fun r ↦ ∃ ip, r.2 = some ip ∧ Intact sb (ip ::ₘ H) r.1 ∧
          Steady H s r.1 ∧ (r.1.icache ip).valid = true ∧
          Creates sb.ninodes d (r.1.icache ip).inum nm type v (view sb r.1.blocks) := by
  have htree : Tree sb.ninodes v := by
    rw [← hv]
    exact h.tree
  have hself := Multiset.mem_cons_self dp H
  have halloc := ialloc_refs ht htype
  apply Lib.Ensures.bind (Lib.Ensures.mapError_iff.mpr (halloc.mono (fun _ hr ↦ hr) ?_))
  · rintro ⟨t₁, ip⟩ ⟨ht₁, hs₁, hi0, hnew, hv₁⟩
    dsimp only at ht₁ hs₁ hi0 hnew hv₁ ⊢
    have himem := Multiset.mem_cons_self ip (dp ::ₘ H)
    have hpmem : dp ∈ ip ::ₘ dp ::ₘ H := Multiset.mem_cons_of_mem hself
    obtain ⟨i, hi⟩ : ∃ i, i = (t₁.icache ip).inum := ⟨_, rfl⟩
    rw [← hi] at hi0 hnew hv₁
    rw [hb] at hnew hv₁
    have hilt : i < sb.ninodes := by
      rw [hi]
      exact (ht₁.live ip himem).1
    have hid : i ≠ d := by
      rintro rfl
      rw [hd.node] at hnew
      cases hnew
    apply Lib.Ensures.bind (lock_spec ht₁ himem _)
    rintro t₂ ⟨ht₂, hs₂, hb₂, hiv₂⟩
    have hinum₂ := (hs₂ ip himem).1
    rw [← hi] at hinum₂
    have hnode₂ : view sb t₂.blocks (t₂.icache ip).inum = some ⟨type, 0, []⟩ := by
      rw [hb₂, hv₁, hinum₂, update_self]
    have hset := setFields_node ht₂ himem hiv₂ hnode₂ major minor 1
    rw [hb₂, hv₁, hinum₂, update_idem] at hset
    generalize setFields sb t₂ ip major minor 1 = t₃ at hset ⊢
    obtain ⟨ht₃, hs₃, hv₃⟩ := hset
    have hs₁₃ := hs₂.trans hs₃
    have hst₃ := hs₁.trans (hs₁₃.mono (mem_cons_of ip))
    have hdp₃ := hst₃ dp hself
    have hip₃ := hs₃ ip himem
    have hdots := makeDots_spec dev hsmall ht₃ hpmem himem hv₃ (hdp₃.2 hdv) (hip₃.2 hiv₂)
      (hdp₃.1.trans hdp) (hip₃.1.trans hinum₂) hid hi0 hd
    apply Lib.Ensures.bind hdots
    rintro t₄ ⟨ht₄, hs₄, x, hxt, hxl, hxd, hxn, hv₄⟩
    have hdp₄ := hs₄ dp hpmem
    have hip₄ := (hs₄ ip himem).1.trans (hip₃.1.trans hinum₂)
    have hdinum₄ := hdp₄.1.trans (hdp₃.1.trans hdp)
    have hi₄ : (t₄.icache ip).inum < 65536 := by
      rw [hip₄]
      exact Nat.lt_of_lt_of_le hilt hsmall
    -- the new inode gets its name
    have hlock₄ : LockedDir sb t₄ dp
        ⟨T_DIR, if type = T_DIR then nd.nlink + 1 else nd.nlink, nd.data⟩ :=
      { valid := hdp₄.2 (hdp₃.2 hdv)
        node := by rw [hv₄, hdinum₄, update_self]
        dir := rfl
        aligned := (htree.dirOk d nd hd.node hd.dir hd.links).aligned }
    have hlink := dirlink_new dev ht₄ hpmem hlock₄ hname hi₄ hnone
    apply Lib.Ensures.bind (hlink.mono (fun _ hr ↦ hr) fun _ ↦ Full.of_link)
    rintro ⟨t₅, _⟩ ⟨rfl, ht₅, hs₅, y, hlock₅, hyl, hye, hv₅⟩
    dsimp only at ht₅ hs₅ hlock₅ hv₅ ⊢
    rw [if_neg (by decide)]
    rw [hip₄] at hye
    rw [hdinum₄, hv₄, update_idem] at hv₅
    dsimp only at hyl
    have hmax := hroom d nd hd.node
    have hcreates : Creates sb.ninodes d i nm type v (view sb t₅.blocks) :=
      ⟨nd, x, y, hd, ⟨hi0, hilt⟩, hnew, hxt, hxl, hxd, hxn, hmax, hnone,
        ⟨hlock₅.dir, hyl, hlock₅.aligned, hye⟩, hv₅⟩
    have hyz : y.nlink ≠ 0 := by
      rw [hyl]
      by_cases hdir : type = T_DIR
      · rw [if_pos hdir]
        have hnn := htree.links d nd hd.node
        have hsucc := toInt_succ hmax
        intro hz
        rw [hz] at hsucc
        have hzero : (0 : Int16).toInt = 0 := rfl
        omega
      · rw [if_neg hdir]
        exact hd.links
    have hdinum₅ := (hs₅ dp hpmem).1.trans hdinum₄
    have hlinks₅ : HasLinks (view sb t₅.blocks) (t₅.icache dp).inum :=
      ⟨y, by rw [hv₅, hdinum₅, update_self], hyz⟩
    rw [Multiset.cons_swap] at ht₅
    apply Lib.Ensures.bind (iput_links ht₅ hlinks₅ _)
    rintro t₆ ⟨ht₆, hs₆, hb₆⟩
    have hself' := Multiset.mem_cons_self ip H
    have hsub : ∀ iq ∈ ip ::ₘ H, iq ∈ ip ::ₘ dp ::ₘ H := fun iq hq ↦ by
      rcases Multiset.mem_cons.mp hq with rfl | hq
      · exact himem
      · exact Multiset.mem_cons_of_mem (Multiset.mem_cons_of_mem hq)
    have hs₁₆ : Steady (ip ::ₘ H) t₁ t₆ := (((hs₁₃.trans hs₄).trans hs₅).mono hsub).trans hs₆
    have hs₀₆ : Steady H s t₆ :=
      (hs.trans (hs₁.mono (mem_cons_of dp))).trans (hs₁₆.mono (mem_cons_of ip))
    have hinum₆ : (t₆.icache ip).inum = i := (hs₁₆ ip hself').1.trans hi.symm
    have hb₆' : view sb t₆.blocks = view sb t₅.blocks := by rw [hb₆]
    refine ⟨ip, rfl, ⟨ht₆, ?_, ?_⟩, hs₀₆, ?_, ?_⟩
    · rw [hb₆']
      exact hcreates.tree htree
    · intro j ndj hj hlj
      rw [hb₆', hv₅] at hj
      have hjd : j ≠ d := by
        rintro rfl
        rw [update_self] at hj
        cases hj
        exact hyz hlj
      have hji : j ≠ i := by
        rintro rfl
        rw [update_of_ne hjd, update_self] at hj
        cases hj
        rw [hxl] at hlj
        exact absurd hlj (by decide)
      rw [update_of_ne hjd, update_of_ne hji, ← hv] at hj
      obtain ⟨iq, hiq, hinum, hvq⟩ := h.orphans j ndj hj hlj
      have hsq := hs₀₆ iq hiq
      exact ⟨iq, Multiset.mem_cons_of_mem hiq, hsq.1.trans hinum, hsq.2 hvq⟩
    · have hv₄' := (hs₄ ip himem).2 (hip₃.2 hiv₂)
      exact (hs₆ ip hself').2 ((hs₅ ip himem).2 hv₄')
    · rw [hinum₆, hb₆']
      exact hcreates
  · rintro e (rfl | rfl)
    · exact Or.inr (Or.inl rfl)
    · exact Or.inl rfl

/-- `create` makes a new inode at the path, or finds the file there, or changes nothing since the
name is taken. -/
theorem create_spec (dev : Devsw) (hsmall : sb.ninodes ≤ 65536) (h : Intact sb H s)
    (hcwd : cwd ∈ H) (ha : Attached sb s cwd path) (hroom : Roomy (view sb s.blocks))
    {type : Int16} (htype : type ≠ 0) (major minor : Int16) (name : Nat → UInt8) :
    Lib.Ensures (create sb dev s cwd path type major minor name) Full fun r ↦
      Steady H s r.1 ∧ (r.2 = none → Intact sb H r.1 ∧ view sb r.1.blocks = view sb s.blocks ∧
          Taken (view sb s.blocks) (origin (s.icache cwd).inum path) (elements path)) ∧
        ∀ ip, r.2 = some ip → Intact sb (ip ::ₘ H) r.1 ∧ (r.1.icache ip).valid = true ∧
          Created sb s cwd path type (r.1.icache ip).inum (view sb r.1.blocks) := by
  have hparent := nameiparent_spec dev h.holding hcwd h.tree.sane ha name
  apply Lib.Ensures.bind (hparent.mono (fun _ hr ↦ hr) fun _ ↦ Full.of_iget)
  rintro ⟨t₁, r⟩ ⟨hs₁, hb₁, hnone, hsome⟩
  dsimp only at hs₁ hb₁ hnone hsome ⊢
  have hv₁ : view sb t₁.blocks = view sb s.blocks := by rw [hb₁]
  cases r with
  | none =>
    obtain ⟨ht₁, hres⟩ := hnone rfl
    exact ⟨hs₁, fun _ ↦ ⟨h.congr ht₁ hs₁ hv₁, hv₁, .of_none hres⟩, fun ip hip ↦ by cases hip⟩
  | some r =>
    obtain ⟨dp, name'⟩ := r
    obtain ⟨ht₁, hdv₁, hres⟩ := hsome dp name' rfl
    obtain ⟨nd, hd⟩ := h.parent ha hres
    have hself := Multiset.mem_cons_self dp H
    apply Lib.Ensures.bind (lock_spec ht₁ hself _)
    rintro t₂ ⟨ht₂, hs₂, hb₂, hdv₂⟩
    have hdp₂ := (hs₂ dp hself).1
    have hv₂ : view sb t₂.blocks = view sb s.blocks := by rw [hb₂, hv₁]
    have hs₀₂ : Steady H s t₂ := hs₁.trans (hs₂.mono (mem_cons_of dp))
    have hlock : LockedDir sb t₂ dp nd := hd.locked h.tree hdv₂ hv₂ hdp₂
    have hlook := dirlookup_spec dev ht₂ hself hlock name' fun i hi ↦ by
      obtain ⟨ndi, hndi, -⟩ := h.named hd hi
      exact live_of_view (by rw [hv₂, hndi])
    apply Lib.Ensures.bind (hlook.mono (fun _ hr ↦ hr) fun _ ↦ Full.of_iget)
    rintro ⟨t₃, r⟩ ⟨hs₃, hb₃, hfound⟩
    dsimp only at hs₃ hb₃ hfound ⊢
    have hv₃ : view sb t₃.blocks = view sb s.blocks := by rw [hb₃, hv₂]
    obtain ⟨hdp₃, hdv₃⟩ := hs₃ dp hself
    have hs₀₃ : Steady H s t₃ := hs₀₂.trans (hs₃.mono (mem_cons_of dp))
    cases r with
    | some r =>
      -- there is something at the path
      obtain ⟨ip, off⟩ := r
      obtain ⟨ht₃, hlookup, -⟩ := hfound
      rw [Multiset.cons_swap] at ht₃
      have hlinks₃ : HasLinks (view sb t₃.blocks) (t₃.icache dp).inum := by
        rw [hv₃, hdp₃, hdp₂]
        exact ⟨nd, hd.node, hd.links⟩
      apply Lib.Ensures.bind (iput_links ht₃ hlinks₃ _)
      rintro t₄ ⟨ht₄, hs₄, hb₄⟩
      have hself' := Multiset.mem_cons_self ip H
      apply Lib.Ensures.bind (lock_spec ht₄ hself' _)
      rintro t₅ ⟨ht₅, hs₅, hb₅, hiv₅⟩
      have hv₅ : view sb t₅.blocks = view sb s.blocks := by rw [hb₅, hb₄, hv₃]
      have hs₀₅ : Steady H s t₅ := hs₀₃.trans ((hs₄.trans hs₅).mono (mem_cons_of ip))
      have hinum₅ : (t₅.icache ip).inum = (t₃.icache ip).inum :=
        (hs₅ ip hself').1.trans (hs₄ ip hself').1
      obtain ⟨ndi, hndi, hlinks⟩ := h.named hd hlookup
      rw [← hinum₅] at hlookup hndi
      have hnode : view sb t₅.blocks (t₅.icache ip).inum = some ndi := by rw [hv₅, hndi]
      rw [(ht₅.fields hself' hiv₅ hnode).1]
      split
      · next hfile =>
        refine ⟨hs₀₅, fun hc ↦ (by cases hc), fun iq hiq ↦ ?_⟩
        cases hiq
        refine ⟨h.more ht₅ hs₀₅ hv₅, hiv₅, Or.inl ⟨hfile.1, hv₅, ?_, ndi, hndi, hfile.2⟩⟩
        rw [resolve_of_parent hres hd, hlookup]
      · have hlinks₅ : HasLinks (view sb t₅.blocks) (t₅.icache ip).inum := ⟨ndi, hnode, hlinks⟩
        apply Lib.Ensures.bind (iput_links ht₅ hlinks₅ _)
        rintro t₆ ⟨ht₆, hs₆, hb₆⟩
        have hv₆ : view sb t₆.blocks = view sb s.blocks := by rw [hb₆, hv₅]
        have hs₀₆ := hs₀₅.trans hs₆
        exact ⟨hs₀₆, fun _ ↦ ⟨h.congr ht₆ hs₀₆ hv₆, hv₆, .of_found hres hd hlookup⟩,
          fun iq hiq ↦ by cases hiq⟩
    | none =>
      obtain ⟨hno, ht₃⟩ := hfound
      have hnew := create_new dev hsmall h rfl htype hroom ht₃ hs₀₃ hv₃ (hdv₃ hdv₂)
        (hdp₃.trans hdp₂) hd hno rfl major minor
      apply hnew.imp
      rintro ⟨t, r⟩ ⟨ip, hr, ht, hs, hv, hcreates⟩
      dsimp only at hr ht hs hv hcreates
      subst hr
      refine ⟨hs, fun hc ↦ (by cases hc), fun iq hiq ↦ ?_⟩
      cases hiq
      exact ⟨ht, hv, Or.inr ⟨_, _, hres, hcreates⟩⟩

theorem Creates.node {n d i : Nat} {nm : CString} {type : Int16}
    {v v' : Nat → Option Node} (h : Creates n d i nm type v v') :
    ∃ x, v' i = some x ∧ x.type = type ∧ x.nlink = 1 := by
  obtain ⟨nd, x, y, hd, -, hnew, hxt, hxl, -, -, -, -, -, rfl⟩ := h
  have hid : i ≠ d := by
    rintro rfl
    rw [hd.node] at hnew
    cases hnew
  exact ⟨x, by rw [update_of_ne hid, update_self], hxt, hxl⟩

/-- The calls that make an inode other than a file: the end of `sys_mkdir` and `sys_mknod`. -/
private theorem make_spec (dev : Devsw) (hsmall : sb.ninodes ≤ 65536) (h : Intact sb H s)
    (hcwd : cwd ∈ H) (ha : Attached sb s cwd path) (hroom : Roomy (view sb s.blocks))
    {type : Int16} (htype : type ≠ 0) (hfile : type ≠ T_FILE) (major minor : Int16)
    (name : Nat → UInt8) :
    Lib.Ensures (do
      let (s, r) ← create sb dev s cwd path type major minor name
      match r with
      | none => pure (s, -1)
      | some ip => do
        let s ← (iput sb s ip).mapError DirPanic.fs
        pure (s, (0 : Int))) Full (Outcome sb H s
          (Taken (view sb s.blocks) (origin (s.icache cwd).inum path) (elements path))
          (Makes sb s cwd path type)) := by
  apply Lib.Ensures.bind (create_spec dev hsmall h hcwd ha hroom htype major minor name)
  rintro ⟨t, r⟩ ⟨hs, hnone, hsome⟩
  dsimp only at hs hnone hsome ⊢
  cases r with
  | none =>
    obtain ⟨ht, hv, htaken⟩ := hnone rfl
    exact ⟨ht, hs, Or.inl ⟨rfl, htaken, hv⟩⟩
  | some ip =>
    obtain ⟨ht, -, hcreated⟩ := hsome ip rfl
    obtain ⟨d, nm, hres, hc⟩ := hcreated.resolve_left fun hold ↦ hfile hold.1
    apply Lib.Ensures.bind (Lib.Ensures.mapError_iff.mpr (ht.iput _))
    rintro u ⟨hu, hs', hreap⟩
    refine ⟨hu, hs.trans hs', Or.inr ⟨rfl, d, (t.icache ip).inum, nm, hres, ?_⟩⟩
    rcases hreap with hsame | ⟨nd, hnd, hz, -, -⟩
    · rwa [hsame]
    · obtain ⟨x, hx, -, hl⟩ := hc.node
      rw [hnd] at hx
      cases hx
      rw [hz] at hl
      exact absurd hl (by decide)

/-- `sys_mkdir` makes an empty directory at the path, or changes nothing since the name is
taken. -/
theorem sys_mkdir_spec (dev : Devsw) (hsmall : sb.ninodes ≤ 65536) (h : Intact sb H s)
    (hcwd : cwd ∈ H) (ha : Attached sb s cwd path) (hroom : Roomy (view sb s.blocks))
    (name : Nat → UInt8) :
    Lib.Ensures (sys_mkdir sb dev s cwd path name) Full (Outcome sb H s
      (Taken (view sb s.blocks) (origin (s.icache cwd).inum path) (elements path))
      (Makes sb s cwd path T_DIR)) :=
  make_spec dev hsmall h hcwd ha hroom (by decide) (by decide) 0 0 name

/-- `sys_mknod` makes a device at the path, or changes nothing since the name is taken. -/
theorem sys_mknod_spec (dev : Devsw) (hsmall : sb.ninodes ≤ 65536) (h : Intact sb H s)
    (hcwd : cwd ∈ H) (ha : Attached sb s cwd path) (hroom : Roomy (view sb s.blocks))
    (major minor : Int16) (name : Nat → UInt8) :
    Lib.Ensures (sys_mknod sb dev s cwd path major minor name) Full (Outcome sb H s
      (Taken (view sb s.blocks) (origin (s.icache cwd).inum path) (elements path))
      (Makes sb s cwd path T_DEV)) :=
  make_spec dev hsmall h hcwd ha hroom (by decide) (by decide) major minor name

/-- `openInode` returns what is to be opened, or fails and changes nothing. -/
theorem openInode_spec (dev : Devsw) (hsmall : sb.ninodes ≤ 65536) (h : Intact sb H s)
    (hcwd : cwd ∈ H) (ha : Attached sb s cwd path) (hroom : Roomy (view sb s.blocks))
    (omode : UInt32) (name : Nat → UInt8) :
    Lib.Ensures (openInode sb dev s cwd path omode name) Full fun r ↦
      Steady H s r.1 ∧ (r.2 = none → Intact sb H r.1 ∧ view sb r.1.blocks = view sb s.blocks) ∧
        ∀ ip, r.2 = some ip → Intact sb (ip ::ₘ H) r.1 ∧ (r.1.icache ip).valid = true ∧
          Opens sb s cwd path omode (r.1.icache ip).inum (view sb r.1.blocks) := by
  unfold openInode Opens
  by_cases hcreate : omode &&& O_CREATE ≠ 0
  · simp only [if_pos hcreate]
    apply (create_spec dev hsmall h hcwd ha hroom (by decide) 0 0 name).imp
    rintro r ⟨hs, hnone, hsome⟩
    exact ⟨hs, fun hr ↦ ⟨(hnone hr).1, (hnone hr).2.1⟩, hsome⟩
  · simp only [if_neg hcreate]
    have hnamei := namei_spec dev h.holding hcwd h.tree.sane ha name
    apply Lib.Ensures.bind (hnamei.mono (fun _ hr ↦ hr) fun _ ↦ Full.of_iget)
    rintro ⟨t₁, r⟩ ⟨hs₁, hb₁, hnone, hsome⟩
    dsimp only at hs₁ hb₁ hnone hsome ⊢
    have hv₁ : view sb t₁.blocks = view sb s.blocks := by rw [hb₁]
    cases r with
    | none => exact ⟨hs₁, fun _ ↦ ⟨h.congr (hnone rfl).1 hs₁ hv₁, hv₁⟩, fun ip hip ↦ by cases hip⟩
    | some ip =>
      obtain ⟨ht₁, hres⟩ := hsome ip rfl
      have hself := Multiset.mem_cons_self ip H
      apply Lib.Ensures.bind (lock_spec ht₁ hself _)
      rintro t₂ ⟨ht₂, hs₂, hb₂, hiv₂⟩
      have hv₂ : view sb t₂.blocks = view sb s.blocks := by rw [hb₂, hv₁]
      have hs₀₂ : Steady H s t₂ := hs₁.trans (hs₂.mono (mem_cons_of ip))
      rw [← (hs₂ ip hself).1] at hres
      obtain ⟨nd, hnd, hl⟩ := h.tree.sane.resolve ha hres
      have hnode : view sb t₂.blocks (t₂.icache ip).inum = some nd := by rw [hv₂, hnd]
      rw [(ht₂.fields hself hiv₂ hnode).1]
      split
      · apply Lib.Ensures.bind (iput_links ht₂ ⟨nd, hnode, hl⟩ _)
        rintro t₃ ⟨ht₃, hs₃, hb₃⟩
        have hv₃ : view sb t₃.blocks = view sb s.blocks := by rw [hb₃, hv₂]
        have hs₀₃ := hs₀₂.trans hs₃
        exact ⟨hs₀₃, fun _ ↦ ⟨h.congr ht₃ hs₀₃ hv₃, hv₃⟩, fun iq hiq ↦ by cases hiq⟩
      · next hmode =>
        refine ⟨hs₀₂, fun hc ↦ (by cases hc), fun iq hiq ↦ ?_⟩
        cases hiq
        refine ⟨h.more ht₂ hs₀₂ hv₂, hiv₂, hv₂, hres, nd, hnd, fun hdir ↦ ?_⟩
        exact not_not.mp fun hm ↦ hmode ⟨hdir, hm⟩

end

end Xv6.Fs
