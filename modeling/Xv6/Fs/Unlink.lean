import Xv6.Fs.Intact

/-!
# Taking names away

`sys_unlink` clears an entry of a directory, and the last reference to an inode without names
takes the inode along.
-/

namespace Xv6.Fs

open Function

open Mkfs (DIRSIZ T_DIR T_FILE ROOTINO)

/-- What a successful `sys_unlink` has done: the last name of the path is gone, and with it the
inode, if that was its last name and nobody holds it. -/
def Unlinked (sb : Superblock) (H : Multiset Slot) (s : State) (cwd : Slot) (path : CString)
    (v' : Nat → Option Node) : Prop :=
  ∃ d i nm v₁, resolveParent (view sb s.blocks) (origin (s.icache cwd).inum path)
      (elements path) = some (d, nm) ∧
    Unlinks d i nm (view sb s.blocks) v₁ ∧ Reaped H i s v₁ v'

/-- The path leads to no name that may go: it has none, or a dot, or that of a directory with
entries of its own. -/
def Stays (v : Nat → Option Node) (i : Nat) (ns : List CString) : Prop :=
  ∀ d nm j, resolveParent v i ns = some (d, nm) → nameIn v d nm = some j →
    nm = dot ∨ nm = dotdot ∨ ∃ es, dirAt v j = some es ∧ ∃ e ∈ es.drop 2, e.inum ≠ 0

section

variable {sb : Superblock} {dev : Devsw} {s t : State} {ip dp cwd : Slot} {H : Multiset Slot}
  {path : CString} {nd : Node}

private theorem Stays.of_found {v : Nat → Option Node} {i d : Nat} {nm : CString}
    {ns : List CString} (hp : resolveParent v i ns = some (d, nm)) (hd : LinkedDir v d nd)
    (hl : ∀ j, lookup (entries nd.data) nm = some j → nm = dot ∨ nm = dotdot ∨
      ∃ es, dirAt v j = some es ∧ ∃ e ∈ es.drop 2, e.inum ≠ 0) : Stays v i ns := by
  intro d' nm' j hp' hj
  rw [hp] at hp'
  cases hp'
  rw [hd.nameIn_eq] at hj
  exact hl j hj

/-- The end of `sys_unlink`, when the name may go. -/
private theorem unlink_end (dev : Devsw) (h : Intact sb H s) {v : Nat → Option Node} {d i k : Nat}
    {nm : CString} {ndi : Node} (hv : view sb s.blocks = v)
    (ht : Holding sb (ip ::ₘ dp ::ₘ H) t) (hs : Steady H s t) (hb : view sb t.blocks = v)
    (hdv : (t.icache dp).valid = true) (hiv : (t.icache ip).valid = true)
    (hdp : (t.icache dp).inum = d) (hip : (t.icache ip).inum = i) (hd : LinkedDir v d nd)
    (hi : v i = some ndi) (hdot : nm ≠ dot) (hdotdot : nm ≠ dotdot)
    (hk : search (entries nd.data) nm = some k) (hl : lookup (entries nd.data) nm = some i)
    (hempty : ndi.type = T_DIR → ∀ e ∈ (entries ndi.data).drop 2, e.inum = 0) :
    Lib.Ensures (do
      let s ← writeDirent sb dev t dp (16 * k) (List.replicate 16 0) .unlinkWritei
      let s := if (s.icache ip).type = T_DIR then setLink sb s dp ((s.icache dp).nlink - 1) else s
      let s ← (iput sb s dp).mapError DirPanic.fs
      let s := setLink sb s ip ((s.icache ip).nlink - 1)
      let s ← (iput sb s ip).mapError DirPanic.fs
      pure (s, (0 : Int))) (· = .fs .igetNoInodes)
      fun r ↦ Intact sb H r.1 ∧ Steady H s r.1 ∧ r.2 = 0 ∧
        ∃ v₁, Unlinks d i nm v v₁ ∧ Reaped H i s v₁ (view sb r.1.blocks) := by
  have hpmem : dp ∈ ip ::ₘ dp ::ₘ H := Multiset.mem_cons_of_mem (Multiset.mem_cons_self dp H)
  have himem : ip ∈ ip ::ₘ dp ::ₘ H := Multiset.mem_cons_self ip _
  have hsub : ∀ iq ∈ H, iq ∈ ip ::ₘ dp ::ₘ H := fun iq hq ↦
    Multiset.mem_cons_of_mem (Multiset.mem_cons_of_mem hq)
  have htree : Tree sb.ninodes v := by
    rw [← hv]
    exact h.tree
  have hok := htree.dirOk d nd hd.node hd.dir hd.links
  have hlock : LockedDir sb t dp nd := hd.locked htree hdv hb hdp
  obtain ⟨e, hke, -⟩ := search_eq_some hk
  have hklt : k < nd.data.length / 16 := by
    rw [← length_entries]
    exact (List.getElem?_eq_some_iff.mp hke).1
  have hzero : (List.replicate 16 (0 : UInt8)).length = 16 := rfl
  have hwrite := writeDirent_spec dev ht hpmem hlock hklt.le hzero .unlinkWritei
  apply Lib.Ensures.bind (hwrite.mono (fun _ hr ↦ hr) ?_)
  · rintro t₁ ⟨ht₁, hs₁, hv₁⟩
    rw [hb, hdp] at hv₁
    obtain ⟨hpi₁, hpv₁⟩ := hs₁ dp hpmem
    obtain ⟨hii₁, hiv₁⟩ := hs₁ ip himem
    rw [hdp] at hpi₁
    rw [hip] at hii₁
    generalize hy : (⟨T_DIR, if ndi.type = T_DIR then nd.nlink - 1 else nd.nlink,
      overwrite nd.data (16 * k) (List.replicate 16 0)⟩ : Node) = y
    have hun : Unlinks d i nm v
        (update (update v d (some y)) i (some ⟨ndi.type, ndi.nlink - 1, ndi.data⟩)) := by
      refine ⟨nd, ndi, y, k, hd, hi, hdot, hdotdot, hk, hl, hempty, ?_, rfl⟩
      subst hy
      refine ⟨rfl, rfl, dvd_overwrite hok.aligned hklt.le hzero, ?_⟩
      exact (entries_overwrite hok.aligned hklt.le hzero).trans (by rw [entry_zero])
    obtain ⟨hne, ⟨y', hy', hyl⟩, htree₁⟩ := hun.tree htree
    rw [update_of_ne hne, update_self] at hy'
    cases hy'
    have hnode₁ : view sb t₁.blocks i = some ndi := by rw [hv₁, update_of_ne hne.symm, hi]
    have htype : (t₁.icache ip).type = ndi.type :=
      (ht₁.fields himem (hiv₁ hiv) (by rw [hii₁]; exact hnode₁)).1
    dsimp only
    rw [htype]
    -- the directory has lost the entry and, of a directory, the link
    obtain ⟨t₂, ht₂eq⟩ : ∃ t₂, t₂ = (if ndi.type = T_DIR then
        setLink sb t₁ dp ((t₁.icache dp).nlink - 1) else t₁) := ⟨_, rfl⟩
    rw [← ht₂eq]
    have ht₂ : Holding sb (ip ::ₘ dp ::ₘ H) t₂ ∧ Steady (ip ::ₘ dp ::ₘ H) t₁ t₂ ∧
        view sb t₂.blocks = update v d (some y) := by
      have hnode : view sb t₁.blocks (t₁.icache dp).inum =
          some ⟨T_DIR, nd.nlink, overwrite nd.data (16 * k) (List.replicate 16 0)⟩ := by
        rw [hv₁, hpi₁, update_self]
      rw [ht₂eq]
      split
      · next hdir =>
        obtain ⟨hh, hs', hview⟩ := setFields_node ht₁ hpmem (hpv₁ hdv) hnode
          (t₁.icache dp).major (t₁.icache dp).minor ((t₁.icache dp).nlink - 1)
        refine ⟨hh, hs', hview.trans ?_⟩
        rw [hv₁, hpi₁, update_idem, (ht₁.fields hpmem (hpv₁ hdv) hnode).2.1, ← hy, if_pos hdir]
      · next hdir =>
        refine ⟨ht₁, Steady.refl _ _, ?_⟩
        rw [hv₁, ← hy, if_neg hdir]
    obtain ⟨hh₂, hs₂, hv₂⟩ := ht₂
    have hpi₂ := (hs₂ dp hpmem).1.trans hpi₁
    rw [Multiset.cons_swap] at hh₂
    have hlinks₂ : HasLinks (view sb t₂.blocks) (t₂.icache dp).inum :=
      ⟨y, by rw [hv₂, hpi₂, update_self], hyl⟩
    apply Lib.Ensures.bind (iput_links hh₂ hlinks₂ _)
    rintro t₃ ⟨ht₃, hs₃, hb₃⟩
    have hself := Multiset.mem_cons_self ip H
    have hs₁₃ : Steady (ip ::ₘ H) t t₃ := by
      have hsub' : ∀ iq ∈ ip ::ₘ H, iq ∈ ip ::ₘ dp ::ₘ H := by
        intro iq hq
        rcases Multiset.mem_cons.mp hq with rfl | hq
        · exact himem
        · exact hsub iq hq
      exact ((hs₁.trans hs₂).mono hsub').trans hs₃
    obtain ⟨hii₃, hiv₃⟩ := hs₁₃ ip hself
    rw [hip] at hii₃
    have hv₃ : view sb t₃.blocks = update v d (some y) := by rw [hb₃, hv₂]
    have hnode₃ : view sb t₃.blocks (t₃.icache ip).inum = some ndi := by
      rw [hv₃, hii₃, update_of_ne hne.symm, hi]
    have ht₄ : Holding sb (ip ::ₘ H) (setLink sb t₃ ip ((t₃.icache ip).nlink - 1)) ∧
        Steady (ip ::ₘ H) t₃ (setLink sb t₃ ip ((t₃.icache ip).nlink - 1)) ∧
        view sb (setLink sb t₃ ip ((t₃.icache ip).nlink - 1)).blocks =
          update (update v d (some y)) i (some ⟨ndi.type, ndi.nlink - 1, ndi.data⟩) := by
      obtain ⟨hh, hs', hview⟩ := setFields_node ht₃ hself (hiv₃ hiv) hnode₃
        (t₃.icache ip).major (t₃.icache ip).minor ((t₃.icache ip).nlink - 1)
      refine ⟨hh, hs', hview.trans ?_⟩
      rw [(ht₃.fields hself (hiv₃ hiv) hnode₃).2.1, hv₃, hii₃]
    generalize setLink sb t₃ ip ((t₃.icache ip).nlink - 1) = t₄ at ht₄ ⊢
    obtain ⟨hh₄, hs₄, hv₄⟩ := ht₄
    have hs₁₄ := hs₁₃.trans hs₄
    have hintact : Intact sb (ip ::ₘ H) t₄ := by
      refine ⟨hh₄, by rw [hv₄]; exact htree₁, ?_⟩
      intro j ndj hj hlj
      rw [hv₄] at hj
      by_cases hji : j = i
      · exact ⟨ip, hself, (hs₁₄ ip hself).1.trans (hip.trans hji.symm),
          (hs₁₄ ip hself).2 hiv⟩
      · rw [update_of_ne hji] at hj
        have hjd : j ≠ d := by
          rintro rfl
          rw [update_self] at hj
          cases hj
          exact hyl hlj
        rw [update_of_ne hjd, ← hv] at hj
        obtain ⟨iq, hiq, hinum, hvq⟩ := h.orphans j ndj hj hlj
        have hmem := Multiset.mem_cons_of_mem hiq (b := ip)
        have hsq := hs₁₄ iq hmem
        exact ⟨iq, hmem, hsq.1.trans ((hs iq hiq).1.trans hinum), hsq.2 ((hs iq hiq).2 hvq)⟩
    apply Lib.Ensures.bind (Lib.Ensures.mapError_iff.mpr (hintact.iput _))
    rintro t₅ ⟨ht₅, hs₅, hreap⟩
    have hsall : Steady H s t₅ := (hs.trans (hs₁₄.mono (mem_cons_of ip))).trans hs₅
    refine ⟨ht₅, hsall, rfl, _, hun, ?_⟩
    rw [(hs₁₄ ip hself).1, hip, hv₄] at hreap
    exact hreap.imp id fun ⟨ndr, hr, hlr, hnone, hr'⟩ ↦ ⟨ndr, hr, hlr, fun iq hiq he ↦
      hnone iq hiq (((hs₁₄.mono (mem_cons_of ip) iq hiq).1.trans (hs iq hiq).1).trans he), hr'⟩
  · rintro e ⟨hend, -⟩
    omega

private theorem namecmp_chars {name : Nat → UInt8} {nm : CString} (h : nm.length ≤ DIRSIZ) :
    namecmp name (chars nm) = 0 ↔ stringAt name DIRSIZ = nm := by
  rw [namecmp_eq_zero, stringAt_chars h]

/-- `sys_unlink` takes the last name of the path away, or changes nothing since the name may not
go. -/
theorem sys_unlink_spec (dev : Devsw) (h : Intact sb H s) (hcwd : cwd ∈ H)
    (ha : Attached sb s cwd path) (name : Nat → UInt8) :
    Lib.Ensures (sys_unlink sb dev s cwd path name) (· = .fs .igetNoInodes) (Outcome sb H s
      (Stays (view sb s.blocks) (origin (s.icache cwd).inum path) (elements path))
      (Unlinked sb H s cwd path)) := by
  have hparent := nameiparent_spec dev h.holding hcwd h.tree.sane ha name
  apply Lib.Ensures.bind hparent
  rintro ⟨t₁, r⟩ ⟨hs₁, hb₁, hnone, hsome⟩
  dsimp only at hs₁ hb₁ hnone hsome ⊢
  cases r with
  | none =>
    obtain ⟨ht₁, hres⟩ := hnone rfl
    refine Outcome.fail h ht₁ hs₁ hb₁ fun d nm j hp ↦ ?_
    rw [hres] at hp
    cases hp
  | some r =>
    obtain ⟨dp, name'⟩ := r
    obtain ⟨ht₁, hdv₁, hres⟩ := hsome dp name' rfl
    obtain ⟨nd, hd⟩ := h.parent ha hres
    have hself := Multiset.mem_cons_self dp H
    apply Lib.Ensures.bind (lock_spec ht₁ hself _)
    rintro t₂ ⟨ht₂, hs₂, hb₂, hdv₂⟩
    have hdp₂ := (hs₂ dp hself).1
    have hv₂ : view sb t₂.blocks = view sb s.blocks := by rw [hb₂, hb₁]
    have hs₀₂ : Steady H s t₂ := hs₁.trans (hs₂.mono (mem_cons_of dp))
    -- every way to fail drops the directory
    have hbad : ∀ u, Holding sb (dp ::ₘ H) u → Steady (dp ::ₘ H) t₂ u → u.blocks = t₂.blocks →
        (∀ j, lookup (entries nd.data) (stringAt name' DIRSIZ) = some j →
          stringAt name' DIRSIZ = dot ∨ stringAt name' DIRSIZ = dotdot ∨
            ∃ es, dirAt (view sb s.blocks) j = some es ∧ ∃ e ∈ es.drop 2, e.inum ≠ 0) →
        Lib.Ensures (do
          let s ← (iput sb u dp).mapError DirPanic.fs
          pure (s, (-1 : Int))) (· = .fs .igetNoInodes) (Outcome sb H s
            (Stays (view sb s.blocks) (origin (s.icache cwd).inum path) (elements path))
            (Unlinked sb H s cwd path)) := by
      intro u hu hsu hbu hstays
      have hlinks : HasLinks (view sb u.blocks) (u.icache dp).inum := by
        rw [hbu, hv₂, (hsu dp hself).1, hdp₂]
        exact ⟨nd, hd.node, hd.links⟩
      apply Lib.Ensures.bind (iput_links hu hlinks _)
      rintro w ⟨hw, hsw, hbw⟩
      exact Outcome.fail h hw ((hs₀₂.trans (hsu.mono (mem_cons_of dp))).trans hsw)
        (hbw.trans (hbu.trans (hb₂.trans hb₁))) (Stays.of_found hres hd hstays)
    split
    · next hdots =>
      refine hbad t₂ ht₂ (Steady.refl _ _) rfl fun _ _ ↦ ?_
      rcases hdots with hc | hc
      · exact Or.inl ((namecmp_chars (by decide)).mp hc)
      · exact Or.inr (Or.inl ((namecmp_chars (by decide)).mp hc))
    · next hdots =>
      have hdot : stringAt name' DIRSIZ ≠ dot := fun hc ↦
        hdots (Or.inl ((namecmp_chars (by decide)).mpr hc))
      have hdotdot : stringAt name' DIRSIZ ≠ dotdot := fun hc ↦
        hdots (Or.inr ((namecmp_chars (by decide)).mpr hc))
      have hlock : LockedDir sb t₂ dp nd := hd.locked h.tree hdv₂ hv₂ hdp₂
      have hlook := dirlookup_spec dev ht₂ hself hlock name' fun i hi ↦ by
        obtain ⟨ndi, hndi, -⟩ := h.named hd hi
        exact live_of_view (by rw [hv₂, hndi])
      apply Lib.Ensures.bind hlook
      rintro ⟨t₃, r⟩ ⟨hs₃, hb₃, hfound⟩
      dsimp only at hs₃ hb₃ hfound ⊢
      cases r with
      | none =>
        refine hbad t₃ hfound.2 hs₃ hb₃ fun j hj ↦ ?_
        rw [lookup_eq_none.mpr (search_eq_none.mp hfound.1)] at hj
        cases hj
      | some r =>
        obtain ⟨ip, off⟩ := r
        obtain ⟨ht₃, hlookup, k, hk, rfl⟩ := hfound
        have hself' := Multiset.mem_cons_self ip (dp ::ₘ H)
        have hpmem : dp ∈ ip ::ₘ dp ::ₘ H := Multiset.mem_cons_of_mem hself
        apply Lib.Ensures.bind (lock_spec ht₃ hself' _)
        rintro t₄ ⟨ht₄, hs₄, hb₄, hiv₄⟩
        have hv₄ : view sb t₄.blocks = view sb s.blocks := by rw [hb₄, hb₃, hv₂]
        have hs₂₄ : Steady (dp ::ₘ H) t₂ t₄ := hs₃.trans (hs₄.mono (mem_cons_of ip))
        obtain ⟨hdp₄, hdv₄⟩ := hs₂₄ dp hself
        obtain ⟨ndi, hndi, hlinks⟩ := h.named hd hlookup
        rw [← (hs₄ ip hself').1] at hlookup hndi
        have hnode : view sb t₄.blocks (t₄.icache ip).inum = some ndi := by rw [hv₄, hndi]
        obtain ⟨htype, hnlink, -⟩ := ht₄.fields hself' hiv₄ hnode
        have hpos : ¬(t₄.icache ip).nlink < 1 := by
          have hlinksi := h.tree.links _ ndi hndi
          have hne := mt toInt_eq_zero.mp hlinks
          rw [hnlink, Int16.lt_iff_toInt_lt, show (1 : Int16).toInt = 1 from rfl]
          omega
        have hsall : Steady H s t₄ := hs₀₂.trans (hs₂₄.mono (mem_cons_of dp))
        rw [if_neg hpos]
        -- what `isdirempty` says
        have hcheck : ∃ b, removable sb dev t₄ ip = .ok (t₄, b) ∧
            (b = true ↔ (ndi.type = T_DIR → ∀ e ∈ (entries ndi.data).drop 2, e.inum = 0)) := by
          rw [removable, htype]
          by_cases hdir : ndi.type = T_DIR
          · have hdi : LinkedDir (view sb s.blocks) (t₄.icache ip).inum ndi := ⟨hndi, hdir, hlinks⟩
            have hlocki : LockedDir sb t₄ ip ndi := hdi.locked h.tree hiv₄ hv₄ rfl
            obtain ⟨p, rest, hes, -⟩ := h.tree.shape_eq hndi hdir hlinks
            have hlen : 2 ≤ ndi.data.length / 16 := by
              rw [← length_entries, hes]
              simp
            rw [if_pos hdir]
            refine ⟨_, isdirempty_eq dev ht₄ hself' hlocki hlen, ?_⟩
            rw [decide_eq_true_eq, forall_prop_of_true hdir]
          · rw [if_neg hdir]
            exact ⟨true, rfl, iff_of_true rfl fun hc ↦ absurd hc hdir⟩
        obtain ⟨b, hb, hempty⟩ := hcheck
        have hret : Lib.Ensures (removable sb dev t₄ ip) (· = .fs .igetNoInodes) (· = (t₄, b)) := by
          rw [hb]
          rfl
        apply Lib.Ensures.bind hret
        rintro _ rfl
        dsimp only
        cases b with
        | false =>
          rw [if_pos rfl]
          have hlinks₄ : HasLinks (view sb t₄.blocks) (t₄.icache ip).inum := ⟨ndi, hnode, hlinks⟩
          apply Lib.Ensures.bind (iput_links ht₄ hlinks₄ _)
          rintro t₅ ⟨ht₅, hs₅, hb₅⟩
          refine hbad t₅ ht₅ (hs₂₄.trans hs₅) (hb₅.trans (hb₄.trans hb₃)) fun j hj ↦ ?_
          rw [hlookup] at hj
          cases hj
          -- `isdirempty` has found an entry
          obtain ⟨hdir, hmore⟩ := Classical.not_imp.mp (mt hempty.mpr Bool.false_ne_true)
          simp only [not_forall] at hmore
          obtain ⟨e, he, hne⟩ := hmore
          exact Or.inr (Or.inr ⟨_, dirAt_eq_some.mpr ⟨ndi, hndi, hdir, rfl⟩, e, he, hne⟩)
        | true =>
          rw [if_neg (by decide)]
          have hend := unlink_end dev h rfl ht₄ hsall hv₄ (hdv₄ hdv₂) hiv₄
            (hdp₄.trans hdp₂) rfl hd hndi hdot hdotdot hk hlookup (hempty.mp rfl)
          apply hend.imp
          rintro ⟨t₅, r⟩ ⟨ht₅, hs₅, hr, v₁, hun, hreap⟩
          exact ⟨ht₅, hs₅, Or.inr ⟨hr, _, _, _, v₁, hres, hun, hreap⟩⟩

end

end Xv6.Fs
