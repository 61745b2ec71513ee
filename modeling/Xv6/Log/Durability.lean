import Xv6.Log.Recovery
import Xv6.Lib.CommitStore

/-!
# What survives a crash

`Ledger` keeps account of the operations: which have ended, which are not yet durable,
which a returned `sync` covers and which a crash has undone. With the data invariant it
makes the logging layer a store with atomic commit, whatever the interleaving and
wherever the crashes fall.
-/

namespace Xv6.Log

open Function

variable {P : Type}

/-! ### The ledger of operations -/

/-- The operations that had ended when the `sync` in progress was called. -/
def Pc.seen : Pc → List Nat
  | .syncWait _ seen => seen
  | .commit _ seen => seen
  | _ => []

@[simp] theorem Pc.seen_wake (pc : Pc) : pc.wake.seen = pc.seen := by
  cases pc <;> rfl

/-- The account of operation numbers. -/
structure Ledger (s : State P) : Prop where
  live : ∀ p op, s.procs p = .inOp op → op.id < s.hist.nextOp ∧ op.id ∉ s.hist.ended ∧
    op.id ∉ s.hist.synced ∧ op.id ∉ s.hist.lost
  apart : ∀ p q op op', s.procs p = .inOp op → s.procs q = .inOp op' → op.id = op'.id → p = q
  bound : ∀ i, i ∈ s.hist.ended ∨ i ∈ s.hist.synced ∨ i ∈ s.hist.lost ∨ i ∈ s.hist.pending →
    i < s.hist.nextOp
  seen : ∀ p, ∀ i ∈ (s.procs p).seen, i ∈ s.hist.ended
  kept : ∀ i ∈ s.hist.synced, i ∉ s.hist.pending ∧ i ∉ s.hist.lost
  stays : ∀ i ∈ s.hist.ended, i ∉ s.hist.lost

section Ledger

variable {s t : State P}

/-- A change that moves no process into an operation and learns nothing new keeps the ledger. -/
private theorem ledger_congr (h : Ledger s) (hh : t.hist.nextOp = s.hist.nextOp)
    (he : t.hist.ended = s.hist.ended) (hp : t.hist.pending ⊆ s.hist.pending)
    (hs : t.hist.synced = s.hist.synced) (hl : t.hist.lost = s.hist.lost)
    (hop : ∀ p op, t.procs p = .inOp op → s.procs p = .inOp op)
    (hseen : ∀ p, ∀ i ∈ (t.procs p).seen, i ∈ s.hist.ended) : Ledger t := by
  constructor
  · intro p op hpo
    rw [hh, he, hs, hl]
    exact h.live p op (hop p op hpo)
  · exact fun p q op op' h1 h2 ↦ h.apart p q op op' (hop p op h1) (hop q op' h2)
  · intro i hi
    rw [hh]
    rw [he, hs, hl] at hi
    refine h.bound i ?_
    rcases hi with hi | hi | hi | hi
    · exact Or.inl hi
    · exact Or.inr (Or.inl hi)
    · exact Or.inr (Or.inr (Or.inl hi))
    · exact Or.inr (Or.inr (Or.inr (hp hi)))
  · intro p i hi
    rw [he]
    exact hseen p i hi
  · intro i hi
    rw [hs] at hi
    rw [hl]
    exact ⟨fun hm ↦ (h.kept i hi).1 (hp hm), (h.kept i hi).2⟩
  · rw [he, hl]
    exact h.stays

private theorem ledger_goto [DecidableEq P] {p : P} {pc : Pc} (h : Ledger s) (hpc : ¬pc.InOp)
    (hseen : ∀ i ∈ pc.seen, i ∈ s.hist.ended) : Ledger (s.goto p pc) := by
  refine ledger_congr h rfl rfl (List.Subset.refl _) rfl rfl ?_ ?_
  · intro q op hq
    by_cases he : q = p
    · subst he
      exact absurd (Pc.inOp_iff.mpr ⟨op, by simpa [State.goto] using hq⟩) hpc
    · simpa [State.goto, he] using hq
  · intro q i hi
    by_cases he : q = p
    · subst he
      exact hseen i (by simpa [State.goto] using hi)
    · exact h.seen q i (by simpa [State.goto, he] using hi)

private theorem ledger_wakeup (h : Ledger s) : Ledger (wakeup s) :=
  ledger_congr h rfl rfl (List.Subset.refl _) rfl rfl
    (fun _ _ hq ↦ Pc.wake_eq_inOp.mp hq) fun q i hi ↦ h.seen q i (by simpa [wakeup] using hi)

private theorem ledger_admit [DecidableEq P] {p : P} (h : Ledger s) : Ledger (admitted s p) := by
  have hfresh : ∀ i, i ∈ s.hist.ended ∨ i ∈ s.hist.synced ∨ i ∈ s.hist.lost ∨
      i ∈ s.hist.pending → i < s.hist.nextOp + 1 := fun i hi ↦ by
    have hb := h.bound i hi
    omega
  have hold : ∀ q op, q ≠ p → (admitted s p).procs q = .inOp op → s.procs q = .inOp op := by
    intro q op hne hq
    simpa [admitted, hne] using hq
  have hnew : ∀ op, (admitted s p).procs p = .inOp op → op.id = s.hist.nextOp := by
    intro op hq
    simp only [admitted, update_self, Pc.inOp.injEq] at hq
    rw [← hq]
  constructor
  · intro q op hq
    by_cases he : q = p
    · subst he
      rw [hnew op hq]
      refine ⟨Nat.lt_succ_self _, ?_, ?_, ?_⟩ <;> intro hm
      · exact absurd (h.bound _ (Or.inl hm)) (Nat.lt_irrefl _)
      · exact absurd (h.bound _ (Or.inr (Or.inl hm))) (Nat.lt_irrefl _)
      · exact absurd (h.bound _ (Or.inr (Or.inr (Or.inl hm)))) (Nat.lt_irrefl _)
    · obtain ⟨hlt, hrest⟩ := h.live q op (hold q op he hq)
      exact ⟨Nat.lt_succ_of_lt hlt, hrest⟩
  · intro q r op op' hq hr hid
    by_cases hqp : q = p <;> by_cases hrp : r = p
    · rw [hqp, hrp]
    · subst hqp
      have hlt := (h.live r op' (hold r op' hrp hr)).1
      rw [hnew op hq] at hid
      omega
    · subst hrp
      have hlt := (h.live q op (hold q op hqp hq)).1
      rw [hnew op' hr] at hid
      omega
    · exact h.apart q r op op' (hold q op hqp hq) (hold r op' hrp hr) hid
  · exact hfresh
  · intro q i hi
    by_cases he : q = p
    · subst he; simp [admitted, Pc.seen] at hi
    · exact h.seen q i (by simpa [admitted, he] using hi)
  · exact h.kept
  · exact h.stays

private theorem ledger_logged [DecidableEq P] {p : P} {op : Op} {b : Nat} {data : Block}
    (h : Ledger s) (hp : s.procs p = .inOp op) : Ledger (logged s p op b data) := by
  have hsame : ∀ q op', (logged s p op b data).procs q = .inOp op' →
      ∃ op'', s.procs q = .inOp op'' ∧ op''.id = op'.id := by
    intro q op' hq
    by_cases he : q = p
    · subst he
      simp only [logged, update_self, Pc.inOp.injEq] at hq
      exact ⟨op, hp, by rw [← hq]⟩
    · exact ⟨op', by simpa [logged, he] using hq, rfl⟩
  constructor
  · intro q op' hq
    obtain ⟨op'', hq', hid⟩ := hsame q op' hq
    rw [← hid]
    exact h.live q op'' hq'
  · intro q r op' op'' hq hr hid
    obtain ⟨oq, hq', hidq⟩ := hsame q op' hq
    obtain ⟨or, hr', hidr⟩ := hsame r op'' hr
    exact h.apart q r oq or hq' hr' (by rw [hidq, hidr, hid])
  · intro i hi
    rcases hi with hi | hi | hi | hi
    · exact h.bound i (Or.inl hi)
    · exact h.bound i (Or.inr (Or.inl hi))
    · exact h.bound i (Or.inr (Or.inr (Or.inl hi)))
    · rcases List.mem_insert_iff.mp hi with rfl | hi
      · exact (h.live p op hp).1
      · exact h.bound i (Or.inr (Or.inr (Or.inr hi)))
  · intro q i hi
    by_cases he : q = p
    · subst he; simp [logged, Pc.seen] at hi
    · exact h.seen q i (by simpa [logged, he] using hi)
  · intro i hi
    refine ⟨fun hm ↦ ?_, (h.kept i hi).2⟩
    rcases List.mem_insert_iff.mp hm with rfl | hm
    · exact (h.live p op hp).2.2.1 hi
    · exact (h.kept i hi).1 hm
  · exact h.stays

/-- `p`'s operation is counted out, and `p` goes on elsewhere. -/
private theorem ledger_ended [DecidableEq P] {p : P} {op : Op} {c : Pc} (h : Ledger s)
    (hp : s.procs p = .inOp op) (hpc : ¬c.InOp) (hseen : c.seen = []) :
    Ledger ((ended s op).goto p c) := by
  have hold : ∀ q op', ((ended s op).goto p c).procs q = .inOp op' →
      q ≠ p ∧ s.procs q = .inOp op' := by
    intro q op' hq
    by_cases he : q = p
    · subst he
      exact absurd (Pc.inOp_iff.mpr ⟨op', by simpa [State.goto] using hq⟩) hpc
    · exact ⟨he, by simpa [State.goto, ended, he] using hq⟩
  have hlive := h.live p op hp
  constructor
  · intro q op' hq
    obtain ⟨hne, hq'⟩ := hold q op' hq
    obtain ⟨h1, h2, h3, h4⟩ := h.live q op' hq'
    refine ⟨h1, fun hm ↦ ?_, h3, h4⟩
    rcases List.mem_insert_iff.mp hm with hid | hm
    · exact hne (h.apart q p op' op hq' hp hid)
    · exact h2 hm
  · intro q r op' op'' hq hr
    exact h.apart q r op' op'' (hold q op' hq).2 (hold r op'' hr).2
  · intro i hi
    rcases hi with hi | hi | hi | hi
    · rcases List.mem_insert_iff.mp hi with rfl | hi
      · exact hlive.1
      · exact h.bound i (Or.inl hi)
    · exact h.bound i (Or.inr (Or.inl hi))
    · exact h.bound i (Or.inr (Or.inr (Or.inl hi)))
    · exact h.bound i (Or.inr (Or.inr (Or.inr hi)))
  · intro q i hi
    refine List.mem_insert_iff.mpr (Or.inr ?_)
    by_cases he : q = p
    · subst he; simp [State.goto, hseen] at hi
    · exact h.seen q i (by simpa [State.goto, ended, he] using hi)
  · exact h.kept
  · intro i hi
    rcases List.mem_insert_iff.mp hi with rfl | hi
    · exact hlive.2.2.2
    · exact h.stays i hi

/-- A `sync` returns with nothing pending. -/
private theorem ledger_synced {seen : List Nat} (h : Ledger s) (hpend : s.hist.pending = [])
    (hseen : ∀ i ∈ seen, i ∈ s.hist.ended) :
    Ledger { s with committing := false
                    hist := { s.hist with synced := s.hist.synced ++ seen } } := by
  constructor
  · intro q op hq
    obtain ⟨h1, h2, h3, h4⟩ := h.live q op hq
    refine ⟨h1, h2, fun hm ↦ ?_, h4⟩
    rcases List.mem_append.mp hm with hm | hm
    · exact h3 hm
    · exact h2 (hseen _ hm)
  · exact h.apart
  · intro i hi
    rcases hi with hi | hi | hi | hi
    · exact h.bound i (Or.inl hi)
    · rcases List.mem_append.mp hi with hi | hi
      · exact h.bound i (Or.inr (Or.inl hi))
      · exact h.bound i (Or.inl (hseen i hi))
    · exact h.bound i (Or.inr (Or.inr (Or.inl hi)))
    · exact h.bound i (Or.inr (Or.inr (Or.inr hi)))
  · exact h.seen
  · intro i hi
    rcases List.mem_append.mp hi with hi | hi
    · exact h.kept i hi
    · exact ⟨by simp [hpend], h.stays i (hseen i hi)⟩
  · exact h.stays

private theorem ledger_crash (h : Ledger s) : Ledger (crash s) := by
  constructor
  · intro p op hp
    simp [crash] at hp
  · intro p q op op' hp
    simp [crash] at hp
  · intro i hi
    rcases hi with hi | hi | hi | hi
    · simp [crash] at hi
    · exact h.bound i (Or.inr (Or.inl hi))
    · rcases List.mem_append.mp hi with hi | hi
      · exact h.bound i (Or.inr (Or.inr (Or.inl hi)))
      · exact h.bound i (Or.inr (Or.inr (Or.inr hi)))
    · simp [crash] at hi
  · intro p i hi
    simp [crash, Pc.seen] at hi
  · intro i hi
    refine ⟨by simp [crash], fun hm ↦ ?_⟩
    rcases List.mem_append.mp hm with hm | hm
    · exact (h.kept i hi).2 hm
    · exact (h.kept i hi).1 hm
  · simp [crash]

theorem ledger_boot (disk : Nat → Block) : Ledger (boot disk : State P) where
  live := fun p op hp ↦ by simp [boot] at hp
  apart := fun p q op op' hp ↦ by simp [boot] at hp
  bound := fun i hi ↦ by simp [boot] at hi
  seen := fun p i hi ↦ by simp [boot, Pc.seen] at hi
  kept := fun i hi ↦ by simp [boot] at hi
  stays := fun i hi ↦ by simp [boot] at hi

variable [DecidableEq P] {g : Geometry} {a : Action P}

/-- Every step keeps the ledger. -/
theorem ledger_step (hc : Contents g s) (h : Ledger s) (hs : step g s a = .ok t) : Ledger t := by
  cases stepTo_of_step hs with
  | beginSleep p up pc full => exact ledger_goto h id (by simp [Pc.seen])
  | beginAdmit p up pc quiet room => exact ledger_admit h
  | logWrite p op b data up pc home fits area => exact ledger_logged h pc
  | endCommit p op up pc quiet last full =>
    exact ledger_congr (ledger_ended (c := .commit (commitStart s.lh) []) h pc id rfl)
      rfl rfl (List.Subset.refl _) rfl rfl (fun _ _ hq ↦ hq)
      (ledger_ended (c := .commit (commitStart s.lh) []) h pc id rfl).seen
  | endWake p op up pc quiet room =>
    have hw : (wakeup s).procs p = .inOp op := Pc.wake_eq_inOp.mpr pc
    exact ledger_ended (s := wakeup s) (ledger_wakeup h) hw id rfl
  | syncSleep p seen up pc busy =>
    refine ledger_goto h id ?_
    rcases pc with ⟨_, rfl⟩ | hp
    · exact fun i hi ↦ hi
    · intro i hi
      exact h.seen p i (by rw [hp]; exact hi)
  | syncCommit p seen up pc quiet none =>
    have key : Ledger (s.goto p (.commit (commitStart s.lh) seen)) := by
      refine ledger_goto h id ?_
      rcases pc with ⟨_, rfl⟩ | hp
      · exact fun i hi ↦ hi
      · intro i hi
        exact h.seen p i (by rw [hp]; exact hi)
    exact ledger_congr key rfl rfl (List.Subset.refl _) rfl rfl (fun _ _ hq ↦ hq) key.seen
  | commit p stage seen up pc =>
    have hseen : ∀ i ∈ seen, i ∈ s.hist.ended := fun i hi ↦ h.seen p i (by rw [pc]; exact hi)
    have hmove : ∀ st, Ledger (s.goto p (.commit st seen)) := fun st ↦ ledger_goto h id hseen
    cases stage with
    | writeLog tail =>
      exact ledger_congr (hmove _) rfl rfl (List.Subset.refl _) rfl rfl (fun _ _ hq ↦ hq)
        (hmove _).seen
    | writeHead =>
      exact ledger_congr (hmove _) rfl rfl (List.nil_subset _) rfl rfl (fun _ _ hq ↦ hq)
        (hmove _).seen
    | install tail =>
      exact ledger_congr (hmove _) rfl rfl (List.Subset.refl _) rfl rfl (fun _ _ hq ↦ hq)
        (hmove _).seen
    | clear =>
      exact ledger_congr (hmove _) rfl rfl (List.Subset.refl _) rfl rfl (fun _ _ hq ↦ hq)
        (hmove _).seen
    | done =>
      have hpend := (hc.stage up p .done seen pc).2.2
      exact ledger_goto (ledger_wakeup (ledger_synced h hpend hseen)) id (by simp [Pc.seen])
  | kill p =>
    refine ledger_congr h rfl rfl (List.Subset.refl _) rfl rfl ?_ ?_
    · intro q op hq
      by_cases he : q = p
      · subst he
        exact Pc.wake_eq_inOp.mp (by simpa [State.goto] using hq)
      · simpa [State.goto, he] using hq
    · intro q i hi
      by_cases he : q = p
      · subst he
        exact h.seen q i (by simpa [State.goto] using hi)
      · exact h.seen q i (by simpa [State.goto, he] using hi)
  | fill b absent =>
    exact ledger_congr h rfl rfl (List.Subset.refl _) rfl rfl (fun _ _ hq ↦ hq) h.seen
  | evict b data clean =>
    exact ledger_congr h rfl rfl (List.Subset.refl _) rfl rfl (fun _ _ hq ↦ hq) h.seen
  | crash => exact ledger_crash h
  | recover t hr =>
    have hkeep := recoverKeeps_of_step hr
    refine ledger_congr h (by rw [hkeep.hist]) (by rw [hkeep.hist])
      (by rw [hkeep.hist]; exact List.Subset.refl _) (by rw [hkeep.hist]) (by rw [hkeep.hist]) ?_ ?_
    · intro p op hp
      rwa [hkeep.procs] at hp
    · intro p i hi
      rw [hkeep.procs] at hi
      exact h.seen p i hi

end Ledger

/-! ### Commit points -/

section Runs

variable [DecidableEq P] {g : Geometry} {s t : State P} {a : Action P}

omit [DecidableEq P] in
/-- `a` is the header write of a commit in progress: the real commit; `log.c:197`. -/
def commitPoint (s : State P) : Action P → Bool
  | .commit p =>
    match s.mode, s.procs p with
    | .up, .commit .writeHead _ => true
    | _, _ => false
  | _ => false

/-- The cached contents at the last commit point of the run of `as` from `s`, or `contents`
if the run passes none. -/
def lastCommitted (g : Geometry) (contents : Nat → Block) (s : State P) :
    List (Action P) → Nat → Block
  | [] => contents
  | a :: as =>
    match step g s a with
    | .ok t => lastCommitted g (if commitPoint s a then bread s else contents) t as
    | .error _ => contents

/-- The durable contents change at commit points only. -/
private theorem durable_step (hs : step g s a = .ok t) :
    t.hist.durable = if commitPoint s a then bread s else s.hist.durable := by
  cases stepTo_of_step hs with
  | commit p stage seen up pc => cases stage <;> simp [commitPoint, up, pc] <;> rfl
  | recover t hr => simp [commitPoint, (recoverKeeps_of_step hr).hist]
  | _ => rfl

private theorem durable_exec {as : List (Action P)} (h : Lib.exec (step g) s as = .ok t) :
    t.hist.durable = lastCommitted g s.hist.durable s as := by
  induction as generalizing s with
  | nil => cases h; rfl
  | cons a as ih =>
    obtain ⟨v, hv, hrest⟩ := Lib.exec_cons_eq_ok.mp h
    simp only [lastCommitted, hv]
    rw [ih hrest, durable_step hv]

/-! ### Every reachable state -/

variable [Fintype P]

/-- The invariants of the logging layer together. -/
structure Good (g : Geometry) (s : State P) : Prop where
  protocol : Protocol s
  contents : Contents g s
  ledger : Ledger s

omit [DecidableEq P] in
theorem good_boot {disk : Nat → Block} (hd : readHead (disk g.start) = []) :
    Good g (boot disk : State P) where
  protocol := protocol_idle rfl rfl rfl fun _ ↦ rfl
  contents := contents_boot hd
  ledger := ledger_boot disk

theorem good_step (h : Good g s) (hs : step g s a = .ok t) : Good g t where
  protocol := protocol_step h.protocol hs
  contents := contents_step h.protocol h.contents hs
  ledger := ledger_step h.contents h.ledger hs

theorem good_exec {as : List (Action P)} (h : Good g s) (hs : Lib.exec (step g) s as = .ok t) :
    Good g t :=
  Lib.Reaches.invariant (fun _ _ _ ↦ good_step) h ⟨as, hs⟩

omit [DecidableEq P] in
/-- The state just before a commit point has whole operations only. -/
theorem Good.commitPoint (h : Good g s) (hc : commitPoint s a = true) :
    s.lh ≠ [] ∧ s.outstanding = 0 ∧ ∀ p, ¬(s.procs p).InOp := by
  unfold Log.commitPoint at hc
  split at hc
  · next p =>
    split at hc
    · next up pc =>
      have hin : (s.procs p).InCommit := by rw [pc]; trivial
      have ho := h.protocol.drained (h.protocol.flag.mpr ⟨p, hin⟩)
      exact ⟨(h.contents.stage up p _ _ pc).2, ho, h.protocol.not_inOp ho⟩
    · cases hc
  · cases hc

/-- Recovery that has just completed leaves the durable contents on the home blocks, and in
the cache. -/
theorem Good.recovered (h : Good g s) (hs : step g s .recover = .ok t) (up : t.mode = .up)
    {b : Nat} (hb : g.Home b) : t.disk b = s.hist.durable b ∧ bread t b = s.hist.durable b := by
  have hkeep := recoverKeeps_of_step hs
  have ht := good_step h hs
  have hd : t.hist.durable = s.hist.durable := by rw [hkeep.hist]
  have hq : t.committing = false := by
    rw [hkeep.committing]
    by_contra ht
    obtain ⟨p, hp⟩ := h.protocol.flag.mp (by simpa using ht)
    simp [h.protocol.down hkeep.down p, Pc.InCommit] at hp
  have hlog := (ht.contents.quiet up hq).1
  have hclean : ¬Dirty t b := fun hdirty ↦ by
    have hmem := hlog.cacheOk.pinned b hdirty
    simp [hkeep.lh up] at hmem
  have hdisk : t.disk b = s.hist.durable b := by rw [hlog.home b hb, hd]
  exact ⟨hdisk, by rw [hlog.cacheOk.clean b hclean, hdisk]⟩

/-! ### Recovery completes -/

omit [Fintype P] in
private theorem recover_clear (hm : s.mode = .clear) :
    ∃ t, step g s .recover = .ok t ∧ t.mode = .up :=
  ⟨{ putHead g { s with lh := [] } with mode := .up },
    by rw [step, hm]; rfl, rfl⟩

omit [Fintype P] in
/-- The installing rounds end: the measure is the number of blocks left. -/
private theorem recover_install (n : Nat) {tail : Nat} (hm : s.mode = .install tail)
    (hn : s.lh.length = tail + 1 + n) :
    ∃ k t, Lib.exec (step g) s (List.replicate k .recover) = .ok t ∧ t.mode = .up := by
  induction n generalizing s tail with
  | zero =>
    have hs : step g s .recover = .ok { installRound g s tail with mode := .clear } := by
      simp only [step, hm, recoverStep]
      rw [if_neg (by omega)]
    obtain ⟨t, ht, hup⟩ := recover_clear (g := g) (s := { installRound g s tail with mode := .clear }) rfl
    refine ⟨2, t, ?_, hup⟩
    rw [List.replicate_succ, Lib.exec_cons_ok hs, List.replicate_succ, Lib.exec_cons_ok ht]
    rfl
  | succ n ih =>
    have hs : step g s .recover =
        .ok { installRound g s tail with mode := .install (tail + 1) } := by
      simp only [step, hm, recoverStep]
      rw [if_pos (by omega)]
    obtain ⟨k, t, ht, hup⟩ := ih (s := { installRound g s tail with mode := .install (tail + 1) })
      rfl (show s.lh.length = tail + 1 + 1 + n by omega)
    refine ⟨k + 1, t, ?_, hup⟩
    rw [List.replicate_succ, Lib.exec_cons_ok hs, ht]

omit [Fintype P] in
/-- `recover_from_log` reaches the running system from any disk a crash can leave. -/
theorem recover_completes (s : State P) :
    ∃ k t, Lib.exec (step g) (crash s) (List.replicate k .recover) = .ok t ∧ t.mode = .up := by
  by_cases hl : 0 < (readHead (s.disk g.start)).length
  · have hs : step g (crash s) .recover = .ok { crash s with
        lh := readHead (s.disk g.start), mode := .install 0 } := by
      show Except.ok _ = Except.ok _
      congr
      exact if_pos hl
    obtain ⟨k, t, ht, hup⟩ := recover_install (g := g)
      (s := { crash s with lh := readHead (s.disk g.start), mode := .install 0 })
      ((readHead (s.disk g.start)).length - 1) rfl
      (show (readHead (s.disk g.start)).length = _ by omega)
    refine ⟨k + 1, t, ?_, hup⟩
    rw [List.replicate_succ, Lib.exec_cons_ok hs, ht]
  · have hs : step g (crash s) .recover = .ok { crash s with
        lh := readHead (s.disk g.start), mode := .clear } := by
      show Except.ok _ = Except.ok _
      congr
      exact if_neg hl
    obtain ⟨t, ht, hup⟩ := recover_clear (g := g)
      (s := { crash s with lh := readHead (s.disk g.start), mode := .clear }) rfl
    refine ⟨2, t, ?_, hup⟩
    rw [List.replicate_succ, Lib.exec_cons_ok hs, List.replicate_succ, Lib.exec_cons_ok ht]
    rfl

/-! ### The main results -/

/-- Whatever the interleaving and wherever the crashes fall: a recovery that completes leaves
on the home blocks the cached contents at the last commit point; at a commit point no
operation is in progress; the operations that a returned `sync` covers are neither waiting
for a commit nor undone by a crash; and recovery does complete. -/
theorem crash_recovery {disk : Nat → Block} (hd : readHead (disk g.start) = [])
    {as : List (Action P)} (h : Lib.exec (step g) (boot disk) as = .ok s) :
    (∀ t, step g s .recover = .ok t → t.mode = .up →
      ∀ b, g.Home b → t.disk b = lastCommitted g disk (boot disk) as b) ∧
    (∀ a, commitPoint s a = true → s.lh ≠ [] ∧ s.outstanding = 0 ∧ ∀ p, ¬(s.procs p).InOp) ∧
    (∀ i ∈ s.hist.synced, i ∉ s.hist.pending ∧ i ∉ s.hist.lost) ∧
    ∃ k t, Lib.exec (step g) (crash s) (List.replicate k .recover) = .ok t ∧ t.mode = .up := by
  have hg : Good g s := good_exec (good_boot hd) h
  refine ⟨fun t ht up b hb ↦ ?_, fun a ↦ hg.commitPoint, hg.ledger.kept, recover_completes s⟩
  rw [(hg.recovered ht up hb).1, durable_exec h]
  rfl

omit [Fintype P] [DecidableEq P] in
/-- The system of two processes after a run from the first boot of a zeroed disk. -/
def after (as : List (Action (Fin 2))) : State (Fin 2) :=
  Lib.final (step mkfsGeometry) (boot fun _ ↦ Block.zero) as

omit [Fintype P] [DecidableEq P] in
theorem exec_after (as : List (Action (Fin 2)))
    (h : (Lib.exec (step mkfsGeometry) (boot fun _ ↦ Block.zero) as).isOk = true) :
    Lib.exec (step mkfsGeometry) (boot fun _ ↦ Block.zero) as = .ok (after as) :=
  Lib.exec_final h

omit [Fintype P] [DecidableEq P] in
theorem exec_after_append (as bs : List (Action (Fin 2)))
    (h : (Lib.exec (step mkfsGeometry) (boot fun _ ↦ Block.zero) (as ++ bs)).isOk = true) :
    Lib.exec (step mkfsGeometry) (after as) bs = .ok (after (as ++ bs)) := by
  obtain ⟨t, ht, hbs⟩ := Lib.exec_append_eq_ok.mp (exec_after (as ++ bs) h)
  have he : after as = t := by rw [after, Lib.final, ht]
  rw [he, hbs]

omit [Fintype P] [DecidableEq P] in
theorem step_after (as : List (Action (Fin 2))) (a : Action (Fin 2))
    (h : (Lib.exec (step mkfsGeometry) (boot fun _ ↦ Block.zero) (as ++ [a])).isOk = true) :
    step mkfsGeometry (after as) a = .ok (after (as ++ [a])) := by
  obtain ⟨t, ht, htail⟩ := Lib.exec_cons_eq_ok.mp (exec_after_append as [a] h)
  cases htail
  exact ht

/-- One operation logs block 100 and a `sync` commits it; the next logs blocks 100 and 101, and
the machine stops after the first of its two installs. Recovery has one step to go. -/
def crashRun : List (Action (Fin 2)) :=
  [.recover, .recover, .beginOp 0, .logWrite 0 100 Block.zero, .endOp 0, .sync 0, .commit 0,
    .commit 0, .commit 0, .commit 0, .commit 0, .beginOp 1,
    .logWrite 1 100 (Block.zero.setByte 0 1), .logWrite 1 101 (Block.zero.setByte 0 2), .endOp 1,
    .sync 1, .commit 1, .commit 1, .commit 1, .commit 1, .crash, .recover, .recover, .recover]

/-- The block that was not installed before the crash has its committed contents, and the
operation that the first `sync` covers is not undone. -/
theorem crash_recovery_mkfs :
    ∃ t, step mkfsGeometry (after crashRun) .recover = .ok t ∧ t.mode = .up ∧
      t.disk 101 = Block.zero.setByte 0 2 ∧
      0 ∈ (after crashRun).hist.synced ∧ 0 ∉ (after crashRun).hist.lost := by
  have hrun := exec_after crashRun (by decide +kernel)
  have h := @crash_recovery (Fin 2) _ mkfsGeometry _ _ (fun _ ↦ Block.zero) readHead_zero _ hrun
  have hmode : (after crashRun).mode = .clear := by decide +kernel
  have hstep : step mkfsGeometry (after crashRun) .recover =
      .ok { putHead mkfsGeometry { after crashRun with lh := [] } with mode := .up } := by
    rw [step, hmode]
    rfl
  have hlast : lastCommitted mkfsGeometry (fun _ ↦ Block.zero) (boot fun _ ↦ Block.zero)
      crashRun 101 = Block.zero.setByte 0 2 := by
    decide +kernel
  have hsync : 0 ∈ (after crashRun).hist.synced := by decide +kernel
  refine ⟨_, hstep, rfl, ?_, hsync, (h.2.2.1 0 hsync).2⟩
  rw [h.1 _ hstep rfl 101 (by decide), hlast]

/-! ### The log as a store with atomic commit -/

omit [Fintype P] [DecidableEq P] in
/-- The home blocks as the running system shows them, and as recovery would leave them. -/
def homeStore (g : Geometry) (s : State P) : Lib.CommitStore { b // g.Home b } Block where
  volatile := fun b ↦ if s.mode = .up then bread s b else s.hist.durable b
  durable := fun b ↦ s.hist.durable b

omit [DecidableEq P] [Fintype P] in
/-- With the system up and no commit point, only the volatile contents can change. -/
private theorem homeStore_write (hd : t.hist.durable = s.hist.durable) :
    Lib.CommitStore.Next (homeStore g s) (homeStore g t) := by
  have he : homeStore g t = { homeStore g s with volatile := (homeStore g t).volatile } := by
    simp only [homeStore, hd]
  rw [he]
  exact .write _ _

omit [Fintype P] in
private theorem homeStore_commit {p : P} {seen : List Nat} (up : s.mode = .up) :
    Lib.CommitStore.Next (homeStore g s) (homeStore g (commitStep g s p seen .writeHead)) := by
  have he : homeStore g (commitStep g s p seen .writeHead) =
      { homeStore g s with durable := (homeStore g s).volatile } := by
    unfold homeStore
    congr 1
    · funext b
      have hm : (commitStep g s p seen .writeHead).mode = .up := up
      simp only [hm, up, if_true]
      show bread (bwrite s g.start (writeHead (bread s g.start) s.lh)) b = bread s b
      rw [bread_bwrite, if_neg b.2.ne_start]
    · funext b
      simp only [up, if_true]
      rfl
  rw [he]
  exact .commit _

private theorem homeStore_recover (h : Good g s) (hs : step g s .recover = .ok t) :
    homeStore g t = homeStore g s := by
  have hkeep := recoverKeeps_of_step hs
  have hd : t.hist.durable = s.hist.durable := by rw [hkeep.hist]
  unfold homeStore
  congr 1
  · funext b
    rw [if_neg hkeep.down]
    split
    · next up => exact (h.recovered hs up b.2).2
    · rw [hd]
  · rw [hd]

/-- The logging layer refines a store with atomic commit on the home blocks. -/
theorem log_refines (g : Geometry) :
    Lib.Refines (step (P := P) g) (Good g) Lib.CommitStore.Next (homeStore g) where
  inv := fun _ _ _ ↦ good_step
  sim := by
    intro s a t h hs
    by_cases hc : a = .crash
    · subst hc
      cases hs
      exact Or.inl (.crash _)
    by_cases hr : a = .recover
    · subst hr
      exact Or.inr (homeStore_recover h hs)
    cases stepTo_of_step hs with
    | commit p stage seen up pc =>
      cases stage with
      | writeHead => exact Or.inl (homeStore_commit up)
      | _ => exact Or.inl (homeStore_write rfl)
    | crash => exact absurd rfl hc
    | recover t ht => exact absurd rfl hr
    | _ => exact Or.inl (homeStore_write rfl)

/-- In every reachable state the durable contents of the home blocks are, as a whole, those
of the first boot or those the running system showed at some earlier moment. -/
theorem durable_whole {disk : Nat → Block} (hd : readHead (disk g.start) = [])
    (h : Lib.Reaches (step (P := P) g) (boot disk) s) :
    (∀ b, g.Home b → s.hist.durable b = disk b) ∨
      ∃ c, Relation.ReflTransGen Lib.CommitStore.Next (homeStore g (boot disk : State P)) c ∧
        ∀ b (hb : g.Home b), s.hist.durable b = c.volatile ⟨b, hb⟩ := by
  rcases Lib.CommitStore.durable_whole ((log_refines g).reaches (good_boot hd) h) with he | ⟨c, hc, he⟩
  · exact Or.inl fun b hb ↦ congrFun he ⟨b, hb⟩
  · exact Or.inr ⟨c, hc, fun b hb ↦ congrFun he ⟨b, hb⟩⟩

end Runs

end Xv6.Log
