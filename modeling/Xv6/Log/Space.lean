import Xv6.Log.GroupCommit

/-!
# Log space

`begin_op` reserves `MAXOPBLOCKS` blocks of `LOGSIZE` for each operation, while
`log_write` panics when `log.size - 1` blocks are listed, because the header takes one
block of the area. With the area that `mkfs` makes the two limits differ by one.
-/

namespace Xv6.Log

open Function

variable {P : Type}

/-- The distinct blocks logged by the operation in progress. -/
def Pc.blocks : Pc → List Nat
  | .inOp op => op.blocks
  | _ => []

/-- The caller logs at most `MAXOPBLOCKS` distinct blocks in one operation. -/
def modest (s : State P) : Action P → Bool
  | .logWrite p b _ => ((s.procs p).blocks.insert b).length ≤ MAXOPBLOCKS
  | _ => true

/-- The two tests count the header block: what `begin_op` admits fits into `log.size - 1`
blocks, and `log_write` of a listed block comes before these are full. -/
def roomy (g : Geometry) (s : State P) : Action P → Bool
  | .beginOp _ =>
    s.committing || (s.lh.length : Int) + (s.outstanding + 1) * MAXOPBLOCKS > LOGSIZE ||
      (s.lh.length : Int) + (s.outstanding + 1) * MAXOPBLOCKS ≤ g.size - 1
  | .logWrite _ b _ => b ∉ s.lh || s.lh.length < g.size - 1
  | _ => true

/-! ### The reservation -/

/-- The blocks that the operation in progress may still add to the log. -/
def reserve : Pc → Int
  | .inOp op => MAXOPBLOCKS - op.blocks.length
  | _ => 0

@[simp] theorem reserve_idle : reserve .idle = 0 := rfl
@[simp] theorem reserve_inOp (op : Op) : reserve (.inOp op) = MAXOPBLOCKS - op.blocks.length := rfl
@[simp] theorem reserve_wake (pc : Pc) : reserve pc.wake = reserve pc := by
  cases pc <;> rfl

theorem reserve_eq_zero {pc : Pc} (h : ¬pc.InOp) : reserve pc = 0 := by
  cases pc <;> first | rfl | exact absurd trivial h

/-- No operation has more left than `begin_op` reserved for it. -/
theorem reserve_le (pc : Pc) : reserve pc ≤ opCount pc * MAXOPBLOCKS := by
  cases pc <;> simp [reserve, opCount]

variable [Fintype P]

/-- The listed blocks and what the operations may still log fit into the log area. -/
structure Space (g : Geometry) (s : State P) : Prop where
  few : ∀ p op, s.procs p = .inOp op → op.blocks.length ≤ MAXOPBLOCKS
  room : s.mode = .up → (s.lh.length : Int) + ∑ p, reserve (s.procs p) ≤ g.size - 1

section Step

variable {g : Geometry} {s t : State P} {a : Action P}

theorem space_idle (hl : s.lh = []) (hp : ∀ p, s.procs p = .idle) : Space g s where
  few := fun p op h ↦ by
    rw [hp p] at h
    cases h
  room := fun _ ↦ by
    have := g.size_pos
    simp only [hl, hp, reserve_idle, List.length_nil, Finset.sum_const_zero]
    omega

/-- A change that lists no block and starts no operation keeps the reservation. -/
private theorem space_congr (h : Space g s) (hm : t.mode = .up → s.mode = .up)
    (hl : t.lh.length ≤ s.lh.length)
    (hp : ∀ p, (∃ op, t.procs p = .inOp op ∧ s.procs p = .inOp op) ∨ ¬(t.procs p).InOp) :
    Space g t where
  few := by
    intro p op hop
    rcases hp p with ⟨op', ht, hs⟩ | hn
    · rw [ht] at hop
      cases hop
      exact h.few p op hs
    · exact absurd (Pc.inOp_iff.mpr ⟨op, hop⟩) hn
  room := by
    intro ht
    have hsum : ∑ p, reserve (t.procs p) ≤ ∑ p, reserve (s.procs p) := by
      apply Finset.sum_le_sum
      intro p _
      rcases hp p with ⟨op, ht, hs⟩ | hn
      · rw [ht, hs]
      · rw [reserve_eq_zero hn]
        by_cases hin : (s.procs p).InOp
        · obtain ⟨op, hop⟩ := Pc.inOp_iff.mp hin
          have := h.few p op hop
          rw [hop, reserve_inOp]
          omega
        · rw [reserve_eq_zero hin]
    have := h.room (hm ht)
    omega

variable [DecidableEq P]

private theorem sum_reserve_update (procs : P → Pc) (p : P) (pc : Pc) :
    ∑ q, reserve (update procs p pc q) =
      ∑ q, reserve (procs q) + reserve pc - reserve (procs p) := by
  have h := Lib.sum_update_add reserve procs p pc
  omega

omit [Fintype P] in
private theorem goto_cases (p : P) {pc : Pc} (hpc : ¬pc.InOp) (q : P) :
    (∃ op, (s.goto p pc).procs q = .inOp op ∧ s.procs q = .inOp op) ∨
      ¬((s.goto p pc).procs q).InOp := by
  by_cases he : q = p
  · subst he
    right
    simpa [State.goto] using hpc
  · have hq : (s.goto p pc).procs q = s.procs q := by simp [State.goto, he]
    by_cases hin : (s.procs q).InOp
    · obtain ⟨op, hop⟩ := Pc.inOp_iff.mp hin
      exact Or.inl ⟨op, by rw [hq, hop], hop⟩
    · exact Or.inr (by rwa [hq])

private theorem space_admit {p : P} (hg : Protocol s) (h : Space g s)
    (hp : ¬(s.procs p).InOp)
    (hroom : (s.lh.length : Int) + (s.outstanding + 1) * MAXOPBLOCKS ≤ g.size - 1) :
    Space g (admitted s p) where
  few := by
    intro q op hq
    by_cases he : q = p
    · subst he
      simp only [admitted, update_self, Pc.inOp.injEq] at hq
      subst hq
      simp
    · exact h.few q op (by simpa [admitted, he] using hq)
  room := by
    intro _
    have hsum : ∑ q, reserve (s.procs q) ≤ s.outstanding * MAXOPBLOCKS := by
      rw [hg.counted, Finset.sum_mul]
      exact Finset.sum_le_sum fun q _ ↦ reserve_le _
    show (s.lh.length : Int) + ∑ q, reserve (update s.procs p _ q) ≤ g.size - 1
    rw [sum_reserve_update, reserve_eq_zero hp, reserve_inOp]
    simp only [List.length_nil]
    have hmul : (s.outstanding + 1) * (MAXOPBLOCKS : Int) =
        s.outstanding * MAXOPBLOCKS + MAXOPBLOCKS := by ring
    omega

/-- `log_write` within the caller's allowance uses up what it lists. -/
private theorem space_logged {p : P} {op : Op} {b : Nat} {data : Block} (h : Space g s)
    (hl : Listed s) (up : s.mode = .up) (hp : s.procs p = .inOp op)
    (hfew : (op.blocks.insert b).length ≤ MAXOPBLOCKS) : Space g (logged s p op b data) where
  few := by
    intro q op' hq
    by_cases he : q = p
    · subst he
      simp only [logged, update_self, Pc.inOp.injEq] at hq
      subst hq
      exact hfew
    · exact h.few q op' (by simpa [logged, he] using hq)
  room := by
    intro _
    have hroom := h.room up
    show ((absorb s.lh b).length : Int) + ∑ q, reserve (update s.procs p _ q) ≤ g.size - 1
    rw [sum_reserve_update, hp, reserve_inOp, reserve_inOp]
    dsimp only
    by_cases hb : b ∈ op.blocks
    · have hmem : b ∈ s.lh := (hl p op hp).2 hb
      rw [List.insert_of_mem hb, absorb, if_pos hmem]
      omega
    · have hle := length_absorb_le s.lh b
      rw [List.insert_of_not_mem hb, List.length_cons]
      omega

/-- A permitted step keeps the reservation. -/
theorem space_step (hg : Good g s) (hl : Listed s) (h : Space g s) (hm : modest s a = true)
    (hr : roomy g s a = true) (hs : step g s a = .ok t) : Space g t := by
  cases stepTo_of_step hs with
  | beginSleep p up pc full => exact space_congr h id le_rfl (goto_cases p id)
  | beginAdmit p up pc quiet room =>
    refine space_admit hg.protocol h ?_ ?_
    · rcases pc with hp | hp <;> rw [hp] <;> exact id
    · simp only [roomy, quiet, Bool.false_or, Bool.or_eq_true, decide_eq_true_eq] at hr
      omega
  | logWrite p op b data up pc home fits area =>
    have hfew : (op.blocks.insert b).length ≤ MAXOPBLOCKS := by
      simpa [modest, pc, Pc.blocks] using hm
    exact space_logged h hl up pc hfew
  | endCommit p op up pc quiet last full =>
    exact space_congr h id le_rfl (goto_cases (s := { s with committing := true }) p id)
  | endWake p op up pc quiet room =>
    refine space_congr h id le_rfl fun q ↦ ?_
    rcases goto_cases (s := wakeup s) p (show ¬Pc.idle.InOp from id) q with ⟨op', ht, hw⟩ | hn
    · exact Or.inl ⟨op', ht, Pc.wake_eq_inOp.mp hw⟩
    · exact Or.inr hn
  | syncSleep p seen up pc busy => exact space_congr h id le_rfl (goto_cases p id)
  | syncCommit p seen up pc quiet none =>
    exact space_congr h id le_rfl (goto_cases (s := { s with committing := true }) p id)
  | commit p stage seen up pc =>
    cases stage with
    | done =>
      refine space_congr h id le_rfl fun q ↦ ?_
      rcases goto_cases (s := wakeup s) p (show ¬Pc.idle.InOp from id) q with ⟨op', ht, hw⟩ | hn
      · exact Or.inl ⟨op', ht, Pc.wake_eq_inOp.mp hw⟩
      · exact Or.inr hn
    | clear => exact space_congr h id (Nat.zero_le _) (goto_cases (s := s) p id)
    | _ => exact space_congr h id le_rfl (goto_cases (s := s) p id)
  | kill p =>
    refine space_congr h id le_rfl fun q ↦ ?_
    by_cases he : q = p
    · subst he
      have hq : (s.goto q (s.procs q).wake).procs q = (s.procs q).wake := by simp [State.goto]
      rw [hq]
      by_cases hin : (s.procs q).InOp
      · obtain ⟨op, hop⟩ := Pc.inOp_iff.mp hin
        exact Or.inl ⟨op, Pc.wake_eq_inOp.mpr hop, hop⟩
      · refine Or.inr fun hw ↦ hin ?_
        obtain ⟨op, hop⟩ := Pc.inOp_iff.mp hw
        exact Pc.inOp_iff.mpr ⟨op, Pc.wake_eq_inOp.mp hop⟩
    · have hq : (s.goto p (s.procs p).wake).procs q = s.procs q := by simp [State.goto, he]
      rw [hq]
      by_cases hin : (s.procs q).InOp
      · obtain ⟨op, hop⟩ := Pc.inOp_iff.mp hin
        exact Or.inl ⟨op, hop, hop⟩
      · exact Or.inr hin
  | fill b absent =>
    exact ⟨h.few, h.room⟩
  | evict b data clean => exact ⟨h.few, h.room⟩
  | crash => exact space_idle rfl fun _ ↦ rfl
  | recover t hrec =>
    have hkeep := recoverKeeps_of_step hrec
    have hidle : ∀ p, t.procs p = .idle := fun p ↦ by
      rw [hkeep.procs, hg.protocol.down hkeep.down p]
    constructor
    · intro p op hop
      rw [hidle p] at hop
      cases hop
    · intro hup
      exact (space_idle (hkeep.lh hup) hidle).room hup

omit [DecidableEq P] in
theorem Space.reserve_nonneg (h : Space g s) (p : P) : 0 ≤ reserve (s.procs p) := by
  by_cases hin : (s.procs p).InOp
  · obtain ⟨op, hop⟩ := Pc.inOp_iff.mp hin
    have hfew := h.few p op hop
    rw [hop, reserve_inOp]
    omega
  · rw [reserve_eq_zero hin]

/-- In a state with the reservation, a permitted `log_write` finds room. -/
theorem Space.not_tooBig (hl : Listed s) (h : Space g s) (hsize : g.size ≤ LOGSIZE)
    (hm : modest s a = true) (hr : roomy g s a = true) :
    step g s a ≠ .error (.panic .tooBig) := by
  intro hs
  cases panicAt_of_step hs with
  | tooBig p op b data up pc full =>
    have hroom := h.room up
    have hsum : reserve (s.procs p) ≤ ∑ q, reserve (s.procs q) :=
      Finset.single_le_sum (f := fun q ↦ reserve (s.procs q)) (fun q _ ↦ h.reserve_nonneg q)
        (Finset.mem_univ p)
    have hlt : s.lh.length < g.size - 1 := by
      by_cases hb : b ∈ s.lh
      · simpa [roomy, hb] using hr
      · have hnew : b ∉ op.blocks := fun hmem ↦ hb ((hl p op pc).2 hmem)
        have hfew : (op.blocks.insert b).length ≤ MAXOPBLOCKS := by
          simpa [modest, pc, Pc.blocks] using hm
        rw [List.insert_of_not_mem hnew, List.length_cons] at hfew
        rw [pc, reserve_inOp] at hsum
        omega
    omega

/-! ### The main results -/

/-- With the log area that `mkfs` makes, "too big a transaction" is unreachable in every run
whose operations log at most `MAXOPBLOCKS` distinct blocks each and whose steps find the two
limits in agreement. -/
theorem log_space {disk : Nat → Block} (hd : readHead (disk mkfsGeometry.start) = [])
    {as : List (Action P)} (hs : Lib.exec (step mkfsGeometry) (boot disk) as = .ok s)
    (hrun : Lib.Along (step mkfsGeometry)
      (fun s a ↦ modest s a = true ∧ roomy mkfsGeometry s a = true) (boot disk) as)
    (hm : modest s a = true) (hr : roomy mkfsGeometry s a = true) :
    step mkfsGeometry s a ≠ .error (.panic .tooBig) := by
  have hinv : (Good mkfsGeometry s ∧ Listed s) ∧ Space mkfsGeometry s := by
    refine Lib.Along.invariant
      (I := fun v ↦ (Good mkfsGeometry v ∧ Listed v) ∧ Space mkfsGeometry v) ?_
      ⟨⟨good_boot hd, listed_idle fun _ ↦ rfl⟩, space_idle rfl fun _ ↦ rfl⟩ hrun hs
    intro v b w hi hp hstep
    exact ⟨⟨good_step hi.1.1 hstep, listed_step hi.1.1 hi.1.2 hstep⟩,
      space_step hi.1.1 hi.1.2 hi.2 hp.1 hp.2 hstep⟩
  exact hinv.2.not_tooBig hinv.1.2 le_rfl hm hr

end Step

/-- One process runs three operations, each of which logs `MAXOPBLOCKS` distinct blocks. -/
def fillLog : List (Action (Fin 1)) :=
  .recover :: .recover :: (List.range 3).flatMap fun k ↦
    .beginOp 0 :: (List.range MAXOPBLOCKS).map
      (fun i ↦ .logWrite 0 (100 + MAXOPBLOCKS * k + i) Block.zero) ++ [.endOp 0]

/-- An operation before it has logged 20 blocks; the second may log its 20th too. -/
theorem log_space_mkfs :
    (Lib.final (step mkfsGeometry) (boot fun _ ↦ Block.zero) (fillLog.take 44)).lh.length = 39 ∧
      step mkfsGeometry
          (Lib.final (step mkfsGeometry) (boot fun _ ↦ Block.zero) (fillLog.take 44))
          (.logWrite 0 139 Block.zero) ≠ .error (.panic .tooBig) := by
  have hok : (Lib.exec (step mkfsGeometry) (boot fun _ ↦ Block.zero)
      (fillLog.take 44)).isOk = true := by
    decide +kernel
  exact ⟨by decide +kernel, @log_space (Fin 1) _ _ (.logWrite 0 139 Block.zero) _
    (fun _ ↦ Block.zero) readHead_zero _ (Lib.exec_final hok) (by decide +kernel)
    (by decide +kernel) (by decide +kernel)⟩

/-- The third operation is admitted, and its last block finds `log.size - 1` blocks listed. -/
theorem fillLog_tooBig :
    Lib.Along (step mkfsGeometry) (fun s a ↦ modest s a = true) (boot fun _ ↦ Block.zero) fillLog ∧
      Lib.exec (step mkfsGeometry) (boot fun _ ↦ Block.zero) fillLog =
        .error (.panic .tooBig) := by
  decide +kernel

end Xv6.Log
