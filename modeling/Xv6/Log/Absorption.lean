import Xv6.Log.Protocol

/-!
# Log absorption

`log.lh` as `log.c` keeps it: a count and an array. The loop of `log_write` searches the
entries in use and stores at the index where it stops, found or not. Here the loop runs beside
the system of `Xv6.Log.Model`, on any block number; the list there is what the array holds.
-/

namespace Xv6.Log

open Function

/-- `struct logheader`; `log.c:34-37`. -/
structure LogHeader where
  n : Nat
  block : Fin LOGSIZE → Nat

namespace LogHeader

/-- `block[0..n)`. -/
def list (lh : LogHeader) : List Nat := (List.ofFn lh.block).take lh.n

/-- `block[i]`. -/
def get (lh : LogHeader) (i : Nat) : Nat := if h : i < LOGSIZE then lh.block ⟨i, h⟩ else 0

/-- `block[i] = b`. -/
def put (lh : LogHeader) (i b : Nat) : Fin LOGSIZE → Nat :=
  fun k ↦ if k.val = i then b else lh.block k

/-- Where the search of `log_write` stops that has reached `i`; `rounds` are left;
`log.c:224-227`. -/
def search (lh : LogHeader) (b : Nat) : Nat → Nat → Nat
  | 0, i => i
  | rounds + 1, i => if lh.get i = b then i else search lh b rounds (i + 1)

/-- `log_write` of block `b`, as far as it concerns the header; `log.c:213-230`. -/
def logWrite (g : Geometry) (outstanding : Int) (lh : LogHeader) (b : Nat) :
    Except Stop LogHeader :=
  if lh.n ≥ LOGSIZE ∨ lh.n ≥ g.size - 1 then
    .error (.panic .tooBig)
  else if outstanding < 1 then
    .error (.panic .outsideTrans)
  else
    let i := lh.search b lh.n 0
    .ok ⟨if i = lh.n then lh.n + 1 else lh.n, lh.put i b⟩

/-- `read_head` of a header block that lists `xs`; `log.c:91-94`. -/
def readHead (lh : LogHeader) (xs : List Nat) : LogHeader :=
  ⟨xs.length, fun i ↦ xs.getD i (lh.block i)⟩

/-- `log.lh.n = 0`; `log.c:120,200`. -/
def clear (lh : LogHeader) : LogHeader := { lh with n := 0 }

end LogHeader

variable {P : Type}

/-- The header after a step that is no `log_write`, taken in `s`. -/
def LogHeader.after (g : Geometry) (lh : LogHeader) (s : State P) : Action P → LogHeader
  | .commit p =>
    match s.procs p with
    | .commit .clear _ => lh.clear
    | _ => lh
  | .recover =>
    match s.mode with
    | .readHead => lh.readHead (Log.readHead (bread s g.start))
    | .clear => lh.clear
    | _ => lh
  | .crash => ⟨0, fun _ ↦ 0⟩
  | _ => lh

/-- The system with the header in memory. -/
structure Kernel (P : Type) where
  sys : State P
  lh : LogHeader

/-- `get_log_num`; `log.c:255-259`. -/
def getLogNum (m : Kernel P) : Nat := m.lh.n

/-- One action, where `log_write` searches the array and takes any block number. -/
def headStep [DecidableEq P] (g : Geometry) (m : Kernel P) : Action P → Except Stop (Kernel P)
  | .logWrite p b data =>
    match m.sys.mode, m.sys.procs p with
    | .up, .inOp op =>
      match m.lh.logWrite g m.sys.outstanding b with
      | .ok lh => .ok ⟨{ logged m.sys p op b data with lh := lh.list }, lh⟩
      | .error e => .error e
    | _, _ => .error .disabled
  | a =>
    match step g m.sys a with
    | .ok s => .ok ⟨s, m.lh.after g m.sys a⟩
    | .error e => .error e

/-- The block numbers given to `log_write` since the last commit, in the order of the calls. -/
def written (m : Kernel P) (a : Action P) (_ : Kernel P) (ws : List Nat) : List Nat :=
  match a with
  | .logWrite _ b _ => ws ++ [b]
  | .commit p =>
    match m.sys.procs p with
    | .commit .clear _ => []
    | _ => ws
  | .crash | .recover => []
  | _ => ws

/-- `written` at the end of a run from a boot with the header `lh` in memory. -/
def writtenIn [DecidableEq P] (g : Geometry) (disk : Nat → Block) (lh : LogHeader)
    (as : List (Action P)) : List Nat :=
  Lib.history (headStep g) written ⟨boot disk, lh⟩ [] as

/-! ### The search -/

namespace LogHeader

variable {lh lh' : LogHeader} {g : Geometry} {o : Int} {b : Nat}

@[simp] theorem length_list (lh : LogHeader) : lh.list.length = min lh.n LOGSIZE := by
  rw [list, List.length_take, List.length_ofFn]

theorem getElem_list {i : Nat} (h : i < lh.list.length) : lh.list[i] = lh.get i := by
  have hi : i < LOGSIZE := by
    rw [length_list] at h
    omega
  simp only [list, get, dif_pos hi, List.getElem_take, List.getElem_ofFn]

@[simp] theorem list_clear (lh : LogHeader) : lh.clear.list = [] := by simp [clear, list]

/-- The search stops at the first entry that holds `b`, or at the end. -/
theorem search_spec (lh : LogHeader) (b rounds i : Nat) :
    i ≤ lh.search b rounds i ∧ lh.search b rounds i ≤ i + rounds ∧
      (∀ j, i ≤ j → j < lh.search b rounds i → lh.get j ≠ b) ∧
      (lh.search b rounds i < i + rounds → lh.get (lh.search b rounds i) = b) := by
  induction rounds generalizing i with
  | zero => exact ⟨le_rfl, le_rfl, fun j hij hj ↦ absurd hj (not_lt.mpr hij), fun hlt ↦
      absurd hlt (lt_irrefl i)⟩
  | succ rounds ih =>
    unfold search
    split
    · next hfound =>
      refine ⟨le_rfl, by omega, fun j hij hj ↦ absurd hj (by omega), fun _ ↦ hfound⟩
    · next hmiss =>
      obtain ⟨hle, hend, hbefore, hat⟩ := ih (i + 1)
      refine ⟨by omega, by omega, fun j hij hj ↦ ?_, fun hlt ↦ hat (by omega)⟩
      rcases Nat.eq_or_lt_of_le hij with rfl | hlt
      · exact hmiss
      · exact hbefore j hlt hj

/-- A search of the entries in use finds `b` exactly when it is listed. -/
theorem search_lt_iff (hn : lh.n ≤ LOGSIZE) : lh.search b lh.n 0 < lh.n ↔ b ∈ lh.list := by
  obtain ⟨_, hend, hbefore, hat⟩ := lh.search_spec b lh.n 0
  rw [Nat.zero_add] at hend hat
  constructor
  · intro hlt
    have hlen : lh.search b lh.n 0 < lh.list.length := by
      rw [length_list]
      omega
    rw [← hat hlt, ← getElem_list hlen]
    exact List.getElem_mem hlen
  · intro hmem
    obtain ⟨j, hj, hjb⟩ := List.getElem_of_mem hmem
    rw [getElem_list hj] at hjb
    by_contra hge
    refine hbefore j (Nat.zero_le _) ?_ hjb
    rw [length_list] at hj
    omega

/-- Storing a block where it stands changes nothing. -/
private theorem put_self {i : Nat} (h : lh.get i = b) : lh.put i b = lh.block := by
  funext k
  unfold put
  split
  · next hk =>
    rw [← h, get, dif_pos (hk ▸ k.isLt)]
    congr
    exact hk.symm
  · rfl

/-- Storing a block at the first entry not in use appends it. -/
private theorem list_append (hn : lh.n < LOGSIZE) :
    list ⟨lh.n + 1, lh.put lh.n b⟩ = lh.list ++ [b] := by
  apply List.ext_getElem
  · simp only [length_list, List.length_append, List.length_singleton]
    omega
  · intro i hi _
    simp only [length_list] at hi
    rw [getElem_list, List.getElem_append]
    split
    · next hlt =>
      rw [getElem_list hlt]
      rw [length_list] at hlt
      have hne : i ≠ lh.n := by omega
      simp [get, put, hne]
    · next hge =>
      rw [length_list] at hge
      have hi' : i = lh.n := by omega
      subst hi'
      simp [get, put, hn]

/-- What `log_write` does to the header: it stores inside the array, and the list absorbs the
block. -/
theorem logWrite_spec (h : lh.logWrite g o b = .ok lh') :
    lh.search b lh.n 0 < LOGSIZE ∧ lh'.n ≤ LOGSIZE ∧ lh'.list = absorb lh.list b ∧
      (b ∈ lh.list → lh' = lh) := by
  unfold logWrite at h
  split at h
  · cases h
  · next hfits =>
    have hn : lh.n < LOGSIZE := by omega
    have hend := (lh.search_spec b lh.n 0).2.1
    have hat := (lh.search_spec b lh.n 0).2.2.2
    rw [Nat.zero_add] at hend hat
    split at h
    · cases h
    · cases h
      refine ⟨by omega, by dsimp only; split <;> omega, ?_⟩
      by_cases hmem : b ∈ lh.list
      · have hlt := (search_lt_iff hn.le).mpr hmem
        have hne : lh.search b lh.n 0 ≠ lh.n := by omega
        rw [put_self (hat hlt), if_neg hne, absorb, if_pos hmem]
        exact ⟨rfl, fun _ ↦ rfl⟩
      · have hge : lh.search b lh.n 0 = lh.n := by
          by_contra hne
          exact hmem ((search_lt_iff hn.le).mp (by omega))
        rw [hge, if_pos rfl, list_append hn, absorb, if_neg hmem]
        exact ⟨rfl, fun hin ↦ absurd hin hmem⟩

end LogHeader

/-! ### First writes -/

/-- A further write enters the list of first writes as the loop enters it into the log. -/
theorem eraseDups_snoc (ws : List Nat) (b : Nat) :
    (ws ++ [b]).eraseDups = absorb ws.eraseDups b := by
  rw [List.eraseDups_append, absorb]
  by_cases h : b ∈ ws
  · rw [if_pos (List.mem_eraseDups.mpr h)]
    simp [List.removeAll, h]
  · rw [if_neg (fun hin ↦ h (List.mem_eraseDups.mp hin))]
    simp [List.removeAll, h, List.eraseDups_cons]

theorem nodup_eraseDups (ws : List Nat) : ws.eraseDups.Nodup := by
  induction ws using List.reverseRecOn with
  | nil => simp
  | append_singleton ws b ih =>
    rw [eraseDups_snoc]
    exact nodup_absorb ih

/-- The header lists the distinct blocks of `ws`, each once, in the order of their first
writes. -/
structure Absorbed (lh : LogHeader) (ws : List Nat) : Prop where
  fits : lh.n ≤ LOGSIZE
  list : lh.list = ws.eraseDups

namespace Absorbed

variable {lh lh' : LogHeader} {ws : List Nat}

theorem nodup (h : Absorbed lh ws) : lh.list.Nodup := by
  rw [h.list]
  exact nodup_eraseDups ws

theorem mem (h : Absorbed lh ws) (b : Nat) : b ∈ lh.list ↔ b ∈ ws := by
  rw [h.list, List.mem_eraseDups]

/-- The count is the number of the distinct blocks. -/
theorem count (h : Absorbed lh ws) : lh.n = ws.toFinset.card := by
  have hset : ws.toFinset = lh.list.toFinset := by
    ext b
    rw [List.mem_toFinset, List.mem_toFinset, h.mem]
  rw [hset, List.toFinset_card_of_nodup h.nodup, LogHeader.length_list]
  have := h.fits
  omega

theorem clear (lh : LogHeader) : Absorbed lh.clear [] where
  fits := Nat.zero_le _
  list := lh.list_clear

theorem logWrite {g : Geometry} {o : Int} {b : Nat} (h : Absorbed lh ws)
    (hw : lh.logWrite g o b = .ok lh') : Absorbed lh' (ws ++ [b]) := by
  obtain ⟨_, hfits, hlist, _⟩ := LogHeader.logWrite_spec hw
  exact ⟨hfits, by rw [hlist, h.list, eraseDups_snoc]⟩

end Absorbed

/-! ### The header in a run -/

section Run

variable [DecidableEq P] {g : Geometry} {m t : Kernel P} {a : Action P}

/-- A step is a `log_write` on the array, or a step of the system that the header follows. -/
theorem headStep_cases (h : headStep g m a = .ok t) :
    (∃ p op b data, a = .logWrite p b data ∧ m.sys.mode = .up ∧ m.sys.procs p = .inOp op ∧
      m.lh.logWrite g m.sys.outstanding b = .ok t.lh ∧
      t.sys = { logged m.sys p op b data with lh := t.lh.list }) ∨
    ((∀ p b data, a ≠ .logWrite p b data) ∧ step g m.sys a = .ok t.sys ∧
      t.lh = m.lh.after g m.sys a) := by
  cases a with
  | logWrite p b data =>
    left
    simp only [headStep] at h
    split at h
    · next op up pc =>
      split at h
      · next lh hw =>
        cases h
        exact ⟨p, op, b, data, rfl, up, pc, hw, rfl⟩
      · cases h
    · cases h
  | _ =>
    right
    simp only [headStep] at h
    split at h
    · next s hs =>
      cases h
      exact ⟨by simp, hs, rfl⟩
    · cases h

variable [Fintype P]

/-- The system's list is what the array holds, and both hold the first writes of `ws`. -/
structure Follows (m : Kernel P) (ws : List Nat) : Prop where
  protocol : Protocol m.sys
  agrees : m.sys.mode = .up → m.lh.list = m.sys.lh
  absorbed : m.sys.mode = .up → Absorbed m.lh ws

omit [DecidableEq P] in
theorem follows_boot (disk : Nat → Block) (lh : LogHeader) :
    Follows (⟨boot disk, lh⟩ : Kernel P) [] where
  protocol := protocol_idle rfl rfl rfl fun _ ↦ rfl
  agrees := fun h ↦ by cases h
  absorbed := fun h ↦ by cases h

/-- With the array in agreement, `log_write` on it is the system's. -/
private theorem logged_eq {p : P} {op : Op} {b : Nat} {data : Block} {ws : List Nat}
    (h : Follows m ws) (up : m.sys.mode = .up)
    (hw : m.lh.logWrite g m.sys.outstanding b = .ok t.lh)
    (ht : t.sys = { logged m.sys p op b data with lh := t.lh.list }) :
    t.sys = logged m.sys p op b data := by
  have hlist := (LogHeader.logWrite_spec hw).2.2.1
  rw [h.agrees up] at hlist
  rw [ht, hlist]
  rfl

omit [DecidableEq P] in
/-- A step that leaves the list, the header and the history of writes alone. -/
private theorem Follows.same {ws : List Nat} (h : Follows m ws) (hp : Protocol t.sys)
    (hm : t.sys.mode = .up → m.sys.mode = .up) (hl : t.sys.lh = m.sys.lh) (hh : t.lh = m.lh) :
    Follows t ws where
  protocol := hp
  agrees := fun up ↦ by rw [hh, hl, h.agrees (hm up)]
  absorbed := fun up ↦ by
    rw [hh]
    exact h.absorbed (hm up)

/-- A step of `commit()` clears the header or leaves it alone. -/
private theorem Follows.commit {ws : List Nat} {p : P} {stage : Stage} {seen : List Nat}
    (h : Follows m ws) (hp : Protocol t.sys) (up : m.sys.mode = .up)
    (pc : m.sys.procs p = .commit stage seen) (hs : t.sys = commitStep g m.sys p seen stage)
    (hh : t.lh = m.lh.after g m.sys (.commit p)) : Follows t (written m (.commit p) t ws) := by
  simp only [written, LogHeader.after, pc] at hh ⊢
  cases stage with
  | clear =>
    constructor
    · exact hp
    · intro _
      rw [hh, hs, LogHeader.list_clear]
      rfl
    · intro _
      rw [hh]
      exact .clear m.lh
  | _ => exact h.same hp (fun _ ↦ up) (by rw [hs]; rfl) hh

omit [DecidableEq P] in
/-- Recovery brings the system up with a header it has cleared. -/
private theorem Follows.recover (hp : Protocol t.sys)
    (hs : recoverStep g m.sys m.sys.mode = .ok t.sys)
    (hh : t.lh = m.lh.after g m.sys .recover) : Follows t [] := by
  have hclear : t.sys.mode = .up → t.lh = m.lh.clear := by
    intro up
    cases hm : m.sys.mode with
    | readHead =>
      rw [hm, recoverStep, Except.ok.injEq] at hs
      rw [← hs] at up
      dsimp only at up
      split at up <;> cases up
    | install tail =>
      rw [hm, recoverStep, Except.ok.injEq] at hs
      rw [← hs] at up
      dsimp only at up
      split at up <;> cases up
    | clear => simpa only [LogHeader.after, hm] using hh
    | up => simp [hm, recoverStep] at hs
  refine ⟨hp, fun up ↦ ?_, fun up ↦ ?_⟩
  · rw [hclear up, LogHeader.list_clear, (recoverKeeps_of_step hs).lh up]
  · rw [hclear up]
    exact .clear m.lh

/-- Every step keeps the header and the writes together. -/
theorem follows_step {ws : List Nat} (h : Follows m ws) (hs : headStep g m a = .ok t) :
    Follows t (written m a t ws) := by
  rcases headStep_cases hs with ⟨p, op, b, data, rfl, up, pc, hw, ht⟩ | ⟨hne, hstep, hh⟩
  · have hlog := logged_eq h up hw ht
    constructor
    · rw [hlog]
      exact protocol_logged h.protocol pc up
    · intro _
      rw [ht]
    · intro _
      exact (h.absorbed up).logWrite hw
  · have hp := protocol_step h.protocol hstep
    generalize hs' : t.sys = s' at hstep
    cases stepTo_of_step hstep with
    | logWrite p op b data => exact absurd rfl (hne p b data)
    | commit p stage seen up pc => exact h.commit hp up pc hs' hh
    | crash =>
      refine ⟨hp, fun up ↦ ?_, fun up ↦ ?_⟩ <;>
        · rw [hs'] at up
          cases up
    | recover s' hr =>
      subst hs'
      exact .recover hp hr hh
    | _ =>
      have hl := congrArg State.lh hs'
      exact h.same hp (by rw [hs']; exact id) hl hh

/-! ### The main results -/

/-- Log absorption, in every run of any number of processes on any block numbers: while the
system is up, the header lists the distinct blocks written since the last commit, each once, in
the order of their first writes, `get_log_num` is their number, and a `log_write` of a listed
block changes nothing; when `commit()` is done, in `end_op` or in `sync`, the list is empty. -/
theorem log_absorption {disk : Nat → Block} {lh₀ : LogHeader} {as : List (Action P)}
    (h : Lib.exec (headStep g) ⟨boot disk, lh₀⟩ as = .ok m) (up : m.sys.mode = .up) :
    m.lh.list = (writtenIn g disk lh₀ as).eraseDups ∧ m.lh.list.Nodup ∧
      (∀ b, b ∈ m.lh.list ↔ b ∈ writtenIn g disk lh₀ as) ∧
      getLogNum m = (writtenIn g disk lh₀ as).toFinset.card ∧
      (∀ p b data t, headStep g m (.logWrite p b data) = .ok t → b ∈ m.lh.list →
        t.lh.n = m.lh.n ∧ t.lh.list = m.lh.list) ∧
      (∀ p seen t, m.sys.procs p = .commit .done seen → headStep g m (.commit p) = .ok t →
        m.lh.list = [] ∧ t.lh.list = [] ∧ getLogNum t = 0) := by
  have hinv : Follows m (writtenIn g disk lh₀ as) :=
    Lib.Along.history (p := fun _ _ ↦ True) (fun _ _ _ _ hi _ hst ↦ follows_step hi hst)
      (follows_boot disk lh₀) (Lib.Along.of_forall fun _ _ ↦ trivial) h
  have habs := hinv.absorbed up
  refine ⟨habs.list, habs.nodup, habs.mem, habs.count, ?_, ?_⟩
  · intro p b data t ht hmem
    rcases headStep_cases ht with ⟨_, _, _, _, heq, _, _, hw, _⟩ | ⟨hne, _, _⟩
    · cases heq
      rw [(LogHeader.logWrite_spec hw).2.2.2 hmem]
      exact ⟨rfl, rfl⟩
    · exact absurd rfl (hne p b data)
  · intro p seen t pc ht
    have hnil : m.lh.list = [] := by
      rw [hinv.agrees up]
      exact hinv.protocol.cleared p seen pc
    have hzero : m.lh.n = 0 := by
      have hlen := congrArg List.length hnil
      rw [LogHeader.length_list, List.length_nil] at hlen
      have hpos : 0 < LOGSIZE := by decide
      omega
    rcases headStep_cases ht with ⟨_, _, _, _, heq, _⟩ | ⟨_, _, hh⟩
    · cases heq
    · have hsame : t.lh = m.lh := by simpa only [LogHeader.after, pc] using hh
      rw [getLogNum, hsame]
      exact ⟨hnil, hnil, hzero⟩

end Run

/-- One process of a fresh file system writes blocks 5, 9 and 5 and syncs. -/
def absorbRun : List (Action (Fin 1)) :=
  [.recover, .recover, .beginOp 0, .logWrite 0 5 Block.zero, .logWrite 0 9 Block.zero,
    .logWrite 0 5 Block.zero, .endOp 0]

theorem log_absorption_mkfs :
    (Lib.final (headStep mkfsGeometry) ⟨boot fun _ ↦ Block.zero, ⟨0, fun _ ↦ 0⟩⟩
      absorbRun).lh.list = [5, 9] := by
  have hok : (Lib.exec (headStep mkfsGeometry) ⟨boot fun _ ↦ Block.zero, ⟨0, fun _ ↦ 0⟩⟩
      absorbRun).isOk = true := by
    decide +kernel
  have hrun := Lib.exec_final hok
  have h := (log_absorption hrun (by decide +kernel)).1
  rw [h]
  decide +kernel

end Xv6.Log
