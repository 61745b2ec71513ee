import Xv6.Log.Model
import Xv6.Lib.Update

/-!
# Basic facts of the logging layer

The header block round trip, and what the small state updates of `Xv6.Log.Model`
leave alone.
-/

namespace Xv6.Log

open Function

/-! ### The header block -/

private theorem word_putBlocks_lt (xs : List Nat) (blk : Block) (i j : Nat)
    (hn : i + xs.length < NINDIRECT) (hj : j ≤ i) :
    (putBlocks blk i xs).word j = blk.word j := by
  induction xs generalizing blk i with
  | nil => rfl
  | cons x xs ih =>
    simp only [List.length_cons] at hn
    rw [putBlocks, ih _ _ (by omega) (by omega), Block.word_setWord_ne _ _ _ _ (by omega) (by omega)]

private theorem word_putBlocks (xs : List Nat) (blk : Block) (i k : Nat)
    (hn : i + xs.length < NINDIRECT) (hx : ∀ x ∈ xs, x < 2 ^ 32) (hk : k < xs.length) :
    (putBlocks blk i xs).word (i + k + 1) = xs[k] := by
  induction xs generalizing blk i k with
  | nil => simp at hk
  | cons x xs ih =>
    simp only [List.length_cons] at hn hk
    rw [putBlocks]
    cases k with
    | zero =>
      rw [word_putBlocks_lt _ _ _ _ (by omega) (by omega), Nat.add_zero,
        Block.word_setWord_same _ _ _ (by omega) (hx x (by simp))]
      rfl
    | succ k =>
      have h := ih (blk.setWord (i + 1) x) (i + 1) k (by omega)
        (fun y hy ↦ hx y (by simp [hy])) (by omega)
      rw [show i + (k + 1) + 1 = i + 1 + k + 1 by omega, h]
      rfl

/-- `read_head` reads back the list that `write_head` wrote, whatever the block held before. -/
theorem readHead_writeHead (blk : Block) (lh : List Nat) (hn : lh.length < NINDIRECT)
    (hx : ∀ x ∈ lh, x < 2 ^ 32) : readHead (writeHead blk lh) = lh := by
  have hn' : lh.length < 128 := hn
  have h0 : (writeHead blk lh).word 0 = lh.length := by
    rw [writeHead, word_putBlocks_lt _ _ _ _ (by omega) (by omega),
      Block.word_setWord_same _ _ _ (by decide) (by omega)]
  have hc : headCount (writeHead blk lh) = lh.length := by
    rw [headCount, h0, if_pos (by omega)]
  apply List.ext_getElem
  · rw [readHead, List.length_map, List.length_range, hc]
  · intro i hi hi'
    simp only [readHead, List.getElem_map, List.getElem_range]
    have h := word_putBlocks lh (blk.setWord 0 lh.length) 0 i (by omega) hx hi'
    rwa [Nat.zero_add] at h

/-- A header block whose count is zero lists no block. -/
theorem readHead_zero : readHead Block.zero = [] := by simp [readHead, headCount]

/-! ### Log absorption -/

theorem mem_absorb {lh : List Nat} {b c : Nat} : c ∈ absorb lh b ↔ c ∈ lh ∨ c = b := by
  unfold absorb
  split
  · next h =>
    constructor
    · exact Or.inl
    · rintro (hc | rfl)
      · exact hc
      · exact h
  · simp

/-- Absorption lists no block twice. -/
theorem nodup_absorb {lh : List Nat} {b : Nat} (h : lh.Nodup) : (absorb lh b).Nodup := by
  unfold absorb
  split
  · exact h
  · next hb =>
    rw [← List.concat_eq_append]
    exact h.concat hb

theorem length_absorb_le (lh : List Nat) (b : Nat) : (absorb lh b).length ≤ lh.length + 1 := by
  unfold absorb
  split <;> simp

theorem absorb_ne_nil (lh : List Nat) (b : Nat) : absorb lh b ≠ [] :=
  List.ne_nil_of_mem (mem_absorb.mpr (Or.inr rfl))

/-! ### The buffer cache -/

variable {P : Type}

section Cache

variable (s : State P) (b c : Nat) (v : Block)

theorem bread_bwrite : bread (bwrite s b v) c = if c = b then v else bread s c := by
  unfold bread bwrite
  by_cases h : c = b
  · subst h; simp
  · simp [h]

theorem disk_bwrite : (bwrite s b v).disk c = if c = b then v else s.disk c := by
  unfold bwrite
  by_cases h : c = b
  · subst h; simp
  · simp [h]

theorem dirty_bwrite : Dirty (bwrite s b v) c ↔ c ≠ b ∧ Dirty s c := by
  unfold Dirty bwrite
  by_cases h : c = b
  · subst h; simp
  · simp [h]

@[simp] theorem lh_bwrite : (bwrite s b v).lh = s.lh := rfl
@[simp] theorem mode_bwrite : (bwrite s b v).mode = s.mode := rfl
@[simp] theorem procs_bwrite : (bwrite s b v).procs = s.procs := rfl
@[simp] theorem hist_bwrite : (bwrite s b v).hist = s.hist := rfl
@[simp] theorem committing_bwrite : (bwrite s b v).committing = s.committing := rfl
@[simp] theorem outstanding_bwrite : (bwrite s b v).outstanding = s.outstanding := rfl

end Cache

/-! ### Processes -/

/-- Inside `commit()`, or about to clear `log.committing`. -/
def Pc.InCommit : Pc → Prop
  | .commit _ _ => True
  | _ => False

/-- Between `begin_op` and `end_op`. -/
def Pc.InOp : Pc → Prop
  | .inOp _ => True
  | _ => False

/-- Asleep on `&log`, with no `wakeup(&log)` since it went to sleep. -/
def Pc.Asleep : Pc → Prop
  | .beginWait asleep => asleep = true
  | .syncWait asleep _ => asleep = true
  | _ => False

@[simp] theorem Pc.inCommit_wake (pc : Pc) : pc.wake.InCommit ↔ pc.InCommit := by
  cases pc <;> rfl

@[simp] theorem Pc.wake_eq_commit {pc : Pc} {st : Stage} {seen : List Nat} :
    pc.wake = .commit st seen ↔ pc = .commit st seen := by
  cases pc <;> simp [Pc.wake]

@[simp] theorem Pc.wake_eq_inOp {pc : Pc} {op : Op} : pc.wake = .inOp op ↔ pc = .inOp op := by
  cases pc <;> simp [Pc.wake]

@[simp] theorem Pc.not_asleep_wake (pc : Pc) : ¬pc.wake.Asleep := by
  cases pc <;> simp [Pc.wake, Pc.Asleep]

theorem Pc.inCommit_iff {pc : Pc} : pc.InCommit ↔ ∃ st seen, pc = .commit st seen := by
  cases pc <;> simp [Pc.InCommit]

theorem Pc.inOp_iff {pc : Pc} : pc.InOp ↔ ∃ op, pc = .inOp op := by
  cases pc <;> simp [Pc.InOp]

end Xv6.Log
