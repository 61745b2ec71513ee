import Xv6.Fs.Consistent
import Xv6.Log.Basic

/-!
# The blocks that a call logs

The calls of `log_write` that an operation makes, in order, and how many different blocks they are
about.
-/

namespace Xv6.Fs

open Function

/-- The header list after `log_write` of each of the blocks `l` in turn. -/
def absorbs (lh l : List Nat) : List Nat := l.foldl Log.absorb lh

section

variable {lh l l' : List Nat} {c : Nat}

theorem absorbs_append : absorbs lh (l ++ l') = absorbs (absorbs lh l) l' := List.foldl_append

theorem mem_absorbs : c ∈ absorbs lh l ↔ c ∈ lh ∨ c ∈ l := by
  induction l generalizing lh with
  | nil => simp [absorbs]
  | cons b l ih =>
    show c ∈ absorbs (Log.absorb lh b) l ↔ _
    rw [ih, Log.mem_absorb, List.mem_cons, or_assoc]

theorem nodup_absorbs (h : lh.Nodup) : (absorbs lh l).Nodup := by
  induction l generalizing lh with
  | nil => exact h
  | cons b l ih => exact ih (Log.nodup_absorb h)

/-- From an empty list on, the list has each block once. -/
theorem length_absorbs_nil : (absorbs [] l).length = l.toFinset.card := by
  have hnodup : (absorbs [] l).Nodup := nodup_absorbs List.nodup_nil
  rw [← List.toFinset_card_of_nodup hnodup]
  congr 1
  ext c
  simp [mem_absorbs]

end

/-- Between `s` and `t`, `log_write` has been called for the blocks `l`. -/
def Logs (s t : State) (l : List Nat) : Prop := t.lh = absorbs s.lh l

/-- The state with an empty header list: what is on the list later, an operation has logged. -/
def State.unlogged (s : State) : State := { s with lh := [] }

@[simp] theorem State.blocks_unlogged (s : State) : s.unlogged.blocks = s.blocks := rfl

@[simp] theorem State.icache_unlogged (s : State) : s.unlogged.icache = s.icache := rfl

section

variable {sb : Superblock} {s t u : State} {l l' : List Nat}

theorem Logs.refl (s : State) : Logs s s [] := rfl

theorem Logs.trans (h : Logs s t l) (h' : Logs t u l') : Logs s u (l ++ l') := by
  unfold Logs at *
  rw [h', h, absorbs_append]

/-- The blocks on the list after an operation are those that it has logged. -/
theorem Logs.card (h : Logs s.unlogged t l) : t.lh.Nodup ∧ t.lh.length = l.toFinset.card := by
  have hlh : t.lh = absorbs [] l := h
  rw [hlh]
  exact ⟨nodup_absorbs List.nodup_nil, length_absorbs_nil⟩

/-- The header list says nothing about the disk. -/
theorem Consistent.unlogged (h : Consistent sb s) : Consistent sb s.unlogged :=
  ⟨h.disk, h.cache.cached, h.cache.typed, h.cache.inum, h.cache.single⟩

theorem logs_logWrite (b : Nat) (data : Block) : Logs s (logWrite s b data) [b] := rfl

theorem logs_iupdate (ip : Slot) : Logs s (iupdate sb s ip) [sb.IBLOCK (s.icache ip).inum] := rfl

/-- A new block is marked in the free map and zeroed. -/
theorem balloc_logs {b : Nat} (h : balloc sb s = .ok (t, b)) : Logs s t [sb.BBLOCK b, b] := by
  unfold balloc at h
  split at h
  · cases h
    rfl
  · cases h

/-- A block is freed in the free map only. -/
theorem bfree_logs {b : Nat} (h : bfree sb s b = .ok t) : Logs s t [sb.BBLOCK b] := by
  unfold bfree at h
  split at h
  · cases h
  · cases h
    rfl

end

end Xv6.Fs
