import Xv6.Lib.Transition

/-!
# Stores with atomic commit

What a write-ahead log is for, without the log: a map that is written freely in
volatile memory, becomes durable as a whole at a commit, and falls back to the durable
contents at a crash. Keys and values are arbitrary types.
-/

namespace Xv6.Lib

/-- The contents a user sees and the contents that survive a crash. -/
structure CommitStore (κ β : Type*) where
  volatile : κ → β
  durable : κ → β

namespace CommitStore

variable {κ β : Type*}

/-- One transition: any change of the volatile contents, a commit, or a crash. -/
inductive Next : CommitStore κ β → CommitStore κ β → Prop where
  | write (c : CommitStore κ β) (v : κ → β) : Next c { c with volatile := v }
  | commit (c : CommitStore κ β) : Next c { c with durable := c.volatile }
  | crash (c : CommitStore κ β) : Next c { c with volatile := c.durable }

/-- After any run the durable contents are those of the start, or the volatile contents of
some state that the run passed through: nothing is ever durable in part. -/
theorem durable_whole {c d : CommitStore κ β} (h : Relation.ReflTransGen Next c d) :
    d.durable = c.durable ∨
      ∃ e, Relation.ReflTransGen Next c e ∧ d.durable = e.volatile := by
  induction h with
  | refl => exact Or.inl rfl
  | @tail e f hce hef ih =>
    cases hef with
    | write v => exact ih
    | commit => exact Or.inr ⟨e, hce, rfl⟩
    | crash => exact ih

end CommitStore

end Xv6.Lib
