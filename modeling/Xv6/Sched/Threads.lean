import Xv6.Sched.Links

/-!
# The books of a group

`threads` and `t_cnt` of a master are the record of its workers. An entry is taken and a worker
counted in `thread_create`; the count is undone when the worker exits and the entry when it is
joined, and `exit` drops both. The history beside the state says whose worker a thread is until
it is joined or its group has ended.
-/

namespace Xv6.Sched

open Function Lib

section

variable {n : Nat} (round : Int → Int)

/-- A machine with the history of its groups: `made` is the master of a worker that has not been
joined. -/
structure Groups (n : Nat) where
  state : State n
  made : Slot → Ptr

/-- `p` joins `w` in this round of `thread_join`. -/
def Joins (s : State n) (p : Slot) (thread : Nat) (w : Slot) : Prop :=
  (∃ i : Fin (MAXTHREAD + 1), i = thread ∧ (s.proc p).threads i = some w) ∧
    (s.proc w).state = .ZOMBIE

instance (s : State n) (p : Slot) (thread : Nat) (w : Slot) : Decidable (Joins s p thread w) :=
  inferInstanceAs (Decidable (_ ∧ _))

/-- The workers after the step `a` from `s` to `t`: a new one, without the one that is joined,
without those of the group that ends. -/
def workers (s t : State n) (a : Action n) (f : Slot → Ptr) : Slot → Ptr := fun w ↦
  match a with
  | .thread_create c =>
    match (s.cpu c).proc with
    | some p => if (t.proc p).np = some w then (s.proc p).master else f w
    | none => f w
  | .thread_join c thread =>
    match (s.cpu c).proc with
    | some p => if Joins s p thread w then none else f w
    | none => f w
  | .exit c =>
    match (s.cpu c).proc with
    | some p => if f w = exiting s p then none else f w
    | none => f w
  | _ => f w

/-- One step, with its history. -/
def Groups.step (g : Groups n) (a : Action n) : Except Fault (Groups n) := do
  let t ← Sched.step round g.state a
  pure ⟨t, workers g.state t a g.made⟩

/-- The machine when the CPUs enter `scheduler()`. -/
def Groups.boot (n : Nat) : Groups n := ⟨Sched.boot n, fun _ ↦ none⟩

/-- A call is made by a process that is alive, and `fork` and `thread_create` end with the entry
they have taken. An index is free for a new thread, and only workers end in `thread_exit`. `kill`
finds no worker of the group that has not exited, and a group ends in `exit` when its master is
marked as one with threads, or has no workers. -/
def Kept (s : State n) (a : Action n) : Prop :=
  CallerLives s a ∧
    match a with
    | .forkDone c _ =>
      ∀ p ∈ (s.cpu c).proc, ∀ w ∈ (s.proc p).np,
        (s.proc w).state = .EMBRYO ∧ (s.proc w).isthread = false
    | .thread_create c =>
      ∀ p ∈ (s.cpu c).proc, ∀ m ∈ (s.proc p).master, ∃ i, i ≠ 0 ∧ (s.proc m).threads i = none
    | .threadReady c =>
      ∀ p ∈ (s.cpu c).proc, ∀ w ∈ (s.proc p).np, (s.proc w).state = .EMBRYO ∧
        ∀ m ∈ (s.proc p).master, IsWorker s m w
    | .thread_exit c => ∀ p ∈ (s.cpu c).proc, (s.proc p).master ≠ some p
    | .kill pid => ∀ p ∈ findPid s pid, ∀ w, Doomed s p w → (s.proc w).state = .ZOMBIE
    | .exit c =>
      ∀ p ∈ (s.cpu c).proc, ∀ m ∈ exiting s p,
        (s.proc m).isthread = true ∨ ∀ w, ¬IsWorker s m w
    | _ => True

instance (s : State n) (a : Action n) : Decidable (Kept s a) :=
  match a with
  | .forkDone _ _ | .thread_create _ | .threadReady _ | .thread_exit _ | .kill _ | .exit _
  | .scheduler _ | .tick _ | .boost _ | .yield _ | .sleep _ _ | .wakeup _ | .fork _ _ | .wait _
  | .set_cpu_share _ _ | .thread_join _ _ =>
    inferInstanceAs (Decidable (_ ∧ _))

/-- The workers of `m` that have not exited. -/
def Groups.working (g : Groups n) (m : Slot) : Finset Slot :=
  Finset.univ.filter fun w ↦ g.made w = some m ∧ (g.state.proc w).state ≠ .ZOMBIE

/-- The books of `m` are right. -/
structure Groups.Right (g : Groups n) (m : Slot) : Prop where
  placed : ∀ w, g.made w = some m →
    1 ≤ ((g.state.proc w).tid : Nat) ∧ ((g.state.proc w).tid : Nat) ≤ MAXTHREAD ∧
      (g.state.proc m).threads (g.state.proc w).tid = some w
  distinct : ∀ w w', g.made w = some m → g.made w' = some m →
    (g.state.proc w).tid = (g.state.proc w').tid → w = w'
  entries : ∀ i w, i ≠ 0 → (g.state.proc m).threads i = some w → g.made w = some m
  counted : (g.state.proc m).t_cnt = (g.working m).card

end

/-! ### The links -/

section

variable {l l' : Links} {made made' : Slot → Ptr} {p q m w t : Slot}

/-- The workers of `m` that have not exited. -/
def Links.working (l : Links) (made : Slot → Ptr) (m : Slot) : Finset Slot :=
  Finset.univ.filter fun w ↦ made w = some m ∧ (l w).life ≠ .zombie

/-- What the links and the history have to do with each other. -/
structure Booked (l : Links) (made : Slot → Ptr) : Prop where
  owned : ∀ p, (l p).life = .alive → (l p).master = some ((made p).getD p)
  led : ∀ w m, made w = some m → (l m).life = .alive ∧ made m = none
  placed : ∀ w m, made w = some m → l.Lists m (l w).tid w
  entry : ∀ m i w, l.Lists m i w → made w = some m ∧ (l w).tid = i
  counted : ∀ m, (l m).t_cnt = (l.working made m).card
  flagged : ∀ w m, made w = some m → (l w).isthread = true ∧ (l w).life ≠ .unused
  child : ∀ q x, (l q).parent = some x →
    made q = none ∧ ((l q).life = .alive ∨ (l q).life = .zombie)
  self : ∀ m q, (l m).threads 0 = some q → q = m
  cradle : ∀ w, (l w).life = .embryo → (l w).isthread = false → (l w).master = some w

theorem Links.working_congr (l : Links) (made : Slot → Ptr)
    (h : ∀ w, made' w = some m ∧ (l' w).life ≠ .zombie ↔ made w = some m ∧ (l w).life ≠ .zombie) :
    l'.working made' m = l.working made m :=
  Finset.filter_congr fun w _ ↦ h w

/-! ### Allocation -/

/-- A free entry is nobody's worker, and nobody is its worker. -/
private theorem made_of_unused (h : Booked l made) (hw : (l w).life = .unused) :
    made w = none ∧ (∀ q, made q ≠ some w) ∧ ∀ x, (l w).parent ≠ some x := by
  refine ⟨?_, ?_, ?_⟩
  · cases hm : made w with
    | none => rfl
    | some m => exact absurd hw (h.flagged w m hm).2
  · intro q hq
    rw [(h.led q w hq).1] at hw
    cases hw
  · intro x hx
    rcases (h.child w x hx).2 with hl | hl
    · rw [hl] at hw
      cases hw
    · rw [hl] at hw
      cases hw

theorem Booked.lost {id : Nat} (h : Booked l made) : Booked (l.lost w id) made :=
  ⟨h.owned, h.led, h.placed, h.entry, h.counted, h.flagged, h.child, h.self, h.cradle⟩

theorem Booked.fork {id : Nat} (h : Booked l made) (hw : (l w).life = .unused) :
    Booked (l.fork p w id) made := by
  obtain ⟨hmade, hlead, hparent⟩ := made_of_unused h hw
  have hne : ∀ {q m}, made q = some m → q ≠ w := by
    rintro q m hq rfl
    rw [hmade] at hq
    cases hq
  constructor
  · intro q hq
    by_cases hqw : q = w
    · simp [Links.fork, hqw] at hq
    · simp only [Links.fork, if_neg hqw] at hq ⊢
      exact h.owned q hq
  · intro q m hq
    have hmw : m ≠ w := fun hm ↦ hlead q (hm ▸ hq)
    simp only [Links.fork, if_neg hmw]
    exact h.led q m hq
  · intro q m hq
    have hmw : m ≠ w := fun hm ↦ hlead q (hm ▸ hq)
    simp only [Links.Lists, Links.fork, if_neg hmw]
    exact h.placed q m hq
  · rintro m i q ⟨hi, hq⟩
    by_cases hmw : m = w
    · simp [Links.fork, hmw, hi] at hq
    · simp only [Links.fork, if_neg hmw] at hq ⊢
      exact h.entry m i q ⟨hi, hq⟩
  · intro m
    rw [Links.working_congr l made]
    · by_cases hmw : m = w
      · have hnone : l.working made m = ∅ := by
          apply Finset.filter_eq_empty_iff.mpr
          rintro q - ⟨hq, _⟩
          exact hlead q (hmw ▸ hq)
        simp [Links.fork, hmw, hmw ▸ hnone]
      · simp only [Links.fork, if_neg hmw]
        exact h.counted m
    · intro q
      by_cases hqw : q = w
      · simp [hqw, hmade]
      · simp [Links.fork, hqw]
  · intro q m hq
    simp only [Links.fork, if_neg (hne hq)]
    exact h.flagged q m hq
  · intro q x hq
    have hqw : q ≠ w := by
      rintro rfl
      exact hparent x hq
    simp only [Links.fork, if_neg hqw]
    exact h.child q x hq
  · intro m q hq
    by_cases hmw : m = w
    · simpa [Links.fork, hmw, eq_comm] using hq
    · simp only [Links.fork, if_neg hmw] at hq
      exact h.self m q hq
  · intro q hq hi
    by_cases hqw : q = w
    · simp [Links.fork, hqw]
    · simp only [Links.fork, if_neg hqw] at hq hi ⊢
      exact h.cradle q hq hi

theorem Booked.create {i : Fin (MAXTHREAD + 1)} {id : Nat} (h : Booked l made)
    (hm : (l m).life = .alive) (hmade : made m = none) (hw : (l w).life = .unused) (hi : i ≠ 0)
    (hfree : (l m).threads i = none) :
    Booked (l.create p m w (some i) id) (update made w (some m)) := by
  obtain ⟨hnone, hlead, hparent⟩ := made_of_unused h hw
  have hmw : m ≠ w := by
    rintro rfl
    rw [hw] at hm
    cases hm
  constructor
  · intro q hq
    have hqw : q ≠ w := by
      rintro rfl
      simp [Links.create] at hq
    simp only [Links.create, if_neg hqw, update_of_ne hqw] at hq ⊢
    exact h.owned q hq
  · intro q x hq
    rw [update_apply] at hq
    split at hq
    · cases hq
      simp [Links.create, hmw, hm, hmade]
    · have hxw : x ≠ w := fun hx ↦ hlead q (hx ▸ hq)
      simp only [Links.create, if_neg hxw, update_of_ne hxw]
      exact h.led q x hq
  · intro q x hq
    rw [update_apply] at hq
    split at hq
    · next hqw =>
      cases hq
      exact ⟨by simpa [Links.create, hqw] using hi, by simp [Links.create, hqw]⟩
    · next hqw =>
      obtain ⟨h0, hx⟩ := h.placed q x hq
      refine ⟨by simpa [Links.create, hqw] using h0, ?_⟩
      have htaken : ¬(x = m ∧ some i = some (l q).tid) := by
        rintro ⟨rfl, hi⟩
        cases hi
        rw [hfree] at hx
        cases hx
      simp only [Links.create, if_neg hqw, if_neg htaken]
      exact hx
  · rintro x j q ⟨hj, hq⟩
    simp only [Links.create] at hq
    split at hq
    · next hx =>
      obtain ⟨rfl, hij⟩ := hx
      cases hij
      cases hq
      simp [Links.create]
    · obtain ⟨hqm, htid⟩ := h.entry x j q ⟨hj, hq⟩
      have hqw : q ≠ w := by
        rintro rfl
        rw [hnone] at hqm
        cases hqm
      rw [update_of_ne hqw]
      exact ⟨hqm, by simpa [Links.create, hqw] using htid⟩
  · intro x
    by_cases hx : x = m
    · have hadd : (l.create p m w (some i) id).working (update made w (some m)) x =
          insert w (l.working made x) := by
        ext q
        by_cases hqw : q = w
        · simp [Links.working, Links.create, hqw, hx]
        · simp [Links.working, Links.create, hqw]
      have hout : w ∉ l.working made x := by simp [Links.working, hnone]
      rw [hadd, Finset.card_insert_of_notMem hout]
      simp [Links.create, hx, h.counted]
    · rw [Links.working_congr l made]
      · simp only [Links.create, if_neg hx]
        exact h.counted x
      · intro q
        by_cases hqw : q = w
        · simp [hqw, hnone, Ne.symm hx]
        · simp [Links.create, hqw]
  · intro q x hq
    rw [update_apply] at hq
    split at hq
    · next hqw => simp [Links.create, hqw]
    · next hqw =>
      simp only [Links.create, if_neg hqw]
      exact h.flagged q x hq
  · intro q x hq
    have hqw : q ≠ w := by
      rintro rfl
      exact hparent x hq
    simp only [Links.create, if_neg hqw, update_of_ne hqw]
    exact h.child q x hq
  · intro x q hq
    have h0 : ¬(x = m ∧ some i = some 0) := by
      rintro ⟨-, h0⟩
      cases h0
      exact hi rfl
    simp only [Links.create, if_neg h0] at hq
    exact h.self x q hq
  · intro q hq hth
    have hqw : q ≠ w := by
      rintro rfl
      simp [Links.create] at hth
    simp only [Links.create, if_neg hqw] at hq hth ⊢
    exact h.cradle q hq hth

/-! ### Changes that keep the workers -/

/-- A change that touches no entry of `threads` and no count, and ends nothing. -/
theorem Booked.frame (h : Booked l made) (hthreads : ∀ m, (l' m).threads = (l m).threads)
    (htid : ∀ w, (l' w).tid = (l w).tid) (hcnt : ∀ m, (l' m).t_cnt = (l m).t_cnt)
    (hth : ∀ w, (l w).isthread = true → (l' w).isthread = true)
    (hlife : ∀ w m, made w = some m →
      ((l' w).life = .zombie ↔ (l w).life = .zombie) ∧ (l' w).life ≠ .unused)
    (halive : ∀ m, (l m).life = .alive → (l' m).life = .alive)
    (howned : ∀ p, (l' p).life = .alive → (l' p).master = some ((made p).getD p))
    (hchild : ∀ q x, (l' q).parent = some x →
      made q = none ∧ ((l' q).life = .alive ∨ (l' q).life = .zombie))
    (hcradle : ∀ w, (l' w).life = .embryo → (l' w).isthread = false → (l' w).master = some w) :
    Booked l' made := by
  refine ⟨howned, ?_, ?_, ?_, ?_, ?_, hchild, ?_, hcradle⟩
  · exact fun w m hw ↦ ⟨halive m (h.led w m hw).1, (h.led w m hw).2⟩
  · intro w m hw
    unfold Links.Lists
    rw [hthreads, htid]
    exact h.placed w m hw
  · intro m i w hw
    unfold Links.Lists at hw
    rw [hthreads] at hw
    rw [htid]
    exact h.entry m i w hw
  · intro m
    rw [hcnt, Links.working_congr l made]
    · exact h.counted m
    · intro w
      constructor
      · rintro ⟨hw, hz⟩
        exact ⟨hw, fun hz' ↦ hz ((hlife w m hw).1.mpr hz')⟩
      · rintro ⟨hw, hz⟩
        exact ⟨hw, fun hz' ↦ hz ((hlife w m hw).1.mp hz')⟩
  · exact fun w m hw ↦ ⟨hth w (h.flagged w m hw).1, (hlife w m hw).2⟩
  · intro m q hq
    rw [hthreads] at hq
    exact h.self m q hq

/-- A process that `fork` makes is no worker. -/
private theorem made_of_cradle (h : Booked l made) (hi : (l w).isthread = false) :
    made w = none := by
  cases hm : made w with
  | none => rfl
  | some m =>
    rw [(h.flagged w m hm).1] at hi
    cases hi

theorem Booked.forkReady (h : Booked l made) (hw : (l w).life = .embryo)
    (hi : (l w).isthread = false) : Booked (l.forkReady p w) made := by
  have hmade := made_of_cradle h hi
  have hne : ∀ {q m}, made q = some m → q ≠ w := by
    rintro q m hq rfl
    rw [hmade] at hq
    cases hq
  refine h.frame (fun _ ↦ rfl) (fun _ ↦ rfl) (fun _ ↦ rfl) (fun _ hq ↦ hq) ?_ ?_ ?_ ?_ ?_
  · intro q m hq
    simp only [Links.forkReady, if_neg (hne hq)]
    exact ⟨trivial, (h.flagged q m hq).2⟩
  · intro m hm
    simp only [Links.forkReady]
    split
    · rfl
    · exact hm
  · intro q hq
    by_cases hqw : q = w
    · subst hqw
      rw [hmade]
      exact h.cradle q hw hi
    · simp only [Links.forkReady, if_neg hqw] at hq
      exact h.owned q hq
  · intro q x hq
    by_cases hqw : q = w
    · subst hqw
      exact ⟨hmade, .inl (by simp [Links.forkReady])⟩
    · simp only [Links.forkReady, if_neg hqw] at hq ⊢
      exact h.child q x hq
  · intro q hq hth
    have hqw : q ≠ w := by
      rintro rfl
      simp [Links.forkReady] at hq
    simp only [Links.forkReady, if_neg hqw] at hq
    exact h.cradle q hq hth

/-- An entry that is nobody's worker, and not alive, is freed. -/
private theorem Booked.free (h : Booked l made) (hw : (l w).life ≠ .alive) (hmade : made w = none)
    (hthreads : ∀ m, (l' m).threads = (l m).threads) (htid : ∀ w, (l' w).tid = (l w).tid)
    (hcnt : ∀ m, (l' m).t_cnt = (l m).t_cnt) (hth : ∀ w, (l' w).isthread = (l w).isthread)
    (hmaster : ∀ w, (l' w).master = (l w).master)
    (hlife : ∀ q, (l' q).life = if q = w then .unused else (l q).life)
    (hparent : ∀ q x, (l' q).parent = some x → (l q).parent = some x ∧ q ≠ w) :
    Booked l' made := by
  apply h.frame hthreads htid hcnt
  · intro q hq
    rw [hth, hq]
  · intro q m hq
    have hqw : q ≠ w := by
      rintro rfl
      rw [hmade] at hq
      cases hq
    rw [hlife, if_neg hqw]
    exact ⟨Iff.rfl, (h.flagged q m hq).2⟩
  · intro m hm
    rw [hlife, if_neg, hm]
    rintro rfl
    exact hw hm
  · intro q hq
    rw [hlife] at hq
    split at hq
    · cases hq
    · rw [hmaster]
      exact h.owned q hq
  · intro q x hq
    obtain ⟨hq, hqw⟩ := hparent q x hq
    rw [hlife, if_neg hqw]
    exact h.child q x hq
  · intro q hq hi
    rw [hlife] at hq
    split at hq
    · cases hq
    · rw [hmaster]
      rw [hth] at hi
      exact h.cradle q hq hi

theorem Booked.forkFail (h : Booked l made) (hw : (l w).life = .embryo)
    (hi : (l w).isthread = false) : Booked (l.forkFail p w) made := by
  refine h.free (by simp [hw]) (made_of_cradle h hi) (fun _ ↦ rfl) (fun _ ↦ rfl) (fun _ ↦ rfl)
    (fun _ ↦ rfl) (fun _ ↦ rfl) (fun _ ↦ rfl) ?_
  intro q x hq
  refine ⟨hq, ?_⟩
  rintro rfl
  rcases (h.child q x hq).2 with hl | hl
  · rw [hw] at hl
    cases hl
  · rw [hw] at hl
    cases hl

theorem Booked.reap {x : Slot} (h : Booked l made) (hw : (l w).life = .zombie)
    (hx : (l w).parent = some x) : Booked (l.reap w) made := by
  refine h.free (by simp [hw]) (h.child w x hx).1 (fun _ ↦ rfl) (fun _ ↦ rfl) (fun _ ↦ rfl)
    (fun _ ↦ rfl) (fun _ ↦ rfl) (fun _ ↦ rfl) ?_
  intro q y hq
  simp only [Links.reap] at hq
  split at hq
  · cases hq
  · next hqw => exact ⟨hq, hqw⟩

theorem Booked.ready (h : Booked l made) (hw : (l w).life = .embryo) (hmade : made w = some m) :
    Booked (l.ready p m w) made := by
  refine h.frame (fun _ ↦ rfl) (fun _ ↦ rfl) (fun _ ↦ rfl) ?_ ?_ ?_ ?_ ?_ ?_
  · intro q hq
    simp only [Links.ready]
    split
    · rfl
    · exact hq
  · intro q x hq
    by_cases hqw : q = w
    · simp [Links.ready, hqw, hw]
    · simp only [Links.ready, if_neg hqw]
      exact ⟨trivial, (h.flagged q x hq).2⟩
  · intro q hq
    simp only [Links.ready]
    split
    · rfl
    · exact hq
  · intro q hq
    by_cases hqw : q = w
    · simp [Links.ready, hqw, hmade]
    · simp only [Links.ready, if_neg hqw] at hq ⊢
      exact h.owned q hq
  · intro q x hq
    obtain ⟨hq1, hq2⟩ := h.child q x hq
    have hqw : q ≠ w := by
      rintro rfl
      rw [hmade] at hq1
      cases hq1
    simp only [Links.ready, if_neg hqw]
    exact ⟨hq1, hq2⟩
  · intro q hq hi
    have hqw : q ≠ w := by
      rintro rfl
      simp [Links.ready] at hq
    simp only [Links.ready, if_neg hqw] at hq ⊢
    apply h.cradle q hq
    simp only [Links.ready] at hi
    split at hi
    · cases hi
    · exact hi

/-- The master of a group is switched to, also when `exit` has just ended it. -/
theorem Booked.rouse (h : Booked l made) (hm : (l m).life = .alive ∨
    (l m).life = .zombie ∧ made m = none ∧ (l m).master = some m) : Booked (l.rouse m) made := by
  rcases hm with hm | ⟨hm, hmade, hmaster⟩
  · rwa [Links.rouse_of_alive hm]
  · refine h.frame (fun _ ↦ rfl) (fun _ ↦ rfl) (fun _ ↦ rfl) (fun _ hq ↦ hq) ?_ ?_ ?_ ?_ ?_
    · intro q x hq
      have hqm : q ≠ m := by
        rintro rfl
        rw [hmade] at hq
        cases hq
      simp only [Links.rouse, if_neg hqm]
      exact ⟨trivial, (h.flagged q x hq).2⟩
    · intro q hq
      simp only [Links.rouse]
      split
      · rfl
      · exact hq
    · intro q hq
      by_cases hqm : q = m
      · subst hqm
        rw [hmade]
        exact hmaster
      · simp only [Links.rouse, if_neg hqm] at hq
        exact h.owned q hq
    · intro q x hq
      obtain ⟨hq1, hq2⟩ := h.child q x hq
      refine ⟨hq1, ?_⟩
      simp only [Links.rouse]
      split
      · exact .inl rfl
      · exact hq2
    · intro q hq hi
      have hqm : q ≠ m := by
        rintro rfl
        simp [Links.rouse] at hq
      simp only [Links.rouse, if_neg hqm] at hq
      exact h.cradle q hq hi

/-- `kill` changes nothing when it finds only workers that have exited. -/
theorem Links.kill_of_zombies
    (h : ∀ m w, (l p).isthread = true → (l p).master = some m → l.Worker m w →
      (l w).life = .zombie) : l.kill p = l := by
  funext q
  unfold Links.kill
  split
  · next hq =>
    obtain ⟨hi, m, hm, hw⟩ := hq
    rw [← h m q hi hm hw]
  · rfl

/-! ### The end of a worker -/

theorem Booked.quit (h : Booked l made) (hp : (l p).life = .alive) (hmade : made p = some m) :
    Booked (l.quit p m) made := by
  have hlead : ∀ {q x}, made q = some x → x ≠ p := by
    rintro q x hq rfl
    rw [(h.led q x hq).2] at hmade
    cases hmade
  constructor
  · intro q hq
    have hqp : q ≠ p := by
      rintro rfl
      simp [Links.quit] at hq
    simp only [Links.quit, if_neg hqp] at hq
    exact h.owned q hq
  · intro q x hq
    simp only [Links.quit, if_neg (hlead hq)]
    exact h.led q x hq
  · exact h.placed
  · exact h.entry
  · intro x
    by_cases hx : x = m
    · have hrem : (l.quit p m).working made x = (l.working made x).erase p := by
        ext q
        by_cases hqp : q = p
        · simp [Links.working, Links.quit, hqp]
        · simp [Links.working, Links.quit, hqp]
      have hin : p ∈ l.working made x := by simp [Links.working, hmade, hx, hp]
      have hcard := Finset.card_erase_add_one hin
      rw [hrem]
      simp only [Links.quit, if_pos hx, h.counted x]
      omega
    · rw [Links.working_congr l made]
      · simp only [Links.quit, if_neg hx]
        exact h.counted x
      · intro q
        by_cases hqp : q = p
        · simp [hqp, hmade, Ne.symm hx]
        · simp [Links.quit, hqp]
  · intro q x hq
    refine ⟨(h.flagged q x hq).1, ?_⟩
    simp only [Links.quit]
    split
    · exact Life.noConfusion
    · exact (h.flagged q x hq).2
  · intro q x hq
    obtain ⟨hq1, hq2⟩ := h.child q x hq
    refine ⟨hq1, ?_⟩
    simp only [Links.quit]
    split
    · exact .inr rfl
    · exact hq2
  · exact h.self
  · intro q hq hi
    have hqp : q ≠ p := by
      rintro rfl
      simp [Links.quit] at hq
    simp only [Links.quit, if_neg hqp] at hq
    exact h.cradle q hq hi

theorem Booked.join (h : Booked l made) (hp : (l p).life = .alive) (ht : (l t).life = .zombie)
    (hmade : made t = some p) : Booked (l.join p t) (update made t none) := by
  obtain ⟨h0, htp⟩ := h.placed t p hmade
  have hlead : ∀ {q x}, made q = some x → x ≠ t := by
    rintro q x hq rfl
    rw [(h.led q x hq).1] at ht
    cases ht
  constructor
  · intro q hq
    have hqt : q ≠ t := by
      rintro rfl
      simp [Links.join] at hq
    simp only [Links.join, if_neg hqt, update_of_ne hqt] at hq ⊢
    exact h.owned q hq
  · intro q x hq
    rw [update_apply] at hq
    split at hq
    · cases hq
    · simp only [Links.join, if_neg (hlead hq), update_of_ne (hlead hq)]
      exact h.led q x hq
  · intro q x hq
    rw [update_apply] at hq
    split at hq
    · cases hq
    · next hqt =>
      obtain ⟨hi, hx⟩ := h.placed q x hq
      refine ⟨hi, ?_⟩
      have hother : ¬(x = p ∧ (l q).tid = (l t).tid) := by
        rintro ⟨rfl, htid⟩
        rw [htid, htp] at hx
        cases hx
        exact hqt rfl
      simp only [Links.join, if_neg hother]
      exact hx
  · rintro x j q ⟨hj, hq⟩
    simp only [Links.join] at hq
    split at hq
    · cases hq
    · next hother =>
      obtain ⟨hqx, htid⟩ := h.entry x j q ⟨hj, hq⟩
      have hqt : q ≠ t := by
        rintro rfl
        rw [hmade] at hqx
        cases hqx
        exact hother ⟨rfl, htid.symm⟩
      rw [update_of_ne hqt]
      exact ⟨hqx, htid⟩
  · intro x
    rw [Links.working_congr l made]
    · exact h.counted x
    · intro q
      by_cases hqt : q = t
      · simp [hqt, ht]
      · simp [Links.join, hqt]
  · intro q x hq
    rw [update_apply] at hq
    split at hq
    · cases hq
    · next hqt =>
      obtain ⟨hi, hu⟩ := h.flagged q x hq
      have hqp : ¬(q = p ∧ (l q).t_cnt = 0) := by
        rintro ⟨rfl, -⟩
        rw [(h.led t q hmade).2] at hq
        cases hq
      simp only [Links.join, if_neg hqt, if_neg hqp]
      exact ⟨hi, hu⟩
  · intro q x hq
    obtain ⟨hq1, hq2⟩ := h.child q x hq
    have hqt : q ≠ t := by
      rintro rfl
      rw [hmade] at hq1
      cases hq1
    simp only [Links.join, if_neg hqt, update_of_ne hqt]
    exact ⟨hq1, hq2⟩
  · intro x q hq
    simp only [Links.join] at hq
    split at hq
    · cases hq
    · exact h.self x q hq
  · intro q hq hi
    have hqt : q ≠ t := by
      rintro rfl
      simp [Links.join] at hq
    simp only [Links.join, if_neg hqt] at hq hi
    apply h.cradle q hq
    split at hi
    · next hqp =>
      rw [hqp.1, hp] at hq
      cases hq
    · exact hi

/-- The end of a group: all its workers are freed. -/
theorem Booked.exit {first : Ptr} (h : Booked l made) (hmade : made m = none)
    (hth : (l m).isthread = true ∨ ∀ w, ¬l.Worker m w) :
    Booked (l.exit m first) fun w ↦ if made w = some m then none else made w := by
  have hworker : ∀ {w}, l.Worker m w → made w = some m := fun ⟨i, hw⟩ ↦ (h.entry m i _ hw).1
  have hfree : ∀ {w}, made w = some m → (l m).isthread = true ∧ l.Worker m w := by
    intro w hw
    have hlist : l.Worker m w := ⟨_, h.placed w m hw⟩
    rcases hth with hth | hno
    · exact ⟨hth, hlist⟩
    · exact absurd hlist (hno w)
  -- what is neither the master nor one of its workers is left as it is
  have hkeep : ∀ {q}, q ≠ m → made q ≠ some m → ((l.exit m first) q).life = (l q).life := by
    intro q hqm hq
    have hqw : ¬((l m).isthread = true ∧ l.Worker m q) := fun hw ↦ hq (hworker hw.2)
    simp only [Links.exit, if_neg hqm, if_neg hqw]
  have hmaster : ((l.exit m first) m).life = .zombie := by simp [Links.exit]
  have hgone : ∀ {q}, made q = some m → ((l.exit m first) q).life = .unused := by
    intro q hq
    have hqm : q ≠ m := by
      rintro rfl
      rw [hmade] at hq
      cases hq
    simp only [Links.exit, if_neg hqm, if_pos (hfree hq)]
  have hne : ∀ {q x}, (if made q = some m then none else made q) = some x →
      made q = some x ∧ x ≠ m := by
    intro q x hq
    split at hq
    · cases hq
    · next hqm =>
      refine ⟨hq, ?_⟩
      rintro rfl
      exact hqm hq
  have hwork : ∀ {q x}, made q = some x → x ≠ m → q ≠ m ∧ made q ≠ some m := by
    intro q x hq hx
    constructor
    · rintro rfl
      rw [hmade] at hq
      cases hq
    · intro hq'
      rw [hq] at hq'
      cases hq'
      exact hx rfl
  constructor
  · intro q hq
    by_cases hqm : q = m
    · rw [hqm, hmaster] at hq
      cases hq
    · by_cases hqw : made q = some m
      · rw [hgone hqw] at hq
        cases hq
      · rw [hkeep hqm hqw] at hq
        rw [if_neg hqw]
        exact h.owned q hq
  · intro q x hq
    obtain ⟨hq, hx⟩ := hne hq
    obtain ⟨hxl, hxm⟩ := h.led q x hq
    have hxw : made x ≠ some m := by simp [hxm]
    rw [hkeep hx hxw, if_neg hxw]
    exact ⟨hxl, hxm⟩
  · intro q x hq
    obtain ⟨hq, hx⟩ := hne hq
    obtain ⟨hi, hqx⟩ := h.placed q x hq
    exact ⟨hi, by simpa [Links.exit, hx] using hqx⟩
  · rintro x i q ⟨hi, hq⟩
    simp only [Links.exit] at hq
    split at hq
    · cases hq
    · next hother =>
      obtain ⟨hqx, htid⟩ := h.entry x i q ⟨hi, hq⟩
      have hxm : x ≠ m := by
        rintro rfl
        exact hother ⟨rfl, (hfree hqx).1, hi⟩
      rw [if_neg (hwork hqx hxm).2]
      exact ⟨hqx, htid⟩
  · intro x
    by_cases hx : x = m
    · have hnone : (l.exit m first).working (fun w ↦ if made w = some m then none else made w) x =
          ∅ := by
        apply Finset.filter_eq_empty_iff.mpr
        rintro q - ⟨hq, _⟩
        exact (hne hq).2 hx
      rw [hnone]
      by_cases hi : (l m).isthread = true
      · simp [Links.exit, hx, hi]
      · have hcnt := h.counted m
        have hold : l.working made m = ∅ := by
          apply Finset.filter_eq_empty_iff.mpr
          rintro q - ⟨hq, _⟩
          exact hi (hfree hq).1
        rw [hold] at hcnt
        simpa [Links.exit, hx, hi] using hcnt
    · rw [Links.working_congr l made]
      · have hxi : ¬(x = m ∧ (l m).isthread = true) := fun hxi ↦ hx hxi.1
        simp only [Links.exit, if_neg hxi]
        exact h.counted x
      · intro q
        constructor
        · rintro ⟨hq, hz⟩
          obtain ⟨hq, -⟩ := hne hq
          obtain ⟨hqm, hqw⟩ := hwork hq hx
          rw [hkeep hqm hqw] at hz
          exact ⟨hq, hz⟩
        · rintro ⟨hq, hz⟩
          obtain ⟨hqm, hqw⟩ := hwork hq hx
          rw [if_neg hqw, hkeep hqm hqw]
          exact ⟨hq, hz⟩
  · intro q x hq
    obtain ⟨hq, hx⟩ := hne hq
    obtain ⟨hqm, hqw⟩ := hwork hq hx
    rw [hkeep hqm hqw]
    exact h.flagged q x hq
  · intro q x hq
    have hold : ∃ y, (l q).parent = some y := by
      simp only [Links.exit] at hq
      split at hq
      · next hqm => exact ⟨m, hqm⟩
      · exact ⟨x, hq⟩
    obtain ⟨y, hy⟩ := hold
    obtain ⟨hq1, hq2⟩ := h.child q y hy
    have hqw : made q ≠ some m := by simp [hq1]
    rw [if_neg hqw]
    refine ⟨hq1, ?_⟩
    by_cases hqm : q = m
    · rw [hqm]
      exact .inr hmaster
    · rwa [hkeep hqm hqw]
  · intro x q hq
    have h0 : ¬(x = m ∧ (l m).isthread = true ∧ (0 : Fin (MAXTHREAD + 1)) ≠ 0) :=
      fun h0 ↦ h0.2.2 rfl
    simp only [Links.exit, if_neg h0] at hq
    exact h.self x q hq
  · intro q hq hi
    by_cases hqm : q = m
    · rw [hqm, hmaster] at hq
      cases hq
    · by_cases hqw : made q = some m
      · rw [hgone hqw] at hq
        cases hq
      · rw [hkeep hqm hqw] at hq
        exact h.cradle q hq hi

end

/-! ### The steps -/

section

variable {n : Nat} {round : Int → Int} {s t : State n} {a : Action n} {l : Links}
  {made : Slot → Ptr} {c : Fin n} {p m w : Slot} {g g' : Groups n}

/-- Whose worker a process that is alive is can be read off its `master`. -/
theorem made_of_master (h : Booked s.links made) (hp : (s.links p).life = .alive)
    (hm : (s.proc p).master = some m) : made p = none ∧ p = m ∨ made p = some m := by
  have hown := (h.owned p hp).symm.trans hm
  cases hmade : made p with
  | none =>
    rw [hmade] at hown
    exact .inl ⟨rfl, Option.some.inj hown⟩
  | some x =>
    rw [hmade] at hown
    exact .inr hown

/-- The process that `exit` ends, when one calls it that is alive, is the caller or its master. -/
private theorem exiting_spec (h : Booked s.links made) (hp : (s.links p).life = .alive)
    (hm : exiting s p = some m) : (s.links m).life = .alive ∧ made m = none := by
  unfold exiting at hm
  split at hm
  · rcases made_of_master h hp hm with ⟨hmade, rfl⟩ | hmade
    · exact ⟨hp, hmade⟩
    · exact h.led p m hmade
  · next hth =>
    cases hm
    refine ⟨hp, ?_⟩
    cases hmade : made p with
    | none => rfl
    | some x => exact absurd (h.flagged p x hmade).1 hth

/-- A worker that the master can join. -/
theorem made_of_zombie {i : Fin (MAXTHREAD + 1)} (h : Booked s.links made)
    (hp : (s.links p).life = .alive) (ht : (s.proc p).threads i = some w)
    (hz : (s.proc w).state = .ZOMBIE) : made w = some p := by
  by_cases hi : i = 0
  · rw [hi] at ht
    rw [← h.self p w ht, links_apply, Proc.link, hz] at hp
    cases hp
  · exact (h.entry p i w ⟨hi, ht⟩).1

/-- `thread_create` adds the new worker. -/
theorem workers_create (hp : (s.cpu c).proc = some p) (hm : (s.proc p).master = some m)
    (hnp : (t.proc p).np = some w) :
    workers s t (.thread_create c) made = update made w (some m) := by
  funext q
  simp only [workers, hp, hnp, hm, update_apply]
  simp [eq_comm]

/-- A round of `thread_join` that goes to sleep joins nobody. -/
theorem workers_awaits {thread : Nat} {i : Fin (MAXTHREAD + 1)} (hp : (s.cpu c).proc = some p)
    (hi : i = thread) (hw : (s.proc p).threads i = some w) (hz : (s.proc w).state ≠ .ZOMBIE) :
    workers s t (.thread_join c thread) made = made := by
  funext q
  simp only [workers, hp]
  rw [if_neg]
  rintro ⟨⟨j, hj, hq⟩, hzq⟩
  rw [Fin.ext (hj.trans hi.symm), hw] at hq
  cases hq
  exact hz hzq

/-- A round of `thread_join` that returns takes the worker out. -/
theorem workers_join {thread : Nat} {i : Fin (MAXTHREAD + 1)} (hp : (s.cpu c).proc = some p)
    (hi : i = thread) (hw : (s.proc p).threads i = some w) (hz : (s.proc w).state = .ZOMBIE) :
    workers s t (.thread_join c thread) made = update made w none := by
  funext q
  simp only [workers, hp, update_apply]
  congr 1
  apply propext
  constructor
  · rintro ⟨⟨j, hj, hq⟩, -⟩
    rw [Fin.ext (hj.trans hi.symm), hw] at hq
    exact (Option.some.inj hq).symm
  · rintro rfl
    exact ⟨⟨i, hi, hw⟩, hz⟩

/-- The books are kept by a permitted step, up to its call of `sched`. -/
theorem Booked.relinks (h : Booked s.links made) (hc : Kept s a) (hr : Relinks s a l)
    (hnp : ∀ p, (t.proc p).np = (l p).np) : Booked l (workers s t a made) := by
  obtain ⟨hl, hc⟩ := hc
  cases hr with
  | @quiet a ha =>
    have hsame : workers s t a made = made := by cases a <;> first | rfl | cases ha
    rwa [hsame]
  | full => exact h
  | nobody => exact h
  | waits => exact h
  | lost => exact h.lost
  | fork _ hw => exact h.fork (life_of_state (state_of_findUnused hw))
  | forkReady hp hw =>
    obtain ⟨hs, hi⟩ := hc _ (cpu_of_current hp) _ hw
    exact h.forkReady (life_of_state hs) hi
  | forkFail hp hw =>
    obtain ⟨hs, hi⟩ := hc _ (cpu_of_current hp) _ hw
    exact h.forkFail (life_of_state hs) hi
  | @create c p m w i hp hm hw _ hi hfull =>
    have hlive := hl c rfl p (cpu_of_caller hp)
    obtain ⟨hml, hmm⟩ : (s.links m).life = .alive ∧ made m = none := by
      rcases made_of_master h hlive hm with ⟨hmade, rfl⟩ | hmade
      · exact ⟨hlive, hmade⟩
      · exact h.led p m hmade
    have hnew : (t.proc p).np = some w := by simp [hnp, Links.create]
    rw [workers_create (cpu_of_caller hp) hm hnew]
    cases i with
    | none =>
      obtain ⟨j, hj, hfree⟩ := hc p (cpu_of_caller hp) m hm
      exact absurd hfree (hfull rfl j hj)
    | some i =>
      obtain ⟨hi0, hfree⟩ := hi i rfl
      exact h.create hml hmm (life_of_state (state_of_findUnused hw)) hi0 hfree
  | @ready c p m w hp hm hw =>
    obtain ⟨hs, hworker⟩ := hc p (cpu_of_current hp) w hw
    obtain ⟨i, hi⟩ := hworker m hm
    exact h.ready (life_of_state hs) (h.entry m i w hi).1
  | @quit c p m hp hm =>
    have hlive := hl c rfl p (cpu_of_caller hp)
    rcases made_of_master h hlive hm with ⟨_, rfl⟩ | hmade
    · exact absurd hm (hc p (cpu_of_caller hp))
    · exact h.quit hlive hmade
  | @awaits c p x thread i hp hi hx hz =>
    rwa [workers_awaits (cpu_of_caller hp) hi hx hz]
  | @join c p x thread i hp hi hx hz =>
    have hlive := hl c rfl p (cpu_of_caller hp)
    rw [workers_join (cpu_of_caller hp) hi hx hz]
    exact h.join hlive (life_of_state hz) (made_of_zombie h hlive hx hz)
  | kill hp =>
    rw [Links.kill_of_zombies]
    · exact h
    · exact fun m w hi hm hw ↦ life_of_state (hc _ hp w ⟨hi, m, hm, hw⟩)
  | @exit c p m hp hm hi =>
    have hlive := hl c rfl p (cpu_of_caller hp)
    have hsame : workers s t (.exit c) made = fun q ↦ if made q = some m then none else made q := by
      funext q
      simp only [workers, cpu_of_caller hp, hm]
    rw [hsame]
    exact h.exit (exiting_spec h hlive hm).2 (hc p (cpu_of_caller hp) m hm)
  | @reap c p q hp hq =>
    unfold zombieChild at hq
    have hz := List.find?_some hq
    simp only [Bool.decide_and, Bool.and_eq_true, decide_eq_true_eq] at hz
    exact h.reap (life_of_state hz.2) hz.1

/-- The master of a process that is alive. -/
theorem Booked.master_alive (h : Booked l made) (hp : (l p).life = .alive)
    (hm : (l p).master = some m) : (l m).life = .alive := by
  have hown := (h.owned p hp).symm.trans hm
  cases hmade : made p with
  | none =>
    rw [hmade] at hown
    cases hown
    exact hp
  | some x =>
    rw [hmade] at hown
    cases hown
    exact (h.led p x hmade).1

/-- A master that is switched to is alive, but for one that `exit` has just ended. -/
private theorem rouses_alive (h : Booked s.links made) (hc : Kept s a) (hr : Relinks s a l)
    (hb : Booked l (workers s t a made)) (hm : Rouses s a l p m) :
    (l m).life = .alive ∨ ∃ c, a = .exit c := by
  obtain ⟨c', hc', hcpu⟩ := hm.cpu
  rcases hm.alive with hp | hexit | ⟨c, rfl⟩
  · exact .inl (hb.master_alive hp hm.master)
  · exact .inr hexit
  · left
    cases hc' c rfl
    cases hr with
    | quiet ha => cases ha
    | @quit _ x y hx hy =>
      cases hcpu.symm.trans (cpu_of_caller hx)
      have hlive := hc.1 _ rfl p hcpu
      have hym : (s.proc p).master = some m := hm.master
      rcases made_of_master h hlive hym with ⟨_, rfl⟩ | hmade
      · exact absurd hym (hc.2 p hcpu)
      · exact (hb.led p m hmade).1

/-- The master that a permitted step switches to. -/
private theorem rouses_spec (h : Booked s.links made) (hc : Kept s a) (hr : Relinks s a l)
    (hb : Booked l (workers s t a made)) (hm : Rouses s a l p m) : (l m).life = .alive ∨
      (l m).life = .zombie ∧ workers s t a made m = none ∧ (l m).master = some m := by
  rcases rouses_alive h hc hr hb hm with hlive | ⟨c, rfl⟩
  · exact .inl hlive
  · right
    obtain ⟨c', hc', hcpu⟩ := hm.cpu
    cases hc' c rfl
    cases hr with
    | quiet ha => cases ha
    | @exit _ x y hx hy _ =>
      cases hcpu.symm.trans (cpu_of_caller hx)
      have hlive := hc.1 _ rfl p hcpu
      have hym : y = m := by
        have hi : (s.proc p).isthread = true := hm.isthread
        unfold exiting at hy
        rw [if_pos hi] at hy
        exact Option.some.inj (hy.symm.trans hm.master)
      subst hym
      obtain ⟨hylive, hymade⟩ := exiting_spec h hlive hy
      have hown := h.owned y hylive
      rw [hymade] at hown
      exact ⟨by simp [Links.exit], by simp [workers, hcpu, hymade], hown⟩

private theorem np_of_links (hu : t.links = l ∨ ∃ x m, Rouses s a l x m ∧ t.links = l.rouse m) :
    (t.proc p).np = (l p).np := by
  have hnp : (t.links p).np = (l p).np := by
    rcases hu with hu | ⟨x, m, _, hu⟩
    · rw [hu]
    · rw [hu]
      rfl
  exact hnp

/-- A permitted step other than `exit` revives nobody. -/
theorem step_relinks (h : Booked s.links made) (hc : Kept s a) (ha : ∀ c, a ≠ .exit c)
    (hs : step round s a = .ok t) : Relinks s a t.links := by
  obtain ⟨l, hr, hu⟩ := step_links hc.1 hs
  have hb := h.relinks (t := t) hc hr fun _ ↦ np_of_links hu
  rcases hu with hu | ⟨p, m, hm, hu⟩
  · rwa [hu]
  · rcases rouses_alive h hc hr hb hm with hlive | ⟨c, hexit⟩
    · rwa [hu, Links.rouse_of_alive hlive]
    · exact absurd hexit (ha c)

theorem Groups.step_booked (h : Booked g.state.links g.made) (hc : Kept g.state a)
    (hs : g.step round a = .ok g') : Booked g'.state.links g'.made := by
  obtain ⟨t, ht, hs⟩ := bind_eq_ok.mp hs
  cases hs
  obtain ⟨l, hr, hu⟩ := step_links hc.1 ht
  have hb := h.relinks hc hr fun _ ↦ np_of_links hu
  dsimp only
  rcases hu with hu | ⟨p, m, hm, hu⟩
  · rwa [hu]
  · rw [hu]
    exact hb.rouse (rouses_spec h hc hr hb hm)

theorem Groups.boot_booked (n : Nat) : Booked (Groups.boot n).state.links (Groups.boot n).made := by
  have hlink : ∀ q, (Groups.boot n).state.links q =
      if q = 0 then firstProc.link else Proc.zero.link := by
    intro q
    rw [Groups.boot, links_apply, boot_proc]
    split <;> rfl
  have hlists : ∀ m i w, ¬(Groups.boot n).state.links.Lists m i w := by
    rintro m i w ⟨hi, hw⟩
    rw [hlink] at hw
    split at hw
    · simp [firstProc, Proc.fresh, Proc.link, hi] at hw
    · cases hw
  constructor
  · intro p hp
    rw [hlink] at hp ⊢
    split at hp
    · next h0 => simp [h0, Groups.boot, firstProc, Proc.fresh, Proc.link]
    · cases hp
  · intro w m hw
    cases hw
  · intro w m hw
    cases hw
  · exact fun m i w hw ↦ absurd hw (hlists m i w)
  · intro m
    have hnone : (Groups.boot n).state.links.working (Groups.boot n).made m = ∅ := by
      apply Finset.filter_eq_empty_iff.mpr
      rintro q - ⟨hq, _⟩
      cases hq
    rw [hnone, hlink]
    split <;> rfl
  · intro w m hw
    cases hw
  · intro q x hq
    rw [hlink] at hq
    split at hq <;> cases hq
  · intro m q hq
    rw [hlink] at hq
    split at hq
    · next h0 =>
      rw [h0]
      simpa [firstProc, Proc.fresh, Proc.link, eq_comm] using hq
    · cases hq
  · intro w hw
    rw [hlink] at hw
    split at hw <;> cases hw

private theorem life_eq_zombie {x : ProcState} : x.life = .zombie ↔ x = .ZOMBIE := by
  cases x <;> simp [ProcState.life]

/-- In every run in which the books are kept, they are right for every master. -/
theorem books_right (h : ReachesVia (Groups.step round) (fun g a ↦ Kept g.state a) (Groups.boot n) g)
    (m : Slot) : g.Right m := by
  have hb : Booked g.state.links g.made :=
    h.invariant (I := fun g ↦ Booked g.state.links g.made)
      (fun _ _ _ hg hc hs ↦ Groups.step_booked hg hc hs) (Groups.boot_booked n)
  constructor
  · intro w hw
    obtain ⟨hi, hm⟩ := hb.placed w m hw
    exact ⟨Nat.one_le_iff_ne_zero.mpr fun h0 ↦ hi (Fin.ext h0), Nat.le_of_lt_succ (Fin.is_lt _), hm⟩
  · intro w w' hw hw' htid
    have hm : (g.state.proc m).threads (g.state.proc w).tid = some w := (hb.placed w m hw).2
    have hm' : (g.state.proc m).threads (g.state.proc w').tid = some w' := (hb.placed w' m hw').2
    rw [htid, hm'] at hm
    exact (Option.some.inj hm).symm
  · exact fun i w hi hw ↦ (hb.entry m i w ⟨hi, hw⟩).1
  · have hworking : g.working m = g.state.links.working g.made m := by
      apply Finset.filter_congr
      intro w _
      rw [links_apply, Proc.link, ne_eq, ne_eq, life_eq_zombie]
    rw [hworking]
    exact hb.counted m

end

section

/-- The first process creates a thread, which exits and is joined, and another one. -/
def recreates : List (Action 1) :=
  [.scheduler cpu0, .thread_create cpu0, .threadReady cpu0, .yield cpu0, .thread_exit cpu0,
    .thread_join cpu0 1, .thread_create cpu0, .threadReady cpu0]

example : ((final (Groups.step float) (Groups.boot 1) recreates).state.proc 0).t_cnt = 1 := by
  decide +kernel

theorem books_right_recreates :
    (final (Groups.step float) (Groups.boot 1) recreates).Right 0 ∧
      (final (Groups.step float) (Groups.boot 1) recreates).made 1 = some 0 := by
  have hok : (exec (Groups.step float) (Groups.boot 1) recreates).isOk = true := by decide +kernel
  have hc : Along (Groups.step float) (fun g a ↦ Kept g.state a) (Groups.boot 1) recreates := by
    decide +kernel
  have hmade : (final (Groups.step float) (Groups.boot 1) recreates).made 1 = some 0 := by
    decide +kernel
  exact ⟨books_right ⟨recreates, hc, exec_final hok⟩ 0, hmade⟩

/-- The first process creates a thread and is killed. -/
def killsWorker : List (Action 1) :=
  [.scheduler cpu0, .thread_create cpu0, .threadReady cpu0, .kill 1]

/-- The thread is a zombie that the master still counts. -/
theorem killsWorker_wrong :
    (exec (Groups.step float) (Groups.boot 1) killsWorker).isOk = true ∧
      ¬(final (Groups.step float) (Groups.boot 1) killsWorker).Right 0 := by
  have hok : (exec (Groups.step float) (Groups.boot 1) killsWorker).isOk = true := by
    decide +kernel
  have hcnt : ((final (Groups.step float) (Groups.boot 1) killsWorker).state.proc 0).t_cnt = 1 := by
    decide +kernel
  have hnone : ∀ w, ¬((final (Groups.step float) (Groups.boot 1) killsWorker).made w = some 0 ∧
      ((final (Groups.step float) (Groups.boot 1) killsWorker).state.proc w).state ≠ .ZOMBIE) := by
    decide +kernel
  refine ⟨hok, fun hright ↦ ?_⟩
  have hworking : (final (Groups.step float) (Groups.boot 1) killsWorker).working 0 = ∅ :=
    Finset.filter_eq_empty_iff.mpr fun w _ ↦ hnone w
  have hcounted := hright.counted
  rw [hworking, hcnt] at hcounted
  cases hcounted

end

end Xv6.Sched
