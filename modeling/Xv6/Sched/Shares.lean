import Xv6.Sched.Passes

/-!
# What `set_cpu_share` grants

A request is refused by an upper bound only, and the stride of a process is computed from the
tickets that have been granted so far.
-/

namespace Xv6.Sched

open Function Lib

section

variable {n : Nat}

/-- What a request leaves behind when it succeeds. -/
structure Granted (t : State n) (p : Slot) (share : Int) : Prop where
  tickets : 0 < (t.proc p).tickets
  exact : (t.proc p).tickets * 100 = TOTALTICKETS * share
  mlfq : 2000 ≤ (t.sched .mlfq).tickets ∧ (t.sched .mlfq).tickets ≤ 10000
  stride : 0 < (t.sched .stride).tickets ∧ (t.sched .stride).tickets ≤ 8000
  strides : 1 ≤ (t.sched .mlfq).stride ∧ 1 ≤ (t.sched .stride).stride ∧ 1 ≤ (t.proc p).stride

/-- The request of `p` divides by nothing that is zero. It is refused and changes nothing, or it
is granted in full. -/
def SafeShare (s : State n) (p : Slot) (share : Int) : Prop :=
  ∃ t r, set_cpu_share float s p share = .ok (t, r) ∧
    (r = -1 ∧ t = s ∨ r = 0 ∧ Granted t p share)

variable {round : Int → Int} {s t : State n} {p q : Slot} {x : Int} {l l' : List (Slot × Int)}

/-! ### One request -/

private theorem set_cpu_share_refused (h : ¬Grants s x) : set_cpu_share round s p x = .ok (s, -1) := by
  unfold set_cpu_share
  exact if_pos (not_le.mp h)

private theorem set_cpu_share_granted (h : Grants s x) : set_cpu_share round s p x =
    if int32 ((s.sched .mlfq).tickets - ticketsOf x) = 0 ∨
        int32 ((s.sched .stride).tickets + ticketsOf x) = 0 ∨ ticketsOf x = 0 ∨
        (int32 ((s.sched .stride).tickets + ticketsOf x) = -2 ^ 31 ∧ ticketsOf x = -1) then
      .error .divide
    else
      .ok (granted round s p (ticketsOf x), 0) := by
  unfold set_cpu_share
  exact if_neg (not_lt.mpr h)

theorem granted_proc_stride : ((granted round s p x).proc q).stride =
    if q = p then round ((int32 ((s.sched .stride).tickets + x)).tdiv x)
    else (s.proc q).stride := by
  by_cases hq : q = p
  · subst hq
    simp [granted, stride_enqueue]
  · simp [granted, stride_enqueue, modify_proc_of_ne hq, hq]

/-- The sums that a share in range leads to. -/
private theorem Rates.sums (hs : Rates s) (h1 : 1 ≤ x) (hx : x ≤ MAXSHARE) :
    ticketsOf x = 100 * x ∧
    int32 ((s.sched .stride).tickets + ticketsOf x) = (s.sched .stride).tickets + 100 * x ∧
    (Grants s x ↔ (s.sched .stride).tickets + 100 * x ≤ 8000) ∧
    int32 ((s.sched .mlfq).tickets - ticketsOf x) = (s.sched .mlfq).tickets - 100 * x := by
  have htotal : (s.sched .mlfq).tickets + (s.sched .stride).tickets = 10000 := hs.total
  have hmax : (s.sched .stride).tickets ≤ 8000 := hs.max
  have h0 := hs.nonneg
  have hx80 : x ≤ 80 := hx
  have htickets := ticketsOf_share h1 hx
  have hsum : int32 ((s.sched .stride).tickets + 100 * x) = (s.sched .stride).tickets + 100 * x := by
    unfold int32
    apply Int.bmod_eq_of_le <;> omega
  have hdiff : int32 ((s.sched .mlfq).tickets - 100 * x) = (s.sched .mlfq).tickets - 100 * x := by
    unfold int32
    apply Int.bmod_eq_of_le <;> omega
  refine ⟨htickets, by rw [htickets, hsum], ?_, by rw [htickets, hdiff]⟩
  unfold Grants
  rw [htickets, hsum]
  exact Iff.rfl

/-- A share in range is granted as long as the largest total is not exceeded. -/
private theorem Rates.grant (hs : Rates s) (h1 : 1 ≤ x) (hx : x ≤ MAXSHARE) (hg : Grants s x) :
    set_cpu_share round s p x = .ok (granted round s p (100 * x), 0) := by
  obtain ⟨htickets, hsum, hmax, hdiff⟩ := hs.sums h1 hx
  have htotal : (s.sched .mlfq).tickets + (s.sched .stride).tickets = 10000 := hs.total
  have h0 := hs.nonneg
  have hle := hmax.mp hg
  rw [set_cpu_share_granted hg, if_neg, htickets]
  rw [hsum, hdiff, htickets]
  omega

/-- The stride of a process that has been granted its share. -/
private theorem Rates.grant_stride (hs : Rates s) (h1 : 1 ≤ x) (hx : x ≤ MAXSHARE)
    (hg : Grants s x) : ((granted float s p (100 * x)).proc p).stride =
      ((s.sched .stride).tickets + 100 * x) / (100 * x) := by
  obtain ⟨htickets, hsum, hmax, _⟩ := hs.sums h1 hx
  have h0 := hs.nonneg
  have hle := hmax.mp hg
  have hpos : 0 ≤ ((s.sched .stride).tickets + 100 * x) / (100 * x) := by positivity
  have hbig : ((s.sched .stride).tickets + 100 * x) / (100 * x) ≤ 8000 :=
    (Int.ediv_le_self _ (by omega)).trans hle
  rw [htickets] at hsum
  rw [granted_proc_stride, if_pos rfl, hsum, Int.tdiv_eq_ediv_of_nonneg (by omega)]
  apply float_of_small
  omega

/-- The tickets of a share are far from the bounds of an `int`. -/
private theorem ticketsOf_bound : -22000000 < ticketsOf x ∧ ticketsOf x < 22000000 := by
  unfold ticketsOf int32
  have hlo := Int.le_bmod (x := TOTALTICKETS * x) (m := 2 ^ 32) (by decide)
  have hhi := Int.bmod_lt (x := TOTALTICKETS * x) (m := 2 ^ 32) (by decide)
  have hmul := Int.tmod_add_mul_tdiv (Int.bmod (TOTALTICKETS * x) (2 ^ 32)) 100
  have hlt := Int.tmod_lt_of_pos (Int.bmod (TOTALTICKETS * x) (2 ^ 32)) (b := 100) (by decide)
  have hgt := Int.lt_tmod_of_pos (Int.bmod (TOTALTICKETS * x) (2 ^ 32)) (b := 100) (by decide)
  generalize Int.bmod (TOTALTICKETS * x) (2 ^ 32) = y at *
  omega

/-- In every state that a run of proper shares reaches, a request is safe if and only if it is
refused or asks for one percent to the largest share. -/
theorem share_safe_iff (h : ReachesVia (step float) AsksShare (boot n) s) :
    SafeShare s p x ↔ (Grants s x → 1 ≤ x ∧ x ≤ MAXSHARE) := by
  have hs := rates_reached keepsStrides_float h
  constructor
  · rintro ⟨t, r, ht, hr⟩ hg
    rw [set_cpu_share_granted hg] at ht
    split at ht
    · cases ht
    · cases ht
      rcases hr with ⟨hr, _⟩ | ⟨_, hr⟩
      · cases hr
      · have hexact : ((granted float s p (ticketsOf x)).proc p).tickets * 100 = 10000 * x := hr.exact
        have hpos := hr.tickets
        have hmax := hr.stride.2
        rw [granted_proc_tickets, if_pos rfl] at hexact hpos
        rw [granted_rates.2.1] at hmax
        obtain ⟨hlo, hhi⟩ := ticketsOf_bound (x := x)
        have h0 := hs.nonneg
        have hle : (s.sched .stride).tickets ≤ 8000 := hs.max
        have hsum : int32 ((s.sched .stride).tickets + ticketsOf x) =
            (s.sched .stride).tickets + ticketsOf x := by
          unfold int32
          apply Int.bmod_eq_of_le <;> omega
        have hx80 : x ≤ 80 := by omega
        exact ⟨by omega, hx80⟩
  · intro hx
    by_cases hg : Grants s x
    · obtain ⟨h1, hmax⟩ := hx hg
      refine ⟨_, _, hs.grant h1 hmax hg, .inr ⟨rfl, ?_⟩⟩
      have ht := rates_granted (p := p) keepsStrides_float hs h1 hmax hg
      obtain ⟨htickets, hsum, hbound, _⟩ := hs.sums h1 hmax
      rw [htickets] at ht hsum
      have h0 := hs.nonneg
      have hle := hbound.mp hg
      have htotal : ((granted float s p (100 * x)).sched .mlfq).tickets +
          ((granted float s p (100 * x)).sched .stride).tickets = 10000 := ht.total
      have hstride : ((granted float s p (100 * x)).sched .stride).tickets =
          (s.sched .stride).tickets + 100 * x := by rw [granted_rates.2.1, hsum]
      have hproc : ((granted float s p (100 * x)).proc p).tickets = 100 * x := by
        rw [granted_proc_tickets, if_pos rfl]
      have hne : ((granted float s p (100 * x)).sched .stride).tickets ≠ 0 := by omega
      refine ⟨?_, ?_, ?_, ?_, ht.mlfq_range.1, ht.stride_pos hne, ?_⟩
      · rw [hproc]
        omega
      · have htotal : TOTALTICKETS = 10000 := rfl
        rw [hproc, htotal]
        omega
      · omega
      · omega
      · rw [hs.grant_stride h1 hmax hg]
        exact (Int.le_ediv_iff_mul_le (by omega)).mpr (by omega)
    · exact ⟨s, -1, set_cpu_share_refused hg, .inl ⟨rfl, rfl⟩⟩

/-! ### A list of requests -/

/-- Processes ask for shares one after the other; the result when all are granted. -/
def requests (s : State n) : List (Slot × Int) → Option (State n)
  | [] => some s
  | (p, x) :: l =>
    match set_cpu_share float s p x with
    | .ok (t, 0) => requests t l
    | _ => none

/-- The tickets and strides that the requests lead to do not depend on their order, and the strides
are one constant over the tickets. -/
structure OrderFree (s : State n) (l : List (Slot × Int)) : Prop where
  same : ∀ l₁ l₂ t₁ t₂, l₁.Perm l → l₂.Perm l → requests s l₁ = some t₁ → requests s l₂ = some t₂ →
    ∀ y ∈ l, (t₁.proc y.1).tickets = (t₂.proc y.1).tickets ∧
      (t₁.proc y.1).stride = (t₂.proc y.1).stride
  constant : ∀ l₁ t, l₁.Perm l → requests s l₁ = some t →
    ∃ k : Int, ∀ y ∈ l, (t.proc y.1).stride = k / (t.proc y.1).tickets

/-- The shares of a list. -/
def total (l : List (Slot × Int)) : Int := (l.map Prod.snd).sum

/-- A list of requests of different processes for shares of at least one percent. -/
structure Proper (l : List (Slot × Int)) : Prop where
  distinct : (l.map Prod.fst).Nodup
  pos : ∀ y ∈ l, 1 ≤ y.2
  max : total l ≤ MAXSHARE

private theorem total_nonneg (h : ∀ y ∈ l, 1 ≤ y.2) : 0 ≤ total l := by
  apply List.sum_nonneg
  intro x hx
  obtain ⟨y, hy, rfl⟩ := List.mem_map.mp hx
  have h1 := h y hy
  omega

private theorem Proper.tail {y : Slot × Int} (h : Proper (y :: l)) : Proper l ∧ 1 ≤ y.2 ∧
    y.2 ≤ MAXSHARE ∧ total (y :: l) = y.2 + total l := by
  have hpos : ∀ z ∈ l, 1 ≤ z.2 := fun z hz ↦ h.pos z (List.mem_cons_of_mem y hz)
  have hsum : total (y :: l) = y.2 + total l := List.sum_cons
  have h0 := total_nonneg hpos
  have h1 := h.pos y List.mem_cons_self
  have hmax := h.max
  rw [hsum] at hmax
  exact ⟨⟨(List.nodup_cons.mp h.distinct).2, hpos, by omega⟩, h1, by omega, hsum⟩

private theorem Proper.perm (h : Proper l) (hp : l'.Perm l) : Proper l' where
  distinct := (hp.map Prod.fst).nodup_iff.mpr h.distinct
  pos y hy := h.pos y (hp.mem_iff.mp hy)
  max := by
    have hsum : total l' = total l := (hp.map Prod.snd).sum_eq
    rw [hsum]
    exact h.max

/-- One request of a list. -/
private theorem request_eq {y : Slot × Int} (hs : Rates s) (h1 : 1 ≤ y.2) (hx : y.2 ≤ MAXSHARE) :
    requests s (y :: l) = if (s.sched .stride).tickets + 100 * y.2 ≤ 8000 then
      requests (granted float s y.1 (100 * y.2)) l else none := by
  obtain ⟨_, _, hmax, _⟩ := hs.sums h1 hx
  by_cases hg : Grants s y.2
  · rw [if_pos (hmax.mp hg)]
    simp only [requests, hs.grant h1 hx hg]
  · rw [if_neg (hmax.not.mp hg)]
    simp only [requests, set_cpu_share_refused hg]

/-- The tickets after one request of a list. -/
private theorem granted_total (hs : Rates s) (h1 : 1 ≤ x) (hx : x ≤ MAXSHARE) :
    ((granted float s p (100 * x)).sched .stride).tickets =
      (s.sched .stride).tickets + 100 * x := by
  obtain ⟨htickets, hsum, _⟩ := hs.sums h1 hx
  rw [htickets] at hsum
  rw [granted_rates.2.1, hsum]

private theorem granted_ok (hs : Rates s) (h1 : 1 ≤ x) (hx : x ≤ MAXSHARE)
    (hmax : (s.sched .stride).tickets + 100 * x ≤ 8000) : Rates (granted float s p (100 * x)) := by
  obtain ⟨htickets, _, hbound, _⟩ := hs.sums h1 hx
  rw [← htickets]
  exact rates_granted keepsStrides_float hs h1 hx (hbound.mpr hmax)

/-- All requests are granted if and only if the largest total is not exceeded. -/
private theorem requests_some (hs : Rates s) (hl : Proper l) :
    (∃ t, requests s l = some t) ↔ (s.sched .stride).tickets + 100 * total l ≤ 8000 := by
  induction l generalizing s with
  | nil =>
    have hmax : (s.sched .stride).tickets ≤ 8000 := hs.max
    simpa [requests, total] using hmax
  | cons y l ih =>
    obtain ⟨hl, h1, hx, hsum⟩ := hl.tail
    have h0 := total_nonneg hl.pos
    rw [request_eq hs h1 hx, hsum]
    split
    · next hmax =>
      rw [ih (granted_ok hs h1 hx hmax) hl, granted_total hs h1 hx]
      constructor <;> intro h <;> omega
    · simp only [reduceCtorEq, exists_false, false_iff]
      omega

/-- The requests of others do not change the tickets and the stride of a process. -/
private theorem requests_frame (hs : Rates s) (hl : Proper l) (h : requests s l = some t)
    (hq : q ∉ l.map Prod.fst) : (t.proc q).tickets = (s.proc q).tickets ∧
      (t.proc q).stride = (s.proc q).stride := by
  induction l generalizing s with
  | nil =>
    cases h
    exact ⟨rfl, rfl⟩
  | cons y l ih =>
    obtain ⟨hl, h1, hx, _⟩ := hl.tail
    rw [request_eq hs h1 hx] at h
    split at h
    · next hmax =>
      simp only [List.map_cons, List.mem_cons, not_or] at hq
      obtain ⟨ht, hst⟩ := ih (granted_ok hs h1 hx hmax) hl h hq.2
      rw [granted_proc_tickets, if_neg hq.1] at ht
      rw [granted_proc_stride, if_neg hq.1] at hst
      exact ⟨ht, hst⟩
    · cases h

/-- The stride of the first process of a list. -/
private theorem requests_head {y : Slot × Int} (hs : Rates s) (hl : Proper (y :: l))
    (h : requests s (y :: l) = some t) : (t.proc y.1).tickets = 100 * y.2 ∧
      (t.proc y.1).stride = ((s.sched .stride).tickets + 100 * y.2) / (100 * y.2) := by
  obtain ⟨hl', h1, hx, _⟩ := hl.tail
  rw [request_eq hs h1 hx] at h
  split at h
  · next hmax =>
    obtain ⟨ht, hst⟩ := requests_frame (granted_ok hs h1 hx hmax) hl' h
      (List.nodup_cons.mp hl.distinct).1
    obtain ⟨_, _, hbound, _⟩ := hs.sums h1 hx
    rw [hs.grant_stride h1 hx (hbound.mpr hmax)] at hst
    rw [granted_proc_tickets, if_pos rfl] at ht
    exact ⟨ht, hst⟩
  · cases h

/-- The stride of the second process of a list depends on the share of the first. -/
private theorem requests_second {y z : Slot × Int} (hs : Rates s) (hl : Proper (y :: z :: l))
    (h : requests s (y :: z :: l) = some t) : (t.proc z.1).stride =
      ((s.sched .stride).tickets + 100 * y.2 + 100 * z.2) / (100 * z.2) := by
  obtain ⟨hl', h1, hx, _⟩ := hl.tail
  rw [request_eq hs h1 hx] at h
  split at h
  · next hmax =>
    rw [(requests_head (granted_ok hs h1 hx hmax) hl' h).2, granted_total hs h1 hx]
  · cases h

private theorem OrderFree.perm (h : OrderFree s l) (hp : l'.Perm l) : OrderFree s l' where
  same l₁ l₂ t₁ t₂ h₁ h₂ ht₁ ht₂ y hy :=
    h.same l₁ l₂ t₁ t₂ (h₁.trans hp) (h₂.trans hp) ht₁ ht₂ y (hp.mem_iff.mp hy)
  constant l₁ t h₁ ht₁ := by
    obtain ⟨k, hk⟩ := h.constant l₁ t (h₁.trans hp) ht₁
    exact ⟨k, fun y hy ↦ hk y (hp.mem_iff.mp hy)⟩

/-- The later of two requests gets a larger stride than if it had come first, if its share is not
the larger one. -/
private theorem second_larger {y z : Slot × Int} (hs : Rates s) (hl : Proper (y :: z :: l))
    (hle : z.2 ≤ y.2) (hok : (s.sched .stride).tickets + 100 * total (y :: z :: l) ≤ 8000) :
    ¬OrderFree s (y :: z :: l) := by
  intro hfree
  have hswap : (z :: y :: l).Perm (y :: z :: l) := List.Perm.swap y z l
  have hl' := hl.perm hswap
  have htotal : total (z :: y :: l) = total (y :: z :: l) := (hswap.map Prod.snd).sum_eq
  obtain ⟨t₁, h₁⟩ := (requests_some hs hl).mpr hok
  obtain ⟨t₂, h₂⟩ := (requests_some hs hl').mpr (htotal ▸ hok)
  have hsame := (hfree.same _ _ t₁ t₂ (List.Perm.refl _) hswap h₁ h₂ z (by simp)).2
  rw [requests_second hs hl h₁, (requests_head hs hl' h₂).2] at hsame
  have h1 := hl.pos z (by simp)
  have hstep : ((s.sched .stride).tickets + 100 * z.2) / (100 * z.2) + 1 ≤
      ((s.sched .stride).tickets + 100 * y.2 + 100 * z.2) / (100 * z.2) := by
    have hadd : (s.sched .stride).tickets + 100 * y.2 + 100 * z.2 =
        (s.sched .stride).tickets + 100 * z.2 + 1 * (100 * z.2) + 100 * (y.2 - z.2) := by ring
    rw [hadd, ← Int.add_mul_ediv_right _ _ (by omega : 100 * z.2 ≠ 0)]
    exact Int.ediv_le_ediv (by omega) (by omega)
  omega

/-- Requests of different processes that are all granted lead to tickets and strides that do not
depend on their order, and to strides that are one constant over the tickets, if and only if there
are not two of them. -/
theorem orderFree_iff (h : ReachesVia (step float) AsksShare (boot n) s) (hl : Proper l)
    (hok : requests s l ≠ none) : OrderFree s l ↔ l.length ≤ 1 := by
  have hs := rates_reached keepsStrides_float h
  obtain ⟨t, ht⟩ := Option.ne_none_iff_exists'.mp hok
  have hmax := (requests_some hs hl).mp ⟨t, ht⟩
  match l with
  | [] =>
    refine ⟨fun _ ↦ Nat.zero_le _, fun _ ↦ ⟨?_, ?_⟩⟩
    · intro l₁ l₂ t₁ t₂ _ _ _ _ y hy
      cases hy
    · exact fun _ _ _ _ ↦ ⟨0, fun y hy ↦ by cases hy⟩
  | [y] =>
    refine ⟨fun _ ↦ le_refl _, fun _ ↦ ⟨?_, ?_⟩⟩
    · intro l₁ l₂ t₁ t₂ h₁ h₂ ht₁ ht₂
      rw [List.perm_singleton.mp h₁] at ht₁
      rw [List.perm_singleton.mp h₂, ht₁] at ht₂
      cases ht₂
      exact fun _ _ ↦ ⟨rfl, rfl⟩
    · intro l₁ t₁ h₁ ht₁
      rw [List.perm_singleton.mp h₁] at ht₁
      obtain ⟨htickets, hstride⟩ := requests_head hs hl ht₁
      refine ⟨(s.sched .stride).tickets + 100 * y.2, fun z hz ↦ ?_⟩
      rw [List.mem_singleton.mp hz, htickets, hstride]
  | y :: z :: l =>
    refine ⟨fun hfree ↦ ?_, fun hlen ↦ ?_⟩
    · exfalso
      have hswap : (z :: y :: l).Perm (y :: z :: l) := List.Perm.swap y z l
      have htotal : total (z :: y :: l) = total (y :: z :: l) := (hswap.map Prod.snd).sum_eq
      rcases le_total z.2 y.2 with hle | hle
      · exact second_larger hs hl hle hmax hfree
      · exact second_larger hs (hl.perm hswap) hle (htotal ▸ hmax) (hfree.perm hswap)
    · simp at hlen

end

section

/-- The first process is running, and has a child. -/
def withChild : List (Action 1) := [.scheduler cpu0, .fork cpu0 true, .forkDone cpu0 true]

private theorem withChild_run : (exec (step float) (boot 1) withChild).isOk = true ∧
    Along (step float) AsksShare (boot 1) withChild ∧
    (set_cpu_share float (final (step float) (boot 1) withChild) 0 0).isOk = false := by
  decide +kernel

theorem share_safe_iff_withChild :
    SafeShare (final (step float) (boot 1) withChild) 0 80 := by
  obtain ⟨hok, hc, -⟩ := withChild_run
  exact (share_safe_iff ⟨withChild, hc, exec_final hok⟩).mpr fun _ ↦ by decide

/-- A request for nothing divides by zero. -/
theorem share_zero_unsafe : (exec (step float) (boot 1) withChild).isOk = true ∧
    ¬SafeShare (final (step float) (boot 1) withChild) 0 0 := by
  obtain ⟨hok, -, herr⟩ := withChild_run
  refine ⟨hok, ?_⟩
  rintro ⟨t, r, ht, _⟩
  rw [ht] at herr
  cases herr

/-- Parent and child ask for 10 and 20 percent. -/
def tenAndTwenty : List (Slot × Int) := [(0, 10), (1, 20)]

/-- The parent gets stride 1 if it asks first, and stride 3 if the child does. -/
private theorem tenAndTwenty_strides :
    (requests (final (step float) (boot 1) withChild) tenAndTwenty).map
      (fun t ↦ (t.proc 0).stride) = some 1 ∧
    (requests (final (step float) (boot 1) withChild) tenAndTwenty.reverse).map
      (fun t ↦ (t.proc 0).stride) = some 3 := by
  decide +kernel

theorem orderFree_iff_tenAndTwenty :
    OrderFree (final (step float) (boot 1) withChild) tenAndTwenty ↔ tenAndTwenty.length ≤ 1 := by
  obtain ⟨hok, hc, -⟩ := withChild_run
  obtain ⟨t, ht, -⟩ := Option.map_eq_some_iff.mp tenAndTwenty_strides.1
  have hproper : Proper tenAndTwenty := ⟨by decide, by decide, by decide⟩
  exact orderFree_iff ⟨withChild, hc, exec_final hok⟩ hproper
    (Option.ne_none_iff_exists'.mpr ⟨t, ht⟩)

theorem tenAndTwenty_ordered : Proper tenAndTwenty ∧
    ¬OrderFree (final (step float) (boot 1) withChild) tenAndTwenty := by
  have hproper : Proper tenAndTwenty := ⟨by decide, by decide, by decide⟩
  obtain ⟨hfirst, hsecond⟩ := tenAndTwenty_strides
  refine ⟨hproper, fun hfree ↦ ?_⟩
  obtain ⟨t₁, h₁, hs₁⟩ := Option.map_eq_some_iff.mp hfirst
  obtain ⟨t₂, h₂, hs₂⟩ := Option.map_eq_some_iff.mp hsecond
  have hsame := (hfree.same _ _ t₁ t₂ (List.Perm.refl _) (List.reverse_perm _) h₁ h₂ (0, 10)
    (by simp [tenAndTwenty])).2
  rw [hs₁, hs₂] at hsame
  cases hsame

end

end Xv6.Sched
