import Xv6.Sched.Fields
import Xv6.Vm.Machine
import Xv6.Vm.Pages

/-!
# Steps of the machine with memory

A step is one of the processes with what its call does to memory, or is about memory only.
-/

namespace Xv6.Vm

open Function Lib Sched

section

variable {n : Nat} {round : Int → Int} {s t : State n} {vm : Spaces} {c : Fin n} {p w m : Slot}

theorem sched_eq_ok {α : Type} {x : Except Sched.Fault α} {a : α} :
    sched x = .ok a ↔ x = .ok a := by
  cases x <;> simp [sched]

theorem sched_spec {α : Type} {x : Except Sched.Fault α} : NoRemap (sched x) fun a ↦ x = .ok a := by
  cases x with
  | ok a => rfl
  | error e => exact nofun

theorem switchuvm_eq_ok (h : switchuvm s c p = .ok t) :
    t = { s with cr3 := update s.cr3 c (s.vm.space p).pgdir } ∧ switchable s.vm p = .ok () := by
  obtain ⟨⟨⟩, hp, h⟩ := bind_eq_ok.mp h
  cases h
  exact ⟨rfl, hp⟩

theorem switched_eq_ok {u : Sched.State n} (h : switched s vm u c = .ok t) :
    t.kernel = u ∧ t.vm = vm := by
  unfold switched at h
  dsimp only at h
  split at h
  · cases h
    exact ⟨rfl, rfl⟩
  · obtain ⟨rfl, _⟩ := switchuvm_eq_ok h
    exact ⟨rfl, rfl⟩
  · cases h
    exact ⟨rfl, rfl⟩
  · split at h
    · cases h
      exact ⟨rfl, rfl⟩
    · obtain ⟨⟨⟩, _, h⟩ := bind_eq_ok.mp h
      cases h
      exact ⟨rfl, rfl⟩

/-- A step of the processes. -/
theorem step_call {a : Sched.Action n} (h : step round s (.call a) = .ok t) :
    Sched.step round s.kernel a = .ok t.kernel ∧ effect s a = .ok t.vm := by
  obtain ⟨u, hu, h⟩ := bind_eq_ok.mp h
  obtain ⟨vm, hvm, h⟩ := bind_eq_ok.mp h
  rw [sched_eq_ok] at hu
  split at h
  · cases h
    exact ⟨hu, hvm⟩
  · obtain ⟨rfl, rfl⟩ := switched_eq_ok h
    exact ⟨hu, hvm⟩

/-! ### What the calls about threads do to memory -/

theorem effect_create (h : effect s (.thread_create c) = .ok vm) (hp : caller s.kernel c = .ok p)
    (hm : (s.kernel.proc p).master = some m) (hw : findUnused s.kernel = some w) :
    vm.mem.dir = s.vm.mem.dir ∧
      ((vm.space w).stacked = false ∧ (vm.space w).pgdir = (s.vm.space m).pgdir) ∧
        ∀ q, q ≠ w → vm.space q = s.vm.space q := by
  obtain ⟨q, hq, h⟩ := bind_eq_ok.mp h
  cases (sched_eq_ok.mp hq).symm.trans hp
  unfold thread_create at h
  rw [hm, hw] at h
  dsimp only at h
  split at h
  · cases h
  · next f mem hf =>
    cases h
    refine ⟨(kalloc_eq_some hf).2, ?_, fun q hq ↦ update_of_ne hq ..⟩
    simp [Spaces.modify]

theorem effect_ready (h : effect s (.threadReady c) = .ok vm) (hp : current s.kernel c = .ok p)
    (hw : (s.kernel.proc p).np = some w) : vm = s.vm ∧ (s.vm.space w).stacked = true := by
  obtain ⟨q, hq, h⟩ := bind_eq_ok.mp h
  cases (sched_eq_ok.mp hq).symm.trans hp
  unfold threadReady at h
  rw [hw] at h
  dsimp only at h
  split at h
  · next hs =>
    cases h
    exact ⟨rfl, hs.2⟩
  · cases h

theorem effect_join {i : Fin (MAXTHREAD + 1)} {thread : Nat}
    (h : effect s (.thread_join c thread) = .ok vm) (hp : (s.kernel.cpu c).proc = some p)
    (hi : i = thread) (hw : (s.kernel.proc p).threads i = some w) :
    (s.kernel.proc w).state ≠ .ZOMBIE ∧ vm = s.vm ∨ (s.kernel.proc w).state = .ZOMBIE ∧
      ∃ m, (s.kernel.proc w).master = some m ∧ s.vm.t_deallocustack w m = .ok vm := by
  obtain ⟨q, hq, h⟩ := bind_eq_ok.mp h
  cases (cpu_of_caller (sched_eq_ok.mp hq)).symm.trans hp
  subst hi
  unfold thread_join at h
  rw [dif_pos i.isLt, hw] at h
  dsimp only at h
  split at h
  · next hz =>
    cases h
    exact .inl ⟨hz, rfl⟩
  · next hz =>
    split at h
    · cases h
    · next m hm => exact .inr ⟨not_not.mp hz, m, hm, h⟩

/-! ### The stack of a new thread -/

theorem accessible_spec {d : PageDir} (l : List Nat) : NoRemap (Memory.accessible d l) fun _ ↦ True := by
  induction l with
  | nil => exact trivial
  | cons v vs ih =>
    unfold Memory.accessible
    split
    · exact nofun
    · split
      · exact trivial
      · split
        · exact ih
        · exact trivial

theorem copyout_spec {mem : Memory} {pgdir : Option Frame} {va len : Nat} :
    NoRemap (mem.copyout pgdir va len) fun _ ↦ True :=
  lookup_spec.bind fun _ _ ↦ accessible_spec _

-- no step of a proof below computes with it
seal Spaces.t_allocustack

/-- What is asked of a process whose `thread_create` allocates a stack. -/
theorem ustack_spec {ok : Spaces → Prop}
    (h : ∀ w m, (s.kernel.proc p).np = some w → (s.kernel.proc p).master = some m →
      (s.vm.space w).stacked = false → NoRemap (s.vm.t_allocustack m w) ok) :
    NoRemap (ustack s p) ok := by
  unfold ustack
  split
  · next w m hw hm =>
    split
    · next hs =>
      refine (h w m hw hm hs.2).bind fun vm hvm ↦ copyout_spec.bind fun copied _ ↦ ?_
      split
      · exact hvm
      · exact nofun
    · exact nofun
  · exact nofun

/-- The step of a `thread_create` that allocates a stack is a call of `t_allocustack`. -/
theorem step_ustack {ok : Spaces → Prop} (h : ∀ p w m, current s.kernel c = .ok p →
      (s.kernel.proc p).np = some w → (s.kernel.proc p).master = some m →
      (s.vm.space w).stacked = false → NoRemap (s.vm.t_allocustack m w) ok) :
    NoRemap (step round s (.t_allocustack c)) fun t ↦ ∃ vm, t = { s with vm } ∧ ok vm := by
  unfold step
  refine sched_spec.bind fun p hp ↦ ?_
  refine (ustack_spec fun w m hw hm hs ↦ h p w m hp hw hm hs).bind fun vm hvm ↦ ?_
  exact ⟨vm, rfl, hvm⟩

end

/-! ### A machine -/

/-- A machine with one CPU that has started with 200 free pages. -/
def booted : State 1 :=
  match boot 1 (List.range 200) with
  | .ok s => s
  | .error _ => ⟨Sched.boot 1, ⟨fun _ ↦ .zero, ⟨[], fun _ ↦ none⟩⟩, fun _ ↦ none⟩

theorem boot_booted : boot 1 (List.range 200) = .ok booted := by
  have hok : (boot 1 (List.range 200)).isOk = true := by decide +kernel
  unfold booted
  cases hb : boot 1 (List.range 200) with
  | ok s => rfl
  | error e =>
    rw [hb] at hok
    cases hok

example : (booted.vm.space 0).sz = 4096 := by decide +kernel

end Xv6.Vm
