import Xv6.Trap.Steps

/-!
# Interrupts and traps in every reachable state

* `interrupt_state` : interrupts are on where the running thread has them on and holds no lock, wherever that thread was
  before; a nested thread finds its own `intena` in the `struct cpu` it runs on, or keeps it while it waits;
* `hart_registers` : none of the panics modelled is reached, `mycpu()` and `myproc()` are right, and a trap goes to the
  right vector.
-/

namespace Xv6
namespace Trap
open Automaton

section
variable {n : Nat} {P : Type} [DecidableEq P] {first : P} {s : State n P}

omit [DecidableEq P] in
theorem Pc.on_of_depth {pc : Pc P} (h : 0 < pc.depth) : pc.on = false := by
  cases pc
  case code x d =>
    cases d with
    | zero => cases h
    | succ d => rfl
  case user => cases h
  case idleOff => cases h
  all_goals rfl

/-- **The interrupt-enable bit follows the thread.** -/
theorem interrupt_state (hs : Reachable first s) (c : Fin n) :
    (s.hart c).sstatus.sie = (s.hart c).pc.on ∧ (s.cpu c).noff = (s.hart c).pc.depth ∧
      (0 < (s.cpu c).noff → (s.hart c).sstatus.sie = false) ∧
      (∀ x d, (s.hart c).pc = .code x (d + 1) → (s.cpu c).intena = x.on) ∧
      ∀ p x b, s.context p = .parked (.resume x b) → b = x.on := by
  have hi := inv_of_reachable hs
  have hok := hi.hart c
  refine ⟨hok.sie, hok.noff, fun hnoff => ?_, fun x d hpc => (hi.at hpc).intena _ rfl, fun p x b hp => ?_⟩
  · rw [hok.noff] at hnoff
    rw [hok.sie, Pc.on_of_depth hnoff]
  · cases hi.parked hp
    rfl

/-- **The trap registers.** `c->proc` is the process that the hart runs; `scheduler()` sets it before it enters the
process and clears it after the process has left. -/
theorem hart_registers (hs : Reachable first s) (c : Fin n) :
    (s.hart c).pc ≠ .panic ∧ ((s.hart c).pc.home → (s.hart c).tp = c) ∧
      (∀ r, (s.hart c).pc.proc (s.hart c).run = some r → (s.cpu c).proc = r) ∧
      ((s.hart c).pc.mode = .user →
        (s.hart c).stvec = .uservec ∧ ∃ p, (s.hart c).run = some p ∧ (s.trapframe p).kernelHartid = c) ∧
      ((s.hart c).pc.mode = .supervisor → (s.hart c).sstatus.sie = true →
        (s.hart c).stvec = .kernelvec ∧ (s.hart c).tp = c) := by
  have hi := inv_of_reachable hs
  refine ⟨fun hpc => (hi.at hpc).locals, (hi.hart c).tp, (hi.hart c).proc, fun hmode => ?_, fun hmode hsie => ?_⟩
  · cases hpc : (s.hart c).pc
    case user v => exact ⟨(hi.at hpc).stvec, (hi.at hpc).locals⟩
    all_goals
      rw [hpc] at hmode
      cases hmode
  · rw [(hi.hart c).sie] at hsie
    cases hpc : (s.hart c).pc
    case user => rw [hpc] at hmode; cases hmode
    case idleOff => exact ⟨(hi.at hpc).stvec, (hi.at hpc).tp rfl⟩
    case code => exact ⟨(hi.at hpc).stvec, (hi.at hpc).tp rfl⟩
    all_goals
      rw [hpc] at hsie
      cases hsie

end

/-! ## A run with two harts

Process `()` takes a lock in a system call on hart 0 and leaves through `sched()`; hart 1 goes on with it. -/

def hart0 : Fin 2 := ⟨0, by decide⟩

def hart1 : Fin 2 := ⟨1, by decide⟩

/-- Hart `c` finds the process and enters it. -/
def dispatching (c : Fin 2) : List (Fin 2 × Act Unit) :=
  [(c, .go), (c, .go), (c, .pushOff), (c, .go), (c, .go), (c, .dispatch ()), (c, .go)]

/-- `pop_off()`. -/
def popping (c : Fin 2) : List (Fin 2 × Act Unit) := [(c, .popOff), (c, .go), (c, .go)]

/-- `push_off()`, then `sched()`, and the scheduler releases `p->lock`. -/
def switching (c : Fin 2) : List (Fin 2 × Act Unit) :=
  [(c, .pushOff), (c, .go), (c, .go), (c, .sched), (c, .go), (c, .go), (c, .go), (c, .go)] ++ popping c

def sampleMoved : State 2 Unit :=
  runD step (State.init 2 ()) (dispatching hart0 ++ popping hart0 ++ [(hart0, .syscall 7)] ++ switching hart0 ++
    dispatching hart1 ++ [(hart1, .go)])

theorem sampleMoved_reachable : Reachable () sampleMoved := ⟨_, run_eq_runD (by decide +kernel)⟩

/-- The process will have interrupts on when it releases the lock on hart 1. -/
theorem interrupt_state_sample : (sampleMoved.cpu hart1).intena = true :=
  (interrupt_state sampleMoved_reachable hart1).2.2.2.1 (.syscall 7) 0 (by decide +kernel)

theorem hart_registers_sample : (sampleMoved.hart hart1).tp = 1 ∧ (sampleMoved.hart hart1).run = some () ∧
    (sampleMoved.cpu 1).proc = some () :=
  have hregs := hart_registers sampleMoved_reachable hart1
  ⟨hregs.2.1 (by decide +kernel), by decide +kernel, hregs.2.2.1 _ (by decide +kernel)⟩

end Trap
end Xv6
