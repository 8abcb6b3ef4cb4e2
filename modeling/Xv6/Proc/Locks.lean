import Xv6.Proc.Step
import Mathlib.Data.List.Perm.Basic
import Mathlib.Tactic.SplitIfs

/-!
# Which locks a thread holds

`locksOf me st` reads the locks a thread holds off its stack: each frame is inside the critical
sections of the locks of `Frame.locks`, and a frame under `want l` has not entered that of `l` yet.
-/

namespace Xv6

variable {n : Nat} {s : State n} {ch : Choice} {st st' : List Frame} {e : Effect}

/-- `p->lock` of the running process. -/
def self (me : Option Slot) : List Lock := me.toList.map .proc

def Frame.locks (me : Option Slot) : Frame → List Lock
  | .visit _ i | .allocproc i | .forkCopy i _ | .forkPublish i _ => [.proc i]
  | .hold m _ => [.mon m]
  | .loop w _ | .loopCond w _ | .loopPre w _ | .loopPrepare w _ | .loopRelease w _ =>
    [.mon w.cond.lock]
  | .loopKilled w _ => self me ++ [.mon w.cond.lock]
  | .yield | .unlockSelf | .zombieExit | .sleepPrepare _ | .sleep | .setkilled => self me
  | .forkSnapshot np => self me ++ [.proc np]
  | .forkParent _ _ | .reparent _ _ | .exitWakeup _ | .waitScan _ _ _ | .waitRelease _ | .waitFail =>
    [.wait]
  | .exitZombie _ | .waitKilled _ => self me ++ [.wait]
  | .waitChild _ pp => [.proc pp, .wait]
  | .want _ | .panic | .sysret _ | .sched | .loopWoken _ | .waitWoken _ => []

def locksOf (me : Option Slot) : List Frame → List Lock
  | [] => []
  | .want l :: st => (locksOf me st).erase l
  | f :: st => f.locks me ++ locksOf me st

/-- Whoever spins for a lock enters a section of that lock. -/
def WantsOk (me : Option Slot) : List Frame → Prop
  | [] => True
  | .want l :: st => l ∈ locksOf me st ∧ WantsOk me st
  | _ :: st => WantsOk me st

/-- The locks before and after a step of a thread. -/
structure LockStep {n : Nat} (s : State n) (me : Option Slot) (st : List Frame) (e : Effect)
    (st' : List Frame) : Prop where
  perm : (e.acquire.toList ++ locksOf me st).Perm (e.release ++ locksOf me st')
  wants : WantsOk me st'
  free : ∀ l, e.acquire = some l → s.lock l = none

section Stacks
variable (me : Option Slot) (p : Slot) (st : List Frame)

attribute [local simp] Frame.locks locksOf WantsOk

@[simp] theorem locks_scanFrom (j : Job) :
    locksOf me (scanFrom j st) = locksOf me st ∧ (WantsOk me (scanFrom j st) ↔ WantsOk me st) := by
  simp [scanFrom]

@[simp] theorem locks_scanNext (j : Job) (i : Slot) :
    locksOf me (scanNext j i st) = locksOf me st ∧ (WantsOk me (scanNext j i st) ↔ WantsOk me st) := by
  unfold scanNext
  split
  · simp
  · cases j <;> simp

@[simp] theorem locks_reparentNext (status : Int) (pp : Slot) :
    locksOf me (reparentNext status pp st) = .wait :: locksOf me st ∧
      (WantsOk me (reparentNext status pp st) ↔ WantsOk me st) := by
  unfold reparentNext
  split <;> simp

@[simp] theorem locks_waitNext (addr : Nat) (pp : Slot) (havekids : Bool) :
    locksOf (some p) (waitNext p addr pp havekids st) = .wait :: locksOf (some p) st ∧
      (WantsOk (some p) (waitNext p addr pp havekids st) ↔ WantsOk (some p) st) := by
  unfold waitNext
  split
  · simp
  · cases havekids <;> simp [self]

end Stacks

theorem own_locks {p : Slot} {f : Frame} (hw : WantsOk (some p) st) (h : own s p ch st f = some (e, st')) :
    LockStep s (some p) (f :: st) e st' := by
  cases f
  all_goals simp only [own] at h
  all_goals repeat' (split at h)
  all_goals cases h
  all_goals constructor
  all_goals simp [locksOf, Frame.locks, self, WantsOk, hw]
  -- kexit() releases `wait_lock` from under `p->lock`
  exact List.Perm.swap _ _ _

theorem enter_locks {p : Slot} (h : enter s.initproc p ch = some (e, st')) : LockStep s (some p) [] e st' := by
  cases ch
  all_goals simp only [enter] at h
  all_goals repeat' (split at h)
  all_goals cases h
  all_goals constructor
  all_goals simp [locksOf, Frame.locks, self, WantsOk]

theorem hold_locks {me : Option Slot} {m : Nat} {due : List Cond} (hw : WantsOk me st)
    (h : hold s.cond m due st ch = some (e, st')) : LockStep s me (.hold m due :: st) e st' := by
  cases ch
  all_goals simp only [hold] at h
  all_goals repeat' (split at h)
  all_goals cases h
  all_goals constructor
  all_goals simp [locksOf, Frame.locks, WantsOk, *]

theorem visit_locks {me : Option Slot} {j : Job} {i : Slot} (hw : WantsOk me st) :
    LockStep s me (.visit j i :: st) (visit (s.proc i) j i st).1 (visit (s.proc i) j i st).2 := by
  unfold visit
  constructor
  all_goals cases (j.body (s.proc i)).2
  all_goals simp [locksOf, Frame.locks, WantsOk, hw]

/-- **Lock bookkeeping of a thread.** What a step acquires was free, and together with what the
thread held it is what the step releases and what the thread still holds. -/
theorem exec_locks {c : Fin n} {me : Option Slot} (hw : WantsOk me st) (h : ExecCase s c me ch st e st') :
    LockStep s me st e st' := by
  cases h with
  | enter hme h =>
    subst hme
    exact enter_locks h
  | acquire hfree =>
    refine ⟨?_, hw.2, fun l hl => Option.some.inj hl ▸ hfree⟩
    exact (List.perm_cons_erase hw.1).symm
  | twice hheld =>
    exact ⟨List.Perm.refl _, hw, by simp⟩
  | visit => exact visit_locks hw
  | hold h => exact hold_locks hw h
  | @own p f st st' e hme h =>
    subst hme
    have hw' : WantsOk (some p) st := by
      cases f
      case want l => exact hw.2
      all_goals exact hw
    exact own_locks hw' h

theorem interrupt_locks {me : Option Slot} (hw : WantsOk me st) (h : interrupt me st ch = some st') :
    locksOf me st' = locksOf me st ∧ WantsOk me st' := by
  cases ch
  all_goals simp only [interrupt] at h
  case timer =>
    obtain ⟨p, rfl, rfl⟩ := Option.map_eq_some_iff.mp h
    simp [locksOf, Frame.locks, self, WantsOk, hw]
  all_goals cases h
  all_goals simp [locksOf, Frame.locks, WantsOk, hw]

end Xv6
