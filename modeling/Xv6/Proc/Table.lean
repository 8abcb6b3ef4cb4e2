import Mathlib.Data.ZMod.Defs

/-!
# The process table: slots and the writes made under their locks

`kernel/proc.c` touches a slot of `proc[NPROC]` only inside short critical sections. Each such
section is one function on the slot's contents here, under the name of the source function that
contains it:

* `procinit`, `allocproc`, `freeproc` : the life of a slot;
* `applyAging`, `schedulerVisit`, `schedulerDispatch` : what `scheduler()` writes;
* `wakeup`, `kkill`, `ksetpriority`, `kgetpriority` : one iteration of the table scans, with the
  value the scan returns when it stops at the slot;
* `Op` : the writes, as data, so that a step of the machine can be asked what it wrote.

Pointers are numbers with `0` for null (`trapframe`, `pagetable`) or `Option Slot` (`parent`).
`name`, `ofile`, `cwd` and `context` are not read by the functions of this part.
-/

namespace Xv6

abbrev nproc : Nat := 64

abbrev Slot := Fin nproc

instance neZeroNproc : NeZero nproc := ⟨by decide⟩

def priorityMin : Int := 0
def priorityMax : Int := 31
def priorityDefault : Int := 10
def agingInterval : Nat := 50

abbrev priorityValid (priority : Int) : Prop := priorityMin ≤ priority ∧ priority ≤ priorityMax

inductive ProcState
  | unused | used | sleeping | runnable | running | zombie
  deriving DecidableEq, Repr

/-- A `void *` wait channel: null, the address of a process slot, or another kernel address. -/
inductive Chan
  | null
  | proc (i : Slot)
  | addr (a : Nat)
  deriving DecidableEq, Repr

/-- A `struct proc *` used as a channel. -/
def Chan.ofProc : Option Slot → Chan
  | none => .null
  | some i => .proc i

/-- `struct proc`. -/
structure Proc where
  state : ProcState
  chan : Chan
  killed : Bool
  xstate : Int
  pid : Int
  priority : Int
  waitTicks : Nat
  parent : Option Slot
  sz : Nat
  pagetable : Nat
  trapframe : Nat
  deriving DecidableEq, Repr

/-! ## The life of a slot -/

/-- A slot after `procinit()`: static storage is zero. -/
def procinit : Proc where
  state := .unused
  chan := .null
  killed := false
  xstate := 0
  pid := 0
  priority := priorityDefault
  waitTicks := 0
  parent := none
  sz := 0
  pagetable := 0
  trapframe := 0

def freeproc (p : Proc) : Proc :=
  { p with
    trapframe := 0, pagetable := 0, sz := 0, pid := 0, chan := .null, killed := false,
    xstate := 0, priority := priorityDefault, waitTicks := 0, state := .unused }

/-- `allocproc()` from `found:` on. `tf` and `pt` are what `kalloc()` and `proc_pagetable()`
return; the flag says whether the slot is returned to the caller. -/
def allocproc (pid : Int) (tf pt : Nat) (p : Proc) : Proc × Bool :=
  let p := { p with pid := pid, state := .used, priority := priorityDefault, waitTicks := 0 }
  let p := { p with trapframe := tf }
  if tf = 0 then (freeproc p, false)
  else
    let p := { p with pagetable := pt }
    if pt = 0 then (freeproc p, false) else (p, true)

/-- `nextpid = nextpid + 1` on a 32-bit `int`. -/
def nextPid (pid : Int) : Int := Int.bmod (pid + 1) (2 ^ 32)

/-! ## What the scheduler writes -/

def applyAging (p : Proc) : Proc :=
  if p.state = .runnable ∧ agingInterval ≤ p.waitTicks ∧ priorityValid p.priority ∧
      priorityMin < p.priority then
    { p with priority := p.priority - 1, waitTicks := 0 }
  else p

/-- The first scan's visit: aging, then `wait_ticks++` on an `uint`. -/
def schedulerVisit (p : Proc) : Proc :=
  let p := applyAging p
  if p.state = .runnable then { p with waitTicks := (p.waitTicks + 1) % 2 ^ 32 } else p

def schedulerDispatch (p : Proc) : Proc := { p with state := .running, waitTicks := 0 }

/-! ## The writes, as data -/

inductive Op
  | visit
  | dispatch
  | yield
  | sleepPrepare (ch : Chan)
  | sleep
  | wakeup
  | kkill
  | setkilled
  | ksetpriority (priority : Int)
  | allocproc (pid : Int) (tf pt : Nat)
  | forkfail
  | inherit (priority : Int) (sz : Nat)
  | setParent (parent : Slot)
  | publish
  | reparent (init : Option Slot)
  | kexit (status : Int)
  | reap
  | resize (sz pt : Nat)
  | userinit (pid : Int) (tf pt : Nat)
  deriving DecidableEq, Repr

def Op.apply : Op → Proc → Proc
  | .visit, p => schedulerVisit p
  | .dispatch, p => schedulerDispatch p
  | .yield, p => { p with state := .runnable }
  | .sleepPrepare ch, p => { p with chan := ch }
  | .sleep, p => { p with state := .sleeping }
  | .wakeup, p =>
    { p with chan := .null, state := if p.state = .sleeping then .runnable else p.state }
  | .kkill, p =>
    { p with killed := true, state := if p.state = .sleeping then .runnable else p.state }
  | .setkilled, p => { p with killed := true }
  | .ksetpriority v, p => { p with priority := v, waitTicks := 0 }
  | .allocproc pid tf pt, p => (Xv6.allocproc pid tf pt p).1
  | .forkfail, p => freeproc p
  | .inherit v sz, p =>
    { p with sz := sz, priority := if priorityValid v then v else priorityDefault, waitTicks := 0 }
  | .setParent q, p => { p with parent := some q }
  | .publish, p => { p with state := .runnable }
  | .reparent q, p => { p with parent := q }
  | .kexit status, p => { p with xstate := status, state := .zombie }
  | .reap, p => freeproc { p with parent := none }
  | .resize sz pt, p => { p with sz := sz, pagetable := pt }
  | .userinit pid tf pt, p => { (Xv6.allocproc pid tf pt p).1 with state := .runnable }

/-! ## One iteration of the table scans

Each returns what it writes to the slot, and the value of the call when the scan stops there. -/

def wakeup (ch : Chan) (p : Proc) : Option Op × Option Int :=
  (if p.chan = ch then some .wakeup else none, none)

def kkill (pid : Int) (p : Proc) : Option Op × Option Int :=
  if p.pid = pid then (some .kkill, some 0) else (none, none)

def ksetpriority (pid priority : Int) (p : Proc) : Option Op × Option Int :=
  if p.state ≠ .unused ∧ p.pid = pid then (some (.ksetpriority priority), some 0) else (none, none)

def kgetpriority (pid : Int) (p : Proc) : Option Op × Option Int :=
  if p.state ≠ .unused ∧ p.pid = pid then (none, some p.priority) else (none, none)

end Xv6
