import Xv6.Lib.Run

/-!
# Traps, context switches and the interrupt-enable bit

Any number of harts, each with its `sstatus`, `sepc`, `stvec` and `tp`, run the threads of the processes and a scheduler
thread of their own. A step is one access to these registers, to `cpus[..]` or to a trapframe, so that an interrupt can
come between any two of them where `SIE` is set. `mycpu()` is `&cpus[tp]`, whatever `tp` holds.

* `Context` : the kernel code that a thread executes, `Pc` : the thread's place, `Addr` : what `sepc` can hold;
* `kernelStep` : `push_off()`, `pop_off()`, `sched()`, `usertrap()`, `prepare_return()`, `kerneltrap()`, `uservec`,
  `userret` and the parts of `scheduler()` that touch the interrupt state;
* `trap`, `sret` : what the hardware does;
* `step` : one step of one hart. The label says what the code in between does next: it calls `push_off()` and
  `pop_off()` well nested, and `sched()` with one level of nesting. That it does is the lock discipline of the process
  table.

Not part of this state are the cause of a trap and the locks and states of processes. So `kerneltrap()`'s panic on an
unknown cause is left out, and so are the panics of `sched()` on `p->lock` and `RUNNING`.
-/

namespace Xv6
open Function
namespace Trap
open Automaton

inductive Mode
  | user | supervisor
  deriving DecidableEq

/-- `SSTATUS_SIE`, `SSTATUS_SPIE` and `SSTATUS_SPP`. -/
structure Sstatus where
  sie : Bool
  spie : Bool
  spp : Mode
  deriving DecidableEq

/-- The values of `stvec`. -/
inductive Vector
  | uservec | kernelvec
  deriving DecidableEq

/-- The address of an instruction, with the local variables of the code it is in: user code, a system call outside the
functions modelled here, `intr_off()` in `scheduler()`, or one of the functions modelled here. -/
inductive Addr
  | user (v : Nat)
  | kernel (k : Nat)
  | idle (c : Nat)
  | other
  deriving DecidableEq

/-- Which code a kernel thread executes: `usertrap()` until it has saved `sepc`; `usertrap()` and `forkret()` with
interrupts off; `usertrap()` from `intr_on()` on; `kerneltrap()`, with its local variables; `scheduler()` from
`intr_off()` on, with `c = mycpu()`. -/
inductive Context
  | entry
  | handler
  | syscall (k : Nat)
  | kerneltrap (sepc : Addr) (sstatus : Sstatus)
  | scheduler (c : Nat)
  deriving DecidableEq

/-- The place of a thread; `d` counts the calls of `push_off()` that it has not undone. -/
inductive Pc (P : Type)
  | user (v : Nat)
  | uservec
  | usertrap
  | code (x : Context) (d : Nat)
  -- push_off(), called at depth d
  | pushIntena (x : Context) (d : Nat) (old : Bool)
  | pushNoff (x : Context) (d : Nat)
  -- pop_off(), called at depth d + 1
  | popNoff (x : Context) (d c : Nat)
  | popOn (x : Context) (d c : Nat)
  -- sched(), for a process that goes on later or for a zombie
  | sched (x : Context) (zombie : Bool)
  | swtch (x : Context) (zombie intena : Bool)
  | resume (x : Context) (intena : Bool)
  -- prepare_return() after intr_off(), and userret
  | prepStvec
  | prepHartid
  | prepSstatus
  | prepWrite (x : Sstatus)
  | prepSepc
  | userret
  | userSret
  -- kernelvec and kerneltrap()
  | kernelvec
  | trapCheck (sepc : Addr) (sstatus : Sstatus)
  | trapSstatus (sstatus : Sstatus)
  | kernelSret
  -- scheduler()
  | idleOn (c : Nat)
  | idleOff (c : Nat)
  | enter (c : Nat) (p : P)
  | back (c : Nat)
  | clear (c : Nat)
  | panic
  deriving DecidableEq

/-- `struct cpu`. -/
structure Cpu (P : Type) where
  noff : Nat
  intena : Bool
  proc : Option P
  context : Option (Pc P)

/-- A hart; `run` is the process on whose kernel stack or in whose address space it executes. -/
structure Hart (P : Type) where
  pc : Pc P
  run : Option P
  sstatus : Sstatus
  sepc : Addr
  stvec : Vector
  tp : Nat

/-- `p->trapframe`, as far as traps and returns use it. -/
structure Trapframe where
  epc : Nat
  kernelHartid : Nat
  tp : Nat

/-- `p->context`; it is `free` in an unused slot and in a zombie. -/
inductive Saved (P : Type)
  | free
  | running
  | parked (pc : Pc P)
  deriving DecidableEq

structure State (n : Nat) (P : Type) where
  hart : Fin n → Hart P
  cpu : Nat → Cpu P
  context : P → Saved P
  trapframe : P → Trapframe

/-- What a hart does next: its next instruction, a trap, a step of user code, or what the code of its context calls;
`kernel` is the code of a system call going on, and `leave` the end of the code of the context. -/
inductive Act (P : Type)
  | go
  | trap
  | user (v tp : Nat)
  | pushOff
  | popOff
  | sched
  | exit
  | syscall (k : Nat)
  | kernel (k : Nat)
  | setEpc (v : Nat)
  | fork (p : P)
  | dispatch (p : P)
  | leave
  deriving DecidableEq

section
variable {n : Nat} {P : Type} [DecidableEq P]

def State.setHart (s : State n P) (c : Fin n) (h : Hart P) : State n P :=
  { s with hart := update s.hart c h }

def State.setCpu (s : State n P) (i : Nat) (cpu : Cpu P) : State n P :=
  { s with cpu := update s.cpu i cpu }

def State.setContext (s : State n P) (p : P) (x : Saved P) : State n P :=
  { s with context := update s.context p x }

def State.setTrapframe (s : State n P) (p : P) (tf : Trapframe) : State n P :=
  { s with trapframe := update s.trapframe p tf }

/-- The hart goes to `pc`. -/
def State.goto (s : State n P) (c : Fin n) (pc : Pc P) : State n P := s.setHart c { s.hart c with pc := pc }

/-! ## The hardware -/

def Pc.mode : Pc P → Mode
  | .user _ => .user
  | _ => .supervisor

def Pc.addr : Pc P → Addr
  | .user v => .user v
  | .code (.syscall k) 0 => .kernel k
  | .idleOff c => .idle c
  | _ => .other

def Vector.pc : Vector → Pc P
  | .uservec => .uservec
  | .kernelvec => .kernelvec

/-- Where `sret` goes. -/
def Addr.pc : Mode → Addr → Pc P
  | .user, .user v => .user v
  | .supervisor, .kernel k => .code (.syscall k) 0
  | .supervisor, .idle c => .idleOff c
  | _, _ => .panic

/-- A trap, which user code cannot hold off. -/
def trap (h : Hart P) : Option (Hart P) :=
  if h.pc.mode = .user ∨ h.sstatus.sie then
    some { h with
      pc := h.stvec.pc, sepc := h.pc.addr
      sstatus := { sie := false, spie := h.sstatus.sie, spp := h.pc.mode } }
  else none

def sret (h : Hart P) : Hart P :=
  { h with
    pc := h.sepc.pc h.sstatus.spp
    sstatus := { sie := h.sstatus.spie, spie := true, spp := .user } }

/-! ## The code -/

/-- The next instruction of a hart, where the code leaves no choice. -/
def kernelStep (s : State n P) (c : Fin n) : Option (State n P) :=
  let h := s.hart c
  match h.pc with
  -- uservec: save the user's tp, load the kernel's
  | .uservec =>
    match h.run with
    | none => some (s.goto c .panic)
    | some p =>
      some ((s.setTrapframe p { s.trapframe p with tp := h.tp }).setHart c
        { h with pc := .usertrap, tp := (s.trapframe p).kernelHartid })
  | .usertrap =>
    if h.sstatus.spp ≠ .user then some (s.goto c .panic)
    else some (s.setHart c { h with pc := .code .entry 0, stvec := .kernelvec })
  -- push_off()
  | .pushIntena x d old =>
    let cpu := s.cpu h.tp
    some ((if cpu.noff = 0 then s.setCpu h.tp { cpu with intena := old } else s).goto c (.pushNoff x d))
  | .pushNoff x d =>
    some ((s.setCpu h.tp { s.cpu h.tp with noff := (s.cpu h.tp).noff + 1 }).goto c (.code x (d + 1)))
  -- pop_off()
  | .popNoff x d i =>
    if (s.cpu i).noff < 1 then some (s.goto c .panic)
    else some ((s.setCpu i { s.cpu i with noff := (s.cpu i).noff - 1 }).goto c (.popOn x d i))
  | .popOn x d i =>
    some (s.setHart c { h with
      pc := .code x d
      sstatus := if (s.cpu i).noff = 0 ∧ (s.cpu i).intena then { h.sstatus with sie := true } else h.sstatus })
  -- sched()
  | .sched x zombie =>
    if (s.cpu h.tp).noff ≠ 1 then some (s.goto c .panic)
    else if h.sstatus.sie then some (s.goto c .panic)
    else some (s.goto c (.swtch x zombie (s.cpu h.tp).intena))
  | .swtch x zombie intena =>
    match h.run, (s.cpu h.tp).context with
    | some p, some pc =>
      some ((s.setContext p (if zombie then .free else .parked (.resume x intena))).setHart c
        { h with pc := pc, run := none })
    | _, _ => some (s.goto c .panic)
  | .resume x intena =>
    some ((s.setCpu h.tp { s.cpu h.tp with intena := intena }).goto c (.code x 1))
  -- prepare_return()
  | .prepStvec => some (s.setHart c { h with pc := .prepHartid, stvec := .uservec })
  | .prepHartid =>
    match h.run with
    | none => some (s.goto c .panic)
    | some p => some ((s.setTrapframe p { s.trapframe p with kernelHartid := h.tp }).goto c .prepSstatus)
  | .prepSstatus => some (s.goto c (.prepWrite { h.sstatus with spp := .user, spie := true }))
  | .prepWrite x => some (s.setHart c { h with pc := .prepSepc, sstatus := x })
  | .prepSepc =>
    match h.run with
    | none => some (s.goto c .panic)
    | some p => some (s.setHart c { h with pc := .userret, sepc := .user (s.trapframe p).epc })
  | .userret =>
    match h.run with
    | none => some (s.goto c .panic)
    | some p => some (s.setHart c { h with pc := .userSret, tp := (s.trapframe p).tp })
  | .userSret | .kernelSret => some (s.setHart c (sret h))
  -- kerneltrap()
  | .kernelvec => some (s.goto c (.trapCheck h.sepc h.sstatus))
  | .trapCheck sepc sstatus =>
    if sstatus.spp = .user then some (s.goto c .panic)
    else if h.sstatus.sie then some (s.goto c .panic)
    else some (s.goto c (.code (.kerneltrap sepc sstatus) 0))
  | .trapSstatus sstatus => some (s.setHart c { h with pc := .kernelSret, sstatus := sstatus })
  -- scheduler()
  | .idleOn i => some (s.setHart c { h with pc := .idleOff i, sstatus := { h.sstatus with sie := true } })
  | .idleOff i =>
    some (s.setHart c { h with pc := .code (.scheduler i) 0, sstatus := { h.sstatus with sie := false } })
  | .enter i p =>
    match s.context p with
    | .parked pc =>
      some (((s.setCpu i { s.cpu i with context := some (.back i) }).setContext p .running).setHart c
        { h with pc := pc, run := some p })
    | _ => none
  | .back i => some ((s.setCpu h.tp { s.cpu h.tp with intena := false }).goto c (.clear i))
  | .clear i => some ((s.setCpu i { s.cpu i with proc := none }).goto c (.code (.scheduler i) 1))
  | .user _ | .code _ _ | .panic => none

/-- The end of the code of a context, at depth 0. -/
def leave (s : State n P) (c : Fin n) : Context → Option (State n P)
  | .entry =>
    match (s.hart c).run, (s.hart c).sepc with
    | some p, .user v => some ((s.setTrapframe p { s.trapframe p with epc := v }).goto c (.code .handler 0))
    | _, _ => some (s.goto c .panic)
  | .handler | .syscall _ =>
    -- prepare_return() begins with intr_off()
    some (s.setHart c { s.hart c with pc := .prepStvec, sstatus := { (s.hart c).sstatus with sie := false } })
  | .kerneltrap sepc sstatus => some (s.setHart c { s.hart c with pc := .trapSstatus sstatus, sepc := sepc })
  | .scheduler i => some (s.goto c (.idleOn i))

/-- The contexts in which `sched()` is called: not by `myproc()`, and in a kernel trap only if `myproc() != 0`. -/
def Context.schedules (run : Option P) : Context → Bool
  | .handler | .syscall _ => true
  | .kerneltrap _ _ => run.isSome
  | .entry | .scheduler _ => false

/-- A step of the code of context `x` at depth `d`. -/
def codeStep (s : State n P) (c : Fin n) (x : Context) (d : Nat) : Act P → Option (State n P)
  -- push_off() begins with rc_sstatus()
  | .pushOff =>
    let h := s.hart c
    some (s.setHart c { h with
      pc := .pushIntena x d h.sstatus.sie
      sstatus := { h.sstatus with sie := false } })
  | .popOff =>
    match d with
    | 0 => none
    | d + 1 =>
      if (s.hart c).sstatus.sie then some (s.goto c .panic) else some (s.goto c (.popNoff x d (s.hart c).tp))
  | .sched => if d = 1 ∧ x.schedules (s.hart c).run then some (s.goto c (.sched x false)) else none
  | .exit => if d = 1 ∧ x.schedules (none : Option P) then some (s.goto c (.sched x true)) else none
  -- intr_on(), syscall()
  | .syscall k =>
    if x = .handler ∧ d = 0 then
      some (s.setHart c { s.hart c with
        pc := .code (.syscall k) 0
        sstatus := { (s.hart c).sstatus with sie := true } })
    else none
  | .kernel k =>
    match x with
    | .syscall _ => some (s.goto c (.code (.syscall k) d))
    | _ => none
  | .setEpc v =>
    match x, (s.hart c).run with
    | .handler, some p | .syscall _, some p => some (s.setTrapframe p { s.trapframe p with epc := v })
    | _, _ => none
  -- allocproc(), and the copy of the trapframe
  | .fork p =>
    match x, (s.hart c).run, s.context p with
    | .syscall _, some q, .free =>
      some ((s.setTrapframe p (s.trapframe q)).setContext p (.parked (.code .handler 1)))
    | _, _, _ => none
  | .dispatch p =>
    match x with
    | .scheduler i =>
      if d = 1 then some ((s.setCpu i { s.cpu i with proc := some p }).goto c (.enter i p)) else none
    | _ => none
  | .leave => if d = 0 then leave s c x else none
  | _ => none

def step (s : State n P) (l : Fin n × Act P) : Option (State n P) :=
  match l.2 with
  | .trap => (trap (s.hart l.1)).map (s.setHart l.1)
  | .user v tp =>
    match (s.hart l.1).pc with
    | .user _ => some (s.setHart l.1 { s.hart l.1 with pc := .user v, tp := tp })
    | _ => none
  | .go => kernelStep s l.1
  | a =>
    match (s.hart l.1).pc with
    | .code x d => codeStep s l.1 x d a
    | _ => none

/-- Each hart enters `scheduler()`; one process waits to be started. -/
def State.init (n : Nat) (first : P) : State n P where
  hart c :=
    { pc := .idleOn c, run := none, sstatus := { sie := false, spie := false, spp := .supervisor }, sepc := .other,
      stvec := .kernelvec, tp := c }
  cpu _ := { noff := 0, intena := false, proc := none, context := none }
  context p := if p = first then .parked (.code .handler 1) else .free
  trapframe _ := { epc := 0, kernelHartid := 0, tp := 0 }

def Reachable (first : P) (s : State n P) : Prop := Automaton.Reachable step (State.init n first) s

end

end Trap
end Xv6
