import Xv6.Lib.Owner
import Xv6.Lib.Run
import Xv6.Proc.Table

/-!
# The process subsystem as a machine

Any number `n` of CPUs run `scheduler()`, and the kernel thread of each slot runs the process side
of `kernel/proc.c`. A step is one CPU executing one critical section, one `acquire`, or one move of
its thread between them; the order of the CPUs' steps is arbitrary.

* `Frame` : where a kernel thread is. The kernel stack of a thread is a list of frames, the
  innermost first; `[]` is user space, or kernel code outside this part that holds none of its locks;
* `SchedLoc` : where the scheduler thread of a CPU is;
* `exec` : one step of a kernel thread, `step` : one step of the machine;
* `Choice` : what the step leaves open: the system call a process makes, interrupts, and what
  `kalloc()`, `uvmcopy()` and `copyout()` return.

The condition variables of the rest of the kernel are `Cond`s: a lock, a channel, and a truth value
that changes only under the lock. The loops that wait for one are `WaitLoop`s.
-/

namespace Xv6
open Function

/-! ## Locks, conditions and the loops that wait for them -/

/-- `wait_lock`, `p->lock`, or the lock `m` of a condition. -/
inductive Lock
  | wait
  | proc (i : Slot)
  | mon (m : Nat)
  deriving DecidableEq, Repr

/-- A condition guarded by the lock `mon lock`, whose waiters sleep on `chan`. -/
structure Cond where
  lock : Nat
  chan : Chan
  id : Nat
  deriving DecidableEq, Repr

/-- When a wait loop calls `killed()`: not at all, before it tests its condition, or after. -/
inductive KilledTest
  | never | before | after
  deriving DecidableEq, Repr

/-- `while(!cond){ if(killed(p)) ..; wakeup(pre); sleep_prepare(chan); release(lk); sleep();
acquire(lk); }`. -/
structure WaitLoop where
  cond : Cond
  killed : KilledTest := .never
  pre : Option Chan := none
  deriving DecidableEq, Repr

/-! The wait loops of the kernel, for objects at given addresses. The condition is the negation of the one
that the source's `while` or `if` tests. -/

def acquiresleep (lk : Nat) : WaitLoop where
  cond := { lock := lk, chan := .addr lk, id := 0 }

def beginOp (log : Nat) : WaitLoop where
  cond := { lock := log, chan := .addr log, id := 0 }

/-- `sys_pause()` until `ticks - ticks0 >= n`. -/
def sysPause (tickslock ticks ticks0 n : Nat) : WaitLoop where
  cond := { lock := tickslock, chan := .addr ticks, id := ticks0 + n }
  killed := .after

def consoleread (cons r : Nat) : WaitLoop where
  cond := { lock := cons, chan := .addr r, id := 0 }
  killed := .after

def piperead (pi nread : Nat) : WaitLoop where
  cond := { lock := pi, chan := .addr nread, id := 0 }
  killed := .after

/-- `pipewrite()` calls `killed()` first, and wakes the readers before it sleeps. -/
def pipewrite (pi nread nwrite : Nat) : WaitLoop where
  cond := { lock := pi, chan := .addr nwrite, id := 1 }
  killed := .before
  pre := some (.addr nread)

/-- A table scan `for(p = proc; p < &proc[NPROC]; p++){ acquire(&p->lock); ..; release(&p->lock); }`. -/
inductive Job
  | wakeup (ch : Chan)
  | kkill (pid : Int)
  | ksetpriority (pid : Int) (priority : {v : Int // priorityValid v})
  | kgetpriority (pid : Int)
  deriving DecidableEq

def Job.body : Job → Proc → Option Op × Option Int
  | .wakeup ch => Xv6.wakeup ch
  | .kkill pid => Xv6.kkill pid
  | .ksetpriority pid v => Xv6.ksetpriority pid v
  | .kgetpriority pid => Xv6.kgetpriority pid

/-! ## Kernel threads -/

/-- What a kernel thread has to do: `want` spins in `acquire()`, `visit` is in the body of a scan, at `proc[i]`, and the
others are named after the function they are in. -/
inductive Frame
  | want (l : Lock)
  | panic
  | sysret (v : Int)
  | visit (j : Job) (i : Slot)
  -- the locks of conditions
  | hold (m : Nat) (due : List Cond)
  | loop (w : WaitLoop) (due : List Cond)
  | loopCond (w : WaitLoop) (due : List Cond)
  | loopKilled (w : WaitLoop) (due : List Cond)
  | loopPre (w : WaitLoop) (due : List Cond)
  | loopPrepare (w : WaitLoop) (due : List Cond)
  | loopRelease (w : WaitLoop) (due : List Cond)
  | loopWoken (w : WaitLoop)
  -- yield(), sched(), and what follows it: release(&p->lock), also in forkret(), or the end of kexit()
  | yield
  | sched
  | unlockSelf
  | zombieExit
  -- sleep_prepare(), sleep(), setkilled()
  | sleepPrepare (ch : Chan)
  | sleep
  | setkilled
  -- kfork()
  | allocproc (i : Slot)
  | forkSnapshot (np : Slot)
  | forkCopy (np : Slot) (priority : Int)
  | forkParent (np : Slot) (pid : Int)
  | forkPublish (np : Slot) (pid : Int)
  -- kexit()
  | reparent (status : Int) (pp : Slot)
  | exitWakeup (status : Int)
  | exitZombie (status : Int)
  -- kwait()
  | waitScan (addr : Nat) (pp : Slot) (havekids : Bool)
  | waitChild (addr : Nat) (pp : Slot)
  | waitKilled (addr : Nat)
  | waitRelease (addr : Nat)
  | waitWoken (addr : Nat)
  | waitFail
  deriving DecidableEq

/-- Where the scheduler thread of a CPU is: in `main()`, at the head of `for(;;)`, in one of the two scans, acquiring the
lock of a process or with it, in `swtch()` while the CPU runs process `i`, after it, or in `wfi`. -/
inductive SchedLoc
  | boot
  | top
  | scan (i : Slot) (best : Int) (found : Bool)
  | scanIn (i : Slot) (best : Int) (found : Bool)
  | select (offset : Slot) (best : Int)
  | selectIn (offset : Slot) (best : Int)
  | switched (i : Slot)
  | back (i : Slot)
  | wfi
  deriving DecidableEq, Repr

/-- `struct cpu`, with the locals of the CPU's `scheduler()` and, while it takes an interrupt at
the head of its loop, the handler's stack. -/
structure Cpu where
  proc : Option Slot := none
  noff : Nat := 0
  loc : SchedLoc := .boot
  nextIndex : Slot := 0
  irq : List Frame := []

structure State (n : Nat) where
  proc : Slot → Proc
  stack : Slot → List Frame
  cpu : Fin n → Cpu
  lock : Lock → Option (Fin n)
  cond : Cond → Bool
  nextpid : Int
  initproc : Option Slot

/-- What a step leaves open. -/
inductive Choice
  | run
  -- interrupts
  | timer
  | device (ch : Chan)
  | handler (m : Nat)
  -- system calls
  | fork
  | exit (status : Int)
  | wait (addr : Nat)
  | kill (pid : Int)
  | setpriority (pid priority : Int)
  | getpriority (pid : Int)
  -- the rest of the kernel, on behalf of the process
  | sleepPrepare (ch : Chan)
  | sleep
  | wakeup (ch : Chan)
  | setkilled
  | resize (sz pt : Nat)
  | lock (m : Nat)
  -- with the lock of a condition held
  | assign (κ : Cond) (b : Bool)
  | signal (ch : Chan)
  | await (w : WaitLoop)
  | unlock
  -- results of the allocator and of the copies between address spaces
  | alloc (tf pt : Nat)
  | copy (ok : Bool)
  deriving DecidableEq

/-- What a step does to the shared state. -/
structure Effect where
  write : Option (Slot × Op) := none
  acquire : Option Lock := none
  release : List Lock := []
  assign : Option (Cond × Bool) := none
  allocpid : Bool := false
  spawn : Option Slot := none

/-! ## One step of a kernel thread -/

/-- The first iteration of a table scan. -/
def scanFrom (j : Job) (st : List Frame) : List Frame := .want (.proc 0) :: .visit j 0 :: st

/-- The next iteration, or the end of the scan. -/
def scanNext (j : Job) (i : Slot) (st : List Frame) : List Frame :=
  if h : i.val + 1 < nproc then .want (.proc ⟨i.val + 1, h⟩) :: .visit j ⟨i.val + 1, h⟩ :: st
  else match j with
    | .wakeup _ => st
    | _ => .sysret (-1) :: st

def visit (p : Proc) (j : Job) (i : Slot) (st : List Frame) : Effect × List Frame :=
  ({ write := (j.body p).1.map fun op => (i, op), release := [.proc i] },
    match (j.body p).2 with
    | some v => .sysret v :: st
    | none => scanNext j i st)

/-- The conditions a holder still has to signal, once it has called `wakeup(ch)`. -/
def dueAfter (due : List Cond) (ch : Chan) : List Cond := due.filter fun κ => κ.chan ≠ ch

/-- Code that holds the lock `mon m`: `due` are the conditions it made true and has not signalled;
it may not release the lock while there is one. -/
def hold (cond : Cond → Bool) (m : Nat) (due : List Cond) (st : List Frame) :
    Choice → Option (Effect × List Frame)
  | .assign κ b =>
    if κ.lock = m then
      some ({ assign := some (κ, b) },
        .hold m (if b ∧ cond κ = false then κ :: due else due) :: st)
    else none
  | .signal ch => some ({}, scanFrom (.wakeup ch) (.hold m (dueAfter due ch) :: st))
  | .await w => if w.cond.lock = m ∧ st = [] then some ({}, .loop w due :: st) else none
  | .unlock => if due = [] then some ({ release := [.mon m] }, st) else none
  | _ => none

/-- A system call, or a call of the rest of the kernel, by process `p`. -/
def enter (init : Option Slot) (p : Slot) : Choice → Option (Effect × List Frame)
  | .fork => some ({}, [.want (.proc 0), .allocproc 0])
  | .exit status =>
    if init = some p then some ({}, [.panic]) else some ({}, [.want .wait, .reparent status 0])
  | .wait addr => some ({}, [.want .wait, .waitScan addr 0 false])
  | .kill pid => some ({}, scanFrom (.kkill pid) [])
  | .setpriority pid priority =>
    if h : 0 < pid ∧ priorityValid priority then
      some ({}, scanFrom (.ksetpriority pid ⟨priority, h.2⟩) [])
    else some ({}, [.sysret (-1)])
  | .getpriority pid =>
    if 0 < pid then some ({}, scanFrom (.kgetpriority pid) []) else some ({}, [.sysret (-1)])
  | .sleepPrepare ch => some ({}, [.want (.proc p), .sleepPrepare ch])
  | .sleep => some ({}, [.want (.proc p), .sleep])
  | .wakeup ch => some ({}, scanFrom (.wakeup ch) [])
  | .setkilled => some ({}, [.want (.proc p), .setkilled])
  | .resize sz pt => if pt = 0 then none else some ({ write := some (p, .resize sz pt) }, [])
  | .lock m => some ({}, [.want (.mon m), .hold m []])
  | _ => none

/-- `kwait()` after it has looked at `proc[pp]`. -/
def waitNext (p : Slot) (addr : Nat) (pp : Slot) (havekids : Bool) (st : List Frame) : List Frame :=
  if h : pp.val + 1 < nproc then .waitScan addr ⟨pp.val + 1, h⟩ havekids :: st
  else if havekids then .want (.proc p) :: .waitKilled addr :: st
  else .waitFail :: st

/-- `reparent()` after it has looked at `proc[pp]`. -/
def reparentNext (status : Int) (pp : Slot) (st : List Frame) : List Frame :=
  if h : pp.val + 1 < nproc then .reparent status ⟨pp.val + 1, h⟩ :: st else .exitWakeup status :: st

/-- One step of the thread of process `p` inside one of its own frames. -/
def own {n : Nat} (s : State n) (p : Slot) (ch : Choice) (st : List Frame) :
    Frame → Option (Effect × List Frame)
  | .sysret _ => some ({}, st)
  -- yield(); the CPU leaves sched() in `step`
  | .yield => some ({ write := some (p, .yield) }, .sched :: .unlockSelf :: st)
  | .unlockSelf => some ({ release := [.proc p] }, st)
  | .zombieExit => some ({}, .panic :: .zombieExit :: st)
  | .sleepPrepare chan =>
    if chan = .null then some ({}, .panic :: .sleepPrepare chan :: st)
    else some ({ write := some (p, .sleepPrepare chan), release := [.proc p] }, st)
  | .sleep =>
    if (s.proc p).chan ≠ .null then
      some ({ write := some (p, .sleep) }, .sched :: .unlockSelf :: st)
    else some ({ release := [.proc p] }, st)
  | .setkilled => some ({ write := some (p, .setkilled), release := [.proc p] }, st)
  -- the wait loops
  | .loop w due =>
    if w.killed = .before then some ({}, .want (.proc p) :: .loopKilled w due :: st)
    else some ({}, .loopCond w due :: st)
  | .loopCond w due =>
    if s.cond w.cond then some ({}, .hold w.cond.lock due :: st)
    else if w.killed = .after then some ({}, .want (.proc p) :: .loopKilled w due :: st)
    else some ({}, .loopPre w due :: st)
  | .loopKilled w due =>
    some ({ release := [.proc p] },
      if (s.proc p).killed then .hold w.cond.lock due :: st
      else if w.killed = .before then .loopCond w due :: st
      else .loopPre w due :: st)
  | .loopPre w due =>
    match w.pre with
    | some chan => some ({}, scanFrom (.wakeup chan) (.loopPrepare w (dueAfter due chan) :: st))
    | none => some ({}, .loopPrepare w due :: st)
  | .loopPrepare w due =>
    some ({}, .want (.proc p) :: .sleepPrepare w.cond.chan :: .loopRelease w due :: st)
  | .loopRelease w due =>
    if due = [] then
      some ({ release := [.mon w.cond.lock] }, .want (.proc p) :: .sleep :: .loopWoken w :: st)
    else none
  | .loopWoken w => some ({}, .want (.mon w.cond.lock) :: .loop w [] :: st)
  -- kfork()
  | .allocproc i =>
    if (s.proc i).state = .unused then
      match ch with
      | .alloc tf pt =>
        if (allocproc s.nextpid tf pt (s.proc i)).2 then
          some ({ write := some (i, .allocproc s.nextpid tf pt), allocpid := true, spawn := some i },
            .want (.proc p) :: .forkSnapshot i :: st)
        else
          some ({ write := some (i, .allocproc s.nextpid tf pt), allocpid := true,
                  release := [.proc i] }, .sysret (-1) :: st)
      | _ => none
    else
      some ({ release := [.proc i] },
        if h : i.val + 1 < nproc then
          .want (.proc ⟨i.val + 1, h⟩) :: .allocproc ⟨i.val + 1, h⟩ :: st
        else .sysret (-1) :: st)
  | .forkSnapshot np =>
    some ({ release := [.proc p] }, .forkCopy np (s.proc p).priority :: st)
  | .forkCopy np priority =>
    match ch with
    | .copy true =>
      some ({ write := some (np, .inherit priority (s.proc p).sz), release := [.proc np] },
        .want .wait :: .forkParent np (s.proc np).pid :: st)
    | .copy false =>
      some ({ write := some (np, .forkfail), release := [.proc np] }, .sysret (-1) :: st)
    | _ => none
  | .forkParent np pid =>
    some ({ write := some (np, .setParent p), release := [.wait] },
      .want (.proc np) :: .forkPublish np pid :: st)
  | .forkPublish np pid =>
    some ({ write := some (np, .publish), release := [.proc np] }, .sysret pid :: st)
  -- kexit(), from acquire(&wait_lock) on
  | .reparent status pp =>
    if (s.proc pp).parent = some p then
      some ({ write := some (pp, .reparent s.initproc) },
        scanFrom (.wakeup (.ofProc s.initproc)) (reparentNext status pp st))
    else some ({}, reparentNext status pp st)
  | .exitWakeup status =>
    some ({}, scanFrom (.wakeup (.ofProc (s.proc p).parent))
      (.want (.proc p) :: .exitZombie status :: st))
  | .exitZombie status =>
    some ({ write := some (p, .kexit status), release := [.wait] }, .sched :: .zombieExit :: st)
  -- kwait()
  | .waitScan addr pp havekids =>
    if (s.proc pp).parent = some p then
      some ({}, .want (.proc pp) :: .waitChild addr pp :: st)
    else some ({}, waitNext p addr pp havekids st)
  | .waitChild addr pp =>
    if (s.proc pp).state = .zombie then
      if addr ≠ 0 ∧ ch = .copy false then
        some ({ release := [.proc pp, .wait] }, .sysret (-1) :: st)
      else if addr = 0 ∨ ch = .copy true then
        some ({ write := some (pp, .reap), release := [.proc pp, .wait] },
          .sysret (s.proc pp).pid :: st)
      else none
    else some ({ release := [.proc pp] }, waitNext p addr pp true st)
  | .waitKilled addr =>
    some ({ release := [.proc p] },
      if (s.proc p).killed then .waitFail :: st
      else .want (.proc p) :: .sleepPrepare (.proc p) :: .waitRelease addr :: st)
  | .waitRelease addr =>
    some ({ release := [.wait] }, .want (.proc p) :: .sleep :: .waitWoken addr :: st)
  | .waitWoken addr => some ({}, .want .wait :: .waitScan addr 0 false :: st)
  | .waitFail => some ({ release := [.wait] }, .sysret (-1) :: st)
  | _ => none

/-- One step of a kernel thread on CPU `c`. `me` is `myproc()`; it is `none` in the interrupt
handlers that run on a scheduler's stack. -/
def exec {n : Nat} (s : State n) (c : Fin n) (me : Option Slot) (ch : Choice) :
    List Frame → Option (Effect × List Frame)
  | [] => me.bind fun p => enter s.initproc p ch
  | .want l :: st =>
    match s.lock l with
    | none => some ({ acquire := some l }, st)
    | some c' => if c' = c then some ({}, .panic :: .want l :: st) else none
  | .panic :: _ => none
  | .visit j i :: st => some (visit (s.proc i) j i st)
  | .hold m due :: st => hold s.cond m due st ch
  | f :: st => me.bind fun p => own s p ch st f

/-- An interrupt: the timer makes a process yield, a device driver calls `wakeup()`, with or
without a lock of its own. -/
def interrupt (me : Option Slot) (st : List Frame) : Choice → Option (List Frame)
  | .timer => me.map fun p => .want (.proc p) :: .yield :: st
  | .device ch => some (scanFrom (.wakeup ch) st)
  | .handler m => some (.want (.mon m) :: .hold m [] :: st)
  | _ => none

/-! ## One step of the machine -/

/-- Where control goes after a step. -/
inductive Ctl
  | thread (p : Slot) (st : List Frame)
  | irq (st : List Frame)
  | loc (l : SchedLoc)
  | boot (i : Slot)
  | start
  | dispatch (i : Slot)
  | swtch (p : Slot) (st : List Frame)
  | back (i : Slot)

/-- The first scan after it has looked at `proc[i]`. -/
def scanAfter (i : Slot) (best : Int) (found : Bool) : SchedLoc :=
  if h : i.val + 1 < nproc then .scan ⟨i.val + 1, h⟩ best found
  else if found then .select 0 best
  else .wfi

/-- The second scan after it has passed over an offset; at its end `selected` is 0. -/
def selectAfter (offset : Slot) (best : Int) : SchedLoc :=
  if h : offset.val + 1 < nproc then .select ⟨offset.val + 1, h⟩ best else .top

/-- `best_priority` and `found` after a visit that left the slot as `p`. -/
def better (p : Proc) (best : Int) (found : Bool) : Int × Bool :=
  if p.state = .runnable ∧ p.priority < best then (p.priority, true) else (best, found)

section Next
variable {n : Nat} (s : State n) (c : Fin n) (ch : Choice)

/-- `main()`: CPU 0 runs `userinit()`, the others wait for it; then each enters `scheduler()`. -/
def nextBoot : Option (Effect × Ctl) :=
  if s.initproc.isSome then some ({}, .start)
  else if c.val = 0 ∧ (s.proc 0).state = .unused then
    match ch with
    | .alloc tf pt =>
      if (allocproc s.nextpid tf pt (s.proc 0)).2 then
        some ({ write := some (0, .userinit s.nextpid tf pt), allocpid := true, spawn := some 0 },
          .boot 0)
      else none
    | _ => none
  else none

def nextTop : Option (Effect × Ctl) :=
  match (s.cpu c).irq with
  | [] =>
    if ch = .run then some ({}, .loc (.scan 0 (priorityMax + 1) false))
    else (interrupt none [] ch).map fun st => ({}, .irq st)
  | st => (exec s c none ch st).map fun r => (r.1, .irq r.2)

def nextAcquire (l : Lock) (loc : SchedLoc) : Option (Effect × Ctl) :=
  if s.lock l = none then some ({ acquire := some l }, .loc loc) else none

def nextScan (i : Slot) (best : Int) (found : Bool) : Option (Effect × Ctl) :=
  let b := better (schedulerVisit (s.proc i)) best found
  some ({ write := some (i, .visit), release := [.proc i] }, .loc (scanAfter i b.1 b.2))

def nextSelect (offset : Slot) (best : Int) : Option (Effect × Ctl) :=
  let i := (s.cpu c).nextIndex + offset
  if (s.proc i).state = .runnable ∧ (s.proc i).priority = best then
    some ({ write := some (i, .dispatch) }, .dispatch i)
  else some ({ release := [.proc i] }, .loc (selectAfter offset best))

/-- The CPU executes the thread of process `p`; `sched()` makes its checks and leaves through
`swtch()`. -/
def nextThread (p : Slot) : Option (Effect × Ctl) :=
  match s.stack p with
  | .sched :: st =>
    if s.lock (.proc p) = some c ∧ (s.cpu c).noff = 1 ∧ (s.proc p).state ≠ .running then
      some ({}, .swtch p st)
    else some ({}, .thread p (.panic :: .sched :: st))
  | st =>
    match if (s.cpu c).noff = 0 then interrupt (some p) st ch else none with
    | some st' => some ({}, .thread p st')
    | none => (exec s c (some p) ch st).map fun r => (r.1, .thread p r.2)

/-- What CPU `c` does next, and where it goes. -/
def next : Option (Effect × Ctl) :=
  match (s.cpu c).loc with
  | .boot => nextBoot s c ch
  | .top => nextTop s c ch
  | .scan i best found => nextAcquire s (.proc i) (.scanIn i best found)
  | .scanIn i best found => nextScan s i best found
  | .select offset best =>
    nextAcquire s (.proc ((s.cpu c).nextIndex + offset)) (.selectIn offset best)
  | .selectIn offset best => nextSelect s c offset best
  | .switched p => nextThread s c ch p
  | .back i => some ({ release := [.proc i] }, .back i)
  | .wfi => some ({}, .loc .top)

end Next

def State.setCpu {n : Nat} (s : State n) (c : Fin n) (cpu : Cpu) : State n :=
  { s with cpu := update s.cpu c cpu }

def State.setStack {n : Nat} (s : State n) (p : Slot) (st : List Frame) : State n :=
  { s with stack := update s.stack p st }

/-- The shared state after a step of CPU `c`. -/
def State.apply {n : Nat} (s : State n) (c : Fin n) (e : Effect) : State n where
  proc := match e.write with
    | none => s.proc
    | some (i, op) => update s.proc i (op.apply (s.proc i))
  stack := match e.spawn with
    | none => s.stack
    | some i => update s.stack i [.unlockSelf]
  cpu := update s.cpu c
    { s.cpu c with noff := (s.cpu c).noff + e.acquire.toList.length - e.release.length }
  lock := Owner.update s.lock c e.acquire e.release
  cond := match e.assign with
    | none => s.cond
    | some (κ, b) => update s.cond κ b
  nextpid := if e.allocpid then nextPid s.nextpid else s.nextpid
  initproc := s.initproc

def State.move {n : Nat} (s : State n) (c : Fin n) : Ctl → State n
  | .thread p st => s.setStack p st
  | .irq st => s.setCpu c { s.cpu c with irq := st }
  | .loc l => s.setCpu c { s.cpu c with loc := l }
  | .boot i => { s with initproc := some i }
  | .start => s.setCpu c { s.cpu c with proc := none, loc := .top, nextIndex := Fin.ofNat nproc c.val }
  | .dispatch i => s.setCpu c { s.cpu c with proc := some i, loc := .switched i }
  | .swtch p st => (s.setStack p st).setCpu c { s.cpu c with loc := .back p }
  | .back i => s.setCpu c { s.cpu c with proc := none, loc := .top, nextIndex := i + 1 }

abbrev Label (n : Nat) := Fin n × Choice

/-- A machine of one CPU has a CPU 0. -/
instance neZeroOne : NeZero 1 := ⟨by decide⟩

def step {n : Nat} (s : State n) (l : Label n) : Option (State n) :=
  (next s l.1 l.2).map fun r => (s.apply l.1 r.1).move l.1 r.2

/-- The write a step makes to the process table. -/
def writeOf {n : Nat} (s : State n) (l : Label n) : Option (Slot × Op) :=
  (next s l.1 l.2).bind fun r => r.1.write

/-- The machine when `procinit()` has run on CPU 0. -/
def State.init (n : Nat) : State n where
  proc := fun _ => procinit
  stack := fun _ => []
  cpu := fun _ => {}
  lock := fun _ => none
  cond := fun _ => false
  nextpid := 1
  initproc := none

def Reachable {n : Nat} (s : State n) : Prop := Automaton.Reachable step (State.init n) s

end Xv6
