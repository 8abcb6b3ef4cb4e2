import Xv6.Fs.Inode
import Xv6.Vm.ProcTable

/-!
# Processes and their memory

The life of a process in `proc.c`, with its page table, its trapframe and its references to files and inodes, run by one
call at a time.

* `Proc` : `struct proc` without its lock;
* `State` : physical memory, the process table, and the reference counts of the file and inode tables;
* `KernM` : programs over that state that may panic; `vm` runs a function of `vm.c`, `deref` follows a pointer;
* `allocproc`, `freeproc`, `kfork` : the functions of `proc.c`.
-/

namespace Xv6.Kern
open Vm Fs Function

def nofile : Nat := 16

/-- `struct proc`; null pointers are `none`. -/
structure Proc where
  state : ProcState
  chan : Chan
  killed : Bool
  xstate : Int
  pid : Int
  priority : Int
  waitTicks : Nat
  parent : Option Slot
  kstack : BitVec 64
  sz : BitVec 64
  pagetable : Option Vm.Frame
  trapframe : Option Vm.Frame
  /-- `ra`, `sp` and `s0` to `s11`. -/
  context : Fin 14 → BitVec 64
  ofile : Fin nofile → Option (Fin nfile)
  cwd : Option Ip
  name : Nat → UInt8

structure State where
  phys : Phys
  proc : Slot → Proc
  nextpid : Int
  fileRef : Fin nfile → Int
  inodeRef : Ip → Int
  /-- The page of the trampoline code. -/
  trampoline : Vm.Frame
  /-- The address of `forkret()`. -/
  forkret : BitVec 64

inductive Panic
  | vm (e : VmPanic)
  | filedup
  | null
deriving DecidableEq

abbrev KernM := StateT State (Except Panic)

def vm {A : Type} (m : VmM A) : KernM A := fun s =>
  match m s.phys with
  | .ok (a, phys) => .ok (a, { s with phys := phys })
  | .error e => .error (.vm e)

def deref {A : Type} : Option A → KernM A
  | some a => return a
  | none => throw .null

def setProc (p : Slot) (f : Proc → Proc) : KernM Unit :=
  modify fun s => { s with proc := update s.proc p (f (s.proc p)) }

/-! ## Slots -/

def allocpid : KernM Int := do
  let s ← get
  set { s with nextpid := nextPid s.nextpid }
  return s.nextpid

/-- What `freeproc()` leaves in a slot. -/
def Proc.reset (p : Proc) : Proc :=
  { p with
    trapframe := none, pagetable := none, sz := 0, pid := 0, name := update p.name 0 0, chan := .null,
    killed := false, xstate := 0, priority := priorityDefault, waitTicks := 0, state := .unused }

def freeproc (p : Slot) : KernM Unit := do
  match ((← get).proc p).trapframe with
  | some trapframe => vm (kfree trapframe)
  | none => pure ()
  match ((← get).proc p).pagetable with
  | some pagetable => vm (procFreepagetable pagetable ((← get).proc p).sz)
  | none => pure ()
  setProc p Proc.reset

/-- The first slot that the loop of `allocproc()` finds `UNUSED`. -/
def State.unused (s : State) : Option Slot := (List.finRange nproc).find? fun p => (s.proc p).state = .unused

/-- The context that `allocproc()` sets up. -/
def entryContext (forkret kstack : BitVec 64) (i : Fin 14) : BitVec 64 :=
  if i.val = 0 then forkret else if i.val = 1 then kstack + 4096#64 else 0

def allocproc : KernM (Option Slot) := do
  match (← get).unused with
  | none => return none
  | some p =>
    let pid ← allocpid
    setProc p ({ · with pid := pid, state := .used, priority := priorityDefault, waitTicks := 0 })
    let trapframe ← vm kalloc
    setProc p ({ · with trapframe := trapframe })
    match trapframe with
    | none =>
      freeproc p
      return none
    | some trapframe =>
      let pagetable ← vm (procPagetable (← get).trampoline trapframe)
      setProc p ({ · with pagetable := pagetable })
      match pagetable with
      | none =>
        freeproc p
        return none
      | some _ =>
        let s ← get
        setProc p fun q => { q with context := entryContext s.forkret q.kstack }
        return some p

/-! ## Fork -/

def filedup (f : Fin nfile) : KernM Unit := do
  let s ← get
  if s.fileRef f < 1 then throw .filedup
  else set { s with fileRef := update s.fileRef f (s.fileRef f + 1) }

def idup (ip : Ip) : KernM Unit :=
  modify fun s => { s with inodeRef := update s.inodeRef ip (s.inodeRef ip + 1) }

/-- The loop of `safestrcpy()` at byte `i`, with `n` turns to go, and the NUL after it. -/
def safestrcpyLoop (t : Nat → UInt8) : Nat → Nat → (Nat → UInt8) → Nat → UInt8
  | 0, i, s => update s i 0
  | n + 1, i, s =>
    let s := update s i (t i)
    if t i = 0 then update s (i + 1) 0 else safestrcpyLoop t n (i + 1) s

def safestrcpy (s t : Nat → UInt8) (n : Nat) : Nat → UInt8 := if n = 0 then s else safestrcpyLoop t (n - 1) 0 s

/-- The number of bytes of a `struct trapframe`, and the word of `a0` in it. -/
def trapframeSize : Nat := 288

def regA0 : Fin 512 := ⟨14, by decide⟩

/-- `np->ofile[i] = filedup(p->ofile[i])`. -/
def dupFile (p np : Slot) (i : Fin nofile) : KernM Unit := do
  match ((← get).proc p).ofile i with
  | none => pure ()
  | some f =>
    filedup f
    setProc np fun q => { q with ofile := update q.ofile i (some f) }

/-- What `kfork()` does after the user memory has been copied. -/
def inherit (p np : Slot) (sz : BitVec 64) (parentPriority : Int) : KernM Int := do
  setProc np ({ · with sz := sz })
  let src ← deref ((← get).proc p).trapframe
  let dst ← deref ((← get).proc np).trapframe
  vm (modify fun s => { s with mem := s.mem.store dst 0 trapframeSize (s.mem src) })
  vm (setPte (dst, regA0) 0)
  setProc np ({ · with
    priority := if priorityValid parentPriority then parentPriority else priorityDefault, waitTicks := 0 })
  forM (List.finRange nofile) (dupFile p np)
  let cwd ← deref ((← get).proc p).cwd
  idup cwd
  setProc np ({ · with cwd := cwd })
  let name := ((← get).proc p).name
  setProc np fun q => { q with name := safestrcpy q.name name 16 }
  let pid := ((← get).proc np).pid
  setProc np ({ · with parent := p })
  setProc np ({ · with state := .runnable })
  return pid

/-- `kfork()` called by process `p`. -/
def kfork (p : Slot) : KernM Int := do
  match ← allocproc with
  | none => return -1
  | some np =>
    let parentPriority := ((← get).proc p).priority
    let old ← deref ((← get).proc p).pagetable
    let new ← deref ((← get).proc np).pagetable
    let sz := ((← get).proc p).sz
    if (← vm (uvmcopy old new sz)) < 0 then
      freeproc np
      return -1
    else inherit p np sz parentPriority

end Xv6.Kern
