import Xv6.Fs.Resolve
import Xv6.Kern.Fork
import Xv6.Vm.Strings

/-!
# `exec()`

`exec.c` and `sys_exec()`, run by one call at a time.

* `State` : the kernel's memory and processes, and the file system; `Panic.ustack` stands for a write past the end of
  `ustack`;
* `Elfhdr`, `Proghdr` : the fields of the headers that are used;
* `loadseg`, `kexec`, `sysExec` : the functions; the strings of `argv` are in pages of their own.
-/

namespace Xv6.Exec
open Vm Fs Kern Bytes Function

structure State where
  kern : Kern.State
  fs : FsState

inductive Panic
  | kern (e : Kern.Panic)
  | fs (e : FsPanic)
  | ustack
deriving DecidableEq

abbrev ExecM := StateT State (Except Panic)

def kern {A : Type} (m : KernM A) : ExecM A := fun s =>
  match m s.kern with
  | .ok (a, kern) => .ok (a, { s with kern := kern })
  | .error e => .error (.kern e)

def file {A : Type} (m : FsM A) : ExecM A := fun s =>
  match m s.fs with
  | .ok (a, fs) => .ok (a, { s with fs := fs })
  | .error e => .error (.fs e)

def vm {A : Type} (m : VmM A) : ExecM A := kern (Kern.vm m)

/-! ## Headers -/

def elfMagic : Nat := 0x464C457F

def elfProgLoad : Nat := 1

/-- The number in `n` bytes from `o` on. -/
def field (b : List UInt8) (o n : Nat) : Nat := le (fun i => b.getD (o + i) 0) n

structure Elfhdr where
  magic : Nat
  entry : BitVec 64
  phoff : BitVec 64
  phnum : Nat

def elfhdrSize : Nat := 64

def Elfhdr.ofBytes (b : List UInt8) : Elfhdr where
  magic := field b 0 4
  entry := BitVec.ofNat 64 (field b 24 8)
  phoff := BitVec.ofNat 64 (field b 32 8)
  phnum := field b 56 2

structure Proghdr where
  type : Nat
  flags : BitVec 32
  off : BitVec 64
  vaddr : BitVec 64
  filesz : BitVec 64
  memsz : BitVec 64

def proghdrSize : Nat := 56

def Proghdr.ofBytes (b : List UInt8) : Proghdr where
  type := field b 0 4
  flags := BitVec.ofNat 32 (field b 4 4)
  off := BitVec.ofNat 64 (field b 8 8)
  vaddr := BitVec.ofNat 64 (field b 16 8)
  filesz := BitVec.ofNat 64 (field b 32 8)
  memsz := BitVec.ofNat 64 (field b 40 8)

def flags2perm (flags : BitVec 32) : BitVec 64 :=
  let perm := if flags &&& 1#32 ≠ 0 then pteX else 0
  if flags &&& 2#32 ≠ 0 then perm ||| pteW else perm

section
variable (sb : Superblock)

/-- `readi()` of a structure of `n` bytes, if all of it is there. -/
def readStruct (ip : Ip) (off n : Nat) : ExecM (Option (List UInt8)) := do
  match ← file (readi sb ip n off n) with
  | some b => if b.length = n then return some b else return none
  | none => return none

/-! ## Segments -/

/-- The loop of `loadseg()` at byte `i`; the source would not end for sizes near `2 ^ 32`, which no memory has. -/
def loadTurns (pagetable : Vm.Frame) (va : BitVec 64) (ip : Ip) (offset sz : BitVec 32) : Nat → BitVec 32 → ExecM Int
  | 0, _ => return 0
  | k + 1, i => do
    let pa ← vm (walkaddr pagetable (va + i.setWidth 64))
    if pa = 0 then throw (.kern (.vm .loadseg))
    else
      let n := if sz - i < 4096#32 then sz - i else 4096#32
      match ← file (readi sb ip n.toNat (offset + i).toNat n.toNat) with
      | none => return -1
      | some b =>
        vm (modify fun s => { s with mem := s.mem.store (frameOf pa) 0 b.length fun k => b.getD k 0 })
        if b.length = n.toNat then loadTurns pagetable va ip offset sz k (i + 4096#32) else return -1

def loadseg (pagetable : Vm.Frame) (va : BitVec 64) (ip : Ip) (offset sz : BitVec 32) : ExecM Int :=
  loadTurns sb pagetable va ip offset sz ((sz.toNat + 4095) / 4096) 0

/-- The loop over the program headers, with `k` to go; it says whether all went well, and the size of the memory. -/
def loadLoop (pagetable : Vm.Frame) (ip : Ip) : Nat → BitVec 32 → BitVec 64 → ExecM (Bool × BitVec 64)
  | 0, _, sz => return (true, sz)
  | k + 1, off, sz => do
    match ← readStruct sb ip off.toNat proghdrSize with
    | none => return (false, sz)
    | some b =>
      let ph := Proghdr.ofBytes b
      if ph.type ≠ elfProgLoad then loadLoop pagetable ip k (off + 56#32) sz
      else if ph.memsz < ph.filesz then return (false, sz)
      else if ph.vaddr + ph.memsz < ph.vaddr then return (false, sz)
      else if ph.vaddr % 4096#64 ≠ 0 then return (false, sz)
      else
        let sz1 ← vm (uvmalloc pagetable sz (ph.vaddr + ph.memsz) (flags2perm ph.flags))
        if sz1 = 0 then return (false, sz)
        else if (← loadseg sb pagetable ph.vaddr ip (ph.off.setWidth 32) (ph.filesz.setWidth 32)) < 0 then
          return (false, sz1)
        else loadLoop pagetable ip k (off + 56#32) sz1

/-! ## The stack -/

def maxarg : Nat := 32

/-- The loop that pushes the strings: the stack pointer and `ustack` after it, or `none` if a string does not fit. -/
def pushStrings (pagetable : Vm.Frame) (sz stackbase : BitVec 64) :
    List Vm.Frame → BitVec 64 → List (BitVec 64) → ExecM (Option (BitVec 64 × List (BitVec 64)))
  | [], sp, ustack => return some (sp, ustack)
  | arg :: argv, sp, ustack => do
    let s := (← get).kern.phys.mem arg
    let len := BitVec.ofNat 64 (strlen s pgsize 0 + 1)
    let sp := sp - len
    let sp := sp - sp % 16#64
    if sp < stackbase then return none
    else if (← vm (copyout pagetable sz sp s len)) < 0 then return none
    else if maxarg ≤ ustack.length then throw .ustack
    else pushStrings pagetable sz stackbase argv sp (ustack ++ [sp])

/-- The bytes of an array of words. -/
def wordBytes (words : List (BitVec 64)) (k : Nat) : UInt8 := byte (words.getD (k / 8) 0).toNat (k % 8)

/-- The pointers, and the null pointer after them. -/
def pushPointers (pagetable : Vm.Frame) (sz stackbase sp : BitVec 64) (ustack : List (BitVec 64)) :
    ExecM (Option (BitVec 64)) := do
  if maxarg ≤ ustack.length then throw .ustack
  else
    let len := BitVec.ofNat 64 ((ustack.length + 1) * 8)
    let sp := sp - len
    let sp := sp - sp % 16#64
    if sp < stackbase then return none
    else if (← vm (copyout pagetable sz sp (wordBytes (ustack ++ [0])) len)) < 0 then return none
    else return some sp

/-- The words of `epc`, `sp` and `a1` in the trapframe. -/
def regEpc : Fin 512 := ⟨3, by decide⟩

def regSp : Fin 512 := ⟨6, by decide⟩

def regA1 : Fin 512 := ⟨15, by decide⟩

/-- What is behind the last slash of a path. -/
def lastElement (path : List UInt8) : List UInt8 := (path.reverse.takeWhile (· ≠ slash)).reverse

def bad (pagetable : Option Vm.Frame) (sz : BitVec 64) (ip : Option Ip) : ExecM Int := do
  match pagetable with
  | some pagetable => vm (procFreepagetable pagetable sz)
  | none => pure ()
  match ip with
  | some ip =>
    file (iunlockput sb ip)
    file endOp
  | none => pure ()
  return -1

/-- `kexec()` after the arguments have been pushed. -/
def commit (p : Slot) (path : List UInt8) (pagetable : Vm.Frame) (sz oldsz sp entry : BitVec 64) (argc : Nat) :
    ExecM Int := do
  let trapframe ← kern (deref ((← get).kern.proc p).trapframe)
  vm (setPte (trapframe, regA1) sp)
  kern (setProc p fun q => { q with name := safestrcpy q.name (fun i => (lastElement path).getD i 0) 16 })
  let oldpagetable ← kern (deref ((← get).kern.proc p).pagetable)
  kern (setProc p ({ · with pagetable := pagetable }))
  kern (setProc p ({ · with sz := sz }))
  vm (setPte (trapframe, regEpc) entry)
  vm (setPte (trapframe, regSp) sp)
  vm (procFreepagetable oldpagetable oldsz)
  return argc

/-- `kexec()` after the program has been loaded. -/
def buildStack (p : Slot) (path : List UInt8) (argv : List Vm.Frame) (pagetable : Vm.Frame) (sz entry : BitVec 64) :
    ExecM Int := do
  let oldsz := ((← get).kern.proc p).sz
  let sz := pgroundup sz
  let sz1 ← vm (uvmalloc pagetable sz (sz + 8192#64) pteW)
  if sz1 = 0 then bad sb pagetable sz none
  else
    let sz := sz1
    vm (uvmclear pagetable (sz - 8192#64))
    let stackbase := sz - 4096#64
    match ← pushStrings pagetable sz stackbase argv sz [] with
    | none => bad sb pagetable sz none
    | some (sp, ustack) =>
      match ← pushPointers pagetable sz stackbase sp ustack with
      | none => bad sb pagetable sz none
      | some sp => commit p path pagetable sz oldsz sp entry ustack.length

/-- `kexec()` with the inode of the program locked. -/
def execInode (p : Slot) (path : List UInt8) (argv : List Vm.Frame) (ip : Ip) : ExecM Int := do
  match ← readStruct sb ip 0 elfhdrSize with
  | none => bad sb none 0 ip
  | some b =>
    let elf := Elfhdr.ofBytes b
    if elf.magic ≠ elfMagic then bad sb none 0 ip
    else
      let trapframe ← kern (deref ((← get).kern.proc p).trapframe)
      match ← vm (procPagetable (← get).kern.trampoline trapframe) with
      | none => bad sb none 0 ip
      | some pagetable =>
        let (ok, sz) ← loadLoop sb pagetable ip elf.phnum (elf.phoff.setWidth 32) 0
        if ok then
          file (iunlockput sb ip)
          file endOp
          buildStack sb p path argv pagetable sz elf.entry
        else bad sb pagetable sz ip

def kexec (p : Slot) (path : List UInt8) (argv : List Vm.Frame) : ExecM Int := do
  file Fs.beginOp
  match ← file (namex sb p path false) with
  | none =>
    file endOp
    return -1
  | some (ip, _) =>
    file (ilock sb ip)
    execInode sb p path argv ip

/-! ## The system call -/

def fetchaddr (pagetable : Vm.Frame) (sz addr : BitVec 64) : VmM (Option (BitVec 64)) := do
  if sz ≤ addr ∨ sz < addr + 8#64 then return none
  else
    let r ← copyin pagetable sz (fun _ => 0) addr 8#64
    if r.1 ≠ 0 then return none else return some (BitVec.ofNat 64 (le r.2 8))

/-- The loop that fetches the arguments, with `k` slots of `argv` to go: whether the null pointer has been met. -/
def fetchArgs (pagetable : Vm.Frame) (sz uargv : BitVec 64) : Nat → List Vm.Frame → VmM (Bool × List Vm.Frame)
  | 0, argv => return (false, argv)
  | k + 1, argv => do
    match ← fetchaddr pagetable sz (uargv + BitVec.ofNat 64 (8 * argv.length)) with
    | none => return (false, argv)
    | some uarg =>
      if uarg = 0 then return (true, argv)
      else
        match ← kalloc with
        | none => return (false, argv)
        | some page =>
          let r ← fetchstr pagetable sz uarg ((← get).mem page) 4096#32
          modify fun s => { s with mem := update s.mem page r.2 }
          if r.1 < 0 then return (false, argv ++ [page])
          else fetchArgs pagetable sz uargv k (argv ++ [page])

def maxpath : BitVec 32 := 128

/-- `sys_exec()` with its arguments; `junk` is in the buffer for the path. -/
def sysExec (p : Slot) (args : Fin 6 → BitVec 64) (junk : Nat → UInt8) : ExecM Int := do
  let pagetable ← kern (deref ((← get).kern.proc p).pagetable)
  let sz := ((← get).kern.proc p).sz
  let path ← vm (argstr pagetable sz args 0 junk maxpath)
  if path.1 < 0 then return -1
  else
    let (ok, argv) ← vm (fetchArgs pagetable sz (args 1) maxarg [])
    let ret ← if ok then kexec sb p ((List.range path.1.toNat).map path.2) argv else pure (-1)
    vm (forM argv kfree)
    return ret

end

end Xv6.Exec
