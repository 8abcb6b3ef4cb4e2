import Xv6.Fs.Image
import Xv6.Log.Disk
import Xv6.Proc.Table

/-!
# Blocks and inodes

`fs.c` up to `writei()`, run by one call at a time: `bread()` gives the current contents of a block, and what the calls
change is seen by the calls after them. `bread()` is taken to find a buffer, as it does while the blocks in the log
header, which are pinned, leave two of the `NBUF` buffers.

* `FsState` : the image, the blocks in the log header and the calls in a transaction, the tables of inodes and files and
  the working directories;
* `FsM` : programs over that state that may panic; `FsPanic.stuck` stands for a call that sleeps on an inode lock that
  no other call can release;
* `Src` : the memory that `either_copyin()` reads, of which only the first `readable` bytes may be readable.
-/

namespace Xv6.Fs
open Bytes Function

def ninode : Nat := 50

def nfile : Nat := 100

instance neZeroNinode : NeZero ninode := ⟨by decide⟩

instance neZeroNfile : NeZero nfile := ⟨by decide⟩

abbrev Ip := Fin ninode

/-- `struct inode`; `din` holds the copy of the disk inode. -/
structure Inode where
  inum : Nat
  ref : Int
  locked : Bool
  valid : Bool
  din : Dinode

inductive FileType
  | none
  | inode
  | device
deriving DecidableEq

structure File where
  type : FileType
  ref : Int
  readable : Bool
  writable : Bool
  ip : Ip
  off : Nat
  major : Int16

structure FsState where
  disk : Image
  lh : List Nat
  outstanding : Nat
  itable : Ip → Inode
  ftable : Fin nfile → File
  cwd : Fin nproc → Option Ip

inductive FsPanic
  | tooBig
  | outsideTrans
  | freeingFree
  | bmapRange
  | ilock
  | noType
  | iunlock
  | noInodes
  | notDir
  | dirlookupRead
  | dirlinkRead
  | isdiremptyRead
  | unlinkNlink
  | unlinkWritei
  | filedup
  | fileclose
  | fileread
  | filewrite
  | stuck
deriving DecidableEq

abbrev FsM := StateT FsState (Except FsPanic)

/-! ## Parts of the state -/

/-- The image after a mount: no inode is in use, no file open. -/
def FsState.mount (img : Image) : FsState where
  disk := img
  lh := []
  outstanding := 0
  itable := fun _ => ⟨0, 0, false, false, .zero⟩
  ftable := fun _ => ⟨.none, 0, false, false, 0, 0, 0⟩
  cwd := fun _ => none

def FsState.setInode (s : FsState) (ip : Ip) (n : Inode) : FsState :=
  { s with itable := update s.itable ip n }

def modInode (ip : Ip) (f : Inode → Inode) : FsM Unit := modify fun s => s.setInode ip (f (s.itable ip))

def modDin (ip : Ip) (f : Dinode → Dinode) : FsM Unit := modInode ip fun n => { n with din := f n.din }

def Dinode.setAddr (d : Dinode) (k : Fin 13) (a : Nat) : Dinode :=
  { d with addrs := update d.addrs k (UInt32.ofNat a) }

/-- `if(c) m;` -/
def onlyIf (c : Prop) [Decidable c] (m : FsM Unit) : FsM Unit := if c then m else pure ()

/-- The state after a write to block `b`. -/
def FsState.wrote (s : FsState) (b : Nat) (img : Image) : FsState :=
  { s with disk := img, lh := if b ∈ s.lh then s.lh else s.lh ++ [b] }

/-- A change `g` of block `b` in its buffer, and `log_write()` of it. -/
def modDisk (b : Nat) (g : Image → Image) : FsM Unit := do
  let s ← get
  onlyIf (logblocks ≤ s.lh.length) (throw .tooBig)
  onlyIf (s.outstanding < 1) (throw .outsideTrans)
  modify fun s => s.wrote b (g s.disk)

def store (b : Nat) (f : Nat → UInt8) : FsM Unit := modDisk b fun img => update img b f

def beginOp : FsM Unit := modify fun s => { s with outstanding := s.outstanding + 1 }

/-- With no other call in progress `end_op()` commits, and the log is empty. -/
def endOp : FsM Unit := modify fun s => { s with outstanding := s.outstanding - 1, lh := [] }

section
variable (sb : Superblock)

/-! ## Blocks -/

def bzero (b : Nat) : FsM Unit := store b fun _ => 0

def balloc : FsM Nat := do
  let s ← get
  match (List.range sb.size).find? fun b => !sb.bit s.disk b with
  | some b =>
    modDisk (sb.bblock b) fun img => sb.setBit img b
    bzero b
    return b
  | none => return 0

def bfree (b : Nat) : FsM Unit := do
  let s ← get
  if sb.bit s.disk b then modDisk (sb.bblock b) fun img => sb.clearBit img b
  else throw .freeingFree

/-! ## The inode table -/

def iget (inum : Nat) : FsM Ip := do
  let s ← get
  match (List.finRange ninode).find? fun i => decide (0 < (s.itable i).ref ∧ (s.itable i).inum = inum) with
  | some ip =>
    modInode ip fun n => { n with ref := n.ref + 1 }
    return ip
  | none =>
    match (List.finRange ninode).find? fun i => decide ((s.itable i).ref = 0) with
    | some ip =>
      modInode ip fun n => { n with inum := inum, ref := 1, valid := false }
      return ip
    | none => throw .noInodes

def ialloc (type : Int16) : FsM (Option Ip) := do
  let s ← get
  match (List.range' 1 (sb.ninodes - 1)).find? fun inum => decide ((sb.dinode s.disk inum).type = 0) with
  | some inum =>
    modDisk (sb.iblock inum) fun img => sb.setDinode img inum { Dinode.zero with type := type }
    let ip ← iget inum
    return some ip
  | none => return none

def iupdate (ip : Ip) : FsM Unit := do
  let s ← get
  modDisk (sb.iblock (s.itable ip).inum) fun img => sb.setDinode img (s.itable ip).inum (s.itable ip).din

def idup (ip : Ip) : FsM Ip := do
  modInode ip fun n => { n with ref := n.ref + 1 }
  return ip

def ilock (ip : Ip) : FsM Unit := do
  let s ← get
  if (s.itable ip).ref < 1 then throw .ilock
  else if (s.itable ip).locked then throw .stuck
  else
    modInode ip fun n => { n with locked := true }
    if (s.itable ip).valid then return
    else
      modInode ip fun n => { n with din := sb.dinode s.disk n.inum, valid := true }
      if (sb.dinode s.disk (s.itable ip).inum).type = 0 then throw .noType

def iunlock (ip : Ip) : FsM Unit := do
  let s ← get
  if (s.itable ip).locked = false ∨ (s.itable ip).ref < 1 then throw .iunlock
  else modInode ip fun n => { n with locked := false }

def ifree (inum : Nat) : FsM Unit :=
  modDisk (sb.iblock inum) fun img => sb.setDinode img inum { sb.dinode img inum with type := 0 }

/-! ## The blocks of an inode -/

/-- `ip->addrs[k]`, allocated if it is zero; zero if the disk is full. -/
def addrOrAlloc (ip : Ip) (k : Fin 13) : FsM Nat := do
  let s ← get
  if (s.itable ip).din.addrs k = 0 then
    let addr ← balloc sb
    if addr = 0 then return 0
    modDin ip fun d => d.setAddr k addr
    return addr
  else return ((s.itable ip).din.addrs k).toNat

def setUint (f : Nat → UInt8) (o : Nat) (w : Nat) : Nat → UInt8 :=
  fun i => if o ≤ i ∧ i < o + 4 then byte w (i - o) else f i

def bmap (ip : Ip) (bn : Nat) : FsM Nat := do
  if bn < ndirect then addrOrAlloc sb ip (Fin.ofNat 13 bn)
  else if bn - ndirect < nindirect then
    let addr ← addrOrAlloc sb ip 12
    if addr = 0 then return 0
    let s ← get
    if getUint (s.disk addr) (4 * (bn - ndirect)) = 0 then
      let b ← balloc sb
      if b = 0 then return 0
      let s ← get
      store addr (setUint (s.disk addr) (4 * (bn - ndirect)) b)
      return b
    else return (getUint (s.disk addr) (4 * (bn - ndirect))).toNat
  else throw .bmapRange

/-- `if(ip->addrs[i]) { bfree(ip->addrs[i]); ip->addrs[i] = 0; }` -/
def freeAddr (ip : Ip) (k : Fin 13) : FsM Unit := do
  let s ← get
  if (s.itable ip).din.addrs k ≠ 0 then
    bfree sb ((s.itable ip).din.addrs k).toNat
    modDin ip fun d => d.setAddr k 0

/-- The entries of the indirect block `addr`. -/
def freeEntries (addr : Nat) : FsM Unit :=
  forM (List.range nindirect) fun j => do
    let s ← get
    if getUint (s.disk addr) (4 * j) ≠ 0 then bfree sb (getUint (s.disk addr) (4 * j)).toNat

def itrunc (ip : Ip) : FsM Unit := do
  forM (List.range ndirect) fun i => freeAddr sb ip (Fin.ofNat 13 i)
  let s ← get
  onlyIf ((s.itable ip).din.addrs 12 ≠ 0) do
    freeEntries sb ((s.itable ip).din.addrs 12).toNat
    freeAddr sb ip 12
  modDin ip fun d => { d with size := 0 }
  iupdate sb ip

def iput (ip : Ip) : FsM Unit := do
  let s ← get
  if (s.itable ip).ref = 1 ∧ (s.itable ip).valid = true ∧ (s.itable ip).din.nlink = 0 then
    onlyIf ((s.itable ip).locked = true) (throw .stuck)
    modInode ip fun n => { n with locked := true }
    itrunc sb ip
    modInode ip fun n => { n with locked := false, valid := false }
    modInode ip fun n => { n with ref := n.ref - 1 }
    ifree sb (s.itable ip).inum
  else modInode ip fun n => { n with ref := n.ref - 1 }

def iunlockput (ip : Ip) : FsM Unit := do
  iunlock ip
  iput sb ip

/-- What `ireclaim()` does to an orphaned inode, up to `end_op()`. -/
def reclaimOrphan (inum : Nat) : FsM Unit := do
  let ip ← iget inum
  beginOp
  ilock sb ip
  iunlock ip
  iput sb ip

def reclaimOne (inum : Nat) : FsM Unit := do
  let s ← get
  onlyIf ((sb.dinode s.disk inum).type ≠ 0 ∧ (sb.dinode s.disk inum).nlink = 0) do
    reclaimOrphan sb inum
    endOp

def ireclaim : FsM Unit := forM (List.range (sb.ninodes - 1)) fun k => reclaimOne sb (k + 1)

/-! ## Contents -/

/-- The loop of `readi()`; `n` turns are enough, since each copies at least one byte. -/
def readLoop (ip : Ip) (room n : Nat) : Nat → Nat → Nat → List UInt8 → FsM (Option (List UInt8))
  | 0, _, _, acc => return some acc
  | fuel + 1, off, tot, acc => do
    if tot < n then
      let addr ← bmap sb ip (off / bsize)
      if addr = 0 then return some acc
      let s ← get
      let m := min (n - tot) (bsize - off % bsize)
      if room < tot + m then return none
      readLoop ip room n fuel (off + m) (tot + m)
        (acc ++ (List.range m).map fun k => s.disk addr (off % bsize + k))
    else return some acc

/-- The bytes read, or `none` for -1; `either_copyout()` can store `room` bytes. Like `off`, `n` is a `uint`. -/
def readi (ip : Ip) (room off n : Nat) : FsM (Option (List UInt8)) := do
  let s ← get
  let size := (s.itable ip).din.size.toNat
  if size < off ∨ (off + n) % 2 ^ 32 < off then return some []
  else if size < (off + n) % 2 ^ 32 then readLoop sb ip room (size - off) (size - off) off 0 []
  else readLoop sb ip room n n off 0 []

structure Src where
  byte : Nat → UInt8
  readable : Nat

/-- The memory from `k` bytes on. -/
def Src.drop (src : Src) (k : Nat) : Src := ⟨fun i => src.byte (k + i), src.readable - k⟩

/-- `either_copyin()` of the bytes from `tot` on into the block `f`, from `o` on; it stops at the first byte that cannot
be read. -/
def Src.copyin (src : Src) (f : Nat → UInt8) (o tot m : Nat) : Nat → UInt8 :=
  fun i => if o ≤ i ∧ i < o + min m (src.readable - tot) then src.byte (tot + (i - o)) else f i

/-- The loop of `writei()`: the values of `off` and `tot` after it. -/
def writeLoop (ip : Ip) (src : Src) (n : Nat) : Nat → Nat → Nat → FsM (Nat × Nat)
  | 0, off, tot => return (off, tot)
  | fuel + 1, off, tot => do
    if tot < n then
      let addr ← bmap sb ip (off / bsize)
      if addr = 0 then return (off, tot)
      let s ← get
      let m := min (n - tot) (bsize - off % bsize)
      store addr (src.copyin (s.disk addr) (off % bsize) tot m)
      if src.readable < tot + m then return (off, tot)
      writeLoop ip src n fuel (off + m) (tot + m)
    else return (off, tot)

/-- The number of bytes written, or `none` for -1; `off` and `n` are `uint`s. -/
def writei (ip : Ip) (src : Src) (off n : Nat) : FsM (Option Nat) := do
  let s ← get
  if (s.itable ip).din.size.toNat < off ∨ (off + n) % 2 ^ 32 < off then return none
  else if maxfile * bsize < (off + n) % 2 ^ 32 then return none
  else
    let r ← writeLoop sb ip src n n off 0
    modDin ip fun d => if d.size.toNat < r.1 then { d with size := UInt32.ofNat r.1 } else d
    iupdate sb ip
    return some r.2

end

end Xv6.Fs
