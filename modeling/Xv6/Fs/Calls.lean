import Xv6.Fs.Inode

/-!
# Directories, paths and the system calls

The rest of `fs.c`, and what `sysfile.c`, `file.c` and `proc.c` do with inodes. A path is the list of its characters
before the NUL; `none` is a string argument that `argstr()` refuses. A name is the list of its characters, at most
`DIRSIZ` of them.

* `dirlookup`, `dirlink`, `namex`, `create` : under their names in the source;
* `FsCall`, `call` : the system calls; the files of `ftable` stand for the descriptors that refer to them, and `nofd`
  says that the process has no free descriptor.
-/

namespace Xv6.Fs
open Bytes Function

def dirsiz : Nat := 14

/-- `sizeof(struct dirent)` -/
def direntSize : Nat := 16

def tDir : Int16 := 1
def tFile : Int16 := 2
def tDevice : Int16 := 3

def ndev : Int16 := 10

/-- `devsw[major]` has functions: `consoleinit()` sets those of `CONSOLE`. -/
def devsw (major : Int16) : Bool := major = 1

/-! ## Directories -/

/-- `strncmp()`; a list that has ended reads as NUL. -/
def strncmp : Nat → List UInt8 → List UInt8 → Int
  | 0, _, _ => 0
  | n + 1, p, q =>
    if p.headD 0 ≠ 0 ∧ p.headD 0 = q.headD 0 then strncmp n p.tail q.tail
    else (p.headD 0).toNat - (q.headD 0).toNat

def namecmp (s t : List UInt8) : Int := strncmp dirsiz s t

def direntInum (de : List UInt8) : Nat := le (fun i => de.getD i 0) 2

/-- `struct dirent`: the inode number, a `ushort`, and the name, padded with zeros by `strncpy()`. -/
def dirent (inum : Nat) (name : List UInt8) : Src where
  byte i := if i < 2 then byte inum i else (name.take dirsiz).getD (i - 2) 0
  readable := direntSize

section
variable (sb : Superblock)

/-- `readi()` of the directory entry at `off`; anything but a whole entry is the panic `e`. -/
def readDirent (e : FsPanic) (dp : Ip) (off : Nat) : FsM (List UInt8) := do
  match ← readi sb dp direntSize off direntSize with
  | some de => if de.length = direntSize then return de else throw e
  | none => throw e

/-- The scan of `dirlookup()` from `off` on. -/
def dirlookupLoop (dp : Ip) (name : List UInt8) : Nat → Nat → FsM (Option (Ip × Nat))
  | 0, _ => return none
  | fuel + 1, off => do
    let s ← get
    if off < (s.itable dp).din.size.toNat then
      let de ← readDirent sb .dirlookupRead dp off
      if direntInum de = 0 then dirlookupLoop dp name fuel (off + direntSize)
      else if namecmp name (de.drop 2) = 0 then
        let ip ← iget (direntInum de)
        return some (ip, off)
      else dirlookupLoop dp name fuel (off + direntSize)
    else return none

/-- The number of entries, rounded up. -/
def turns (s : FsState) (dp : Ip) : Nat := (s.itable dp).din.size.toNat / direntSize + 1

def dirlookup (dp : Ip) (name : List UInt8) : FsM (Option (Ip × Nat)) := do
  let s ← get
  onlyIf ((s.itable dp).din.type ≠ tDir) (throw .notDir)
  dirlookupLoop sb dp name (turns s dp) 0

/-- The scan of `dirlink()` for an empty entry: the value of `off` after it. -/
def emptyEntry (dp : Ip) : Nat → Nat → FsM Nat
  | 0, off => return off
  | fuel + 1, off => do
    let s ← get
    if off < (s.itable dp).din.size.toNat then
      let de ← readDirent sb .dirlinkRead dp off
      if direntInum de = 0 then return off
      emptyEntry dp fuel (off + direntSize)
    else return off

def dirlink (dp : Ip) (name : List UInt8) (inum : Nat) : FsM Bool := do
  match ← dirlookup sb dp name with
  | some (ip, _) =>
    iput sb ip
    return false
  | none =>
    let s ← get
    let off ← emptyEntry sb dp (turns s dp) 0
    let r ← writei sb dp (dirent inum name) off direntSize
    return decide (r = some direntSize)

/-- The scan of `isdirempty()` from `off` on. -/
def isdiremptyLoop (dp : Ip) : Nat → Nat → FsM Bool
  | 0, _ => return true
  | fuel + 1, off => do
    let s ← get
    if off < (s.itable dp).din.size.toNat then
      let de ← readDirent sb .isdiremptyRead dp off
      if direntInum de ≠ 0 then return false
      isdiremptyLoop dp fuel (off + direntSize)
    else return true

def isdirempty (dp : Ip) : FsM Bool := do
  let s ← get
  isdiremptyLoop sb dp (turns s dp) (2 * direntSize)

/-! ## Paths -/

def slash : UInt8 := 47

/-- The next path element and the path after it. -/
def skipelem (path : List UInt8) : Option (List UInt8 × List UInt8) :=
  let path := path.dropWhile (· = slash)
  if path = [] then none
  else some ((path.takeWhile (· ≠ slash)).take dirsiz, (path.dropWhile (· ≠ slash)).dropWhile (· = slash))

/-- The loop of `namex()`; a path has fewer elements than characters. -/
def namexLoop (nameiparent : Bool) : Nat → Ip → List UInt8 → FsM (Option (Ip × List UInt8))
  | 0, _, _ => return none
  | fuel + 1, ip, path => do
    match skipelem path with
    | some (name, path) =>
      ilock sb ip
      let s ← get
      if (s.itable ip).din.type ≠ tDir then
        iunlockput sb ip
        return none
      if (s.itable ip).din.nlink = 0 then
        iunlockput sb ip
        return none
      if nameiparent && path.isEmpty then
        iunlock ip
        return some (ip, name)
      match ← dirlookup sb ip name with
      | some (next, _) =>
        iunlockput sb ip
        namexLoop nameiparent fuel next path
      | none =>
        iunlockput sb ip
        return none
    | none =>
      if nameiparent then
        iput sb ip
        return none
      return some (ip, [])

/-- Process `p` looks up `path`. -/
def namex (p : Fin nproc) (path : List UInt8) (nameiparent : Bool) : FsM (Option (Ip × List UInt8)) := do
  if path.headD 0 = slash then
    let ip ← iget rootino
    namexLoop sb nameiparent (path.length + 1) ip path
  else
    let s ← get
    match s.cwd p with
    | some cwd =>
      let ip ← idup cwd
      namexLoop sb nameiparent (path.length + 1) ip path
    | none => throw .stuck

/-! ## Files -/

def FsState.setFile (s : FsState) (f : Fin nfile) (x : File) : FsState :=
  { s with ftable := update s.ftable f x }

def modFile (f : Fin nfile) (g : File → File) : FsM Unit := modify fun s => s.setFile f (g (s.ftable f))

def filealloc : FsM (Option (Fin nfile)) := do
  let s ← get
  match (List.finRange nfile).find? fun f => decide ((s.ftable f).ref = 0) with
  | some f =>
    modFile f fun x => { x with ref := 1 }
    return some f
  | none => return none

def fileclose (f : Fin nfile) : FsM Unit := do
  let s ← get
  onlyIf ((s.ftable f).ref < 1) (throw .fileclose)
  if 1 < (s.ftable f).ref then modFile f fun x => { x with ref := x.ref - 1 }
  else
    modFile f fun x => { x with ref := 0, type := .none }
    onlyIf ((s.ftable f).type ≠ .none) do
      beginOp
      iput sb (s.ftable f).ip
      endOp

def filedup (f : Fin nfile) : FsM Unit := do
  let s ← get
  onlyIf ((s.ftable f).ref < 1) (throw .filedup)
  modFile f fun x => { x with ref := x.ref + 1 }

/-- What `filewrite()` writes in one transaction, at most. -/
def maxWrite : Nat := ((maxopblocks - 1 - 1 - 2) / 2) * bsize

def filewriteLoop (f : Fin nfile) (src : Src) (n : Nat) : Nat → Nat → FsM Nat
  | 0, i => return i
  | fuel + 1, i => do
    if i < n then
      let s ← get
      beginOp
      ilock sb (s.ftable f).ip
      let r ← writei sb (s.ftable f).ip (src.drop i) (s.ftable f).off (min (n - i) maxWrite)
      modFile f fun x => { x with off := x.off + r.getD 0 }
      iunlock (s.ftable f).ip
      endOp
      if r = some (min (n - i) maxWrite) then filewriteLoop f src n fuel (i + min (n - i) maxWrite)
      else return i
    else return i

/-- The test of `f->major`; a device reads and writes what it is asked to, and does not touch the disk. -/
def device (x : File) (n : Int) : Int := if x.major < 0 ∨ ndev ≤ x.major ∨ devsw x.major = false then -1 else n

def filewrite (f : Fin nfile) (src : Src) (n : Int) : FsM Int := do
  let s ← get
  if (s.ftable f).writable = false ∨ n < 0 then return -1
  match (s.ftable f).type with
  | .inode =>
    let i ← filewriteLoop sb f src n.toNat n.toNat 0
    return if i = n.toNat then n else -1
  | .device => return device (s.ftable f) n
  | .none => throw .filewrite

def fileread (f : Fin nfile) (room : Nat) (n : Int) : FsM Int := do
  let s ← get
  if (s.ftable f).readable = false ∨ n < 0 then return -1
  match (s.ftable f).type with
  | .inode =>
    ilock sb (s.ftable f).ip
    let r ← readi sb (s.ftable f).ip room (s.ftable f).off n.toNat
    modFile f fun x => { x with off := x.off + (r.getD []).length }
    iunlock (s.ftable f).ip
    match r with
    | some bytes => return (bytes.length : Int)
    | none => return -1
  | .device => return device (s.ftable f) n
  | .none => throw .fileread

/-- `filestat()`: the fields of `struct stat`. -/
def filestat (f : Fin nfile) : FsM (Option (Nat × Dinode)) := do
  let s ← get
  if (s.ftable f).type = .none then return none
  ilock sb (s.ftable f).ip
  let t ← get
  iunlock (s.ftable f).ip
  return some ((t.itable (s.ftable f).ip).inum, (t.itable (s.ftable f).ip).din)

/-! ## System calls -/

/-- The entries that `create()` makes for the new inode `ip`: `.` and `..` in a directory, and `name` in `dp`. -/
def linkNew (dp ip : Ip) (name : List UInt8) (type : Int16) : FsM Bool := do
  let s ← get
  if type = tDir then
    if ← dirlink sb ip [46] (s.itable ip).inum then
      if ← dirlink sb ip [46, 46] (s.itable dp).inum then dirlink sb dp name (s.itable ip).inum
      else return false
    else return false
  else dirlink sb dp name (s.itable ip).inum

/-- A new inode under `path`, locked, or the file that is there. -/
def create (p : Fin nproc) (path : List UInt8) (type major minor : Int16) : FsM (Option Ip) := do
  match ← namex sb p path true with
  | none => return none
  | some (dp, name) =>
    ilock sb dp
    let s ← get
    if (s.itable dp).din.nlink = 0 then
      iunlockput sb dp
      return none
    if type = tDir ∧ nlinkMax ≤ (s.itable dp).din.nlink then
      iunlockput sb dp
      return none
    match ← dirlookup sb dp name with
    | some (ip, _) =>
      iunlockput sb dp
      ilock sb ip
      let s ← get
      if type = tFile ∧ ((s.itable ip).din.type = tFile ∨ (s.itable ip).din.type = tDevice) then return some ip
      iunlockput sb ip
      return none
    | none =>
      match ← ialloc sb type with
      | none =>
        iunlockput sb dp
        return none
      | some ip =>
        ilock sb ip
        modDin ip fun d => { d with major := major, minor := minor, nlink := 1 }
        iupdate sb ip
        if ← linkNew sb dp ip name type then
          onlyIf (type = tDir) do
            modDin dp fun d => { d with nlink := d.nlink + 1 }
            iupdate sb dp
          iunlockput sb dp
          return some ip
        else
          modDin ip fun d => { d with nlink := 0 }
          iupdate sb ip
          iunlockput sb ip
          iunlockput sb dp
          return none

/-- The rest of `sys_link()` after `bad:`. -/
def unbump (ip : Ip) : FsM Int := do
  ilock sb ip
  modDin ip fun d => { d with nlink := d.nlink - 1 }
  iupdate sb ip
  iunlockput sb ip
  return -1

def sysLink (p : Fin nproc) (old new : List UInt8) : FsM Int := do
  match ← namex sb p old false with
  | none => return -1
  | some (ip, _) =>
    ilock sb ip
    let s ← get
    if (s.itable ip).din.type = tDir ∨ nlinkMax ≤ (s.itable ip).din.nlink then
      iunlockput sb ip
      return -1
    modDin ip fun d => { d with nlink := d.nlink + 1 }
    iupdate sb ip
    iunlock ip
    match ← namex sb p new true with
    | none => unbump sb ip
    | some (dp, name) =>
      ilock sb dp
      let s ← get
      if (s.itable dp).din.nlink = 0 then
        iunlockput sb dp
        unbump sb ip
      else if ← dirlink sb dp name (s.itable ip).inum then
        iunlockput sb dp
        iput sb ip
        return 0
      else
        iunlockput sb dp
        unbump sb ip

/-- `ip->type != T_DIR || isdirempty(ip)` -/
def mayUnlink (ip : Ip) (type : Int16) : FsM Bool := if type = tDir then isdirempty sb ip else pure true

def sysUnlink (p : Fin nproc) (path : List UInt8) : FsM Int := do
  match ← namex sb p path true with
  | none => return -1
  | some (dp, name) =>
    ilock sb dp
    if namecmp name [46] = 0 ∨ namecmp name [46, 46] = 0 then
      iunlockput sb dp
      return -1
    match ← dirlookup sb dp name with
    | none =>
      iunlockput sb dp
      return -1
    | some (ip, off) =>
      ilock sb ip
      let s ← get
      onlyIf ((s.itable ip).din.nlink < 1) (throw .unlinkNlink)
      let empty ← mayUnlink sb ip (s.itable ip).din.type
      if empty then
        let r ← writei sb dp ⟨fun _ => 0, direntSize⟩ off direntSize
        onlyIf (r ≠ some direntSize) (throw .unlinkWritei)
        onlyIf ((s.itable ip).din.type = tDir) do
          modDin dp fun d => { d with nlink := d.nlink - 1 }
          iupdate sb dp
        iunlockput sb dp
        modDin ip fun d => { d with nlink := d.nlink - 1 }
        iupdate sb ip
        iunlockput sb ip
        return 0
      else
        iunlockput sb ip
        iunlockput sb dp
        return -1

/-- The inode that `sys_open()` opens, locked. -/
def openInode (p : Fin nproc) (path : List UInt8) (omode : Nat) : FsM (Option Ip) := do
  if omode &&& 0x200 ≠ 0 then create sb p path tFile 0 0
  else
    match ← namex sb p path false with
    | none => return none
    | some (ip, _) =>
      ilock sb ip
      let s ← get
      if (s.itable ip).din.type = tDir ∧ omode ≠ 0 then
        iunlockput sb ip
        return none
      return some ip

def sysOpen (p : Fin nproc) (path : List UInt8) (omode : Nat) (nofd : Bool) : FsM Int := do
  match ← openInode sb p path omode with
  | none => return -1
  | some ip =>
    let s ← get
    if (s.itable ip).din.type = tDevice ∧ ((s.itable ip).din.major < 0 ∨ ndev ≤ (s.itable ip).din.major) then
      iunlockput sb ip
      return -1
    match ← filealloc with
    | none =>
      iunlockput sb ip
      return -1
    | some f =>
      if nofd then
        fileclose sb f
        iunlockput sb ip
        return -1
      modFile f fun x => { x with
        type := if (s.itable ip).din.type = tDevice then .device else .inode
        ip := ip
        off := 0
        major := (s.itable ip).din.major
        readable := decide (omode &&& 1 = 0)
        writable := decide (omode &&& 1 ≠ 0 ∨ omode &&& 2 ≠ 0) }
      onlyIf (omode &&& 0x400 ≠ 0 ∧ (s.itable ip).din.type = tFile) (itrunc sb ip)
      iunlock ip
      return f.val

/-- `sys_mkdir()` and `sys_mknod()`. -/
def sysMake (p : Fin nproc) (path : List UInt8) (type major minor : Int16) : FsM Int := do
  match ← create sb p path type major minor with
  | none => return -1
  | some ip =>
    iunlockput sb ip
    return 0

def setCwd (p : Fin nproc) (ip : Option Ip) : FsM Unit := modify fun s => { s with cwd := update s.cwd p ip }

def sysChdir (p : Fin nproc) (path : List UInt8) : FsM Int := do
  match ← namex sb p path false with
  | none => return -1
  | some (ip, _) =>
    ilock sb ip
    let s ← get
    if (s.itable ip).din.type ≠ tDir then
      iunlockput sb ip
      return -1
    iunlock ip
    match s.cwd p with
    | some cwd =>
      iput sb cwd
      setCwd p (some ip)
      return 0
    | none => throw .stuck

inductive FsCall
  | openFile (p : Fin nproc) (path : Option (List UInt8)) (omode : Nat) (nofd : Bool)
  | mkdir (p : Fin nproc) (path : Option (List UInt8))
  | mknod (p : Fin nproc) (path : Option (List UInt8)) (major minor : Int16)
  | link (p : Fin nproc) (old new : Option (List UInt8))
  | unlink (p : Fin nproc) (path : Option (List UInt8))
  | chdir (p : Fin nproc) (path : Option (List UInt8))
  | write (f : Fin nfile) (src : Src) (n : Int32)
  | read (f : Fin nfile) (room : Nat) (n : Int32)
  | fstat (f : Fin nfile)
  | dup (f : Fin nfile)
  | close (f : Fin nfile)
  | userinit (p : Fin nproc)
  | fork (p q : Fin nproc)
  | exit (p : Fin nproc)
  | ireclaim

/-- `begin_op()`, the body of a call with one transaction, `end_op()`. -/
def transaction (m : FsM Int) : FsM Int := do
  beginOp
  let r ← m
  endOp
  return r

/-- The calls of a process without an inode as its working directory, or of a descriptor that no open file is behind,
return -1. -/
def call : FsCall → FsM Int
  | .openFile p (some path) omode nofd => transaction (sysOpen sb p path omode nofd)
  | .mkdir p (some path) => transaction (sysMake sb p path tDir 0 0)
  | .mknod p (some path) major minor => transaction (sysMake sb p path tDevice major minor)
  | .link p (some old) (some new) => transaction (sysLink sb p old new)
  | .unlink p (some path) => transaction (sysUnlink sb p path)
  | .chdir p (some path) => transaction (sysChdir sb p path)
  | .write f src n => do
    let s ← get
    if (s.ftable f).ref < 1 then return -1
    filewrite sb f src n.toInt
  | .read f room n => do
    let s ← get
    if (s.ftable f).ref < 1 then return -1
    fileread sb f room n.toInt
  | .fstat f => do
    let s ← get
    if (s.ftable f).ref < 1 then return -1
    match ← filestat sb f with
    | some _ => return 0
    | none => return -1
  | .dup f => do
    let s ← get
    if (s.ftable f).ref < 1 then return -1
    filedup f
    return 0
  | .close f => do
    let s ← get
    if (s.ftable f).ref < 1 then return -1
    fileclose sb f
    return 0
  | .userinit p => do
    let s ← get
    if (s.cwd p).isSome then return -1
    match ← namex sb p [slash] false with
    | some (ip, _) =>
      setCwd p (some ip)
      return 0
    | none => return -1
  | .fork p q => do
    let s ← get
    match s.cwd p, s.cwd q with
    | some cwd, none =>
      let ip ← idup cwd
      setCwd q (some ip)
      return 0
    | _, _ => return -1
  | .exit p => do
    let s ← get
    match s.cwd p with
    | some cwd =>
      beginOp
      iput sb cwd
      endOp
      setCwd p none
      return 0
    | none => return -1
  | .ireclaim => do
    ireclaim sb
    return 0
  | _ => return -1

/-- The calls one after the other. -/
@[irreducible]
def runCalls (calls : List FsCall) : FsM Unit := forM calls fun c => discard (call sb c)

end

end Xv6.Fs
