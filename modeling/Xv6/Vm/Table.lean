import Xv6.Vm.Page

/-!
# Page tables

The functions of `vm.c` on user page tables. A page table is named by its root page; `walk()` returns the place of an
entry, a page and an index. Loops over pages run over their numbers; where the source would wrap around the 64-bit
address space, `walk()` panics first.

* `walk`, `walkaddr`, `mappages`, `uvmunmap` : single entries and ranges;
* `uvmalloc`, `uvmdealloc`, `uvmcopy`, `freewalk`, `uvmfree` : user memory;
* `vmfault`, `copyout`, `copyin`, `copyinstr` : access from the kernel.
-/

namespace Xv6.Vm
open Function

def getPte (at' : Frame × Fin 512) : VmM (BitVec 64) := do return (← get).mem.pte at'.1 at'.2

def setPte (at' : Frame × Fin 512) (w : BitVec 64) : VmM Unit :=
  modify fun s => { s with mem := s.mem.setPte at'.1 at'.2 w }

def memset (pa : Frame) (c : UInt8) : VmM Unit := modify fun s => { s with mem := s.mem.fill pa c }

/-! ## Entries -/

/-- A turn of the loop of `walk()`: the page-table page one level down. -/
def walkDown (pagetable : Frame) (i : Fin 512) (alloc : Bool) : VmM (Option Frame) := do
  let pte ← getPte (pagetable, i)
  if pte &&& pteV ≠ 0 then return some (pteFrame pte)
  else if alloc = false then return none
  else
    match ← kalloc with
    | none => return none
    | some page =>
      memset page 0
      setPte (pagetable, i) (pa2pte page.addr ||| pteV)
      return some page

def walkLoop (va : BitVec 64) (alloc : Bool) : Nat → Frame → VmM (Option (Frame × Fin 512))
  | 0, pagetable => return some (pagetable, px 0 va)
  | level + 1, pagetable => do
    match ← walkDown pagetable (px (level + 1) va) alloc with
    | none => return none
    | some pagetable => walkLoop va alloc level pagetable

def walk (pagetable : Frame) (va : BitVec 64) (alloc : Bool) : VmM (Option (Frame × Fin 512)) := do
  panicIf (maxva ≤ va) .walk
  walkLoop va alloc 2 pagetable

def walkaddr (pagetable : Frame) (va : BitVec 64) : VmM (BitVec 64) := do
  if maxva ≤ va then return 0
  else
    match ← walk pagetable va false with
    | none => return 0
    | some at' =>
      let pte ← getPte at'
      if pte &&& pteV = 0 then return 0
      else if pte &&& pteU = 0 then return 0
      else return pte2pa pte

def mapLoop (pagetable : Frame) (perm : BitVec 64) : Nat → BitVec 64 → Frame → VmM Int
  | 0, _, _ => return 0
  | k + 1, a, pa => do
    match ← walk pagetable a true with
    | none => return -1
    | some at' =>
      let pte ← getPte at'
      panicIf (pte &&& pteV ≠ 0) .remap
      setPte at' (pa2pte pa.addr ||| perm ||| pteV)
      mapLoop pagetable perm k (a + 4096#64) (pa + 1#52)

def mappages (pagetable : Frame) (va size : BitVec 64) (pa : Frame) (perm : BitVec 64) : VmM Int := do
  panicIf (va % 4096#64 ≠ 0) .mapVa
  panicIf (size % 4096#64 ≠ 0) .mapSizeAligned
  panicIf (size = 0) .mapSize
  mapLoop pagetable perm (size.toNat / pgsize) va pa

def uvmcreate : VmM (Option Frame) := do
  match ← kalloc with
  | none => return none
  | some pagetable =>
    memset pagetable 0
    return some pagetable

/-- How many turns `for(a = va; a < end; a += PGSIZE)` makes. -/
def turns (va last : BitVec 64) : Nat := (last.toNat - va.toNat + 4095) / pgsize

theorem turns_zero (sz : BitVec 64) : turns 0 sz = (sz.toNat + 4095) / 4096 := rfl

def unmapPage (pagetable : Frame) (doFree : Bool) (a : BitVec 64) : VmM Unit := do
  match ← walk pagetable a false with
  | none => return ()
  | some at' =>
    let pte ← getPte at'
    if pte &&& pteV = 0 then return ()
    else if doFree then
      kfree (pteFrame pte)
      setPte at' 0
    else setPte at' 0

def uvmunmap (pagetable : Frame) (va npages : BitVec 64) (doFree : Bool) : VmM Unit := do
  panicIf (va % 4096#64 ≠ 0) .unmapVa
  forM (List.range (turns va (va + npages * 4096#64))) fun k =>
    unmapPage pagetable doFree (va + BitVec.ofNat 64 (k * pgsize))

/-! ## User memory -/

def uvmdealloc (pagetable : Frame) (oldsz newsz : BitVec 64) : VmM (BitVec 64) := do
  if oldsz ≤ newsz then return oldsz
  else if pgroundup newsz < pgroundup oldsz then
    -- npages is an int
    let npages := ((pgroundup oldsz - pgroundup newsz) / 4096#64).setWidth 32
    uvmunmap pagetable (pgroundup newsz) (npages.signExtend 64) true
    return newsz
  else return newsz

/-- The loop of `uvmalloc()`; it says whether all pages have been mapped. -/
def allocLoop (pagetable : Frame) (oldsz xperm : BitVec 64) : Nat → BitVec 64 → VmM Bool
  | 0, _ => return true
  | k + 1, a => do
    match ← kalloc with
    | none =>
      let _ ← uvmdealloc pagetable a oldsz
      return false
    | some page =>
      memset page 0
      if (← mappages pagetable a 4096#64 page (pteR ||| pteU ||| xperm)) ≠ 0 then
        kfree page
        let _ ← uvmdealloc pagetable a oldsz
        return false
      else allocLoop pagetable oldsz xperm k (a + 4096#64)

def uvmalloc (pagetable : Frame) (oldsz newsz xperm : BitVec 64) : VmM (BitVec 64) := do
  if newsz < oldsz then return oldsz
  else
    let oldsz := pgroundup oldsz
    if ← allocLoop pagetable oldsz xperm (turns oldsz newsz) oldsz then return newsz
    else return 0

/-- `freewalk()` of a page-table page `level` levels above the leaves; the source would follow an entry of the lowest
level that is valid and not a leaf. -/
def freewalk : Nat → Frame → VmM Unit
  | 0, _ => throw .freewalkDeep
  | level + 1, pagetable => do
    forM (List.finRange 512) fun i => do
      let pte ← getPte (pagetable, i)
      if pte &&& pteV ≠ 0 ∧ pte &&& (pteR ||| pteW ||| pteX) = 0 then
        freewalk level (pteFrame pte)
        setPte (pagetable, i) 0
      else panicIf (pte &&& pteV ≠ 0) .freewalkLeaf
    kfree pagetable

/-- The list of slots is a variable, which no elaboration unrolls. -/
theorem freewalk_succ {l : List (Fin 512)} (hl : l = List.finRange 512) (level : Nat) (pagetable : Frame) :
    freewalk (level + 1) pagetable = (do
      forM l fun i => do
        let pte ← getPte (pagetable, i)
        if pte &&& pteV ≠ 0 ∧ pte &&& (pteR ||| pteW ||| pteX) = 0 then
          freewalk level (pteFrame pte)
          setPte (pagetable, i) 0
        else panicIf (pte &&& pteV ≠ 0) .freewalkLeaf
      kfree pagetable) := by
  rw [hl, freewalk]

attribute [irreducible] freewalk

def uvmfree (pagetable : Frame) (sz : BitVec 64) : VmM Unit := do
  if 0 < sz then
    uvmunmap pagetable 0 (pgroundup sz / 4096#64) true
    freewalk 3 pagetable
  else freewalk 3 pagetable

/-- The loop of `uvmcopy()`; it says at which address a page could not be copied. -/
def copyLoop (old new : Frame) : Nat → BitVec 64 → VmM (Option (BitVec 64))
  | 0, _ => return none
  | k + 1, i => do
    match ← walk old i false with
    | none => copyLoop old new k (i + 4096#64)
    | some at' =>
      let pte ← getPte at'
      if pte &&& pteV = 0 then copyLoop old new k (i + 4096#64)
      else
        match ← kalloc with
        | none => return some i
        | some page =>
          modify fun s => { s with mem := update s.mem page (s.mem (pteFrame pte)) }
          if (← mappages new i 4096#64 page (pteFlags pte)) ≠ 0 then
            kfree page
            return some i
          else copyLoop old new k (i + 4096#64)

def uvmcopy (old new : Frame) (sz : BitVec 64) : VmM Int := do
  match ← copyLoop old new (turns 0 sz) 0 with
  | none => return 0
  | some i =>
    uvmunmap new 0 (i / 4096#64) true
    return -1

def uvmclear (pagetable : Frame) (va : BitVec 64) : VmM Unit := do
  match ← walk pagetable va false with
  | none => throw .uvmclear
  | some at' =>
    let pte ← getPte at'
    setPte at' (pte &&& ~~~ pteU)

/-! ## Access from the kernel -/

def ismapped (pagetable : Frame) (va : BitVec 64) : VmM Bool := do
  match ← walk pagetable va false with
  | none => return false
  | some at' => return decide ((← getPte at') &&& pteV ≠ 0)

/-- `vmfault()`; its last argument is not used. -/
def vmfault (pagetable : Frame) (psz va : BitVec 64) : VmM (BitVec 64) := do
  if psz ≤ va then return 0
  else
    let va := pgrounddown va
    if ← ismapped pagetable va then return 0
    else
      match ← kalloc with
      | none => return 0
      | some page =>
        memset page 0
        if (← mappages pagetable va 4096#64 page (pteW ||| pteU ||| pteR)) ≠ 0 then
          kfree page
          return 0
        else return page.addr

/-- The physical address of the user page `va0`, which is faulted in if it is missing. -/
def touch (pagetable : Frame) (psz va0 : BitVec 64) : VmM (BitVec 64) := do
  let pa0 ← walkaddr pagetable va0
  if pa0 = 0 then vmfault pagetable psz va0 else return pa0

/-- How many of `len` bytes from `va` on are in its page, whose address is `va0`. -/
def chunk (va va0 : BitVec 64) (len : Nat) : Nat := min (4096#64 - (va - va0)).toNat len

/-- `memmove()` of `n` bytes of `src` to offset `off` of a page. -/
def Mem.store (m : Mem) (f : Frame) (off n : Nat) (src : Nat → UInt8) : Mem :=
  update m f fun k => if off ≤ k ∧ k < off + n then src (k - off) else m f k

/-- The loop of `copyout()`, with `len` bytes to go from `src + done`; each turn copies at least one byte. -/
def copyoutLoop (pagetable : Frame) (psz : BitVec 64) (src : Nat → UInt8) : Nat → BitVec 64 → Nat → Nat → VmM Int
  | 0, _, _, _ => return 0
  | fuel + 1, dstva, done, len => do
    if 0 < len then
      let va0 := pgrounddown dstva
      if maxva ≤ va0 then return -1
      else
        let pa0 ← touch pagetable psz va0
        if pa0 = 0 then return -1
        else
          match ← walk pagetable va0 false with
          | none => throw .nullPte
          | some at' =>
            let pte ← getPte at'
            if pte &&& pteW = 0 then return -1
            else
              let n := chunk dstva va0 len
              modify fun s => { s with mem := s.mem.store (frameOf pa0) (dstva - va0).toNat n fun k => src (done + k) }
              copyoutLoop pagetable psz src fuel (va0 + 4096#64) (done + n) (len - n)
    else return 0

def copyout (pagetable : Frame) (psz dstva : BitVec 64) (src : Nat → UInt8) (len : BitVec 64) : VmM Int :=
  copyoutLoop pagetable psz src len.toNat dstva 0 len.toNat

/-- The kernel buffer `dst` after `n` bytes of the page `f` from `off` on have been copied to `dst + done`. -/
def fetched (m : Mem) (f : Frame) (off n done : Nat) (dst : Nat → UInt8) : Nat → UInt8 :=
  fun k => if done ≤ k ∧ k < done + n then m f (off + (k - done)) else dst k

def copyinLoop (pagetable : Frame) (psz : BitVec 64) :
    Nat → (Nat → UInt8) → BitVec 64 → Nat → Nat → VmM (Int × (Nat → UInt8))
  | 0, dst, _, _, _ => return (0, dst)
  | fuel + 1, dst, srcva, done, len => do
    if 0 < len then
      let va0 := pgrounddown srcva
      let pa0 ← touch pagetable psz va0
      if pa0 = 0 then return (-1, dst)
      else
        let n := chunk srcva va0 len
        let dst := fetched (← get).mem (frameOf pa0) (srcva - va0).toNat n done dst
        copyinLoop pagetable psz fuel dst (va0 + 4096#64) (done + n) (len - n)
    else return (0, dst)

/-- `copyin()`; it returns the buffer with what has been copied. -/
def copyin (pagetable : Frame) (psz : BitVec 64) (dst : Nat → UInt8) (srcva len : BitVec 64) :
    VmM (Int × (Nat → UInt8)) :=
  copyinLoop pagetable psz len.toNat dst srcva 0 len.toNat

/-- The inner loop of `copyinstr()`: `n` bytes from `page off` on; whether a NUL has been met, and how many bytes before
it have been copied. -/
def copyString (page : Nat → UInt8) : Nat → Nat → (Nat → UInt8) → Nat → Bool × (Nat → UInt8) × Nat
  | 0, _, dst, done => (false, dst, done)
  | n + 1, off, dst, done =>
    if page off = 0 then (true, update dst done 0, done)
    else copyString page n (off + 1) (update dst done (page off)) (done + 1)

def copyinstrLoop (pagetable : Frame) (psz : BitVec 64) :
    Nat → (Nat → UInt8) → BitVec 64 → Nat → Nat → VmM (Int × (Nat → UInt8))
  | 0, dst, _, _, _ => return (-1, dst)
  | fuel + 1, dst, srcva, done, max => do
    if 0 < max then
      let va0 := pgrounddown srcva
      let pa0 ← touch pagetable psz va0
      if pa0 = 0 then return (-1, dst)
      else
        let n := chunk srcva va0 max
        let s ← get
        let r := copyString (s.mem (frameOf pa0)) n (srcva - va0).toNat dst done
        if r.1 then return (0, r.2.1)
        else copyinstrLoop pagetable psz fuel r.2.1 (va0 + 4096#64) r.2.2 (max - n)
    else return (-1, dst)

def copyinstr (pagetable : Frame) (psz : BitVec 64) (dst : Nat → UInt8) (srcva max : BitVec 64) :
    VmM (Int × (Nat → UInt8)) :=
  copyinstrLoop pagetable psz max.toNat dst srcva 0 max.toNat

end Xv6.Vm
