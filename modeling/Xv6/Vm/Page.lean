import Xv6.Lib.Bytes
import Xv6.Lib.Hoare
import Mathlib.Logic.Function.Basic

/-!
# Pages and page-table entries

`riscv.h`, `memlayout.h` and `kalloc.c`. A page-aligned physical address is a `Frame`, its number of pages; the memory
is a byte for each offset into each frame, and a page-table entry is 8 bytes of it. The links of the free list are kept
outside the free pages: nothing reads a free page before `kalloc()` fills it.

* `pa2pte`, `pte2pa`, `pteFlags`, `px`, `pgroundup`, `pgrounddown` : the macros, on 64-bit words;
* `Phys` : memory, `kmem.freelist` and the linker's `end`;
* `kalloc`, `kfree` : the allocator.
-/

namespace Xv6.Vm
open Bytes Function

/-! ## Macros -/

def pgsize : Nat := 4096

def pgroundup (sz : BitVec 64) : BitVec 64 := (sz + 4096#64 - 1#64) &&& ~~~ (4096#64 - 1#64)

def pgrounddown (a : BitVec 64) : BitVec 64 := a &&& ~~~ (4096#64 - 1#64)

def pteV : BitVec 64 := 1#64 <<< 0

def pteR : BitVec 64 := 1#64 <<< 1

def pteW : BitVec 64 := 1#64 <<< 2

def pteX : BitVec 64 := 1#64 <<< 3

def pteU : BitVec 64 := 1#64 <<< 4

def pa2pte (pa : BitVec 64) : BitVec 64 := (pa >>> 12) <<< 10

def pte2pa (pte : BitVec 64) : BitVec 64 := (pte >>> 10) <<< 12

def pteFlags (pte : BitVec 64) : BitVec 64 := pte &&& 0x3FF#64

/-- `PX(level, va)`. -/
def px (level : Nat) (va : BitVec 64) : Fin 512 :=
  ⟨((va >>> (12 + 9 * level)) &&& 0x1FF#64).toNat, by
    rw [BitVec.toNat_and]
    exact Nat.lt_of_le_of_lt Nat.and_le_right (by decide)⟩

def maxva : BitVec 64 := 1#64 <<< (9 + 9 + 9 + 12 - 1)

theorem toNat_maxva : maxva.toNat = 2 ^ 38 := by decide

def trampoline : BitVec 64 := maxva - 4096#64

def trapframe : BitVec 64 := trampoline - 4096#64

def phystop : Nat := 0x80000000 + 128 * 1024 * 1024

/-! ## Memory -/

/-- The address of a page, divided by the page size. -/
abbrev Frame := BitVec 52

def Frame.addr (f : Frame) : BitVec 64 := f.setWidth 64 <<< 12

/-- The page that an address is in. -/
def frameOf (pa : BitVec 64) : Frame := (pa >>> 12).setWidth 52

/-- The page that an entry points to. -/
def pteFrame (pte : BitVec 64) : Frame := frameOf (pte2pa pte)

abbrev Mem := Frame → Nat → UInt8

/-- Entry `i` of the page-table page `f`. -/
def Mem.pte (m : Mem) (f : Frame) (i : Fin 512) : BitVec 64 := BitVec.ofNat 64 (le (fun j => m f (8 * i + j)) 8)

def Mem.setPte (m : Mem) (f : Frame) (i : Fin 512) (w : BitVec 64) : Mem :=
  update m f fun k => if 8 * i ≤ k ∧ k < 8 * i + 8 then byte w.toNat (k - 8 * i) else m f k

/-- `memset()` of a whole page. -/
def Mem.fill (m : Mem) (f : Frame) (c : UInt8) : Mem := update m f fun _ => c

structure Phys where
  mem : Mem
  freelist : List Frame
  /-- `end`, the first address after the kernel. -/
  kend : Nat

inductive VmPanic
  | walk
  | mapVa
  | mapSizeAligned
  | mapSize
  | remap
  | unmapVa
  | freewalkLeaf
  | freewalkDeep
  | uvmclear
  | loadseg
  | nullPte
  | kfree
deriving DecidableEq

abbrev VmM := StateT Phys (Except VmPanic)

def panicIf (c : Prop) [Decidable c] (e : VmPanic) : VmM Unit := if c then throw e else pure ()

/-! ## The allocator -/

/-- The addresses that `kfree()` accepts. -/
def Phys.InPool (s : Phys) (f : Frame) : Prop := s.kend ≤ f.addr.toNat ∧ f.addr.toNat < phystop

instance (s : Phys) (f : Frame) : Decidable (s.InPool f) :=
  inferInstanceAs (Decidable (s.kend ≤ f.addr.toNat ∧ f.addr.toNat < phystop))

theorem inPool_congr {s t : Phys} {f : Frame} (h : t.kend = s.kend) : t.InPool f ↔ s.InPool f := by
  rw [Phys.InPool, Phys.InPool, h]

def kfree (pa : Frame) : VmM Unit := do
  let s ← get
  panicIf (¬ s.InPool pa) .kfree
  modify fun s => { s with mem := s.mem.fill pa 1, freelist := pa :: s.freelist }

def kalloc : VmM (Option Frame) := do
  let s ← get
  match s.freelist with
  | [] => return none
  | r :: next =>
    set { s with mem := s.mem.fill r 5, freelist := next }
    return some r

/-! ## Facts about the macros -/

section Macros
variable {va pte perm : BitVec 64} {f : Frame} {level : Nat}

theorem px_val (level : Nat) (va : BitVec 64) : (px level va).val = va.toNat / 2 ^ (12 + 9 * level) % 512 := by
  show ((va >>> (12 + 9 * level)) &&& 0x1FF#64).toNat = _
  rw [BitVec.toNat_and, BitVec.toNat_ushiftRight, Nat.shiftRight_eq_div_pow]
  exact Nat.and_two_pow_sub_one_eq_mod _ 9

theorem getLsbD_offsetMask {i : Nat} (hi : i < 64) : (~~~ (4096#64 - 1#64)).getLsbD i = decide (12 ≤ i) := by
  have hall : ∀ i : Fin 64, (~~~ (4096#64 - 1#64)).getLsbD i = decide (12 ≤ i.val) := by decide
  exact hall ⟨i, hi⟩

theorem pgrounddown_eq (a : BitVec 64) : pgrounddown a = (a >>> 12) <<< 12 := by
  apply BitVec.eq_of_getLsbD_eq
  intro i hi
  rw [pgrounddown, BitVec.getLsbD_and, getLsbD_offsetMask hi, BitVec.getLsbD_shiftLeft, BitVec.getLsbD_ushiftRight]
  by_cases h : 12 ≤ i
  · simp [h, hi, Nat.not_lt.mpr h]
  · simp [h, Nat.lt_of_not_le h]

theorem toNat_pgrounddown (a : BitVec 64) : (pgrounddown a).toNat = a.toNat / 4096 * 4096 := by
  have ha := a.isLt
  rw [pgrounddown_eq, BitVec.toNat_shiftLeft, BitVec.toNat_ushiftRight, Nat.shiftRight_eq_div_pow,
    Nat.shiftLeft_eq, Nat.mod_eq_of_lt (by omega)]

theorem toNat_pgroundup (a : BitVec 64) : (pgroundup a).toNat = (a.toNat + 4095) % 2 ^ 64 / 4096 * 4096 := by
  have hsum : (a + 4096#64 - 1#64).toNat = (a.toNat + 4095) % 2 ^ 64 := by
    rw [BitVec.toNat_sub, BitVec.toNat_add]
    show (2 ^ 64 - 1 + (a.toNat + 4096) % 2 ^ 64) % 2 ^ 64 = _
    omega
  show (pgrounddown (a + 4096#64 - 1#64)).toNat = _
  rw [toNat_pgrounddown, hsum]

theorem toNat_addr (f : Frame) : f.addr.toNat = f.toNat * 4096 := by
  have hf := f.isLt
  rw [Frame.addr, BitVec.toNat_shiftLeft, BitVec.toNat_setWidth, Nat.shiftLeft_eq, Nat.mod_eq_of_lt (by omega),
    Nat.mod_eq_of_lt (by omega)]

/-- What `PA2PTE(pa) | perm` stores, `PTE2PA` recovers. -/
theorem pteFrame_mk (h : perm.toNat < 2 ^ 10) : pteFrame (pa2pte f.addr ||| perm) = f := by
  apply BitVec.eq_of_getLsbD_eq
  intro i hi
  have hperm : perm.getLsbD (10 + i) = false := by
    rw [BitVec.getLsbD, Nat.testBit_lt_two_pow]
    exact Nat.lt_of_lt_of_le h (Nat.pow_le_pow_right (by decide) (Nat.le_add_right ..))
  have h64 : i < 64 ∧ 10 + i < 64 ∧ 12 + i < 64 := by omega
  simp only [pteFrame, frameOf, pte2pa, pa2pte, Frame.addr, BitVec.getLsbD_setWidth, BitVec.getLsbD_ushiftRight,
    BitVec.getLsbD_shiftLeft, BitVec.getLsbD_or]
  simp only [Nat.add_sub_cancel_left, hperm, hi, h64, decide_true, Bool.true_and, Bool.or_false, Nat.not_lt,
    Nat.le_add_right, decide_eq_false, Bool.not_false]

/-- `PTE2PA` gives the address of a page. -/
theorem addr_pteFrame (pte : BitVec 64) : (pteFrame pte).addr = pte2pa pte := by
  apply BitVec.eq_of_getLsbD_eq
  intro i hi
  simp only [pteFrame, frameOf, pte2pa, Frame.addr, BitVec.getLsbD_setWidth, BitVec.getLsbD_ushiftRight,
    BitVec.getLsbD_shiftLeft]
  by_cases h12 : i < 12
  · simp [h12]
  · have h52 : i - 12 < 52 ∧ i - 12 < 64 ∧ 12 + (i - 12) = i := by omega
    simp [h12, hi, h52]

theorem frameOf_addr (f : Frame) : frameOf f.addr = f := by
  apply BitVec.eq_of_toNat_eq
  have hf := f.isLt
  rw [frameOf, BitVec.toNat_setWidth, BitVec.toNat_ushiftRight, toNat_addr, Nat.shiftRight_eq_div_pow]
  omega

/-- The flags of an entry do not depend on its page. -/
theorem pa2pte_or_and {mask : BitVec 64} (h : mask.toNat < 2 ^ 10) :
    (pa2pte f.addr ||| perm) &&& mask = perm &&& mask := by
  apply BitVec.eq_of_getLsbD_eq
  intro i hi
  rw [BitVec.getLsbD_and, BitVec.getLsbD_and, BitVec.getLsbD_or, pa2pte, BitVec.getLsbD_shiftLeft]
  by_cases h10 : i < 10
  · simp [h10]
  · have hmask : mask.getLsbD i = false := by
      rw [BitVec.getLsbD, Nat.testBit_lt_two_pow]
      exact Nat.lt_of_lt_of_le h (Nat.pow_le_pow_right (by decide) (Nat.le_of_not_lt h10))
    rw [hmask, Bool.and_false, Bool.and_false]

/-- What `PA2PTE(pa) | perm` stores, `PTE_FLAGS` recovers. -/
theorem pteFlags_mk (h : perm.toNat < 2 ^ 10) : pteFlags (pa2pte f.addr ||| perm) = perm := by
  have hmask : (0x3FF#64).toNat = 2 ^ 10 - 1 := by decide
  rw [pteFlags, pa2pte_or_and (by decide)]
  apply BitVec.eq_of_toNat_eq
  rw [BitVec.toNat_and, hmask, Nat.and_two_pow_sub_one_eq_mod, Nat.mod_eq_of_lt h]

/-- The flags of a valid entry. -/
theorem pteFlags_or_pteV (h : pte &&& pteV ≠ 0) : pteFlags pte ||| pteV = pteFlags pte := by
  have hbit : pte.getLsbD 0 = true := by
    by_contra hc
    refine h (BitVec.eq_of_getLsbD_eq fun i hi => ?_)
    rw [BitVec.getLsbD_and, pteV, BitVec.getLsbD_shiftLeft, BitVec.getLsbD_one]
    by_cases h0 : i = 0
    · rw [h0, Bool.eq_false_iff.mpr hc, Bool.false_and]
      rfl
    · simp [h0]
  apply BitVec.eq_of_getLsbD_eq
  intro i hi
  rw [BitVec.getLsbD_or, pteFlags, BitVec.getLsbD_and, pteV, BitVec.getLsbD_shiftLeft, BitVec.getLsbD_one]
  by_cases h0 : i = 0
  · subst h0
    rw [hbit]
    decide
  · simp [h0]

theorem toNat_pteFlags (pte : BitVec 64) : (pteFlags pte).toNat < 2 ^ 10 := by
  rw [pteFlags, BitVec.toNat_and]
  exact Nat.lt_of_le_of_lt Nat.and_le_right (by decide)

theorem perm_or_lt (h : perm.toNat < 2 ^ 10) : (perm ||| pteV).toNat < 2 ^ 10 := by
  rw [BitVec.toNat_or]
  exact Nat.or_lt_two_pow h (by decide)

end Macros

/-! ## Entries in memory -/

section Entries
variable {m : Mem} {f g : Frame} {i j : Fin 512} {w : BitVec 64}

theorem pte_congr {m' : Mem} (h : m' g = m g) : m'.pte g j = m.pte g j := by rw [Mem.pte, Mem.pte, h]

theorem pte_setPte_self : (m.setPte f i w).pte f i = w := by
  have hle : le (fun j => m.setPte f i w f (8 * i + j)) 8 = le (byte w.toNat) 8 := by
    refine le_congr fun j hj => ?_
    rw [Mem.setPte, update_self, if_pos (by omega), Nat.add_sub_cancel_left]
  rw [Mem.pte, hle, le_byte, show 256 ^ 8 = 2 ^ 64 by decide, Nat.mod_eq_of_lt w.isLt, BitVec.ofNat_toNat,
    BitVec.setWidth_eq]

theorem setPte_of_ne (h : g ≠ f) : m.setPte f i w g = m g := update_of_ne h ..

theorem pte_setPte_ne (h : g ≠ f ∨ j ≠ i) : (m.setPte f i w).pte g j = m.pte g j := by
  by_cases hg : g = f
  · have hj : j.val ≠ i.val := fun hc => h.elim (fun h => h hg) fun h => h (Fin.ext hc)
    rw [hg, Mem.pte, Mem.pte]
    congr 1
    refine le_congr fun k hk => ?_
    rw [Mem.setPte, update_self, if_neg (by omega)]
  · exact pte_congr (setPte_of_ne hg)

theorem fill_of_ne {c : UInt8} (h : g ≠ f) : m.fill f c g = m g := update_of_ne h ..

theorem pte_fill_zero : (m.fill f 0).pte f i = 0 := by
  have hle : le (fun j => m.fill f 0 f (8 * i + j)) 8 = le (fun _ => 0) 8 :=
    le_congr fun j _ => by rw [Mem.fill, update_self]
  rw [Mem.pte, hle, le_zero]
  rfl

end Entries

end Xv6.Vm
