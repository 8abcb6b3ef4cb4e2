import Mathlib.Logic.Function.Basic
import Xv6.Lib.Bytes

/-!
# The file system image

The disk format of `fs.h`, byte by byte, and what the image is for the layers above.

* `Superblock` : the layout, as `mkfs` computes it;
* `Dinode.encode`, `Dinode.decode` : an on-disk inode and its 64 bytes;
* `Superblock.bit`, `Superblock.dinode` : the free bit of a block and an inode, as they stand in the image;
* `View`, `Superblock.view` : the image as a bitmap, a table of inodes and the data blocks, with what a write to each of
  them does to it (`view_setBit`, `view_setDinode`, `view_setBlk`).
-/

namespace Xv6.Fs
open Bytes Function

variable {f : Nat → UInt8}

/-! ## The format -/

def rootino : Nat := 1

def bsize : Nat := 1024

def ndirect : Nat := 12

/-- `BSIZE / sizeof(uint)` -/
def nindirect : Nat := bsize / 4

def maxfile : Nat := ndirect + nindirect

def nlinkMax : Int16 := 32767

/-- Inodes per block, `BSIZE / sizeof(struct dinode)`. -/
def ipb : Nat := bsize / 64

/-- Bitmap bits per block. -/
def bpb : Nat := bsize * 8

abbrev Image := Nat → Nat → UInt8

/-- The super block, and what `mkfs` guarantees of it: the inodes and the bitmap have their own blocks, in this order,
before the data blocks. -/
structure Superblock where
  size : Nat
  nblocks : Nat
  ninodes : Nat
  inodestart : Nat
  bmapstart : Nat
  root_lt : rootino < ninodes
  size_lt : size < 2 ^ 31
  inodes_lt : inodestart + (ninodes - 1) / ipb < bmapstart
  bmap_lt : bmapstart + (size - 1) / bpb < size - nblocks

/-- A block of inodes is enough for the root. -/
theorem root_lt_sixteen : rootino < 16 := by decide

theorem sixteen_inodes_lt : 2 + (16 - 1) / ipb < 3 := by decide

structure Dinode where
  type : Int16
  major : Int16
  minor : Int16
  nlink : Int16
  size : UInt32
  addrs : Fin 13 → UInt32

/-- `NDIRECT + 1` addresses -/
instance neZeroAddrs : NeZero 13 := ⟨by decide⟩

namespace Dinode

def zero : Dinode := ⟨0, 0, 0, 0, 0, fun _ => 0⟩

instance : Inhabited Dinode := ⟨zero⟩

end Dinode

def getShort (f : Nat → UInt8) (o : Nat) : Int16 := (UInt16.ofNat (le (fun i => f (o + i)) 2)).toInt16

def getUint (f : Nat → UInt8) (o : Nat) : UInt32 := UInt32.ofNat (le (fun i => f (o + i)) 4)

namespace Dinode

def encode (d : Dinode) (o : Nat) : UInt8 :=
  if o < 2 then byte d.type.toUInt16.toNat o
  else if o < 4 then byte d.major.toUInt16.toNat (o - 2)
  else if o < 6 then byte d.minor.toUInt16.toNat (o - 4)
  else if o < 8 then byte d.nlink.toUInt16.toNat (o - 6)
  else if o < 12 then byte d.size.toNat (o - 8)
  else byte (d.addrs (Fin.ofNat 13 ((o - 12) / 4))).toNat ((o - 12) % 4)

def decode (f : Nat → UInt8) : Dinode where
  type := getShort f 0
  major := getShort f 2
  minor := getShort f 4
  nlink := getShort f 6
  size := getUint f 8
  addrs := fun k => getUint f (12 + 4 * k)

end Dinode

theorem getShort_of_bytes {o : Nat} {x : Int16} (h : ∀ i < 2, f (o + i) = byte x.toUInt16.toNat i) :
    getShort f o = x := by
  have hlt : x.toUInt16.toNat < 256 ^ 2 := x.toUInt16.toNat_lt
  rw [getShort, le_congr h, le_byte, Nat.mod_eq_of_lt hlt, UInt16.ofNat_toNat, Int16.toInt16_toUInt16]

theorem getUint_of_bytes {o : Nat} {x : UInt32} (h : ∀ i < 4, f (o + i) = byte x.toNat i) :
    getUint f o = x := by
  have hlt : x.toNat < 256 ^ 4 := x.toNat_lt
  rw [getUint, le_congr h, le_byte, Nat.mod_eq_of_lt hlt, UInt32.ofNat_toNat]

theorem Dinode.decode_congr {g : Nat → UInt8} (h : ∀ o < 64, f o = g o) : decode f = decode g := by
  have hshort : ∀ o ≤ 62, getShort f o = getShort g o := fun o ho => by
    rw [getShort, getShort, le_congr fun k hk => h (o + k) (by omega)]
  have huint : ∀ o ≤ 60, getUint f o = getUint g o := fun o ho => by
    rw [getUint, getUint, le_congr fun k hk => h (o + k) (by omega)]
  have haddrs : (fun k : Fin 13 => getUint f (12 + 4 * k)) = fun k : Fin 13 => getUint g (12 + 4 * k) := by
    funext k
    exact huint _ (by omega)
  rw [decode, decode, hshort 0 (by omega), hshort 2 (by omega), hshort 4 (by omega), hshort 6 (by omega),
    huint 8 (by omega), haddrs]

theorem Dinode.decode_encode (d : Dinode) : decode d.encode = d := by
  have htype : getShort d.encode 0 = d.type := getShort_of_bytes fun i hi => by
    rw [encode, if_pos (by omega), Nat.zero_add]
  have hmajor : getShort d.encode 2 = d.major := getShort_of_bytes fun i hi => by
    rw [encode, if_neg (by omega), if_pos (by omega), Nat.add_sub_cancel_left]
  have hminor : getShort d.encode 4 = d.minor := getShort_of_bytes fun i hi => by
    rw [encode, if_neg (by omega), if_neg (by omega), if_pos (by omega), Nat.add_sub_cancel_left]
  have hnlink : getShort d.encode 6 = d.nlink := getShort_of_bytes fun i hi => by
    rw [encode, if_neg (by omega), if_neg (by omega), if_neg (by omega), if_pos (by omega), Nat.add_sub_cancel_left]
  have hsize : getUint d.encode 8 = d.size := getUint_of_bytes fun i hi => by
    rw [encode, if_neg (by omega), if_neg (by omega), if_neg (by omega), if_neg (by omega), if_pos (by omega),
      Nat.add_sub_cancel_left]
  have haddrs : (fun k : Fin 13 => getUint d.encode (12 + 4 * k)) = d.addrs := by
    funext k
    refine getUint_of_bytes fun i hi => ?_
    have hk : Fin.ofNat 13 ((12 + 4 * k.val + i - 12) / 4) = k := by
      apply Fin.ext
      have hlt := k.isLt
      show (12 + 4 * k.val + i - 12) / 4 % 13 = k.val
      omega
    rw [encode, if_neg (by omega), if_neg (by omega), if_neg (by omega), if_neg (by omega), if_neg (by omega), hk,
      show (12 + 4 * k.val + i - 12) % 4 = i by omega]
  rw [decode, htype, hmajor, hminor, hnlink, hsize, haddrs]

namespace Superblock
variable (sb : Superblock)

/-- The blocks before the data blocks. -/
def nmeta : Nat := sb.size - sb.nblocks

/-- `IBLOCK(i, sb)` -/
def iblock (i : Nat) : Nat := i / ipb + sb.inodestart

/-- `BBLOCK(b, sb)` -/
def bblock (b : Nat) : Nat := b / bpb + sb.bmapstart

def dinode (img : Image) (i : Nat) : Dinode := .decode fun o => img (sb.iblock i) (i % ipb * 64 + o)

def bit (img : Image) (b : Nat) : Bool := img (sb.bblock b) (b % bpb / 8) &&& mask (b % bpb % 8) != 0

def setDinode (img : Image) (i : Nat) (d : Dinode) : Image :=
  update img (sb.iblock i) fun o => if o / 64 = i % ipb then d.encode (o % 64) else img (sb.iblock i) o

def setBit (img : Image) (b : Nat) : Image :=
  update img (sb.bblock b) fun o =>
    if o = b % bpb / 8 then img (sb.bblock b) o ||| mask (b % bpb % 8) else img (sb.bblock b) o

def clearBit (img : Image) (b : Nat) : Image :=
  update img (sb.bblock b) fun o =>
    if o = b % bpb / 8 then img (sb.bblock b) o &&& ~~~ mask (b % bpb % 8) else img (sb.bblock b) o

end Superblock

/-! ## The image as three tables -/

/-- The free bitmap, the inodes and the data blocks. -/
@[ext]
structure View where
  bit : Nat → Bool
  ino : Nat → Dinode
  blk : Nat → Nat → UInt8

namespace View

def setBit (v : View) (b : Nat) (x : Bool) : View := { v with bit := update v.bit b x }

def setIno (v : View) (i : Nat) (d : Dinode) : View := { v with ino := update v.ino i d }

def setBlk (v : View) (b : Nat) (f : Nat → UInt8) : View := { v with blk := update v.blk b f }

end View

section Regions
variable {sb : Superblock} {img : Image} {i j b : Nat}

theorem Superblock.iblock_lt (hi : i < sb.ninodes) : sb.iblock i < sb.bmapstart := by
  have hle : i / ipb ≤ (sb.ninodes - 1) / ipb := Nat.div_le_div_right (by omega)
  have hlt := sb.inodes_lt
  rw [Superblock.iblock]
  omega

theorem Superblock.bblock_lt (hb : b < sb.size) : sb.bblock b < sb.nmeta := by
  have hle : b / bpb ≤ (sb.size - 1) / bpb := Nat.div_le_div_right (by omega)
  have hlt := sb.bmap_lt
  rw [Superblock.bblock, Superblock.nmeta]
  omega

theorem Superblock.bmapstart_le_bblock (b : Nat) : sb.bmapstart ≤ sb.bblock b := Nat.le_add_left _ _

theorem Superblock.bmapstart_lt : sb.bmapstart < sb.nmeta := Nat.lt_of_le_of_lt (Nat.le_add_right _ _) sb.bmap_lt

theorem dinode_update_of_ne {f : Nat → UInt8} (h : sb.iblock i ≠ b) :
    sb.dinode (update img b f) i = sb.dinode img i := by
  rw [Superblock.dinode, update_of_ne h]
  rfl

theorem bit_update_of_ne {f : Nat → UInt8} {c : Nat} (h : sb.bblock b ≠ c) :
    sb.bit (update img c f) b = sb.bit img b := by
  rw [Superblock.bit, update_of_ne h]
  rfl

theorem dinode_setDinode_self (d : Dinode) : sb.dinode (sb.setDinode img i d) i = d := by
  refine Eq.trans (Dinode.decode_congr fun o ho => ?_) d.decode_encode
  rw [Superblock.setDinode, update_self, if_pos (by omega), show (i % ipb * 64 + o) % 64 = o by omega]

theorem dinode_setDinode_of_ne (d : Dinode) (h : j ≠ i) : sb.dinode (sb.setDinode img i d) j = sb.dinode img j := by
  by_cases hb : sb.iblock j = sb.iblock i
  · -- in the same block, but in another slot of it
    have hmod : j % ipb ≠ i % ipb := fun hm => by
      have hdiv : j / ipb = i / ipb := Nat.add_right_cancel hb
      exact h (by rw [← Nat.div_add_mod j ipb, ← Nat.div_add_mod i ipb, hdiv, hm])
    refine Dinode.decode_congr fun o ho => ?_
    rw [Superblock.setDinode, hb, update_self, if_neg (by omega)]
  · exact dinode_update_of_ne hb

/-- A write to the byte of the bitmap that holds the bit of `b`. -/
theorem bit_update (op : UInt8 → UInt8) {x : Bool}
    (hself : op (img (sb.bblock b) (b % bpb / 8)) &&& mask (b % bpb % 8) ≠ 0 ↔ x = true)
    (hother : ∀ k < 8, k ≠ b % bpb % 8 → (op (img (sb.bblock b) (b % bpb / 8)) &&& mask k ≠ 0 ↔
      img (sb.bblock b) (b % bpb / 8) &&& mask k ≠ 0)) (c : Nat) :
    sb.bit (update img (sb.bblock b) fun o =>
      if o = b % bpb / 8 then op (img (sb.bblock b) o) else img (sb.bblock b) o) c =
    update (sb.bit img) b x c := by
  by_cases hc : c = b
  · rw [hc, update_self, Superblock.bit, update_self, if_pos rfl]
    cases x with
    | false => simpa using hself
    | true => simpa using hself
  rw [update_of_ne hc]
  by_cases hb : sb.bblock c = sb.bblock b
  · have hmod : c % bpb ≠ b % bpb := fun hm => by
      have hdiv : c / bpb = b / bpb := Nat.add_right_cancel hb
      exact hc (by rw [← Nat.div_add_mod c bpb, ← Nat.div_add_mod b bpb, hdiv, hm])
    rw [Superblock.bit, Superblock.bit, hb, update_self]
    by_cases hbyte : c % bpb / 8 = b % bpb / 8
    · rw [if_pos hbyte, hbyte]
      have hiff := hother (c % bpb % 8) (Nat.mod_lt _ (by omega)) (by omega)
      exact Bool.eq_iff_iff.mpr (by simpa using hiff)
    · rw [if_neg hbyte]
  · exact bit_update_of_ne hb

theorem bit_setBit (c : Nat) : sb.bit (sb.setBit img b) c = update (sb.bit img) b true c := by
  have hlt : b % bpb % 8 < 8 := Nat.mod_lt _ (by omega)
  refine bit_update (fun y => y ||| mask (b % bpb % 8)) ?_ (fun k hk hne => ?_) c
  · rw [or_mask hlt hlt]
    simp
  · rw [or_mask hk hlt]
    simp [hne]

theorem bit_clearBit (c : Nat) : sb.bit (sb.clearBit img b) c = update (sb.bit img) b false c := by
  have hlt : b % bpb % 8 < 8 := Nat.mod_lt _ (by omega)
  refine bit_update (fun y => y &&& ~~~ mask (b % bpb % 8)) ?_ (fun k hk hne => ?_) c
  · rw [not_mask hlt hlt]
    simp
  · rw [not_mask hk hlt]
    simp [hne]

end Regions

/-- What of the image belongs to the file system: the bitmap in its blocks, the inodes below `sb.ninodes` and the data
blocks. -/
def Superblock.view (sb : Superblock) (img : Image) : View where
  bit b := decide (sb.bblock b < sb.nmeta) && sb.bit img b
  ino i := if i < sb.ninodes then sb.dinode img i else .zero
  blk b := if sb.nmeta ≤ b ∧ b < sb.size then img b else fun _ => 0

section Writes
variable {sb : Superblock} {img : Image} {i b : Nat}

theorem view_ino (hi : i < sb.ninodes) : (sb.view img).ino i = sb.dinode img i := if_pos hi

theorem view_bit (hb : b < sb.size) : (sb.view img).bit b = sb.bit img b := by
  show (decide (sb.bblock b < sb.nmeta) && sb.bit img b) = sb.bit img b
  rw [decide_eq_true (Superblock.bblock_lt hb), Bool.true_and]

theorem view_blk (hm : sb.nmeta ≤ b) (hb : b < sb.size) : (sb.view img).blk b = img b := if_pos ⟨hm, hb⟩

/-- A write to a bitmap block. -/
theorem view_bitmap {f : Nat → UInt8} {x : Bool} (hb : b < sb.size)
    (hbit : ∀ c, sb.bit (update img (sb.bblock b) f) c = update (sb.bit img) b x c) :
    sb.view (update img (sb.bblock b) f) = (sb.view img).setBit b x := by
  have hlt := sb.bblock_lt hb
  have hstart := sb.bmapstart_le_bblock b
  apply View.ext
  · funext c
    show (decide (sb.bblock c < sb.nmeta) && sb.bit (update img (sb.bblock b) f) c) =
      update (sb.view img).bit b x c
    rw [hbit]
    by_cases hc : c = b
    · rw [hc, update_self, update_self, decide_eq_true hlt, Bool.true_and]
    · rw [update_of_ne hc, update_of_ne hc]
      rfl
  · funext i
    show (if i < sb.ninodes then sb.dinode (update img (sb.bblock b) f) i else .zero) = (sb.view img).ino i
    by_cases hi : i < sb.ninodes
    · have hib := sb.iblock_lt hi
      rw [if_pos hi, view_ino hi, dinode_update_of_ne (by omega)]
    · rw [if_neg hi]
      exact (if_neg hi).symm
  · funext c
    show (if sb.nmeta ≤ c ∧ c < sb.size then update img (sb.bblock b) f c else fun _ => 0) =
      (sb.view img).blk c
    by_cases hc : sb.nmeta ≤ c ∧ c < sb.size
    · rw [if_pos hc, view_blk hc.1 hc.2, update_of_ne (by omega)]
    · rw [if_neg hc]
      exact (if_neg hc).symm

theorem view_setBit (hb : b < sb.size) : sb.view (sb.setBit img b) = (sb.view img).setBit b true :=
  view_bitmap hb bit_setBit

theorem view_clearBit (hb : b < sb.size) : sb.view (sb.clearBit img b) = (sb.view img).setBit b false :=
  view_bitmap hb bit_clearBit

theorem view_setDinode {d : Dinode} (hi : i < sb.ninodes) :
    sb.view (sb.setDinode img i d) = (sb.view img).setIno i d := by
  have hib := sb.iblock_lt hi
  have hmeta := sb.bmapstart_lt
  apply View.ext
  · funext c
    show (decide (sb.bblock c < sb.nmeta) && sb.bit (sb.setDinode img i d) c) = (sb.view img).bit c
    have hc := sb.bmapstart_le_bblock c
    rw [Superblock.setDinode, bit_update_of_ne (by omega)]
    rfl
  · funext j
    show (if j < sb.ninodes then sb.dinode (sb.setDinode img i d) j else .zero) = update (sb.view img).ino i d j
    by_cases hji : j = i
    · rw [hji, if_pos hi, dinode_setDinode_self, update_self]
    · rw [dinode_setDinode_of_ne d hji, update_of_ne hji]
      rfl
  · funext c
    show (if sb.nmeta ≤ c ∧ c < sb.size then sb.setDinode img i d c else fun _ => 0) = (sb.view img).blk c
    by_cases hc : sb.nmeta ≤ c ∧ c < sb.size
    · rw [if_pos hc, view_blk hc.1 hc.2, Superblock.setDinode, update_of_ne (by omega)]
    · rw [if_neg hc]
      exact (if_neg hc).symm

theorem view_setBlk {f : Nat → UInt8} (hm : sb.nmeta ≤ b) (hb : b < sb.size) :
    sb.view (update img b f) = (sb.view img).setBlk b f := by
  have hmeta := sb.bmapstart_lt
  apply View.ext
  · funext c
    show (decide (sb.bblock c < sb.nmeta) && sb.bit (update img b f) c) = (sb.view img).bit c
    by_cases hc : sb.bblock c < sb.nmeta
    · rw [bit_update_of_ne (by omega)]
      rfl
    · rw [decide_eq_false hc, Bool.false_and]
      show false = (decide (sb.bblock c < sb.nmeta) && sb.bit img c)
      rw [decide_eq_false hc, Bool.false_and]
  · funext i
    show (if i < sb.ninodes then sb.dinode (update img b f) i else .zero) = (sb.view img).ino i
    by_cases hi : i < sb.ninodes
    · have hib := sb.iblock_lt hi
      rw [if_pos hi, view_ino hi, dinode_update_of_ne (by omega)]
    · rw [if_neg hi]
      exact (if_neg hi).symm
  · funext c
    show (if sb.nmeta ≤ c ∧ c < sb.size then update img b f c else fun _ => 0) =
      update (sb.view img).blk b f c
    by_cases hc : c = b
    · rw [hc, if_pos ⟨hm, hb⟩, update_self, update_self]
    · rw [update_of_ne hc, update_of_ne hc]
      rfl

end Writes

end Xv6.Fs
