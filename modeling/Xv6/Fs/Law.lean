import Xv6.Fs.Calls
import Xv6.Lib.Alloc

/-!
# The block allocation law

* `View.at` : the block at a place of an inode: its direct addresses, the indirect block, the entries of that block;
* `View.own`, `Law` : the set bits of the bitmap are exactly the metadata blocks and the blocks of the inodes in use,
  each once, and all are below `sb.size`;
* `Sound` : the law, no holes, and directories that name only inodes that exist; what each kind of write does to it.
-/

namespace Xv6.Fs
open Bytes Alloc Function

/-! ## The places of an inode -/

/-- Places 0 to 11 are the direct addresses, 12 is the indirect block, and 13 to 268 are its entries. -/
def nplaces : Nat := 13 + nindirect

/-- The place of block `bn` of a file. -/
def place (bn : Nat) : Nat := if bn < ndirect then bn else bn + 1

theorem place_lt {bn : Nat} (h : bn < maxfile) : place bn < nplaces := by
  rw [place]
  show _ < 13 + nindirect
  have hmax : maxfile = 12 + nindirect := rfl
  split <;> omega

theorem place_ne (bn : Nat) : place bn ≠ 12 := by
  rw [place]
  have hnd : ndirect = 12 := rfl
  split <;> omega

inductive Pos
  | boot (b : Nat)
  | block (i p : Nat)
deriving DecidableEq

namespace View
variable (v : View) (sb : Superblock)

def «at» (i p : Nat) : Nat :=
  if p < 13 then ((v.ino i).addrs (Fin.ofNat 13 p)).toNat
  else if (v.ino i).addrs 12 = 0 then 0
  else (getUint (v.blk ((v.ino i).addrs 12).toNat) (4 * (p - 13))).toNat

/-- The inode numbers in use. -/
def Live (i : Nat) : Prop := i < sb.ninodes ∧ (v.ino i).type ≠ 0

instance (i : Nat) : Decidable (v.Live sb i) := inferInstanceAs (Decidable (_ ∧ _))

/-- The metadata blocks, and the blocks that the inodes in use refer to. -/
def own : Pos → Option Nat
  | .boot b => if b < sb.nmeta then some b else none
  | .block i p => if v.Live sb i ∧ p < nplaces ∧ v.at i p ≠ 0 then some (v.at i p) else none

/-- The blocks of file `i` up to byte `n` are there. -/
def Full (i n : Nat) : Prop := ∀ bn, bn * bsize < n → bn < maxfile ∧ v.at i (place bn) ≠ 0

/-- The inode number in entry `k` of directory `i`. -/
def entry (i k : Nat) : Nat :=
  le (fun o => v.blk (v.at i (place (direntSize * k / bsize))) (direntSize * k % bsize + o)) 2

/-- The entries of directory `i` up to byte `n` name inodes that exist. -/
def Entries (i n : Nat) : Prop := ∀ k, direntSize * k + direntSize ≤ n → v.entry i k < sb.ninodes

end View

/-- The block allocation law; `held` are blocks in the hands of a call in progress. -/
structure Law (sb : Superblock) (v : View) (held : List Nat) : Prop where
  exact : Exact (fun b => v.bit b = true) (v.own sb) held
  below : ∀ b, v.bit b = true → b < sb.size

structure Sound (sb : Superblock) (v : View) (held : List Nat) : Prop extends Law sb v held where
  full : ∀ i, v.Live sb i → v.Full i (v.ino i).size.toNat
  dirs : ∀ i, v.Live sb i → (v.ino i).type = tDir → v.Entries sb i (v.ino i).size.toNat

section
variable {sb : Superblock} {v v' : View} {X : List Nat} {i p b : Nat} {f : Nat → UInt8} {d : Dinode} {j a n : Nat}
  {k : Fin 13}

theorem own_block_eq (hl : v.Live sb i) (hp : p < nplaces) (h0 : v.at i p ≠ 0) :
    v.own sb (.block i p) = some (v.at i p) :=
  if_pos ⟨hl, hp, h0⟩

theorem own_block_iff : v.own sb (.block i p) = some b ↔ v.Live sb i ∧ p < nplaces ∧ v.at i p = b ∧ b ≠ 0 := by
  by_cases h : v.Live sb i ∧ p < nplaces ∧ v.at i p ≠ 0
  · rw [View.own, if_pos h]
    constructor
    · intro he
      obtain rfl := Option.some.inj he
      exact ⟨h.1, h.2.1, rfl, h.2.2⟩
    · rintro ⟨-, -, rfl, -⟩
      rfl
  · rw [View.own, if_neg h]
    constructor
    · intro he
      cases he
    · rintro ⟨hl, hp, rfl, h0⟩
      exact absurd ⟨hl, hp, h0⟩ h

theorem own_boot_iff {c : Nat} : v.own sb (.boot c) = some b ↔ b = c ∧ c < sb.nmeta := by
  by_cases hlt : c < sb.nmeta
  · rw [View.own, if_pos hlt]
    exact ⟨fun h => ⟨(Option.some.inj h).symm, hlt⟩, fun h => congrArg some h.1.symm⟩
  · rw [View.own, if_neg hlt]
    constructor
    · intro h
      cases h
    · exact fun h => absurd h.2 hlt

theorem own_block_none (h : v.at i p = 0) : v.own sb (.block i p) = none := if_neg fun hc => hc.2.2 h

/-- What an inode refers to is a data block. -/
theorem Law.data (h : Law sb v X) (hb : v.own sb (.block i p) = some b) : sb.nmeta ≤ b ∧ b < sb.size := by
  refine ⟨Nat.le_of_not_lt fun hlt => ?_, h.below b (h.exact.used_of_own hb)⟩
  have hboot : v.own sb (.boot b) = some b := if_pos hlt
  exact Pos.noConfusion (h.exact.once hboot hb)

theorem Law.held_data (h : Law sb v X) (hb : b ∈ X) : sb.nmeta ≤ b ∧ b < sb.size := by
  refine ⟨Nat.le_of_not_lt fun hlt => ?_, h.below b (h.exact.used_of_held hb)⟩
  have hboot : v.own sb (.boot b) = some b := if_pos hlt
  exact h.exact.not_held hboot hb

theorem Superblock.nmeta_pos : 0 < sb.nmeta := Nat.lt_of_le_of_lt (Nat.zero_le _) sb.bmapstart_lt

/-- **How `full` and `dirs` are carried over**: each inode in use is new and empty, or has kept what it had. -/
theorem Sound.of_law {Y : List Nat} (h : Sound sb v X) (hlaw : Law sb v' Y)
    (hkeep : ∀ j, v'.Live sb j → (v'.ino j).size = 0 ∨ (v.Live sb j ∧ (v'.ino j).type = (v.ino j).type ∧
      (v'.ino j).size = (v.ino j).size ∧ ∀ p, p ≠ 12 → p < nplaces → v.at j p ≠ 0 →
        v'.at j p = v.at j p ∧ v'.blk (v.at j p) = v.blk (v.at j p))) : Sound sb v' Y where
  toLaw := hlaw
  full j hj bn hbn := by
    rcases hkeep j hj with h0 | ⟨hl, -, hsize, hat⟩
    · rw [h0] at hbn
      exact absurd hbn (Nat.not_lt_zero _)
    · rw [hsize] at hbn
      obtain ⟨hlt, hne⟩ := h.full j hl bn hbn
      refine ⟨hlt, ?_⟩
      rwa [(hat _ (place_ne bn) (place_lt hlt) hne).1]
  dirs j hj hdir k hk := by
    rcases hkeep j hj with h0 | ⟨hl, htype, hsize, hat⟩
    · rw [h0] at hk
      exact absurd hk (Nat.not_le_of_lt (Nat.lt_of_lt_of_le (by decide) (Nat.le_add_left _ _)))
    · rw [hsize] at hk
      have hin : direntSize * k / bsize * bsize < (v.ino j).size.toNat :=
        Nat.lt_of_le_of_lt (Nat.div_mul_le_self _ _) (Nat.lt_of_lt_of_le (Nat.lt_add_of_pos_right (by decide)) hk)
      obtain ⟨hlt, hne⟩ := h.full j hl _ hin
      obtain ⟨hat, hblk⟩ := hat _ (place_ne _) (place_lt hlt) hne
      have hold := h.dirs j hl (htype ▸ hdir) k hk
      rwa [View.entry, hat, hblk]

theorem own_congr (hlive : ∀ j, v'.Live sb j ↔ v.Live sb j)
    (hat : ∀ j p, v.Live sb j → p < nplaces → v'.at j p = v.at j p) (q : Pos) : v'.own sb q = v.own sb q := by
  cases q with
  | boot b => rfl
  | block j p =>
    rw [View.own, View.own]
    by_cases hl : v.Live sb j ∧ p < nplaces
    · rw [hat j p hl.1 hl.2]
      exact if_congr (by rw [hlive]) rfl rfl
    · rw [if_neg (fun hc => hl ⟨(hlive j).mp hc.1, hc.2.1⟩), if_neg (fun hc => hl ⟨hc.1, hc.2.1⟩)]

theorem at_indirect : v.at i 12 = ((v.ino i).addrs 12).toNat := rfl

theorem at_direct (k : Fin 13) : v.at i k = ((v.ino i).addrs k).toNat := by
  rw [View.at, if_pos k.isLt]
  congr 2
  exact Fin.ext (Nat.mod_eq_of_lt k.isLt)

theorem toNat_ne_zero {x : UInt32} (h : x ≠ 0) : x.toNat ≠ 0 := fun hc => h (UInt32.toNat_inj.mp hc)

theorem at_setBlk (h : (v.ino i).addrs 12 ≠ 0 → v.at i 12 ≠ b) (p : Nat) :
    (v.setBlk b f).at i p = v.at i p := by
  rw [View.at, View.at]
  show (if p < 13 then ((v.ino i).addrs (Fin.ofNat 13 p)).toNat else if (v.ino i).addrs 12 = 0 then 0
    else (getUint (update v.blk b f ((v.ino i).addrs 12).toNat) (4 * (p - 13))).toNat) = _
  by_cases h0 : (v.ino i).addrs 12 = 0
  · rw [if_pos h0, if_pos h0]
  · have hne : ((v.ino i).addrs 12).toNat ≠ b := h h0
    rw [update_of_ne hne]

theorem ino_setIno_of_ne (h : j ≠ i) : (v.setIno i d).ino j = v.ino j := update_of_ne h ..

theorem at_setIno_of_ne (h : j ≠ i) (p : Nat) : (v.setIno i d).at j p = v.at j p := by
  rw [View.at, View.at, ino_setIno_of_ne h]
  rfl

theorem setIno_self : (v.setIno i d).ino i = d := update_self ..

theorem live_setIno_of_ne (h : j ≠ i) : (v.setIno i d).Live sb j ↔ v.Live sb j := by
  rw [View.Live, View.Live, ino_setIno_of_ne h]

/-- An inode whose addresses and type stay keeps its places. -/
theorem at_setIno_self (h : d.addrs = (v.ino i).addrs) (p : Nat) : (v.setIno i d).at i p = v.at i p := by
  rw [View.at, View.at, setIno_self, h]
  rfl

/-! ## What a write leaves alone -/

/-- All files but `i` are as they were. -/
structure Others (sb : Superblock) (i : Nat) (v v' : View) : Prop where
  ino : ∀ j, j ≠ i → v'.ino j = v.ino j
  places : ∀ j p, j ≠ i → v.Live sb j → p < nplaces → v'.at j p = v.at j p
  blk : ∀ j p, j ≠ i → v.Live sb j → p < nplaces → p ≠ 12 → v.at j p ≠ 0 → v'.blk (v.at j p) = v.blk (v.at j p)

/-- Besides, file `i` may have got blocks at places that were empty; its contents are as they were. -/
structure Gains (sb : Superblock) (i : Nat) (v v' : View) : Prop extends Others sb i v v' where
  self : v'.ino i = { v.ino i with addrs := (v'.ino i).addrs }
  filled : ∀ p, v.Live sb i → p < nplaces → v.at i p ≠ 0 → v'.at i p = v.at i p
  kept : ∀ p, v.Live sb i → p < nplaces → p ≠ 12 → v.at i p ≠ 0 → v'.blk (v.at i p) = v.blk (v.at i p)

theorem Others.refl : Others sb i v v := ⟨fun _ _ => rfl, fun _ _ _ _ _ => rfl, fun _ _ _ _ _ _ _ => rfl⟩

theorem Others.live (h : Others sb i v v') (hj : j ≠ i) : v'.Live sb j ↔ v.Live sb j := by
  rw [View.Live, View.Live, h.ino j hj]

theorem Others.trans {v'' : View} (h : Others sb i v v') (h' : Others sb i v' v'') : Others sb i v v'' where
  ino j hj := (h'.ino j hj).trans (h.ino j hj)
  places j p hj hl hp := (h'.places j p hj ((h.live hj).mpr hl) hp).trans (h.places j p hj hl hp)
  blk j p hj hl hp hp12 h0 := by
    have hat := h.places j p hj hl hp
    have hblk := h'.blk j p hj ((h.live hj).mpr hl) hp hp12
    rw [hat] at hblk
    exact (hblk h0).trans (h.blk j p hj hl hp hp12 h0)

theorem Gains.refl : Gains sb i v v := ⟨.refl, rfl, fun _ _ _ _ => rfl, fun _ _ _ _ _ => rfl⟩

theorem Gains.live (h : Gains sb i v v') : v'.Live sb i ↔ v.Live sb i := by
  rw [View.Live, View.Live, h.self]

theorem Gains.trans {v'' : View} (h : Gains sb i v v') (h' : Gains sb i v' v'') : Gains sb i v v'' where
  toOthers := h.toOthers.trans h'.toOthers
  self := by rw [h'.self, h.self]
  filled p hl hp h0 := by
    have hat := h.filled p hl hp h0
    rw [← hat] at h0 ⊢
    exact h'.filled p (h.live.mpr hl) hp h0
  kept p hl hp hp12 h0 := by
    have hat := h.filled p hl hp h0
    have hblk := h'.kept p (h.live.mpr hl) hp hp12
    rw [hat] at hblk
    exact (hblk h0).trans (h.kept p hl hp hp12 h0)

/-! ## What the calls write -/

/-- `balloc()` sets the bit of a free block and writes to the block. -/
theorem Law.alloc (h : Law sb v X) (hb : v.bit b = false) (hlt : b < sb.size) :
    Law sb ((v.setBit b true).setBlk b f) (b :: X) ∧ Gains sb i v ((v.setBit b true).setBlk b f) := by
  have hused : ∀ c, (v.setBit b true).bit c = true ↔ c = b ∨ v.bit c = true := fun c => by
    show update v.bit b true c = true ↔ _
    by_cases hc : c = b
    · rw [hc, update_self]
      simp
    · rw [update_of_ne hc]
      simp [hc]
  have hne : ∀ {j p}, v.Live sb j → p < nplaces → v.at j p ≠ 0 → v.at j p ≠ b := fun hj hp h0 he => by
    have hbit := h.exact.used_of_own (own_block_eq hj hp h0)
    rw [he, hb] at hbit
    exact Bool.noConfusion hbit
  have hat : ∀ j p, v.Live sb j → ((v.setBit b true).setBlk b f).at j p = v.at j p := fun j p hj =>
    at_setBlk (v := v.setBit b true) (fun h0 => hne hj (by decide) (toNat_ne_zero h0)) p
  have hblk : ∀ j p, v.Live sb j → p < nplaces → v.at j p ≠ 0 →
      ((v.setBit b true).setBlk b f).blk (v.at j p) = v.blk (v.at j p) := fun j p hj hp h0 =>
    update_of_ne (hne hj hp h0) ..
  refine ⟨⟨?_, fun c hc => ?_⟩, ⟨fun _ _ => rfl, fun j p _ hj _ => hat j p hj, fun j p _ hj hp _ h0 =>
    hblk j p hj hp h0⟩, rfl, fun p hl _ _ => hat i p hl, fun p hl hp _ h0 => hblk i p hl hp h0⟩
  · exact (h.exact.alloc (fun hbit => Bool.noConfusion (hb.symm.trans hbit)) hused).congr_own
      (own_congr (fun _ => Iff.rfl) fun j p hj _ => hat j p hj)
  · rcases (hused c).mp hc with rfl | hc
    · exact hlt
    · exact h.below c hc

theorem Sound.free (h : Sound sb v (b :: X)) : Sound sb (v.setBit b false) X := by
  have hused : ∀ c, (v.setBit b false).bit c = true ↔ c ≠ b ∧ v.bit c = true := fun c => by
    show update v.bit b false c = true ↔ _
    by_cases hc : c = b
    · rw [hc, update_self]
      simp
    · rw [update_of_ne hc]
      simp [hc]
  exact h.of_law ⟨h.exact.free hused, fun c hc => h.below c ((hused c).mp hc).2⟩
    fun j hj => .inr ⟨hj, rfl, rfl, fun p _ _ _ => ⟨rfl, rfl⟩⟩

/-- **A change of one inode**: `full` and `dirs` are kept when it is empty or keeps what it had. -/
theorem Sound.of_setIno {Y : List Nat} (h : Sound sb v X) (hlaw : Law sb (v.setIno i d) Y)
    (hd : d.size = 0 ∨ (d.type = (v.ino i).type ∧ d.size = (v.ino i).size ∧ ∀ p, p ≠ 12 → p < nplaces → v.at i p ≠ 0 →
      (v.setIno i d).at i p = v.at i p)) : Sound sb (v.setIno i d) Y := by
  refine h.of_law hlaw fun j hj => ?_
  by_cases hji : j = i
  · subst hji
    rcases hd with hd | ⟨htype, hsize, hat⟩
    · left
      rw [setIno_self, hd]
    · have hlive : v.Live sb j := ⟨hj.1, by rw [← htype]; simpa [setIno_self] using hj.2⟩
      right
      rw [setIno_self]
      exact ⟨hlive, htype, hsize, fun p hp hlt h0 => ⟨hat p hp hlt h0, rfl⟩⟩
  · right
    rw [ino_setIno_of_ne hji]
    exact ⟨(live_setIno_of_ne hji).mp hj, rfl, rfl, fun p _ _ _ => ⟨at_setIno_of_ne hji p, rfl⟩⟩

/-- A change of an inode that leaves its type, its size and its addresses. -/
theorem Sound.setIno_of_eq (h : Sound sb v X) (htype : d.type = (v.ino i).type) (hsize : d.size = (v.ino i).size)
    (haddrs : d.addrs = (v.ino i).addrs) : Sound sb (v.setIno i d) X := by
  have hlive : ∀ j, (v.setIno i d).Live sb j ↔ v.Live sb j := fun j => by
    by_cases hj : j = i
    · rw [hj, View.Live, View.Live, setIno_self, htype]
    · exact live_setIno_of_ne hj
  have hat : ∀ j p, (v.setIno i d).at j p = v.at j p := fun j p => by
    by_cases hj : j = i
    · rw [hj, at_setIno_self haddrs]
    · exact at_setIno_of_ne hj p
  exact h.of_setIno ⟨h.exact.congr_own (own_congr hlive fun j p _ _ => hat j p), h.below⟩
    (.inr ⟨htype, hsize, fun p _ _ _ => hat i p⟩)

/-- A new size: the file is full up to it, and the entries up to it are in order. -/
theorem Sound.resize {n : UInt32} (h : Sound sb v X) (hfull : v.Full i n.toNat)
    (hdirs : (v.ino i).type = tDir → v.Entries sb i n.toNat) : Sound sb (v.setIno i { v.ino i with size := n }) X := by
  have hlive : ∀ j, (v.setIno i { v.ino i with size := n }).Live sb j ↔ v.Live sb j := fun j => by
    by_cases hj : j = i
    · rw [hj, View.Live, View.Live, setIno_self]
    · exact live_setIno_of_ne hj
  have hat : ∀ j p, (v.setIno i { v.ino i with size := n }).at j p = v.at j p := fun j p => by
    by_cases hj : j = i
    · rw [hj]
      exact at_setIno_self (d := { v.ino i with size := n }) rfl p
    · exact at_setIno_of_ne hj p
  refine ⟨⟨h.exact.congr_own (own_congr hlive fun j p _ _ => hat j p), h.below⟩, fun j hj => ?_, fun j hj hdir => ?_⟩
  · by_cases hji : j = i
    · subst hji
      rw [setIno_self]
      intro bn hbn
      rw [hat]
      exact hfull bn hbn
    · rw [ino_setIno_of_ne hji]
      intro bn hbn
      rw [hat]
      exact h.full j ((hlive j).mp hj) bn hbn
  · by_cases hji : j = i
    · subst hji
      rw [setIno_self] at hdir ⊢
      intro k hk
      rw [View.entry, hat]
      exact hdirs hdir k hk
    · rw [ino_setIno_of_ne hji] at hdir ⊢
      intro k hk
      rw [View.entry, hat]
      exact h.dirs j ((hlive j).mp hj) hdir k hk

theorem live_setAddr : (v.setIno i ((v.ino i).setAddr k a)).Live sb j ↔ v.Live sb j := by
  by_cases hj : j = i
  · rw [hj, View.Live, View.Live, setIno_self]
    rfl
  · exact live_setIno_of_ne hj

theorem addrs_setAddr_of_ne {m : Fin 13} (h : m ≠ k) : (d.setAddr k a).addrs m = d.addrs m :=
  update_of_ne h ..

theorem addrs_setAddr_self (ha : a < 2 ^ 32) : ((d.setAddr k a).addrs k).toNat = a := by
  show (update d.addrs k (UInt32.ofNat a) k).toNat = a
  rw [update_self, UInt32.toNat_ofNat', Nat.mod_eq_of_lt ha]

theorem at_setAddr_self (ha : a < 2 ^ 32) : (v.setIno i ((v.ino i).setAddr k a)).at i k = a := by
  rw [at_direct, setIno_self, addrs_setAddr_self ha]

/-- The other direct places of an inode when its address `k` changes. -/
theorem at_setAddr_direct (hlt : p < 13) (hp : p ≠ k) :
    (v.setIno i ((v.ino i).setAddr k a)).at i p = v.at i p := by
  have hne : Fin.ofNat 13 p ≠ k := by
    rintro rfl
    exact hp (Nat.mod_eq_of_lt hlt).symm
  rw [View.at, View.at, setIno_self, if_pos hlt, if_pos hlt, addrs_setAddr_of_ne hne]

/-- The entries when a direct address changes. -/
theorem at_setAddr_entry (hlt : ¬ p < 13) (hk : k ≠ 12) :
    (v.setIno i ((v.ino i).setAddr k a)).at i p = v.at i p := by
  rw [View.at, View.at, setIno_self, if_neg hlt, if_neg hlt, addrs_setAddr_of_ne (Ne.symm hk)]
  rfl

/-- The entries of a new indirect block are all zero. -/
theorem at_setAddr_indirect (hlt : ¬ p < 13) (hb : b < 2 ^ 32) (hzero : v.blk b = fun _ => 0) :
    (v.setIno i ((v.ino i).setAddr 12 b)).at i p = 0 := by
  have hz : getUint (fun _ => 0) (4 * (p - 13)) = 0 := by
    rw [getUint, le_zero]
    rfl
  rw [View.at, setIno_self, if_neg hlt, addrs_setAddr_self hb]
  show (if _ then 0 else (getUint (v.blk b) (4 * (p - 13))).toNat) = 0
  rw [hzero, hz]
  exact ite_self _

theorem at_entry_of_zero (hlt : ¬ p < 13) (h0 : (v.ino i).addrs 12 = 0) : v.at i p = 0 := by
  rw [View.at, if_neg hlt, if_pos h0]

/-- The places, when address `k` is the only one that changes. -/
theorem own_setAddr {x : Option Nat} (hself : (v.setIno i ((v.ino i).setAddr k a)).own sb (.block i k) = x)
    (hat : ∀ p : Nat, p ≠ k → (v.setIno i ((v.ino i).setAddr k a)).at i p = v.at i p) (q : Pos) :
    (v.setIno i ((v.ino i).setAddr k a)).own sb q = update (v.own sb) (.block i k) x q := by
  by_cases hq : q = .block i k
  · rw [hq, update_self, hself]
  rw [update_of_ne hq]
  cases q with
  | boot c => rfl
  | block j p =>
    have hsame : (v.setIno i ((v.ino i).setAddr k a)).at j p = v.at j p := by
      by_cases hj : j = i
      · subst hj
        exact hat p fun hp => hq (by rw [hp])
      · exact at_setIno_of_ne hj p
    rw [View.own, View.own, hsame]
    exact if_congr (by rw [live_setAddr]) rfl rfl

/-- The other places of an inode when its address `k` is a block that has just been allocated. -/
theorem at_attach (hk : (v.ino i).addrs k = 0) (hb : b < 2 ^ 32) (hzero : v.blk b = fun _ => 0) (hp : p ≠ k) :
    (v.setIno i ((v.ino i).setAddr k b)).at i p = v.at i p := by
  by_cases hlt13 : p < 13
  · exact at_setAddr_direct hlt13 hp
  · by_cases hk12 : k = 12
    · subst hk12
      rw [at_setAddr_indirect hlt13 hb hzero, at_entry_of_zero hlt13 hk]
    · exact at_setAddr_entry hlt13 hk12

/-- `ip->addrs[k] = b` for a block `b` that has just been allocated. -/
theorem Law.attach (h : Law sb v (b :: X)) (hl : v.Live sb i) (hk : (v.ino i).addrs k = 0)
    (hzero : v.blk b = fun _ => 0) :
    Law sb (v.setIno i ((v.ino i).setAddr k b)) X ∧ Gains sb i v (v.setIno i ((v.ino i).setAddr k b)) := by
  obtain ⟨hmeta, hsize⟩ := h.held_data List.mem_cons_self
  have hlt : b < 2 ^ 32 := Nat.lt_trans hsize (Nat.lt_trans sb.size_lt (by decide))
  have hat0 : v.at i k = 0 := by
    rw [at_direct, hk]
    rfl
  have hat : ∀ p : Nat, p ≠ k → (v.setIno i ((v.ino i).setAddr k b)).at i p = v.at i p := fun p hp =>
    at_attach hk hlt hzero hp
  have hself : (v.setIno i ((v.ino i).setAddr k b)).own sb (.block i k) = some b :=
    own_block_iff.mpr ⟨live_setAddr.mpr hl, Nat.lt_of_lt_of_le k.isLt (by decide), at_setAddr_self hlt,
      Nat.ne_of_gt (Nat.lt_of_lt_of_le sb.nmeta_pos hmeta)⟩
  refine ⟨⟨(h.exact.attach (own_block_none hat0)).congr_own (own_setAddr hself hat), h.below⟩,
    ⟨fun j hj => ino_setIno_of_ne hj, fun j p hj _ _ => at_setIno_of_ne hj p, fun _ _ _ _ _ _ _ => rfl⟩, ?_,
    fun p _ _ h0 => hat p fun hp => h0 ?_, fun _ _ _ _ _ => rfl⟩
  · rw [setIno_self]
    rfl
  · rw [hp, hat0]

theorem getUint_setUint_self {o : Nat} (hb : b < 2 ^ 32) : (getUint (setUint f o b) o).toNat = b := by
  have hbytes : getUint (setUint f o b) o = UInt32.ofNat b := getUint_of_bytes fun k hk => by
    rw [setUint, if_pos (by omega), Nat.add_sub_cancel_left, UInt32.toNat_ofNat', Nat.mod_eq_of_lt hb]
  rw [hbytes, UInt32.toNat_ofNat', Nat.mod_eq_of_lt hb]

theorem getUint_setUint_of_ne {m : Nat} (h : m ≠ n) :
    getUint (setUint f (4 * n) b) (4 * m) = getUint f (4 * m) := by
  have hbytes : ∀ k < 4, setUint f (4 * n) b (4 * m + k) = f (4 * m + k) := fun k hk => if_neg (by omega)
  rw [getUint, getUint, le_congr hbytes]

/-- The indirect block of another inode is another block. -/
theorem Law.indirect_unique (h : Law sb v X) (ha : v.own sb (.block i p) = some a) (hj : v.Live sb j)
    (hne : .block j 12 ≠ Pos.block i p) (h0 : (v.ino j).addrs 12 ≠ 0) : v.at j 12 ≠ a := fun he =>
  hne (h.exact.once (own_block_iff.mpr ⟨hj, by decide, he, by rw [← he]; exact toNat_ne_zero h0⟩) ha)

theorem at_entry (ha : (v.ino i).addrs 12 ≠ 0) :
    v.at i (13 + n) = (getUint (v.blk (v.at i 12)) (4 * n)).toNat := by
  rw [View.at, if_neg (by omega), Nat.add_sub_cancel_left]
  exact if_neg ha

theorem blk_setBlk_self (v : View) (b : Nat) (f : Nat → UInt8) : (v.setBlk b f).blk b = f := update_self ..

theorem at_indirect_setBlk (v : View) (b : Nat) (f : Nat → UInt8) : (v.setBlk b f).at i 12 = v.at i 12 :=
  (if_pos (by decide)).trans (if_pos (by decide)).symm

/-- The entries of an indirect block with the new contents `f`. -/
theorem at_entry_setBlk (ha : (v.ino i).addrs 12 ≠ 0) :
    (v.setBlk (v.at i 12) f).at i (13 + n) = (getUint f (4 * n)).toNat := by
  rw [at_entry (v := v.setBlk (v.at i 12) f) ha, at_indirect_setBlk, blk_setBlk_self]

/-- The places of an inode after `a[n] = b` in its indirect block. -/
theorem at_setEntry_self (ha : (v.ino i).addrs 12 ≠ 0) (hb : b < 2 ^ 32) :
    (v.setBlk (v.at i 12) (setUint (v.blk (v.at i 12)) (4 * n) b)).at i (13 + n) = b := by
  rw [at_entry_setBlk ha, getUint_setUint_self hb]

theorem at_setEntry_of_ne (ha : (v.ino i).addrs 12 ≠ 0) (hp : p ≠ 13 + n) :
    (v.setBlk (v.at i 12) (setUint (v.blk (v.at i 12)) (4 * n) b)).at i p = v.at i p := by
  by_cases hlt13 : p < 13
  · exact (if_pos hlt13).trans (if_pos hlt13).symm
  · obtain ⟨m, rfl⟩ := Nat.exists_eq_add_of_le (Nat.le_of_not_lt hlt13)
    rw [at_entry ha, at_entry_setBlk ha, getUint_setUint_of_ne (by omega)]

/-- `a[n] = b` in the indirect block, for a block `b` that has just been allocated. -/
theorem Law.attachEntry (h : Law sb v (b :: X)) (hl : v.Live sb i) (ha : (v.ino i).addrs 12 ≠ 0) (hn : n < nindirect)
    (h0 : getUint (v.blk (v.at i 12)) (4 * n) = 0) :
    Law sb (v.setBlk (v.at i 12) (setUint (v.blk (v.at i 12)) (4 * n) b)) X ∧
      Gains sb i v (v.setBlk (v.at i 12) (setUint (v.blk (v.at i 12)) (4 * n) b)) := by
  obtain ⟨hmeta, hsize⟩ := h.held_data List.mem_cons_self
  have hlt : b < 2 ^ 32 := Nat.lt_trans hsize (Nat.lt_trans sb.size_lt (by decide))
  have hind : v.own sb (.block i 12) = some (v.at i 12) := own_block_eq hl (by decide) (toNat_ne_zero ha)
  set v' := v.setBlk (v.at i 12) (setUint (v.blk (v.at i 12)) (4 * n) b)
  have hat_of_ne : ∀ j p, v.Live sb j → j ≠ i → v'.at j p = v.at j p := fun j p hj hji =>
    at_setBlk (fun hj0 => h.indirect_unique hind hj (fun he => hji (Pos.block.inj he).1) hj0) p
  have hown : ∀ q, v'.own sb q = update (v.own sb) (.block i (13 + n)) (some b) q := fun q => by
    by_cases hq : q = .block i (13 + n)
    · rw [hq, update_self, own_block_iff]
      exact ⟨hl, Nat.add_lt_add_left hn 13, at_setEntry_self ha hlt,
        Nat.ne_of_gt (Nat.lt_of_lt_of_le sb.nmeta_pos hmeta)⟩
    rw [update_of_ne hq]
    cases q with
    | boot c => rfl
    | block j p =>
      by_cases hj : v.Live sb j
      · have hsame : v'.at j p = v.at j p := by
          by_cases hji : j = i
          · subst hji
            exact at_setEntry_of_ne ha fun hp => hq (by rw [hp])
          · exact hat_of_ne j p hj hji
        rw [View.own, View.own, hsame]
        rfl
      · rw [View.own, View.own, if_neg fun hc => hj hc.1, if_neg fun hc => hj hc.1]
  have hnone : v.at i (13 + n) = 0 := by
    rw [at_entry ha, h0]
    rfl
  have hblk : ∀ j p, v.Live sb j → p < nplaces → p ≠ 12 → v.at j p ≠ 0 → v'.blk (v.at j p) = v.blk (v.at j p) :=
    fun j p hj hp hp12 hp0 => update_of_ne (fun he =>
      hp12 (Pos.block.inj (h.exact.once (own_block_eq hj hp hp0) (he.symm ▸ hind))).2) ..
  refine ⟨⟨(h.exact.attach (own_block_none hnone)).congr_own hown, h.below⟩,
    ⟨fun _ _ => rfl, fun j p hj hl _ => hat_of_ne j p hl hj, fun j p _ hj hp hp12 hp0 => hblk j p hj hp hp12 hp0⟩, rfl,
    fun p _ _ hp0 => at_setEntry_of_ne ha fun hp => hp0 ?_, fun p hl hp hp12 hp0 => hblk i p hl hp hp12 hp0⟩
  rw [hp, hnone]

/-- New contents for a block of a file. -/
theorem Law.write (h : Law sb v X) (hl : v.Live sb i) (hp12 : p ≠ 12) (hp : p < nplaces) (h0 : v.at i p ≠ 0) :
    Law sb (v.setBlk (v.at i p) f) X ∧ Others sb i v (v.setBlk (v.at i p) f) ∧
      ∀ j q, v.Live sb j → (v.setBlk (v.at i p) f).at j q = v.at j q := by
  have hown := own_block_eq hl hp h0
  have hat : ∀ j q, v.Live sb j → (v.setBlk (v.at i p) f).at j q = v.at j q := fun j q hj =>
    at_setBlk (fun hj0 => h.indirect_unique hown hj (fun he => hp12 (Pos.block.inj he).2.symm) hj0) q
  refine ⟨⟨h.exact.congr_own (own_congr (fun _ => Iff.rfl) fun j q hj _ => hat j q hj), h.below⟩,
    ⟨fun _ _ => rfl, fun j q _ hj _ => hat j q hj, fun j q hji hj hq _ hq0 => ?_⟩, hat⟩
  exact update_of_ne (fun he => hji
    (Pos.block.inj (h.exact.once (own_block_eq hj hq hq0) (he.symm ▸ hown))).1) ..

/-! ## Truncation and the life of an inode -/

/-- `ip->addrs[k] = 0`: the block, no entry of an indirect block, comes into the hands of `itrunc()`. -/
theorem Sound.detach (h : Sound sb v X) (hl : v.Live sb i) (hsize : (v.ino i).size = 0) (hk12 : k ≠ 12)
    (hk : (v.ino i).addrs k ≠ 0) :
    Sound sb (v.setIno i ((v.ino i).setAddr k 0)) (((v.ino i).addrs k).toNat :: X) := by
  have hat : ∀ p : Nat, p ≠ k → (v.setIno i ((v.ino i).setAddr k 0)).at i p = v.at i p := fun p hp => by
    by_cases hlt13 : p < 13
    · exact at_setAddr_direct hlt13 hp
    · exact at_setAddr_entry hlt13 hk12
  have hself : (v.setIno i ((v.ino i).setAddr k 0)).own sb (.block i k) = none :=
    own_block_none (at_setAddr_self (by decide))
  have hown : v.own sb (.block i k) = some ((v.ino i).addrs k).toNat :=
    own_block_iff.mpr ⟨hl, Nat.lt_of_lt_of_le k.isLt (by decide), at_direct k, toNat_ne_zero hk⟩
  exact h.of_setIno ⟨(h.exact.detach hown).congr_own (own_setAddr hself hat), h.below⟩ (.inl hsize)

/-- The places of the entries of the indirect block, and then of the block itself. -/
def indirectPlaces (i : Nat) : List Pos := (List.range nindirect).map (fun n => .block i (13 + n)) ++ [.block i 12]

theorem nodup_indirectPlaces : (indirectPlaces i).Nodup := by
  refine List.nodup_append.mpr ⟨List.nodup_range.map fun m n he => ?_, List.nodup_singleton _, ?_⟩
  · have := (Pos.block.inj he).2
    omega
  · rintro q hq r hr rfl
    obtain ⟨n, -, hn⟩ := List.mem_map.mp hq
    rw [List.mem_singleton.mp hr] at hn
    have := (Pos.block.inj hn).2
    omega

theorem mem_indirectPlaces : .block j p ∈ indirectPlaces i ↔ j = i ∧ 12 ≤ p ∧ p < nplaces := by
  have hn : nplaces = 13 + nindirect := rfl
  rw [indirectPlaces, List.mem_append, List.mem_map, List.mem_singleton]
  constructor
  · rintro (⟨n, hlt, he⟩ | he)
    · obtain ⟨rfl, rfl⟩ := Pos.block.inj he
      have := List.mem_range.mp hlt
      exact ⟨rfl, by omega, by omega⟩
    · obtain ⟨rfl, rfl⟩ := Pos.block.inj he
      exact ⟨rfl, Nat.le_refl _, by decide⟩
  · rintro ⟨rfl, h12, hlt⟩
    by_cases hp : p = 12
    · exact .inr (by rw [hp])
    · refine .inl ⟨p - 13, List.mem_range.mpr (by omega), ?_⟩
      rw [show 13 + (p - 13) = p by omega]

/-- `ip->addrs[NDIRECT] = 0`: the indirect block and all its entries come into the hands of `itrunc()`. -/
theorem Sound.detachIndirect (h : Sound sb v X) (hsize : (v.ino i).size = 0) :
    Sound sb (v.setIno i ((v.ino i).setAddr 12 0)) ((indirectPlaces i).filterMap (v.own sb) ++ X) := by
  refine h.of_setIno ⟨(h.exact.detachAll nodup_indirectPlaces).congr_own fun q => ?_, h.below⟩ (.inl hsize)
  cases q with
  | boot c =>
    rw [if_neg]
    · rfl
    · simp [indirectPlaces]
  | block j p =>
    by_cases hji : j = i
    · subst hji
      by_cases hp : p < nplaces
      · by_cases h12 : 12 ≤ p
        · rw [if_pos (mem_indirectPlaces.mpr ⟨rfl, h12, hp⟩)]
          refine own_block_none ?_
          by_cases hp12 : p = 12
          · subst hp12
            exact at_setAddr_self (k := 12) (by decide)
          · refine at_entry_of_zero (by omega) ?_
            rw [setIno_self]
            exact UInt32.toNat_inj.mp (addrs_setAddr_self (by decide))
        · rw [if_neg fun hm => h12 (mem_indirectPlaces.mp hm).2.1, View.own, View.own,
            at_setAddr_direct (by omega) (show p ≠ (12 : Fin 13).val by show p ≠ 12; omega)]
          exact if_congr (by rw [live_setAddr]) rfl rfl
      · rw [if_neg fun hm => hp (mem_indirectPlaces.mp hm).2.2, View.own, View.own, if_neg fun hc => hp hc.2.1,
          if_neg fun hc => hp hc.2.1]
    · rw [if_neg fun hm => hji (mem_indirectPlaces.mp hm).1, View.own, View.own, at_setIno_of_ne hji]
      exact if_congr (by rw [live_setIno_of_ne hji]) rfl rfl

/-- The places do not change when an inode that refers to no block is taken into use, or out of it. -/
theorem Law.setIno_empty (h : Law sb v X) (hv : ¬ v.Live sb i ∨ ∀ p, v.at i p = 0)
    (hd : d.type = 0 ∨ ∀ k, d.addrs k = 0) : Law sb (v.setIno i d) X := by
  refine ⟨h.exact.congr_own fun q => ?_, h.below⟩
  cases q with
  | boot c => rfl
  | block j p =>
    by_cases hji : j = i
    · subst hji
      have hnone : v.own sb (.block j p) = none := by
        rcases hv with hv | hv
        · exact if_neg fun hc => hv hc.1
        · exact own_block_none (hv p)
      rw [hnone]
      rcases hd with hd | hd
      · refine if_neg fun hc => hc.1.2 ?_
        rw [setIno_self, hd]
      · refine own_block_none ?_
        by_cases hlt : p < 13
        · rw [View.at, setIno_self, if_pos hlt, hd]
          rfl
        · exact at_entry_of_zero hlt (by rw [setIno_self, hd])
    · rw [View.own, View.own, at_setIno_of_ne hji]
      exact if_congr (by rw [live_setIno_of_ne hji]) rfl rfl

/-- `ifree()` of an inode without blocks. -/
theorem Sound.ifree (h : Sound sb v X) (hsize : (v.ino i).size = 0) (haddrs : ∀ k, (v.ino i).addrs k = 0) :
    Sound sb (v.setIno i { v.ino i with type := 0 }) X := by
  have hat : ∀ p, v.at i p = 0 := fun p => by
    by_cases hlt : p < 13
    · rw [View.at, if_pos hlt, haddrs]
      rfl
    · exact at_entry_of_zero hlt (haddrs 12)
  exact h.of_setIno (h.toLaw.setIno_empty (.inr hat) (.inl rfl)) (.inl hsize)

/-- `ialloc()` of an inode that is not in use. -/
theorem Sound.ialloc {type : Int16} (h : Sound sb v X) (h0 : (v.ino i).type = 0) :
    Sound sb (v.setIno i { Dinode.zero with type := type }) X :=
  h.of_setIno (h.toLaw.setIno_empty (.inl fun hl => hl.2 h0) (.inr fun _ => rfl)) (.inl rfl)

end

end Xv6.Fs
