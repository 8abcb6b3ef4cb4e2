import Xv6.Fs.Allocation
import Xv6.Fs.Budget
import Xv6.Lib.Splice

/-!
# Files as byte arrays

* `View.contents` : the bytes of a file up to its size;
* `readi_contents`, `Updated.contents` : `readi()` returns a slice of them, and `writei()` overwrites one;
* `inode_byteArray` : both together, with what `writei()` leaves alone and how it may stop.
-/

namespace Xv6.Fs
open Hoare Splice Bytes Function

def View.contents (v : View) (i : Nat) : List UInt8 := (List.range (v.ino i).size.toNat).map (v.byteAt i)

/-- The first `n` bytes. -/
def Src.take (src : Src) (n : Nat) : List UInt8 := (List.range n).map src.byte

section
variable {sb : Superblock} {X : List Nat} {s t : FsState} {ip : Ip} {R : FsPanic → Prop} {src : Src} {off n tot : Nat}

theorem Holds.contents (h : Holds sb X ip s) : (sb.view s.disk).contents (s.itable ip).inum =
    (List.range (s.itable ip).din.size.toNat).map ((sb.view s.disk).byteAt (s.itable ip).inum) := by
  rw [View.contents, ← h.synced]

theorem readi_contents {room : Nat} (h : Holds sb X ip s) (hn : n < 2 ^ 32) (hroom : n ≤ room) :
    Runs R (readi sb ip room off n) s fun r t => t = s ∧
      r = some (if (s.itable ip).din.size.toNat < off ∨ 2 ^ 32 ≤ off + n then []
        else (((sb.view s.disk).contents (s.itable ip).inum).drop off).take n) := by
  set size := (s.itable ip).din.size.toNat with hsize
  have hlt : size < 2 ^ 32 := (s.itable ip).din.size.toNat_lt
  refine .get_bind (.ite (fun hc => .pure ⟨rfl, ?_⟩) fun hc => ?_)
  · rw [if_pos (by omega)]
  · rw [not_or] at hc
    have hin : ¬ (size < off ∨ 2 ^ 32 ≤ off + n) := by omega
    rw [if_neg hin, h.contents, map_range_slice, ← hsize]
    have hloop : ∀ k, k ≤ room → k = min n (size - off) → Runs R (readLoop sb ip room k k off 0 []) s fun r t => t = s ∧
        r = some ((List.range (min n (size - off))).map fun k =>
        (sb.view s.disk).byteAt (s.itable ip).inum (off + k)) := by
      intro k hk hkn
      refine (readLoop_spec h k off 0 [] (Nat.le_refl _) (Nat.zero_le _) (by omega)).mono fun r t ⟨ht, hr⟩ => ⟨ht, ?_⟩
      rcases hr with hr | ⟨-, hr⟩
      · rw [hr, List.nil_append, Nat.sub_zero, hkn]
      · omega
    exact .ite (fun hgt => hloop (size - off) (by omega) (by omega)) fun hle => hloop n hroom (by omega)

theorem Updated.contents (h : Updated sb X ip src s off tot tot t) (hs : Holds sb X ip s)
    (hoff : off ≤ (s.itable ip).din.size.toNat) : (sb.view t.disk).contents (s.itable ip).inum =
      splice ((sb.view s.disk).contents (s.itable ip).inum) off (src.take tot) := by
  have hself := h.holds.contents
  rw [h.inum, h.size] at hself
  rw [hself, hs.contents]
  exact map_range_splice hoff h.bytes

/-- A file that `writei()` has not written to. -/
theorem Updated.other {w j x : Nat} (h : Updated sb X ip src s off tot w t) (hj : j ≠ (s.itable ip).inum)
    (hl : (sb.view s.disk).Live sb j) (hx : x < maxfile * bsize) :
    (sb.view t.disk).byteAt j x = (sb.view s.disk).byteAt j x := by
  have hbn : x / bsize < maxfile := (Nat.div_lt_iff_lt_mul (by decide)).mpr hx
  rw [View.byteAt, View.byteAt, h.others.places j _ hj hl (place_lt hbn)]
  by_cases h0 : (sb.view s.disk).at j (place (x / bsize)) = 0
  · have hzero : ∀ img, (sb.view img).blk 0 = fun _ => 0 := fun img =>
      if_neg fun hc => Nat.not_le_of_lt sb.nmeta_pos hc.1
    rw [h0, hzero, hzero]
  · rw [h.others.blk j _ hj hl (place_lt hbn) (place_ne _) h0]

theorem Holds.noHoles (h : Holds sb X ip s) : s.NoHoles ip := by
  intro bn hbn
  obtain ⟨hlt, h0⟩ := h.full bn hbn
  have hnd : ndirect = 12 := rfl
  rw [FsState.addrOf]
  by_cases hd : bn < ndirect
  · rw [place, if_pos hd, View.at, if_pos (by omega), ← h.synced] at h0
    rwa [if_pos hd]
  · have hplace : place bn = 13 + (bn - ndirect) := by
      rw [place, if_neg hd]
      omega
    rw [hplace] at h0
    have ha : (s.itable ip).din.addrs 12 ≠ 0 := fun hz => h0 (at_entry_of_zero (by omega) (by rw [← h.synced, hz]))
    have hentry := h.works.entry (n := bn - ndirect) ha
    rw [h.seen] at hentry
    rwa [if_neg hd, if_neg ha, ← hentry]

/-- `bget()` finds a buffer for every call so far: the blocks of the log are pinned, and a call holds at most one buffer
more while it reads another block. -/
def FsState.Buffers (s : FsState) : Prop := s.lh.length + 2 ≤ nbuf

/-- The log has room for a write of `n` bytes, whichever blocks it takes. -/
def FsState.Room (s : FsState) (n : Nat) : Prop :=
  s.lh.Nodup ∧ s.lh.length + 2 * ((n + bsize - 1) / bsize) + 7 < logblocks

theorem FsState.Room.runs (hroom : s.Room n) (hfull : s.NoHoles ip) (hout : 1 ≤ s.outstanding) :
    Runs (fun _ => False) (writei sb ip src off n) s fun _ t => t.Buffers := by
  have hn : n ≤ (n + 1024 - 1) / 1024 * 1024 := by omega
  have hlb : logblocks = 30 := rfl
  have hnb : nbuf = 30 := rfl
  refine (writei_logged _ ⟨hroom.1, fun _ hb => hb, hout⟩ hroom.2 hfull hn).mono fun r t ht => ?_
  have hlen := ht.2
  have hlt := hroom.2
  rw [FsState.Buffers]
  omega

/-- **An inode is a byte array.** For a locked inode without holes, `readi()` returns a slice of its contents while a
buffer is not pinned, and `writei()` overwrites one, as far as the disk has blocks; it leaves all other inodes alone.
`writei()` comes to its end with buffers left where the log has room for the write. Elsewhere it may panic, in
`log_write()` or, beyond this model, in `bget()` once the blocks of the log leave no buffers. -/
theorem inode_byteArray (h : Holds sb X ip s) (hn : n < 2 ^ 32) :
    (s.lh.length < nbuf → ∀ room, n ≤ room → Runs (fun _ => False) (readi sb ip room off n) s fun r t => t = s ∧
      r = some (if (s.itable ip).din.size.toNat < off ∨ 2 ^ 32 ≤ off + n then []
        else (((sb.view s.disk).contents (s.itable ip).inum).drop off).take n)) ∧
    (∀ src : Src, n ≤ src.readable → 1 ≤ s.outstanding →
      Runs (fun e => e = .tooBig ∧ ¬ s.Room n) (writei sb ip src off n) s fun r t => (s.Room n → t.Buffers) ∧
        if (s.itable ip).din.size.toNat < off ∨ 2 ^ 32 ≤ off + n ∨ maxfile * bsize < off + n then r = none ∧ t = s
        else t.Buffers → ∃ tot ≤ n, r = some tot ∧ (tot < n → t.DiskFull sb) ∧
          (sb.view t.disk).contents (s.itable ip).inum =
            splice ((sb.view s.disk).contents (s.itable ip).inum) off (src.take tot) ∧
          (t.itable ip).din.size.toNat = max (s.itable ip).din.size.toNat (off + tot) ∧
          (sb.view t.disk).ino (s.itable ip).inum = (t.itable ip).din ∧ Holds sb X ip t ∧
          ∀ j, j ≠ (s.itable ip).inum → (sb.view t.disk).ino j = (sb.view s.disk).ino j ∧
            ((sb.view s.disk).Live sb j → ∀ x < maxfile * bsize,
              (sb.view t.disk).byteAt j x = (sb.view s.disk).byteAt j x)) := by
  refine ⟨fun _ room hroom => readi_contents h hn hroom, fun src hread hout => ?_⟩
  have hlaw := writei_law (R := fun e => e = .tooBig) src off h
    ⟨rfl, fun hc => absurd hc (Nat.not_lt.mpr hout)⟩ hn
  have hroom : Runs (fun e => e = .tooBig ∧ ¬ s.Room n) (writei sb ip src off n) s fun r t =>
      (s.Room n → t.Buffers) ∧ _ := (hlaw.unless fun hr => hr.runs h.noHoles hout).self.mono fun r t ⟨hrun, hr⟩ =>
    ⟨fun hr => (hr.runs h.noHoles hout).of_ok hrun, hr⟩
  refine hroom.mono fun r t ⟨hb, hr⟩ => ⟨hb, ?_⟩
  rcases hr with ⟨hc, hr, ht⟩ | ⟨hc, tot, w, hr, hle, -, ht, -, hw⟩
  · rw [if_pos hc]
    exact ⟨hr, ht⟩
  · rw [if_neg hc]
    obtain ⟨rfl, hfull⟩ := hw hread
    refine fun _ => ⟨w, hle, hr, fun hlt => (hfull hlt).1, ht.contents h (by omega), ht.size, ?_, ht.holds, fun j hj =>
      ⟨ht.others.ino j hj, fun hl x hx => ht.other hj hl hx⟩⟩
    rw [ht.holds.synced, ht.inum]

/-- A disk of 64 blocks, 60 of them for data. -/
def wideSb : Superblock where
  size := 64
  nblocks := 60
  ninodes := 16
  inodestart := 2
  bmapstart := 3
  root_lt := root_lt_sixteen
  size_lt := by decide
  inodes_lt := sixteen_inodes_lt
  bmap_lt := by decide

/-- The root directory, with one entry in block 4, for the empty file `a`. Blocks 0 to 4 are in use. -/
def wideImage : Image :=
  update (ofCells [
    -- inode 1 : type, nlink, size, addrs[0]
    ((2, 64), 1), ((2, 70), 1), ((2, 72), 16), ((2, 76), 4),
    -- inode 2 : type, nlink
    ((2, 128), 2), ((2, 134), 1),
    -- the entry
    ((4, 0), 2), ((4, 2), 97)]) 3 fun o => if o = 0 then 0x1f else 0

/-- The file is locked, at the start of a transaction. -/
def emptyFile : FsState :=
  { FsState.mount wideImage with
    outstanding := 1
    itable := fun _ => ⟨2, 1, true, true, wideSb.dinode wideImage 2⟩ }

theorem emptyFile_holds : Holds wideSb [] 0 emptyFile where
  law := law_of_one (i := 1) (bit_of_five rfl rfl fun _ => rfl) (by decide) (by decide) (by decide) (by decide)
  live := by decide
  synced := rfl
  full bn hbn := absurd hbn (Nat.not_lt_zero _)

/-- Two bytes are written at the start of the file and then read from its second byte on. -/
theorem inode_byteArray_emptyFile : Holds wideSb [] 0 emptyFile ∧ emptyFile.Room 2 ∧
    Runs (fun _ => False) (do
      let w ← writei wideSb 0 ⟨fun k => if k = 0 then 104 else 105, 2⟩ 0 2
      let r ← readi wideSb 0 10 1 10
      return (w, r)) emptyFile fun r t => r = (some 2, some [105]) ∧ (wideSb.view t.disk).contents 2 = [104, 105] := by
  have hroom : emptyFile.Room 2 := ⟨List.nodup_nil, by decide⟩
  have hrun : Runs (fun _ => False) (writei wideSb 0 ⟨fun k => if k = 0 then 104 else 105, 2⟩ 0 2) emptyFile fun r t =>
      r = some 2 ∧ t.lh.length < nbuf ∧ (t.itable 0).inum = 2 := by decide +kernel
  refine ⟨emptyFile_holds, hroom, Runs.seq (((inode_byteArray emptyFile_holds (by decide)).2 _ (by decide)
    (by decide)).weaken (fun _ he => he.2 hroom) |>.both hrun) fun w t ⟨⟨hb, hw⟩, hw2, hlh, hinum⟩ => ?_⟩
  rw [if_neg (by decide)] at hw
  obtain ⟨tot, -, hr, -, hcontents, hsize, -, hholds, -⟩ := hw (hb hroom)
  obtain rfl : tot = 2 := Option.some.inj (hr.symm.trans hw2)
  have hbytes : (wideSb.view t.disk).contents 2 = [104, 105] := hcontents.trans (by decide)
  refine .seq ((inode_byteArray hholds (by decide)).1 hlh 10 (by decide)) fun r u ⟨hu, hr⟩ => .pure ⟨?_, hu ▸ hbytes⟩
  rw [hinum, hbytes, hsize, if_neg (by decide)] at hr
  rw [hw2, hr]
  rfl

/-- **A single `writei()` may outgrow the log**: 29 blocks for an empty file and one more for their addresses, with the
block of the bitmap, are too big a transaction, though the disk has 59 free blocks. -/
theorem writei_outgrows_log : Holds wideSb [] 0 emptyFile ∧ emptyFile.lh = [] ∧ emptyFile.outstanding = 1 ∧
    Runs (fun e => e = .tooBig) (writei wideSb 0 ⟨fun _ => 7, 29 * bsize⟩ 0 (29 * bsize)) emptyFile fun _ _ => False :=
  ⟨emptyFile_holds, rfl, rfl, by decide +kernel⟩

end

end Xv6.Fs
