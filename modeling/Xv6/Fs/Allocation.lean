import Xv6.Fs.Between

/-!
# The blocks of a mounted file system

What holds of the image after any sequence of calls, when the file system is mounted on a sound image: the block
allocation law, and that reading needs no allocation.
-/

namespace Xv6.Fs
open Hoare Bytes Function

section
variable {sb : Superblock} {s : FsState} {ip : Ip} {img : Image} {v : View}

theorem holders_mount (img : Image) (ip : Ip) : holders (FsState.mount img).ftable (FsState.mount img).cwd ip = 0 := by
  have hfiles : weigh (File.holds ip) (FsState.mount img).ftable = 0 := weigh_eq_zero fun _ => if_neg fun hc => hc.1 rfl
  have hcwd : weigh (cwdHolds ip) (FsState.mount img).cwd = 0 := weigh_eq_zero fun _ => cwdHolds_none ip
  rw [holders, hfiles, hcwd]

/-- A file system mounted on a sound image. -/
theorem idle_mount (h : Sound sb (sb.view img) []) : Idle sb (.mount img) := by
  have hzero : ∀ ip, ¬ 0 < (World.idle (FsState.mount img).ftable (FsState.mount img).cwd img 0).hold ip := fun ip hc =>
    absurd (holders_mount img ip) (Nat.ne_of_gt hc)
  refine ⟨⟨⟨img, h, fun ip => ?_, fun ip _ hi => absurd hi (hzero ip), rfl, rfl, rfl, fun _ _ => rfl⟩, fun f hc =>
    absurd rfl hc⟩, rfl⟩
  refine ⟨?_, rfl, fun hi => absurd hi (hzero ip), fun hi => absurd hi (hzero ip), fun hi => absurd hi (hzero ip),
    fun hl => Bool.noConfusion hl, fun hp => absurd (World.plain_held _ ip hp) (hzero ip)⟩
  show (0 : Int) = (holders _ _ ip : Nat)
  rw [holders_mount]
  rfl

/-! ## The allocation law -/

theorem Idle.sound (h : Idle sb s) : Sound sb (sb.view s.disk) [] := by
  obtain ⟨base, hok⟩ := h.quiet.ok
  exact hok.sound

/-- **The set bits of the bitmap are the blocks in use, each once**, after any sequence of calls, and no call frees a
block that is free. -/
theorem allocation_law_kept (h : Sound sb (sb.view img) []) (calls : List FsCall) :
    Runs (fun e => e ≠ .freeingFree) (runCalls sb calls) (.mount img) fun _ s => Law sb (sb.view s.disk) [] :=
  (runCalls_spec (idle_mount h) calls).mono fun _ _ hs => hs.sound.toLaw

/-- A disk of eight blocks, four of them for data. -/
def smallSb : Superblock where
  size := 8
  nblocks := 4
  ninodes := 16
  inodestart := 2
  bmapstart := 3
  root_lt := root_lt_sixteen
  size_lt := by decide
  inodes_lt := sixteen_inodes_lt
  bmap_lt := by decide

/-- The image with these bytes, by block and offset, and zeros. -/
def ofCells (cells : List ((Nat × Nat) × UInt8)) : Image := fun b o => (cells.lookup (b, o)).getD 0

/-- The root directory, with one entry in block 4, for the directory `d`, which has `size` bytes and no blocks. Blocks 0
to 4 are in use. -/
def smallImage (size : UInt8) : Image :=
  update (ofCells [
    -- inode 1 : type, nlink, size, addrs[0]
    ((2, 64), 1), ((2, 70), 1), ((2, 72), 16), ((2, 76), 4),
    -- inode 2 : type, nlink, size
    ((2, 128), 1), ((2, 134), 1), ((2, 136), size),
    -- the entry
    ((4, 0), 2), ((4, 2), 100)]) 3 fun o => if o = 0 then 0x1f else 0

/-- The bitmap of an image in which the first five blocks are in use, four of them before the data blocks. -/
theorem bit_of_five (hstart : sb.bmapstart = 3) (hmeta : sb.nmeta = 4)
    (hbyte : ∀ o, img 3 o = if o = 0 then 0x1f else 0) (b : Nat) : (sb.view img).bit b = true ↔ b ≤ sb.nmeta := by
  have hbb : sb.bblock b = b / 8192 + 3 := by
    rw [Superblock.bblock, hstart]
    rfl
  show (decide (sb.bblock b < sb.nmeta) && (img (sb.bblock b) (b % 8192 / 8) &&& mask (b % 8192 % 8) != 0)) = true ↔
    b ≤ sb.nmeta
  rw [hbb, hmeta]
  by_cases hb : b < 8
  · have hsmall : ∀ c < 8, ((0x1f &&& mask c) != 0) = true ↔ c ≤ 4 := by decide
    rw [show b / 8192 + 3 = 3 by omega, show b % 8192 / 8 = 0 by omega,
      show b % 8192 % 8 = b by omega, hbyte, if_pos rfl]
    exact hsmall b hb
  · refine ⟨fun h => ?_, fun h => absurd (Nat.lt_of_le_of_lt h (by decide)) hb⟩
    obtain ⟨hlt, hbit⟩ := Bool.and_eq_true_iff.mp h
    have hlt' := of_decide_eq_true hlt
    rw [show b / 8192 + 3 = 3 by omega, hbyte, if_neg (by omega), UInt8.zero_and] at hbit
    exact Bool.noConfusion hbit

theorem smallImage_bit (size : UInt8) (b : Nat) : (smallSb.view (smallImage size)).bit b = true ↔ b ≤ smallSb.nmeta :=
  bit_of_five rfl rfl (fun _ => rfl) b

/-- The allocation law of an image in which one inode has one block, the first data block. -/
theorem law_of_one {i : Nat} (hbit : ∀ b, v.bit b = true ↔ b ≤ sb.nmeta) (hsize : sb.nmeta < sb.size) (hi : v.Live sb i)
    (hat : v.at i 0 = sb.nmeta) (hother : ∀ j < sb.ninodes, ∀ k : Fin 13, (v.ino j).addrs k = 0 ∨ (j = i ∧ k = 0)) :
    Law sb v [] := by
  have hown : ∀ {j p b}, v.own sb (.block j p) = some b → j = i ∧ p = 0 ∧ b = sb.nmeta := by
    intro j p b hb
    obtain ⟨hj, hp, hjp, h0⟩ := own_block_iff.mp hb
    by_cases hlt : p < 13
    · rw [View.at, if_pos hlt] at hjp
      rcases hother j hj.1 (Fin.ofNat 13 p) with hz | ⟨rfl, hk⟩
      · rw [hz] at hjp
        exact absurd hjp.symm h0
      · have hp0 : p = 0 := by
          have hval := congrArg Fin.val hk
          rwa [Fin.val_ofNat, Nat.mod_eq_of_lt hlt] at hval
        subst hp0
        exact ⟨rfl, rfl, hjp.symm.trans hat⟩
    · have hz : (v.ino j).addrs 12 = 0 := by
        rcases hother j hj.1 12 with hz | ⟨-, hk⟩
        · exact hz
        · exact absurd hk (by decide)
      rw [View.at, if_neg hlt, if_pos hz] at hjp
      exact absurd hjp.symm h0
  have hpos : 0 < sb.nmeta := sb.nmeta_pos
  refine ⟨⟨fun b => ?_, fun {p q b} hp hq => ?_, fun _ => List.not_mem_nil, List.nodup_nil⟩, fun b hb => ?_⟩
  · rw [hbit, Nat.le_iff_lt_or_eq]
    constructor
    · rintro (hlt | rfl)
      · exact .inl ⟨.boot b, if_pos hlt⟩
      · exact .inl ⟨.block i 0, own_block_iff.mpr ⟨hi, by decide, hat, Nat.ne_of_gt hpos⟩⟩
    · rintro (⟨p, hp⟩ | hb)
      · cases p with
        | boot c =>
          obtain ⟨rfl, hlt⟩ := own_boot_iff.mp hp
          exact .inl hlt
        | block j q => exact .inr (hown hp).2.2
      · cases hb
  · cases p with
    | boot c =>
      obtain ⟨rfl, hlt⟩ := own_boot_iff.mp hp
      cases q with
      | boot d => rw [(own_boot_iff.mp hq).1]
      | block j r => exact absurd (hown hq).2.2 (Nat.ne_of_lt hlt)
    | block j r =>
      obtain ⟨rfl, rfl, rfl⟩ := hown hp
      cases q with
      | boot d =>
        obtain ⟨hd, hlt⟩ := own_boot_iff.mp hq
        exact absurd hd (Nat.ne_of_gt hlt)
      | block j' r' =>
        obtain ⟨rfl, rfl, -⟩ := hown hq
        rfl
  · have hle := (hbit b).mp hb
    omega

theorem hole_law : Law smallSb (smallSb.view (smallImage 16)) [] :=
  law_of_one (i := 1) (smallImage_bit 16) (by decide) (by decide) (by decide) (by decide +kernel)

/-- A block that no address on the disk names is leaked. -/
theorem not_law_of_leaked {b : Nat} (hbit : v.bit b = true) (hb : sb.nmeta ≤ b)
    (haddrs : ∀ j < sb.ninodes, (v.ino j).addrs 12 = 0 ∧ ∀ k : Fin 13, ((v.ino j).addrs k).toNat ≠ b) :
    ¬ Law sb v [] := by
  intro h
  rcases (h.exact.used_iff b).mp hbit with ⟨p, hp⟩ | hheld
  · cases p with
    | boot c =>
      obtain ⟨rfl, hlt⟩ := own_boot_iff.mp hp
      omega
    | block j p =>
      obtain ⟨hj, -, hat, h0⟩ := own_block_iff.mp hp
      obtain ⟨hz, hk⟩ := haddrs j hj.1
      by_cases hlt : p < 13
      · rw [View.at, if_pos hlt] at hat
        exact hk _ hat
      · rw [View.at, if_neg hlt, if_pos hz] at hat
        exact h0 hat.symm
  · cases hheld

/-- **The law is not enough to begin with**: here the directory `d` has a size and no block. When `open()` looks for
`/d/a`, `readi()` allocates one, whose address is dropped with the copy of the inode. -/
theorem hole_leaks : Law smallSb (smallSb.view (smallImage 16)) [] ∧
    Runs (fun _ => False) (runCalls smallSb [.userinit 0, .openFile 0 (some [47, 100, 47, 97]) 0 false])
      (.mount (smallImage 16)) fun _ s =>
        (∀ jp, (s.itable jp).inum = 2 → (s.itable jp).ref = 0) ∧ ¬ Law smallSb (smallSb.view s.disk) [] := by
  have hrun : Runs (fun _ => False) (runCalls smallSb [.userinit 0, .openFile 0 (some [47, 100, 47, 97]) 0 false])
      (.mount (smallImage 16)) fun _ s => (∀ jp, (s.itable jp).inum = 2 → (s.itable jp).ref = 0) ∧
        (smallSb.view s.disk).bit 5 = true ∧ ∀ j < 16, ((smallSb.view s.disk).ino j).addrs 12 = 0 ∧
          ∀ k : Fin 13, (((smallSb.view s.disk).ino j).addrs k).toNat ≠ 5 := by
    decide +kernel
  exact ⟨hole_law, hrun.mono fun _ s hs => ⟨hs.1, not_law_of_leaked hs.2.1 (by decide) hs.2.2⟩⟩

/-- Every inode in use has its blocks up to its size. -/
def NoHoles (sb : Superblock) (v : View) : Prop := ∀ i, v.Live sb i → v.Full i (v.ino i).size.toNat

/-- The root is the only inode with a size. -/
theorem noHoles_of_root (hsize : ∀ j < 16, (v.ino j).size.toNat = if j = 1 then 16 else 0) (hat : v.at 1 0 ≠ 0) :
    NoHoles smallSb v := by
  intro j hj bn hbn
  rw [hsize j hj.1] at hbn
  by_cases h1 : j = 1
  · subst h1
    rw [if_pos rfl, show bsize = 1024 from rfl] at hbn
    obtain rfl : bn = 0 := by omega
    exact ⟨by decide, hat⟩
  · rw [if_neg h1] at hbn
    exact absurd hbn (Nat.not_lt_zero _)

/-- The entry of the root names inode 16, whose bytes are the first of the bitmap. -/
def strayImage : Image := fun b o => if b = 4 ∧ o = 0 then 16 else smallImage 0 b o

/-- **Nor are the law and no holes**: when `open()` looks for `/d/a`, `iput()` finds an inode without links and clears
its type, which is the bits of the metadata blocks. -/
theorem stray_clears_bits : Law smallSb (smallSb.view strayImage) [] ∧ NoHoles smallSb (smallSb.view strayImage) ∧
    Runs (fun _ => False) (runCalls smallSb [.userinit 0, .openFile 0 (some [47, 100, 47, 97]) 0 false])
      (.mount strayImage)
      fun _ s => ¬ Law smallSb (smallSb.view s.disk) [] := by
  have hrun : Runs (fun _ => False) (runCalls smallSb [.userinit 0, .openFile 0 (some [47, 100, 47, 97]) 0 false])
      (.mount strayImage) fun _ s => (smallSb.view s.disk).bit 0 = false := by decide +kernel
  refine ⟨law_of_one (i := 1) (bit_of_five rfl rfl fun _ => rfl) (by decide) (by decide) (by decide) (by
    decide +kernel), noHoles_of_root (by decide) (by decide), hrun.mono fun _ s hs hlaw => ?_⟩
  have hbit := (hlaw.exact.used_iff 0).mpr (.inl ⟨.boot 0, own_boot_iff.mpr ⟨rfl, by decide⟩⟩)
  rw [hs] at hbit
  cases hbit

theorem small_sound : Sound smallSb (smallSb.view (smallImage 0)) [] := by
  have hlaw : Law smallSb (smallSb.view (smallImage 0)) [] :=
    law_of_one (i := 1) (smallImage_bit 0) (by decide) (by decide) (by decide) (by decide +kernel)
  have hsize : ∀ j < 16, ((smallSb.view (smallImage 0)).ino j).size.toNat = if j = 1 then 16 else 0 := by decide
  refine { hlaw with full := noHoles_of_root hsize (by decide), dirs := fun j hj _ k hk => ?_ }
  rw [hsize j hj.1] at hk
  by_cases h1 : j = 1
  · subst h1
    rw [if_pos rfl, show direntSize = 16 from rfl] at hk
    obtain rfl : k = 0 := by omega
    decide
  · rw [if_neg h1, show direntSize = 16 from rfl] at hk
    omega

/-- A file is made, written and removed again. -/
theorem allocation_law_small : Sound smallSb (smallSb.view (smallImage 0)) [] ∧
    Runs (fun e => e ≠ .freeingFree) (runCalls smallSb [.userinit 0, .openFile 0 (some [47, 97]) 0x202 false,
      .write 0 ⟨fun _ => 1, 100⟩ 100, .close 0, .unlink 0 (some [97])]) (.mount (smallImage 0))
      fun _ s => Law smallSb (smallSb.view s.disk) [] :=
  ⟨small_sound, allocation_law_kept small_sound _⟩

/-! ## Reading -/

/-- The panic of `log_write()` outside of a transaction does not come from the inode table. -/
theorem iget_trans {inum : Nat} : Runs (fun e => e ≠ .outsideTrans) (iget inum) s fun _ _ => True := by
  refine .get_bind ?_
  cases (List.finRange ninode).find? fun i => decide (0 < (s.itable i).ref ∧ (s.itable i).inum = inum) with
  | some ip => exact .modify_bind (.pure trivial)
  | none =>
    dsimp only
    cases (List.finRange ninode).find? fun i => decide ((s.itable i).ref = 0) with
    | some ip => exact .modify_bind (.pure trivial)
    | none => exact .throw (by decide)

theorem ilock_trans : Runs (fun e => e ≠ .outsideTrans) (ilock sb ip) s fun _ _ => True := by
  refine .get_bind (.ite (fun _ => .throw (by decide)) fun _ => ?_)
  refine .ite (fun _ => .throw (by decide)) fun _ => .modify_bind ?_
  refine .ite (fun _ => .pure trivial) fun _ => .modify_bind ?_
  exact .ite (fun _ => .throw (by decide)) fun _ => .pure trivial

theorem iunlock_trans :
    Runs (fun e => e ≠ .outsideTrans) (iunlock ip) s fun _ t => t.disk = s.disk ∧ t.lh = s.lh :=
  Runs.get_bind (.ite (fun _ => .throw (by decide)) fun _ => .of_modify ⟨rfl, rfl⟩)

/-- What a proof says of a run, and which panic does not occur in it. -/
theorem Safe.trans {A : Type} {m : FsM A} {Q Q' : A → FsState → Prop} (h : Safe m s Q)
    (h' : Runs (fun e => e ≠ .outsideTrans) m s Q') : Runs (fun e => e ≠ .outsideTrans) m s fun a t => Q a t ∧ Q' a t :=
  (h.and h').weaken fun _ he => he.2

/-- `sys_read()` leaves the disk and the log as they are. -/
theorem read_trans (h : Idle sb s) (f : Fin nfile) (room : Nat) (n : Int32) :
    Runs (fun e => e ≠ .outsideTrans) (call sb (.read f room n)) s fun _ t => t.disk = s.disk ∧ t.lh = s.lh := by
  refine .get_bind (.ite (fun _ => .pure ⟨rfl, rfl⟩) fun _ => .get_bind ?_)
  refine .ite (fun _ => .pure ⟨rfl, rfl⟩) fun _ => ?_
  cases htype : (s.ftable f).type with
  | none => exact .throw (by decide)
  | device => exact .pure ⟨rfl, rfl⟩
  | inode =>
    obtain ⟨base, hok⟩ := h.quiet.ok
    have hip : 0 < holders s.ftable s.cwd (s.ftable f).ip := holders_file_pos (by rw [htype]; decide) rfl
    have hn : n.toInt.toNat < 2 ^ 32 := by
      have hlt := n.toInt_lt
      omega
    refine .seq (Safe.trans (ilock_spec hok hip) ilock_trans) fun _ t ⟨⟨_, ht, hdisk, _, hlh⟩, _⟩ => ?_
    refine .seq (readi_spec ht (World.lock_self _ _) hn) fun r u hu => .modify_bind ?_
    rw [hu.1]
    refine .seq iunlock_trans fun _ v hv => ?_
    have hsame : v.disk = s.disk ∧ v.lh = s.lh := ⟨hv.1.trans hdisk, hv.2.trans hlh⟩
    cases r with
    | none => exact .pure hsame
    | some bytes => exact .pure hsame

theorem fstat_trans (h : Idle sb s) (f : Fin nfile) :
    Runs (fun e => e ≠ .outsideTrans) (call sb (.fstat f)) s fun _ t => t.disk = s.disk ∧ t.lh = s.lh := by
  refine .get_bind (.ite (fun _ => .pure ⟨rfl, rfl⟩) fun _ => ?_)
  refine .seq (Q := fun _ t => t.disk = s.disk ∧ t.lh = s.lh) ?_ fun r t ht => ?_
  · refine .get_bind (.ite (fun _ => .pure ⟨rfl, rfl⟩) fun htype => ?_)
    obtain ⟨base, hok⟩ := h.quiet.ok
    refine .seq (Safe.trans (ilock_spec hok (holders_file_pos htype rfl)) ilock_trans)
      fun _ t ⟨⟨_, ht, hdisk, _, hlh⟩, _⟩ => .get_bind ?_
    exact .seq iunlock_trans fun _ v hv => .pure ⟨hv.1.trans hdisk, hv.2.trans hlh⟩
  · cases r with
    | none => exact .pure ht
    | some st => exact .pure ht

/-- `readi()` of any inode that exists, as `fileread()` calls it, outside of a transaction. -/
theorem readi_trans (h : Idle sb s) {inum : Nat} (hinum : inum < sb.ninodes) :
    Runs (fun e => e ≠ .outsideTrans) (do let ip ← iget inum; ilock sb ip; return ip) s fun ip t =>
      ∀ room off n, n < 2 ^ 32 → Runs (fun _ => False) (readi sb ip room off n) t fun _ u => u = t := by
  obtain ⟨base, hok⟩ := h.quiet.ok
  refine .seq (Safe.trans (iget_spec hok hinum) iget_trans) fun ip t ht => ?_
  have hhold : 0 < ((World.idle s.ftable s.cwd base 0).take ip).hold ip := by
    rw [World.hold_take_self]
    exact Nat.succ_pos _
  refine .seq (Safe.trans (ilock_spec ht.1.1 hhold) ilock_trans) fun _ u hu => .pure ?_
  exact fun room off n hn => (readi_spec hu.1.2.1 (World.lock_self _ ip) hn).mono fun _ _ hq => hq.1

/-- **Files have no holes, and reading never allocates**: after any sequence of calls every inode in use has its blocks;
`readi()` leaves the whole state as it is and does not panic; `sys_read()` and `sys_fstat()` leave the disk and the log.
-/
theorem reading_never_allocates (h : Sound sb (sb.view img) []) (calls : List FsCall) :
    Runs (fun e => e ≠ .freeingFree) (runCalls sb calls) (.mount img) fun _ s =>
      NoHoles sb (sb.view s.disk) ∧
      (∀ inum < sb.ninodes,
        Runs (fun e => e ≠ .outsideTrans) (do let ip ← iget inum; ilock sb ip; return ip) s fun ip t =>
        ∀ room off n, n < 2 ^ 32 → Runs (fun _ => False) (readi sb ip room off n) t fun _ u => u = t) ∧
      (∀ f room n, Runs (fun e => e ≠ .outsideTrans) (call sb (.read f room n)) s fun _ t =>
        t.disk = s.disk ∧ t.lh = s.lh) ∧
      ∀ f, Runs (fun e => e ≠ .outsideTrans) (call sb (.fstat f)) s fun _ t => t.disk = s.disk ∧ t.lh = s.lh :=
  (runCalls_spec (idle_mount h) calls).mono fun _ _ hs =>
    ⟨hs.sound.full, fun _ hi => readi_trans hs hi, read_trans hs, fstat_trans hs⟩

theorem reading_never_allocates_small : Sound smallSb (smallSb.view (smallImage 0)) [] ∧
    Runs (fun e => e ≠ .freeingFree) (runCalls smallSb [.userinit 0, .openFile 0 (some [47, 97]) 0x202 false,
      .write 0 ⟨fun _ => 1, 100⟩ 200, .read 0 100 100]) (.mount (smallImage 0)) fun _ s =>
      NoHoles smallSb (smallSb.view s.disk) ∧
      (∀ inum < smallSb.ninodes,
        Runs (fun e => e ≠ .outsideTrans) (do let ip ← iget inum; ilock smallSb ip; return ip) s fun ip t =>
        ∀ room off n, n < 2 ^ 32 → Runs (fun _ => False) (readi smallSb ip room off n) t fun _ u => u = t) ∧
      (∀ f room n, Runs (fun e => e ≠ .outsideTrans) (call smallSb (.read f room n)) s fun _ t =>
        t.disk = s.disk ∧ t.lh = s.lh) ∧
      ∀ f, Runs (fun e => e ≠ .outsideTrans) (call smallSb (.fstat f)) s fun _ t => t.disk = s.disk ∧ t.lh = s.lh :=
  ⟨small_sound, reading_never_allocates small_sound _⟩

/-- Block 6 is the indirect block of the file of inode 2, which is 13 blocks long, and the first block of the file `b`.
-/
def sharedImage : Image := ofCells ([
  -- inode 1 : type, nlink, size, addrs[0]
  ((2, 64), 1), ((2, 70), 1), ((2, 72), 16), ((2, 76), 4),
  -- inode 2 : type, nlink, size, addrs[12]
  ((2, 128), 2), ((2, 134), 1), ((2, 137), 0x34), ((2, 188), 6),
  -- inode 3 : type, nlink, addrs[0]
  ((2, 192), 2), ((2, 198), 1), ((2, 204), 6),
  -- the bitmap, the entry for `b`, and the first entry of the indirect block
  ((3, 0), 0x7f), ((4, 0), 3), ((4, 2), 98), ((6, 0), 5)] ++
  -- inode 2 : addrs[0] to addrs[11]
  (List.range 12).map fun k => ((2, 140 + 4 * k), 5))

theorem shared_noHoles : NoHoles smallSb (smallSb.view sharedImage) := by
  have hsize : ∀ j < 16, ((smallSb.view sharedImage).ino j).size.toNat ≤ 13 * 1024 := by decide
  have hfull : ∀ j < 16, ∀ bn < 13, bn * 1024 < ((smallSb.view sharedImage).ino j).size.toNat →
      bn < maxfile ∧ (smallSb.view sharedImage).at j (place bn) ≠ 0 := by decide
  intro j hj bn hbn
  rw [show bsize = 1024 from rfl] at hbn
  have hle := hsize j hj.1
  exact hfull j hj.1 bn (by omega) hbn

/-- **That there are no holes is not enough to begin with**: a write of zeros to `b` takes a block from the other file.
-/
theorem shared_makes_hole : NoHoles smallSb (smallSb.view sharedImage) ∧
    Runs (fun _ => False) (runCalls smallSb [.userinit 0, .openFile 0 (some [47, 98]) 1 false,
      .write 0 ⟨fun _ => 0, 4⟩ 4]) (.mount sharedImage) fun _ s => ¬ NoHoles smallSb (smallSb.view s.disk) := by
  have hrun : Runs (fun _ => False) (runCalls smallSb [.userinit 0, .openFile 0 (some [47, 98]) 1 false,
      .write 0 ⟨fun _ => 0, 4⟩ 4]) (.mount sharedImage) fun _ s => (smallSb.view s.disk).Live smallSb 2 ∧
        12 * 1024 < ((smallSb.view s.disk).ino 2).size.toNat ∧ (smallSb.view s.disk).at 2 (place 12) = 0 := by
    decide +kernel
  exact ⟨shared_noHoles, hrun.mono fun _ s hs hno => (hno 2 hs.1 12 hs.2.1).2 hs.2.2⟩

end

end Xv6.Fs
