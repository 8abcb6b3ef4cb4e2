import Xv6.Fs.Keep

/-!
# Blocks for a file

What `bmap()` does to the inode that a call works on, whatever the other files hold.

* `MayLog R s` : `R` allows the panics of `log_write()`;
* `Works` : the blocks are accounted for, with the copy of the inode in its place;
* `Beside ip s t` : what a call that works on `ip` leaves alone; `Gained` : the file has at most got more blocks;
* `balloc_law`, `addrOrAlloc_law`, `bmap_law` : one specification each; they fail only when the disk is full.
-/

namespace Xv6.Fs
open Hoare Alloc Bytes Function

def MayLog (R : FsPanic → Prop) (s : FsState) : Prop := R .tooBig ∧ (s.outstanding < 1 → R .outsideTrans)

/-- No block is free. -/
def FsState.DiskFull (sb : Superblock) (s : FsState) : Prop := ∀ b < sb.size, sb.bit s.disk b = true

structure Works (sb : Superblock) (X : List Nat) (ip : Ip) (s : FsState) : Prop where
  law : Law sb (s.seen sb (.copy ip)) X
  live : (s.seen sb (.copy ip)).Live sb (s.itable ip).inum

structure Beside (ip : Ip) (s t : FsState) : Prop where
  itable : t.itable = update s.itable ip { s.itable ip with din := (t.itable ip).din }
  ftable : t.ftable = s.ftable
  cwd : t.cwd = s.cwd
  outstanding : t.outstanding = s.outstanding
  logged : ∀ b, b ∉ t.lh → b ∉ s.lh ∧ t.disk b = s.disk b

structure Gained (sb : Superblock) (ip : Ip) (s t : FsState) : Prop extends Beside ip s t where
  gains : Gains sb (s.itable ip).inum (s.seen sb (.copy ip)) (t.seen sb (.copy ip))

section
variable {sb : Superblock} {R : FsPanic → Prop} {X : List Nat} {s t u : FsState} {ip : Ip} {b : Nat}

theorem modDisk_runs {A : Type} {g : Image → Image} {f : Unit → FsM A} {Q : A → FsState → Prop} (hlog : MayLog R s)
    (h : Runs R (f ⟨⟩) (s.wrote b (g s.disk)) Q) : Runs R (modDisk b g >>= f) s Q := by
  refine .seq (Q := fun _ t => t = s.wrote b (g s.disk)) (.get_bind ?_) fun _ t ht => ht ▸ h
  refine .seq (Q := fun _ t => t = s) (.ite (fun _ => .throw hlog.1) fun _ => .pure rfl) fun _ t ht => ?_
  refine .seq (Q := fun _ t => t = s) (.ite (fun hout => .throw (hlog.2 hout)) fun _ => .pure ht)
    fun _ u hu => ?_
  rw [hu]
  exact .of_modify rfl

theorem store_runs {A : Type} {x : Nat → UInt8} {f : Unit → FsM A} {Q : A → FsState → Prop} (hlog : MayLog R s)
    (h : Runs R (f ⟨⟩) (s.wrote b (update s.disk b x)) Q) : Runs R (store b x >>= f) s Q :=
  modDisk_runs (g := fun img => update img b x) hlog h

theorem iupdate_runs (hlog : MayLog R s) : Runs R (iupdate sb ip) s fun _ t =>
    t = s.wrote (sb.iblock (s.itable ip).inum) (sb.setDinode s.disk (s.itable ip).inum (s.itable ip).din) := by
  refine .get_bind ?_
  rw [← bind_pure (modDisk _ _)]
  exact modDisk_runs hlog (.pure rfl)

/-! ## What a call leaves alone -/

theorem Beside.refl : Beside ip s s := ⟨(update_eq_self ip s.itable).symm, rfl, rfl, rfl, fun _ hb => ⟨hb, rfl⟩⟩

theorem Beside.inode (h : Beside ip s t) : t.itable ip = { s.itable ip with din := (t.itable ip).din } := by
  have hself := congrFun h.itable ip
  rwa [update_self] at hself

theorem Beside.inum (h : Beside ip s t) : (t.itable ip).inum = (s.itable ip).inum := by rw [h.inode]

theorem Beside.of_ne (h : Beside ip s t) {jp : Ip} (hj : jp ≠ ip) : t.itable jp = s.itable jp := by
  rw [h.itable, update_of_ne hj]

theorem Beside.trans (h : Beside ip s t) (h' : Beside ip t u) : Beside ip s u where
  itable := by
    rw [h'.itable, h.itable, update_idem, update_self, update_self]
  ftable := h'.ftable.trans h.ftable
  cwd := h'.cwd.trans h.cwd
  outstanding := h'.outstanding.trans h.outstanding
  logged b hb := by
    obtain ⟨hb', hu⟩ := h'.logged b hb
    obtain ⟨hb'', ht⟩ := h.logged b hb'
    exact ⟨hb'', hu.trans ht⟩

theorem Beside.mayLog (h : Beside ip s t) (hlog : MayLog R s) : MayLog R t := by
  rw [MayLog, h.outstanding]
  exact hlog

theorem Beside.wrote {img : Image} (himg : ∀ c, c ≠ b → img c = s.disk c) : Beside ip s (s.wrote b img) where
  itable := (update_eq_self ip s.itable).symm
  ftable := rfl
  cwd := rfl
  outstanding := rfl
  logged c hc := by
    change c ∉ (if b ∈ s.lh then s.lh else s.lh ++ [b]) at hc
    have hcb : c ∉ s.lh ∧ c ≠ b := by
      split at hc
      · next hmem => exact ⟨hc, fun he => hc (he ▸ hmem)⟩
      · exact ⟨fun hm => hc (List.mem_append_left _ hm), fun he =>
          hc (List.mem_append_right _ (List.mem_singleton.mpr he))⟩
    exact ⟨hcb.1, himg c hcb.2⟩

theorem Beside.setDin (c : Dinode) : Beside ip s (s.setInode ip { s.itable ip with din := c }) where
  itable := by
    rw [itable_setInode]
    rfl
  ftable := rfl
  cwd := rfl
  outstanding := rfl
  logged _ hb := ⟨hb, rfl⟩

theorem Gained.refl : Gained sb ip s s := ⟨.refl, .refl⟩

theorem Gained.trans (h : Gained sb ip s t) (h' : Gained sb ip t u) : Gained sb ip s u := by
  have hg := h'.gains
  rw [h.inum] at hg
  exact ⟨h.toBeside.trans h'.toBeside, h.gains.trans hg⟩

/-- The copy keeps everything but its addresses. -/
theorem Gained.din (h : Gained sb ip s t) :
    (t.itable ip).din = { (s.itable ip).din with addrs := (t.itable ip).din.addrs } := by
  have hself := h.gains.self
  rw [ino_seen_copy, ← h.inum, ino_seen_copy] at hself
  exact hself

/-! ## Allocation -/

/-- The block that `balloc()` returns is zeroed and in the hands of the call. -/
theorem balloc_law (h : Works sb X ip s) (hlog : MayLog R s) :
    Runs R (balloc sb) s fun b t => (b = 0 ∧ t = s ∧ t.DiskFull sb) ∨
      (b ≠ 0 ∧ t.itable = s.itable ∧ t.disk b = (fun _ => 0) ∧ (∀ c, sb.nmeta ≤ c → c ≠ b → t.disk c = s.disk c) ∧
        Law sb (t.seen sb (.copy ip)) (b :: X) ∧ Gained sb ip s t) := by
  refine .get_bind ?_
  cases hfind : (List.range sb.size).find? fun b => !sb.bit s.disk b with
  | none =>
    refine .pure (.inl ⟨rfl, rfl, fun b hb => ?_⟩)
    simpa using List.find?_eq_none.mp hfind b (List.mem_range.mpr hb)
  | some b =>
    have hlt : b < sb.size := List.mem_range.mp (List.mem_of_find?_eq_some hfind)
    have hbit : sb.bit s.disk b = false := by simpa using List.find?_some hfind
    have hclear : (s.seen sb (.copy ip)).bit b = false := by rw [seen_bit, view_bit hlt, hbit]
    have hbb := sb.bblock_lt hlt
    obtain ⟨hlaw, hgains⟩ := h.law.alloc (i := (s.itable ip).inum) (f := fun _ => 0) hclear hlt
    have hdata := hlaw.held_data List.mem_cons_self
    have hbeside : Beside ip s (s.wrote (sb.bblock b) (sb.setBit s.disk b)) :=
      .wrote fun c hc => update_of_ne hc ..
    refine modDisk_runs hlog (store_runs (x := fun _ => 0) (hbeside.mayLog hlog) (.pure (.inr ?_)))
    set t := (s.wrote (sb.bblock b) (sb.setBit s.disk b)).wrote b
      (update (s.wrote (sb.bblock b) (sb.setBit s.disk b)).disk b fun _ => 0) with ht
    have hseen : t.seen sb (.copy ip) = ((s.seen sb (.copy ip)).setBit b true).setBlk b fun _ => 0 := by
      rw [ht, seen_setBlk (view_setBlk hdata.1 hdata.2), seen_setBit (view_setBit hlt)]
    rw [← hseen] at hlaw hgains
    refine ⟨Nat.ne_of_gt (Nat.lt_of_lt_of_le sb.nmeta_pos hdata.1), rfl, update_self .., fun c hc hcb => ?_,
      hlaw, hbeside.trans (.wrote fun c hc => update_of_ne hc ..), hgains⟩
    show update (sb.setBit s.disk b) b _ c = s.disk c
    rw [update_of_ne hcb, Superblock.setBit, update_of_ne (by omega)]

/-- The copy gets a block that has just been allocated at its address `k`. -/
theorem Works.attach {k : Fin 13} (hlaw : Law sb (s.seen sb (.copy ip)) (b :: X))
    (hlive : (s.seen sb (.copy ip)).Live sb (s.itable ip).inum) (hk : (s.itable ip).din.addrs k = 0)
    (hzero : s.disk b = fun _ => 0) :
    Works sb X ip (s.setInode ip { s.itable ip with din := (s.itable ip).din.setAddr k b }) ∧
    Gained sb ip s (s.setInode ip { s.itable ip with din := (s.itable ip).din.setAddr k b }) := by
  obtain ⟨hmeta, hsize⟩ := hlaw.held_data List.mem_cons_self
  have hino : (s.seen sb (.copy ip)).ino (s.itable ip).inum = (s.itable ip).din := ino_seen_copy
  obtain ⟨hlaw', hgains⟩ := hlaw.attach (k := k) hlive (by rw [hino, hk])
    (by rw [seen_blk, view_blk hmeta hsize, hzero])
  rw [hino, ← seen_setDin] at hlaw' hgains
  have hg : Gained sb ip s (s.setInode ip { s.itable ip with din := (s.itable ip).din.setAddr k b }) :=
  ⟨.setDin _, hgains⟩
  exact ⟨⟨hlaw', by rw [hg.inum]; exact hgains.live.mpr hlive⟩, hg⟩

theorem addrOrAlloc_law {k : Fin 13} (h : Works sb X ip s) (hlog : MayLog R s) :
    Runs R (addrOrAlloc sb ip k) s fun a t => Works sb X ip t ∧ Gained sb ip s t ∧
      (a ≠ 0 → ((t.itable ip).din.addrs k).toNat = a) ∧ (a = 0 → t.DiskFull sb ∧ (s.itable ip).din.addrs k = 0) := by
  refine .get_bind (.ite (fun hk => ?_) fun hk =>
    Runs.pure ⟨h, .refl, fun _ => rfl, fun h0 => absurd h0 (toNat_ne_zero hk)⟩)
  refine .seq (balloc_law h hlog) fun b t ht => ?_
  rcases ht with ⟨rfl, rfl, hfull⟩ | ⟨hb, hitable, hzero, -, hlaw, hg⟩
  · exact .pure ⟨h, .refl, fun h0 => absurd rfl h0, fun _ => ⟨hfull, hk⟩⟩
  · rw [if_neg hb]
    have hlive : (t.seen sb (.copy ip)).Live sb (t.itable ip).inum := by
      rw [hg.inum]
      exact hg.gains.live.mpr h.live
    obtain ⟨hw, hg'⟩ := Works.attach (k := k) hlaw hlive (by rw [hitable]; exact hk) hzero
    refine .modify_bind (.pure ⟨hw, hg.trans hg', fun _ => ?_, fun h0 => absurd h0 hb⟩)
    have hlt : b < 2 ^ 32 :=
      Nat.lt_trans (hlaw.held_data List.mem_cons_self).2 (Nat.lt_trans sb.size_lt (by decide))
    rw [itable_setInode]
    exact addrs_setAddr_self hlt

/-- The indirect block of an inode is a data block. -/
theorem Works.indirect (h : Works sb X ip s) (ha : (s.itable ip).din.addrs 12 ≠ 0) :
    (s.seen sb (.copy ip)).at (s.itable ip).inum 12 = ((s.itable ip).din.addrs 12).toNat ∧
      sb.nmeta ≤ ((s.itable ip).din.addrs 12).toNat ∧ ((s.itable ip).din.addrs 12).toNat < sb.size := by
  have hat : (s.seen sb (.copy ip)).at (s.itable ip).inum 12 = ((s.itable ip).din.addrs 12).toNat := by
    rw [at_indirect, ino_seen_copy]
  have hown := own_block_eq h.live (p := 12) (by decide) (by rw [hat]; exact toNat_ne_zero ha)
  rw [hat] at hown
  exact ⟨hat, h.law.data hown⟩

/-- The entries of the indirect block. -/
theorem Works.entry {n : Nat} (h : Works sb X ip s) (ha : (s.itable ip).din.addrs 12 ≠ 0) :
    (s.seen sb (.copy ip)).at (s.itable ip).inum (13 + n) =
      (getUint (s.disk ((s.itable ip).din.addrs 12).toNat) (4 * n)).toNat := by
  obtain ⟨hat, hdata⟩ := h.indirect ha
  rw [at_entry (by rw [ino_seen_copy]; exact ha), hat, seen_blk, view_blk hdata.1 hdata.2]

/-- The indirect block of the copy gets a block that has just been allocated as its entry `n`. -/
theorem Works.attachEntry {n : Nat} (hs : Works sb (b :: X) ip s) (hn : n < nindirect)
    (ha : (s.itable ip).din.addrs 12 ≠ 0) (h0 : getUint (s.disk ((s.itable ip).din.addrs 12).toNat) (4 * n) = 0)
    (t : FsState)
    (ht : t = s.wrote ((s.itable ip).din.addrs 12).toNat (update s.disk ((s.itable ip).din.addrs 12).toNat
      (setUint (s.disk ((s.itable ip).din.addrs 12).toNat) (4 * n) b))) :
    Works sb X ip t ∧ Gained sb ip s t ∧ (t.seen sb (.copy ip)).at (s.itable ip).inum (13 + n) = b := by
  obtain ⟨hmeta, hsize⟩ := hs.law.held_data List.mem_cons_self
  have hlt : b < 2 ^ 32 := Nat.lt_trans hsize (Nat.lt_trans sb.size_lt (by decide))
  have ha' : ((s.seen sb (.copy ip)).ino (s.itable ip).inum).addrs 12 ≠ 0 := by rwa [ino_seen_copy]
  obtain ⟨hat, hdata⟩ := hs.indirect ha
  have hblk : (s.seen sb (.copy ip)).blk ((s.itable ip).din.addrs 12).toNat =
      s.disk ((s.itable ip).din.addrs 12).toNat := by
    rw [seen_blk, view_blk hdata.1 hdata.2]
  have hseen : t.seen sb (.copy ip) = (s.seen sb (.copy ip)).setBlk ((s.seen sb (.copy ip)).at (s.itable ip).inum 12)
      (setUint ((s.seen sb (.copy ip)).blk ((s.seen sb (.copy ip)).at (s.itable ip).inum 12)) (4 * n) b) := by
    rw [ht, seen_setBlk (view_setBlk hdata.1 hdata.2), hat, hblk]
  obtain ⟨hlaw, hgains⟩ := hs.law.attachEntry hs.live ha' hn (by rw [hat, hblk, h0])
  rw [← hseen] at hlaw hgains
  have hg : Gained sb ip s t := ⟨by rw [ht]; exact .wrote fun c hc => update_of_ne hc .., hgains⟩
  refine ⟨⟨hlaw, by rw [hg.inum]; exact hgains.live.mpr hs.live⟩, hg, ?_⟩
  rw [hseen]
  exact at_setEntry_self ha' hlt

/-- **`bmap()`** fills at most places that were empty, and returns the block of the file, or 0 when it has none there
and the disk is full. -/
theorem bmap_law {bn : Nat} (h : Works sb X ip s) (hlog : MayLog R s) (hbn : ¬ bn < maxfile → R .bmapRange) :
    Runs R (bmap sb ip bn) s fun a t => Works sb X ip t ∧ Gained sb ip s t ∧
      (a ≠ 0 → bn < maxfile ∧ (t.seen sb (.copy ip)).at (s.itable ip).inum (place bn) = a) ∧
      (a = 0 → t.DiskFull sb ∧ (s.seen sb (.copy ip)).at (s.itable ip).inum (place bn) = 0) := by
  have hmax : maxfile = ndirect + nindirect := rfl
  refine .ite (fun hd => ?_) fun hd => .ite (fun hn => ?_) fun hn => .throw (hbn (by omega))
  · have hlt : bn < 13 := Nat.lt_of_lt_of_le hd (by decide)
    refine (addrOrAlloc_law h hlog).mono fun a t hat => ?_
    obtain ⟨hw, hg, ha, hfull⟩ := hat
    refine ⟨hw, hg, fun h0 => ⟨by omega, ?_⟩, fun h0 => ⟨(hfull h0).1, ?_⟩⟩
    · rw [place, if_pos hd, View.at, if_pos hlt, ← hg.inum, ino_seen_copy, ha h0]
    · rw [place, if_pos hd, View.at, if_pos hlt, ino_seen_copy, (hfull h0).2]
      rfl
  · have hplace : place bn = 13 + (bn - ndirect) := by
      rw [place, if_neg hd]
      have : ndirect = 12 := rfl
      omega
    have hltp : place bn < nplaces := by
      rw [hplace]
      exact Nat.add_lt_add_left hn 13
    refine .seq (addrOrAlloc_law h hlog) fun a t hat => ?_
    obtain ⟨hw, hg, ha, hfull⟩ := hat
    refine .ite (fun h0 => .pure ⟨hw, hg, fun h0 => absurd rfl h0, fun _ => ⟨(hfull h0).1, ?_⟩⟩) fun h0 => ?_
    · exact at_entry_of_zero (by omega) (by rw [ino_seen_copy, (hfull h0).2])
    have haddr := ha h0
    have ha12 : (t.itable ip).din.addrs 12 ≠ 0 := fun hc => h0 (by rw [← haddr, hc]; rfl)
    have hentry := hw.entry (n := bn - ndirect) ha12
    rw [haddr] at hentry
    refine .get_bind (.ite (fun he0 => ?_) fun he0 => .pure ⟨hw, hg, fun _ => ⟨by omega, ?_⟩,
      fun hc => absurd hc (toNat_ne_zero he0)⟩)
    · refine .seq (balloc_law hw (hg.mayLog hlog)) fun b u hu => ?_
      rcases hu with ⟨rfl, rfl, hnone⟩ | ⟨hb, hitable, -, hsame, hlaw, hg'⟩
      · refine .pure ⟨hw, hg, fun hc => absurd rfl hc, fun _ => ⟨hnone, ?_⟩⟩
        by_contra hne
        have hsame := hg.gains.filled _ h.live hltp hne
        rw [hplace, ← hg.inum, hentry, he0, ← hplace, hg.inum] at hsame
        exact hne hsame.symm
      · rw [if_neg hb]
        have hdata := (hw.indirect ha12).2
        rw [haddr] at hdata
        have hne : a ≠ b := by
          rintro rfl
          have hlive' : (u.seen sb (.copy ip)).Live sb (t.itable ip).inum := hg'.gains.live.mpr hw.live
          have hown := own_block_eq hlive' (p := 12) (by decide) (by
            rw [at_indirect, ← hg'.inum, ino_seen_copy, hitable, haddr]
            exact hb)
          rw [at_indirect, ← hg'.inum, ino_seen_copy, hitable, haddr] at hown
          exact hlaw.exact.not_held hown List.mem_cons_self
        have haddr' : ((u.itable ip).din.addrs 12).toNat = a := by rw [hitable, haddr]
        have hu : Works sb (b :: X) ip u := ⟨hlaw, by rw [hg'.inum]; exact hg'.gains.live.mpr hw.live⟩
        obtain ⟨hw', hg'', hat⟩ := hu.attachEntry hn (by rw [hitable]; exact ha12)
          (by rw [haddr', hsame a hdata.1 hne, he0]) _ rfl
        rw [haddr'] at hw' hg'' hat
        refine .get_bind (store_runs (hg'.mayLog (hg.mayLog hlog)) (.pure ⟨hw', hg.trans (hg'.trans hg''),
          fun _ => ⟨by omega, ?_⟩, fun hc => absurd hc hb⟩))
        rw [hplace, ← hg.inum, ← hg'.inum]
        exact hat
    · rw [hplace, ← hg.inum, hentry]

end

end Xv6.Fs
