import Xv6.Fs.Grow

/-!
# The blocks of a locked inode

* `Ok.beside` : what a call that works on one inode has to show;
* `Cleared`, `Emptying`, `Truncated` : the stages of `itrunc()`;
* `itrunc_spec`, `iput_spec` : the specifications that the layers above use.
-/

namespace Xv6.Fs
open Hoare Alloc Bytes Function

section
variable {sb : Superblock} {w : World} {X Y : List Nat} {d : Pending} {s t u : FsState} {ip : Ip} {b i : Nat} {v : View}

/-- A call that has left everything beside `ip` alone keeps what the calls keep. -/
theorem Ok.beside (h : Ok sb w X (.copy ip) s) (hl : w.locks ip = true) (hb : Beside ip s t)
    (htype : (t.itable ip).din.type = (s.itable ip).din.type)
    (hino : ∀ j, j ≠ (s.itable ip).inum → (sb.view t.disk).ino j = (sb.view s.disk).ino j)
    (hsound : Sound sb (t.seen sb d) Y)
    (hsync : d.ip ≠ some ip → (t.itable ip).din = (sb.view t.disk).ino (s.itable ip).inum) : Ok sb w Y d t where
  sound := hsound
  entry jp := by
    have he := h.entry jp
    by_cases hj : jp = ip
    · subst hj
      rw [hb.inode]
      refine ⟨he.ref, he.locked, he.inum, fun _ _ hd => hsync hd, fun hh hv => ?_, he.valid, fun hp => ?_⟩
      · show (t.itable jp).din.type ≠ 0
        rw [htype]
        exact he.live hh hv
      · show _ ∧ (t.itable jp).din.type ≠ tDir
        rw [htype]
        exact he.plain hp
    · rw [hb.of_ne hj]
      refine { he with synced :=
      fun hh hv _ => (he.synced hh hv fun hc => hj (Option.some.inj hc).symm).trans (hino _ ?_).symm }
      exact fun hc => hj (h.unique jp ip hh ((h.entry ip).valid hl).1 hc)
  unique jp kp hj hk he := by
    have hinum : ∀ qp, (t.itable qp).inum = (s.itable qp).inum := fun qp => by
      by_cases hq : qp = ip
      · rw [hq, hb.inum]
      · rw [hb.of_ne hq]
    rw [hinum, hinum] at he
    exact h.unique jp kp hj hk he
  files := hb.ftable.trans h.files
  cwd := hb.cwd.trans h.cwd
  outstanding := hb.outstanding.trans h.outstanding
  logged b hnot := by
    obtain ⟨hb', hd⟩ := hb.logged b hnot
    exact hd.trans (h.logged b hb')

theorem mayLog_safe : MayLog (fun e => e ≠ .freeingFree) s := ⟨by decide, fun _ => by decide⟩

/-! ## itrunc -/

theorem bfree_runs {Q : Unit → FsState → Prop} (hb : sb.bit s.disk b = true)
    (hQ : Q ⟨⟩ (s.wrote (sb.bblock b) (sb.clearBit s.disk b))) : Safe (bfree sb b) s Q := by
  refine .get_bind ?_
  rw [if_pos hb]
  exact modDisk_spec hQ

/-- The bit of a block in the hands of the call is set, and clearing it frees the block. -/
theorem Ok.free (h : Ok sb w (b :: X) d s) :
    sb.bit s.disk b = true ∧ Ok sb w X d (s.wrote (sb.bblock b) (sb.clearBit s.disk b)) := by
  have hdata := h.sound.held_data List.mem_cons_self
  refine ⟨?_, h.setBit (view_clearBit hdata.2) (fun c hc => update_of_ne hc ..) h.sound.free⟩
  rw [← view_bit hdata.2, ← seen_bit (d := d)]
  exact h.sound.exact.used_of_held List.mem_cons_self

/-- The inode with its address `k` cleared in the copy. -/
def FsState.unset (s : FsState) (ip : Ip) (k : Fin 13) : FsState :=
  s.setInode ip { s.itable ip with din := (s.itable ip).din.setAddr k 0 }

theorem seen_unset (sb : Superblock) (s : FsState) (ip : Ip) (k : Fin 13) : (s.unset ip k).seen sb (.trunc ip) =
    (s.seen sb (.trunc ip)).setIno (s.itable ip).inum
      (((s.seen sb (.trunc ip)).ino (s.itable ip).inum).setAddr k 0) := by
  rw [ino_seen_trunc]
  show (sb.view s.disk).setIno ((s.unset ip k).itable ip).inum { ((s.unset ip k).itable ip).din with size := 0 } =
    ((sb.view s.disk).setIno _ _).setIno _ _
  rw [FsState.unset, itable_setInode, setIno_setIno]
  rfl

/-- What is left of the copy when some addresses have been cleared. -/
structure Cleared (ip : Ip) (k : Fin 13) (s t : FsState) : Prop where
  inum : (t.itable ip).inum = (s.itable ip).inum
  self : (t.itable ip).din.addrs k = 0
  other : ∀ m, m ≠ k → (t.itable ip).din.addrs m = (s.itable ip).din.addrs m

theorem cleared_unset (s : FsState) (ip : Ip) (k : Fin 13) : Cleared ip k s (s.unset ip k) := by
  constructor
  · rw [FsState.unset, itable_setInode]
  · rw [FsState.unset, itable_setInode]
    exact UInt32.toNat_inj.mp (addrs_setAddr_self (by decide))
  · intro m hm
    rw [FsState.unset, itable_setInode]
    exact addrs_setAddr_of_ne hm

theorem freeAddr_spec {k : Fin 13} (h : Ok sb w X (.trunc ip) s) (hl : w.locks ip = true) (hk : k ≠ 12) :
    Safe (freeAddr sb ip k) s fun _ t => Ok sb w X (.trunc ip) t ∧ Cleared ip k s t := by
  refine .get_bind (.ite (fun h0 => ?_) fun h0 => .pure ⟨h, rfl, not_not.mp h0, fun _ _ => rfl⟩)
  have hino : (s.seen sb (.trunc ip)).ino (s.itable ip).inum = { (s.itable ip).din with size := 0 } := ino_seen_trunc
  have hdet : Ok sb w (((s.itable ip).din.addrs k).toNat :: X) (.trunc ip) (s.unset ip k) := by
    refine h.setDin rfl hl rfl ?_
    have hs := h.sound.detach (h.live_seen rfl hl) (by rw [hino]) hk (by rw [hino]; exact h0)
    rw [← seen_unset, hino] at hs
    exact hs
  obtain ⟨hbit, hfree⟩ := hdet.free
  exact .seq (bfree_runs (Q := fun _ t => t = s.wrote _ _) hbit rfl) fun _ t ht => .of_modify
    (by subst ht; exact ⟨hfree, (cleared_unset s ip k).inum, (cleared_unset s ip k).self, (cleared_unset s ip k).other⟩)

/-- The blocks that the entries from `j` on of the indirect block of inode `i` are. -/
def entriesFrom (sb : Superblock) (v : View) (i j : Nat) : List Nat :=
  (List.range' j (nindirect - j)).filterMap fun n => v.own sb (.block i (13 + n))

theorem entriesFrom_last (v : View) (i : Nat) : entriesFrom sb v i nindirect = [] := by
  rw [entriesFrom, Nat.sub_self]
  rfl

theorem entriesFrom_of_none {j : Nat} (hj : j < nindirect) (h : v.own sb (.block i (13 + j)) = none) :
    entriesFrom sb v i j = entriesFrom sb v i (j + 1) := by
  rw [entriesFrom, show nindirect - j = (nindirect - (j + 1)) + 1 by omega, List.range'_succ, List.filterMap_cons]
  simp only [h]
  rfl

theorem entriesFrom_of_some {j : Nat} (hj : j < nindirect) (h : v.own sb (.block i (13 + j)) = some b) :
    entriesFrom sb v i j = b :: entriesFrom sb v i (j + 1) := by
  rw [entriesFrom, show nindirect - j = (nindirect - (j + 1)) + 1 by omega, List.range'_succ, List.filterMap_cons]
  simp only [h]
  rfl

theorem indirectPlaces_own (h : v.own sb (.block i 12) = some b) :
    (indirectPlaces i).filterMap (v.own sb) = entriesFrom sb v i 0 ++ [b] := by
  rw [indirectPlaces, List.filterMap_append, List.filterMap_map, List.filterMap_cons_some h,
    List.filterMap_nil, entriesFrom, Nat.sub_zero, ← List.range_eq_range']
  rfl

/-- While `itrunc()` goes through the indirect block: the copy still has the block's address, but it counts as cleared,
and the block and the entries from `j` on are in the hands of the call. -/
structure Emptying (sb : Superblock) (w : World) (X : List Nat) (ip : Ip) (s : FsState) (j : Nat) (t : FsState) :
    Prop where
  itable : t.itable = s.itable
  blk : ∀ c, sb.nmeta ≤ c → t.disk c = s.disk c
  ok : Ok sb w (entriesFrom sb (s.seen sb (.trunc ip)) (s.itable ip).inum j ++
    ((s.itable ip).din.addrs 12).toNat :: X) (.trunc ip) (t.unset ip 12)

/-- `bfree()` of the first block that the call has in its hands, while the copy is ahead of the table. -/
theorem free_unset (h : Ok sb w (b :: X) d (s.unset ip 12)) :
    Safe (bfree sb b) s fun _ t => t.itable = s.itable ∧ (∀ c, sb.nmeta ≤ c → t.disk c = s.disk c) ∧
      Ok sb w X d (t.unset ip 12) := by
  obtain ⟨hbit, hfree⟩ := h.free
  refine bfree_runs hbit ⟨rfl, fun c hc => ?_, hfree⟩
  have hbb := sb.bblock_lt (h.sound.held_data List.mem_cons_self).2
  exact update_of_ne (by omega) ..

theorem freeEntries_spec (h : Ok sb w X (.trunc ip) s) (hl : w.locks ip = true) (ha : (s.itable ip).din.addrs 12 ≠ 0) :
    Safe (freeEntries sb ((s.itable ip).din.addrs 12).toNat) s fun _ t => Emptying sb w X ip s nindirect t := by
  set v := s.seen sb (.trunc ip) with hv
  have hino : v.ino (s.itable ip).inum = { (s.itable ip).din with size := 0 } := ino_seen_trunc
  have ha' : (v.ino (s.itable ip).inum).addrs 12 ≠ 0 := by rwa [hino]
  have hat : v.at (s.itable ip).inum 12 = ((s.itable ip).din.addrs 12).toNat := by rw [at_indirect, hino]
  have hlive := h.live_seen rfl hl
  have hown : v.own sb (.block (s.itable ip).inum 12) = some ((s.itable ip).din.addrs 12).toNat :=
    own_block_iff.mpr ⟨hlive, by decide, hat, toNat_ne_zero ha⟩
  have hdata := h.sound.data hown
  refine Runs.forM_range ⟨rfl, fun _ _ => rfl, ?_⟩ fun j hj t ht => ?_
  · refine h.setDin rfl hl rfl ?_
    have hs := h.sound.detachIndirect (by rw [hino])
    rw [indirectPlaces_own hown, List.append_assoc, List.singleton_append] at hs
    have heq := seen_unset sb s ip 12
    rw [FsState.unset] at heq
    rw [heq]
    exact hs
  · -- the entry as the image had it when `itrunc()` began
    have hentry : (getUint (t.disk ((s.itable ip).din.addrs 12).toNat) (4 * j)).toNat =
        v.at (s.itable ip).inum (13 + j) := by
      rw [at_entry ha', hat, hv, seen_blk, view_blk hdata.1 hdata.2, ht.blk _ hdata.1]
    refine .get_bind (.ite (fun h0 => ?_) fun h0 => .pure ⟨ht.itable, ht.blk, ?_⟩)
    · have hsome : v.own sb (.block (s.itable ip).inum (13 + j)) =
          some (getUint (t.disk ((s.itable ip).din.addrs 12).toNat) (4 * j)).toNat :=
        own_block_iff.mpr ⟨hlive, Nat.add_lt_add_left hj 13, hentry.symm, toNat_ne_zero h0⟩
      have hok := ht.ok
      rw [entriesFrom_of_some hj hsome, List.cons_append] at hok
      refine (free_unset hok).mono fun _ u hu => ⟨hu.1.trans ht.itable, fun c hc => ?_, hu.2.2⟩
      rw [hu.2.1 c hc, ht.blk c hc]
    · have hzero : v.at (s.itable ip).inum (13 + j) = 0 := by
        rw [← hentry, not_not.mp h0]
        rfl
      have hok := ht.ok
      rwa [entriesFrom_of_none hj (own_block_none hzero)] at hok

/-- The indirect block with its entries. -/
theorem freeIndirect_spec (h : Ok sb w X (.trunc ip) s) (hl : w.locks ip = true) (ha : (s.itable ip).din.addrs 12 ≠ 0) :
    Safe (do freeEntries sb ((s.itable ip).din.addrs 12).toNat; freeAddr sb ip 12) s fun _ t =>
      Ok sb w X (.trunc ip) t ∧ Cleared ip 12 s t := by
  refine .seq (freeEntries_spec h hl ha) fun _ t ht => .get_bind ?_
  rw [ht.itable, if_pos ha]
  have hok := ht.ok
  rw [entriesFrom_last, List.nil_append] at hok
  refine .seq (free_unset hok) fun _ u hu => .of_modify ⟨hu.2.2, ?_, ?_, fun m hm => ?_⟩
  · refine (cleared_unset u ip 12).inum.trans ?_
    rw [hu.1, ht.itable]
  · exact (cleared_unset u ip 12).self
  · refine ((cleared_unset u ip 12).other m hm).trans ?_
    rw [hu.1, ht.itable]

/-- What is left of an inode after `itrunc()`. -/
structure Truncated (ip : Ip) (s t : FsState) : Prop where
  inum : (t.itable ip).inum = (s.itable ip).inum
  size : (t.itable ip).din.size = 0
  addrs : ∀ k, (t.itable ip).din.addrs k = 0

/-- `itrunc()` may begin: its inode counts as empty. -/
theorem Ok.beginTrunc (h : Ok sb w X .clean s) (hl : w.locks ip = true) : Ok sb w X (.trunc ip) s := by
  have hc := h.pend hl
  refine { hc with sound := ?_, entry := fun jp => { hc.entry jp with } }
  have hs := hc.sound.resize (i := (s.itable ip).inum) (n := 0) (fun bn hbn => absurd hbn (Nat.not_lt_zero _))
    fun _ k hk => absurd hk (Nat.not_le_of_lt (Nat.lt_of_lt_of_le (by decide) (Nat.le_add_left _ _)))
  rw [ino_seen_copy] at hs
  have heq : (s.seen sb (.copy ip)).setIno (s.itable ip).inum { (s.itable ip).din with size := 0 } =
      s.seen sb (.trunc ip) := setIno_setIno ..
  rwa [heq] at hs

/-- `ip->size = 0` at the end of `itrunc()`. -/
theorem Ok.endTrunc (h : Ok sb w X (.trunc ip) s) (hl : w.locks ip = true) :
    Ok sb w X (.copy ip) (s.setInode ip { s.itable ip with din := { (s.itable ip).din with size := 0 } }) := by
  have hset := h.setDin (c := { (s.itable ip).din with size := 0 }) rfl hl rfl (Y := X) (by
    show Sound sb ((sb.view s.disk).setIno ((s.setInode ip _).itable ip).inum
      { ((s.setInode ip _).itable ip).din with size := 0 }) X
    rw [itable_setInode]
    exact h.sound)
  refine { hset with sound := ?_, entry := fun jp => { hset.entry jp with } }
  show Sound sb ((sb.view s.disk).setIno ((s.setInode ip _).itable ip).inum ((s.setInode ip _).itable ip).din) X
  rw [itable_setInode]
  exact h.sound

theorem itrunc_spec (h : Ok sb w X .clean s) (hl : w.locks ip = true) :
    Safe (itrunc sb ip) s fun _ t => Ok sb w X .clean t ∧ Truncated ip s t := by
  have hloop : Safe (forM (List.range ndirect) fun i => freeAddr sb ip (Fin.ofNat 13 i)) s fun _ t =>
      Ok sb w X (.trunc ip) t ∧ (t.itable ip).inum = (s.itable ip).inum ∧
      ∀ k : Fin 13, k.val < ndirect → (t.itable ip).din.addrs k = 0 := by
    refine Runs.forM_range (I := fun j t => Ok sb w X (.trunc ip) t ∧ (t.itable ip).inum = (s.itable ip).inum ∧
      ∀ k : Fin 13, k.val < j → (t.itable ip).din.addrs k = 0) ⟨h.beginTrunc hl, rfl, fun k hk =>
      absurd hk (Nat.not_lt_zero _)⟩ ?_
    intro j hj t ⟨hok, hinum, hzero⟩
    have hval : (Fin.ofNat 13 j).val = j := Nat.mod_eq_of_lt (Nat.lt_of_lt_of_le hj (by decide))
    have hne : Fin.ofNat 13 j ≠ 12 := fun hc => by
      rw [hc] at hval
      exact absurd hj (hval ▸ by decide)
    refine (freeAddr_spec hok hl hne).mono fun _ u ⟨hu, hc⟩ => ⟨hu, hc.inum.trans hinum, fun k hk => ?_⟩
    by_cases hkj : k = Fin.ofNat 13 j
    · rw [hkj, hc.self]
    · rw [hc.other k hkj]
      refine hzero k ?_
      have : k.val ≠ j := fun he => hkj (Fin.ext (he.trans hval.symm))
      omega
  refine .seq hloop fun _ t ⟨hok, hinum, hzero⟩ => .get_bind ?_
  refine .seq (Q := fun _ u => Ok sb w X (.trunc ip) u ∧ Cleared ip 12 t u)
    (onlyIf_spec (fun ha => freeIndirect_spec hok hl ha) fun ha => ⟨hok, rfl, not_not.mp ha, fun _ _ => rfl⟩) ?_
  intro _ u ⟨hu, hc⟩
  refine .modify_bind ((iupdate_spec (hu.endTrunc hl) hl).mono fun _ r ⟨hr, hitable, _⟩ => ⟨hr, ?_⟩)
  have hentry : r.itable ip = { u.itable ip with din := { (u.itable ip).din with size := 0 } } := by
    rw [hitable]
    exact itable_setInode ..
  refine ⟨by rw [hentry, ← hinum, ← hc.inum], by rw [hentry], fun k => ?_⟩
  rw [hentry]
  show (u.itable ip).din.addrs k = 0
  by_cases hk : k = 12
  · rw [hk, hc.self]
  · rw [hc.other k hk]
    refine hzero k ?_
    have : k.val ≠ 12 := fun he => hk (Fin.ext he)
    have : ndirect = 12 := rfl
    omega

/-! ## iput -/

/-- `ifree()` of an empty inode that no entry of the table is for. -/
theorem ifree_spec {inum : Nat} (h : Ok sb w X .clean s) (hlt : inum < sb.ninodes)
    (hsize : ((sb.view s.disk).ino inum).size = 0) (haddrs : ∀ k, ((sb.view s.disk).ino inum).addrs k = 0)
    (hno : ∀ jp, 0 < w.hold jp → (s.itable jp).inum ≠ inum) : Safe (ifree sb inum) s fun _ t => Ok sb w X .clean t := by
  have hview : sb.view (sb.setDinode s.disk inum { sb.dinode s.disk inum with type := 0 }) =
      (sb.view s.disk).setIno inum { (sb.view s.disk).ino inum with type := 0 } := by
    rw [view_setDinode hlt, view_ino hlt]
  refine modDisk_spec (h.wrote (fun c hc => update_of_ne hc ..) ?_ fun jp hj _ _ => ?_)
  · show Sound sb (sb.view (sb.setDinode s.disk _ _)) X
    rw [hview]
    exact h.sound.ifree hsize haddrs
  · rw [hview]
    exact ino_setIno_of_ne (hno jp hj)

/-- The last reference to an inode without links: the inode is truncated and its type cleared. -/
theorem iput_last (h : Ok sb (w.take ip) X .clean s) (hhold : w.hold ip = 0) (hlock : w.locks ip = false)
    (hv : (s.itable ip).valid = true) :
    Safe (do
      modInode ip fun n => { n with locked := true }
      itrunc sb ip
      modInode ip fun n => { n with locked := false, valid := false }
      modInode ip fun n => { n with ref := n.ref - 1 }
      ifree sb (s.itable ip).inum) s fun _ t => Ok sb w X .clean t := by
  have he := h.entry ip
  have htake : 0 < (w.take ip).hold ip := by
    rw [w.hold_take_self]
    exact Nat.succ_pos _
  have hok : Ok sb ((w.take ip).lock ip) X .clean (s.setInode ip { s.itable ip with locked := true }) := by
    refine h.setInode ((w.take ip).near_lock ip) ?_ h.sound fun _ jp hj hjh hc => hj (h.unique jp ip hjh htake hc)
    exact ⟨he.ref, ((w.take ip).lock_self ip).symm, he.inum, he.synced, he.live, fun _ => ⟨htake, hv⟩, he.plain⟩
  have hplain : ¬ w.plain ip := fun hp => by
    have := w.plain_held ip hp
    omega
  refine .modify_bind (.seq (itrunc_spec hok ((w.take ip).lock_self ip)) fun _ t ⟨ht, htr⟩ => ?_)
  have hinum : (t.itable ip).inum = (s.itable ip).inum := by rw [htr.inum, itable_setInode]
  have het := ht.entry ip
  obtain ⟨hth, htv⟩ := het.valid ((w.take ip).lock_self ip)
  have hsync := het.synced hth htv (Pending.clean_ip ip)
  have hlt := het.inum hth
  refine .modify_bind (.modify_bind ?_)
  rw [itable_setInode, setInode_setInode, ← hinum]
  -- the entry of `ip` is free now, and no other entry has its inode
  refine ifree_spec (ht.setInode ⟨fun jp hj => (w.hold_take_of_ne hj).symm, fun jp hj =>
    ((w.take ip).lock_of_ne hj).symm, rfl, rfl, rfl, rfl, rfl⟩ ?_ ht.sound fun hc => absurd hc (by omega)) hlt ?_
    (fun k => ?_) fun jp hj hc => ?_
  · refine ⟨?_, hlock.symm, fun hc => absurd hc (by omega), fun _ hc => Bool.noConfusion hc,
      fun _ hc => Bool.noConfusion hc, fun hc => Bool.noConfusion (hlock.symm.trans hc), fun hp => absurd hp hplain⟩
    show (t.itable ip).ref - 1 = _
    rw [het.ref, hhold]
    show ((w.take ip).hold ip : Int) - 1 = _
    rw [w.hold_take_self, hhold]
    rfl
  · show ((sb.view t.disk).ino _).size = 0
    rw [← hsync, htr.size]
  · show ((sb.view t.disk).ino _).addrs k = 0
    rw [← hsync, htr.addrs]
  · have hji : jp ≠ ip := fun he => by
      rw [he] at hj
      omega
    have hsame : (update t.itable ip _ jp).inum = (t.itable ip).inum := hc
    rw [update_of_ne hji] at hsame
    refine hji (ht.unique jp ip ?_ hth hsame)
    show 0 < (w.take ip).hold jp
    rwa [w.hold_take_of_ne hji]

theorem iput_spec (h : Ok sb (w.take ip) X .clean s) (hw : w.locks ip = true → 0 < w.hold ip) :
    Safe (iput sb ip) s fun _ t => Ok sb w X .clean t := by
  have he := h.entry ip
  have htake : 0 < (w.take ip).hold ip := by
    rw [w.hold_take_self]
    exact Nat.succ_pos _
  refine .get_bind (.ite (fun hlast => ?_) fun _ => .of_modify ?_)
  · obtain ⟨href, hv, -⟩ := hlast
    have hhold : w.hold ip = 0 := by
      rw [he.ref, w.hold_take_self] at href
      omega
    refine panic_spec (by decide) fun hl => iput_last h hhold ?_ hv
    rw [he.locked] at hl
    exact Bool.eq_false_iff.mpr hl
  · refine h.setInode (w.take_near ip) ?_ h.sound fun _ jp hj hjh hc => hj (h.unique jp ip hjh htake hc)
    refine ⟨?_, he.locked, fun _ => he.inum htake, fun _ => he.synced htake, fun _ => he.live htake,
      fun hl => ?_, he.plain⟩
    · show (s.itable ip).ref - 1 = _
      rw [he.ref, w.hold_take_self]
      omega
    · exact ⟨hw hl, (he.valid hl).2⟩

theorem iunlockput_spec (h : Ok sb ((w.take ip).lock ip) X .clean s) (hl : w.locks ip = false) :
    Safe (iunlockput sb ip) s fun _ t => Ok sb w X .clean t :=
  Runs.seq (iunlock_spec h hl) fun _ _ ht => iput_spec ht fun hc => Bool.noConfusion (hl.symm.trans hc)

end

end Xv6.Fs
