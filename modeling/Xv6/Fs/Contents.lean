import Xv6.Fs.Blocks

/-!
# Reading and writing files

* `View.byteAt` : byte `n` of a file;
* `Holds` : a call has the lock of a file without holes, whose copy in the table is the inode; the blocks are accounted
  for;
* `bmap_mapped`, `readLoop_spec` : reading changes nothing, and returns the bytes of the file;
* `Written`, `Updated`, `writei_law` : what `writei()` has done after some turns, and in the end;
* `WriteOk`, `writei_spec` : `writei()` keeps what the calls keep; into a directory only whole entries are written.
-/

namespace Xv6.Fs
open Hoare Alloc Bytes Function

/-- Byte `n` of file `i`. -/
def View.byteAt (v : View) (i n : Nat) : UInt8 := v.blk (v.at i (place (n / bsize))) (n % bsize)

structure Holds (sb : Superblock) (X : List Nat) (ip : Ip) (s : FsState) : Prop where
  law : Law sb (sb.view s.disk) X
  live : (sb.view s.disk).Live sb (s.itable ip).inum
  synced : (s.itable ip).din = (sb.view s.disk).ino (s.itable ip).inum
  full : (sb.view s.disk).Full (s.itable ip).inum (s.itable ip).din.size.toNat

section
variable {sb : Superblock} {w : World} {X : List Nat} {s : FsState} {ip : Ip} {R : FsPanic → Prop} {off n : Nat}

/-! ## Reading -/

/-- The view of a locked inode, whose copy is the inode. -/
theorem Ok.ino_locked (h : Ok sb w X .clean s) (hl : w.locks ip = true) :
    (sb.view s.disk).ino (s.itable ip).inum = (s.itable ip).din ∧ (sb.view s.disk).Live sb (s.itable ip).inum := by
  have he := h.entry ip
  obtain ⟨hip, hv⟩ := he.valid hl
  have hsync := he.synced hip hv (Pending.clean_ip ip)
  refine ⟨hsync.symm, he.inum hip, ?_⟩
  rw [← hsync]
  exact he.live hip hv

theorem Ok.holds (h : Ok sb w X .clean s) (hl : w.locks ip = true) : Holds sb X ip s := by
  obtain ⟨hino, hlive⟩ := h.ino_locked hl
  refine ⟨h.sound.toLaw, hlive, hino.symm, ?_⟩
  rw [← hino]
  exact h.sound.full _ hlive

theorem Holds.seen (h : Holds sb X ip s) : s.seen sb (.copy ip) = sb.view s.disk := setIno_eq_self h.synced

theorem Holds.works (h : Holds sb X ip s) : Works sb X ip s := by
  refine ⟨?_, ?_⟩
  · rw [h.seen]
    exact h.law
  · rw [h.seen]
    exact h.live

/-- `bmap()` of a block that is there; it does not panic. -/
theorem bmap_mapped {bn : Nat} (h : Holds sb X ip s) (hbn : bn < maxfile)
    (h0 : (sb.view s.disk).at (s.itable ip).inum (place bn) ≠ 0) :
    Runs R (bmap sb ip bn) s fun a t => a = (sb.view s.disk).at (s.itable ip).inum (place bn) ∧ t = s := by
  have hmax : maxfile = ndirect + nindirect := rfl
  have hnd : ndirect = 12 := rfl
  by_cases hd : bn < ndirect
  · have hat : (sb.view s.disk).at (s.itable ip).inum (place bn) =
        ((s.itable ip).din.addrs (Fin.ofNat 13 bn)).toNat := by
      rw [place, if_pos hd, View.at, if_pos (by omega), h.synced]
    rw [hat] at h0 ⊢
    refine .ite (fun _ => ?_) fun hc => absurd hd hc
    refine .get_bind (.ite (fun hz => absurd (by rw [hz]; rfl) h0) fun _ => .pure ⟨rfl, rfl⟩)
  · have hplace : place bn = 13 + (bn - ndirect) := by
      rw [place, if_neg hd]
      omega
    rw [hplace] at h0 ⊢
    have ha : (s.itable ip).din.addrs 12 ≠ 0 := fun hz => h0 (at_entry_of_zero (by omega) (by rw [← h.synced, hz]))
    have hentry := h.works.entry (n := bn - ndirect) ha
    rw [h.seen] at hentry
    rw [hentry] at h0 ⊢
    refine .ite (fun hc => absurd hc hd) fun _ => .ite (fun _ => ?_) fun hc => absurd hc (by omega)
    refine .seq (Q := fun a t => a = ((s.itable ip).din.addrs 12).toNat ∧ t = s)
      (.get_bind (.ite (fun hz => absurd hz ha) fun _ => .pure ⟨rfl, rfl⟩)) ?_
    rintro _ _ ⟨rfl, rfl⟩
    rw [if_neg (toNat_ne_zero ha)]
    exact .get_bind (.ite (fun hz => absurd (by rw [hz]; rfl) h0) fun _ => .pure ⟨rfl, rfl⟩)

/-- The bytes of one turn of the loop are in one block. -/
theorem byteAt_add {v : View} {i k : Nat} (hk : off % bsize + k < bsize) :
    v.byteAt i (off + k) = v.blk (v.at i (place (off / bsize))) (off % bsize + k) := by
  have hb : bsize = 1024 := rfl
  rw [View.byteAt, show (off + k) / bsize = off / bsize by rw [hb] at hk ⊢; omega,
    show (off + k) % bsize = off % bsize + k by rw [hb] at hk ⊢; omega]

theorem readLoop_spec {room : Nat} (h : Holds sb X ip s) (fuel : Nat) :
    ∀ off tot acc, n - tot ≤ fuel → tot ≤ n → off + (n - tot) ≤ (s.itable ip).din.size.toNat →
    Runs R (readLoop sb ip room n fuel off tot acc) s fun r t => t = s ∧
      (r = some (acc ++ (List.range (n - tot)).map fun k => (sb.view s.disk).byteAt (s.itable ip).inum (off + k)) ∨
        r = none ∧ room < n) := by
  induction fuel with
  | zero =>
    intro off tot acc hfuel htot _
    refine .pure ⟨rfl, .inl ?_⟩
    rw [show n - tot = 0 by omega, List.range_zero, List.map_nil, List.append_nil]
  | succ fuel ih =>
    intro off tot acc hfuel htot hsize
    refine .ite (fun hlt => ?_) fun hge => .pure ⟨rfl, .inl ?_⟩
    · have hpos : 0 < bsize := by decide
      have hmod : off % bsize < bsize := Nat.mod_lt _ hpos
      obtain ⟨hbn, h0⟩ := h.full (off / bsize) (by
        have := Nat.div_mul_le_self off bsize
        omega)
      refine .seq (bmap_mapped h hbn h0) ?_
      rintro _ _ ⟨rfl, rfl⟩
      rw [if_neg h0]
      have hdata := h.law.data (own_block_eq h.live (place_lt hbn) h0)
      refine .get_bind (.ite (fun hroom => .pure ⟨rfl, .inr ⟨rfl, by omega⟩⟩) fun _ => ?_)
      set m := min (n - tot) (bsize - off % bsize) with hm
      refine (ih (off + m) (tot + m) _ (by omega) (by omega) (by omega)).mono fun r t ⟨ht, hr⟩ => ⟨ht, ?_⟩
      rcases hr with hr | hr
      · left
        rw [hr, List.append_assoc]
        congr 2
        rw [show n - tot = m + (n - (tot + m)) by omega, List.range_add, List.map_append, List.map_map]
        congr 1
        · refine List.map_congr_left fun k hk => ?_
          have hkm : k < m := List.mem_range.mp hk
          rw [byteAt_add (by omega), view_blk hdata.1 hdata.2]
        · refine List.map_congr_left fun k _ => ?_
          rw [Function.comp_apply, Nat.add_assoc]
      · exact .inr hr
    · rw [show n - tot = 0 by omega, List.range_zero, List.map_nil, List.append_nil]

/-- **`readi()` leaves everything as it is** and does not panic, and what it returns are the bytes of the file up to its
end. -/
theorem readi_spec {room : Nat} (h : Ok sb w X .clean s) (hl : w.locks ip = true) (hn : n < 2 ^ 32) :
    Runs R (readi sb ip room off n) s fun r t => t = s ∧
      ∀ bytes, r = some bytes → bytes.length ≤ n ∧
        (off + n ≤ (s.itable ip).din.size.toNat → bytes.length = n) ∧
        (0 < bytes.length → off + bytes.length ≤ (s.itable ip).din.size.toNat) ∧
        bytes = (List.range bytes.length).map fun k => (sb.view s.disk).byteAt (s.itable ip).inum (off + k) := by
  set size := (s.itable ip).din.size.toNat with hsize
  have hlt : size < 2 ^ 32 := (s.itable ip).din.size.toNat_lt
  refine .get_bind (.ite (fun hc => .pure ⟨rfl, ?_⟩) fun hc => ?_)
  · intro bytes hbytes
    obtain rfl := Option.some.inj hbytes
    refine ⟨Nat.zero_le _, fun hin => ?_, fun h0 => absurd h0 (Nat.lt_irrefl 0), rfl⟩
    rw [Nat.mod_eq_of_lt (show off + n < 2 ^ 32 by omega)] at hc
    omega
  · rw [not_or] at hc
    -- what the loop returns when it is asked for `k` bytes that are in the file
    have hloop : ∀ k, k ≤ n → (off + n ≤ size → k = n) → off + k ≤ size →
        Runs R (readLoop sb ip room k k off 0 []) s fun r t => t = s ∧ ∀ bytes, r = some bytes → bytes.length ≤ n ∧
          (off + n ≤ size → bytes.length = n) ∧ (0 < bytes.length → off + bytes.length ≤ size) ∧
          bytes = (List.range bytes.length).map fun k => (sb.view s.disk).byteAt (s.itable ip).inum (off + k) := by
      intro k hkn hall hin
      refine (readLoop_spec (h.holds hl) k off 0 [] (Nat.le_refl _) (Nat.zero_le _) hin).mono
        fun r t ⟨ht, hr⟩ => ⟨ht, ?_⟩
      rintro bytes rfl
      rcases hr with hr | ⟨hr, -⟩
      · have hlen : bytes.length = k := by
          rw [Option.some.inj hr, List.nil_append, List.length_map, List.length_range, Nat.sub_zero]
        rw [hlen]
        exact ⟨hkn, hall, fun _ => hin, Option.some.inj hr⟩
      · cases hr
    -- a sum that wraps has been refused
    exact .ite (fun hgt => hloop _ (by omega) (fun _ => by omega) (by omega))
      fun hle => hloop _ (Nat.le_refl _) (fun _ => rfl) (by omega)

/-! ## Writing -/

theorem place_inj {m : Nat} (h : place m = place n) : m = n := by
  rw [place, place] at h
  split at h <;> split at h <;> omega

/-- What `writei()` has done when it has counted `tot` bytes: those up to `w` are in the file. -/
structure Written (sb : Superblock) (X : List Nat) (ip : Ip) (src : Src) (s : FsState) (off tot w : Nat) (t : FsState) :
    Prop extends Beside ip s t where
  works : Works sb X ip t
  others : Others sb (s.itable ip).inum (s.seen sb (.copy ip)) (t.seen sb (.copy ip))
  din : (t.itable ip).din = { (s.itable ip).din with addrs := (t.itable ip).din.addrs }
  full : (t.seen sb (.copy ip)).Full (s.itable ip).inum (max (s.itable ip).din.size.toNat (off + tot))
  bytes : ∀ x < max (s.itable ip).din.size.toNat (off + tot), (t.seen sb (.copy ip)).byteAt (s.itable ip).inum x =
    if off ≤ x ∧ x < off + w then src.byte (x - off) else (s.seen sb (.copy ip)).byteAt (s.itable ip).inum x

theorem View.Full.byte {v : View} {i x : Nat} (h : v.Full i n) (hx : x < n) :
    x / bsize < maxfile ∧ v.at i (place (x / bsize)) ≠ 0 :=
  h _ (Nat.lt_of_le_of_lt (Nat.div_mul_le_self _ _) hx)

section
variable {R : FsPanic → Prop} {src : Src} {t u : FsState} {off tot w n : Nat}

theorem Written.live (h : Written sb X ip src s off tot w t) : (t.seen sb (.copy ip)).Live sb (s.itable ip).inum := by
  rw [← h.inum]
  exact h.works.live

theorem Written.gained (h : Written sb X ip src s off tot w t) (hu : Works sb X ip u) (hg : Gained sb ip t u) :
    Written sb X ip src s off tot w u := by
  have hgains := hg.gains
  rw [h.inum] at hgains
  refine ⟨h.toBeside.trans hg.toBeside, hu, h.others.trans hgains.toOthers, by rw [hg.din, h.din], fun bn hbn => ?_,
    fun x hx => ?_⟩
  · obtain ⟨hlt, h0⟩ := h.full bn hbn
    exact ⟨hlt, by rwa [hgains.filled _ h.live (place_lt hlt) h0]⟩
  · obtain ⟨hlt, h0⟩ := h.full.byte hx
    rw [← h.bytes x hx, View.byteAt, View.byteAt, hgains.filled _ h.live (place_lt hlt) h0,
      hgains.kept _ h.live (place_lt hlt) (place_ne _) h0]

/-- The bytes of a block after a copy of `c` bytes to `off + tot`. -/
theorem bytes_setBlk {v : View} {i m c x : Nat} (hc : c = min m (src.readable - tot))
    (hm : m ≤ bsize - (off + tot) % bsize)
    (hx : v.at i (place (x / bsize)) = v.at i (place ((off + tot) / bsize)) → x / bsize = (off + tot) / bsize) :
    (update v.blk (v.at i (place ((off + tot) / bsize)))
      (src.copyin (v.blk (v.at i (place ((off + tot) / bsize)))) ((off + tot) % bsize) tot m))
        (v.at i (place (x / bsize))) (x % bsize) =
      if off + tot ≤ x ∧ x < off + tot + c then src.byte (x - off) else v.byteAt i x := by
  have hb : bsize = 1024 := rfl
  rw [View.byteAt]
  rw [hb] at hm hx ⊢
  by_cases hsame : x / 1024 = (off + tot) / 1024
  · rw [hsame, update_self, Src.copyin, ← hc]
    refine if_ctx_congr (by omega) (fun hin => ?_) fun _ => rfl
    congr 1
    omega
  · have hne : v.at i (place (x / 1024)) ≠ v.at i (place ((off + tot) / 1024)) := fun he => hsame (hx he)
    rw [update_of_ne hne, if_neg (by omega)]

/-- One block is written; of the `m` bytes, only those that can be read are copied. -/
theorem Written.store {m : Nat} (h : Written sb X ip src s off tot tot t) (tot' : Nat)
    (hm : m ≤ bsize - (off + tot) % bsize) (hle : tot ≤ tot') (htot' : tot' ≤ tot + min m (src.readable - tot))
    (hbn : (off + tot) / bsize < maxfile)
    (h0 : (t.seen sb (.copy ip)).at (s.itable ip).inum (place ((off + tot) / bsize)) ≠ 0) (u : FsState)
    (hu : u = t.wrote ((t.seen sb (.copy ip)).at (s.itable ip).inum (place ((off + tot) / bsize)))
      (update t.disk ((t.seen sb (.copy ip)).at (s.itable ip).inum (place ((off + tot) / bsize)))
      (src.copyin (t.disk ((t.seen sb (.copy ip)).at (s.itable ip).inum (place ((off + tot) / bsize))))
      ((off + tot) % bsize) tot m))) : Written sb X ip src s off tot' (tot + min m (src.readable - tot)) u := by
  obtain ⟨c, hc⟩ : ∃ c, c = min m (src.readable - tot) := ⟨_, rfl⟩
  set v := t.seen sb (.copy ip) with hv
  set i := (s.itable ip).inum with hi
  have hown := own_block_eq h.live (place_lt hbn) h0
  have hdata := h.works.law.data hown
  have hdisk : t.disk (v.at i (place ((off + tot) / bsize))) = v.blk (v.at i (place ((off + tot) / bsize))) := by
    rw [hv, seen_blk, view_blk hdata.1 hdata.2]
  rw [hdisk] at hu
  obtain ⟨hlaw, hothers, hat⟩ := h.works.law.write (f := src.copyin (v.blk (v.at i (place ((off + tot) / bsize))))
    ((off + tot) % bsize) tot m) h.live (place_ne _) (place_lt hbn) h0
  have hseen : u.seen sb (.copy ip) = v.setBlk (v.at i (place ((off + tot) / bsize)))
      (src.copyin (v.blk (v.at i (place ((off + tot) / bsize)))) ((off + tot) % bsize) tot m) := by
    rw [hu, seen_setBlk (view_setBlk hdata.1 hdata.2)]
  rw [← hseen] at hlaw hothers hat
  have hitable : u.itable = t.itable := by rw [hu]; rfl
  have hlive : (u.seen sb (.copy ip)).Live sb i := by
    rw [hseen]
    exact h.live
  -- the file is full up to `tot'`: what is new is in the block that has been written
  have hfull : (u.seen sb (.copy ip)).Full i (max (s.itable ip).din.size.toNat (off + tot')) := fun bn hlt => by
    rw [hat i _ h.live]
    by_cases hlast : bn = (off + tot) / bsize
    · rw [hlast]
      exact ⟨hbn, h0⟩
    · refine h.full bn ?_
      simp only [bsize] at *
      omega
  refine ⟨h.toBeside.trans (by rw [hu]; exact .wrote fun c hc => update_of_ne hc ..),
    ⟨hlaw, by rw [hitable, h.inum]; exact hlive⟩, h.others.trans hothers, by rw [hitable]; exact h.din, hfull,
    fun x hx => ?_⟩
  obtain ⟨hlt, hx0⟩ := hfull.byte hx
  rw [hat i _ h.live] at hx0
  have hbytes := bytes_setBlk (v := v) (i := i) (x := x) hc hm fun he =>
    place_inj (Pos.block.inj (h.works.law.exact.once (own_block_eq h.live (place_lt hlt) hx0) (he.symm ▸ hown))).2
  rw [View.byteAt, hat i _ h.live, hseen]
  refine hbytes.trans ?_
  rw [← hc]
  rw [← hc] at htot'
  by_cases hin : off + tot ≤ x ∧ x < off + tot + c
  · rw [if_pos hin, if_pos (by omega)]
  · rw [if_neg hin, h.bytes x (by omega)]
    exact if_congr (by omega) rfl rfl

/-- **The loop of `writei()`**, from the byte that it has come to. -/
theorem writeLoop_law (hlog : MayLog R s) (hmax : off + n ≤ maxfile * bsize) (fuel : Nat) : ∀ tot t, n - tot ≤ fuel →
    tot ≤ n → (tot = n ∨ tot = 0 ∨ (off + tot) % bsize = 0) → Written sb X ip src s off tot tot t →
    Runs R (writeLoop sb ip src n fuel (off + tot) tot) t fun r u => ∃ w, r.1 = off + r.2 ∧ r.2 ≤ n ∧ r.2 ≤ w ∧
      Written sb X ip src s off r.2 w u ∧ (r.2 = n ∨ r.2 = 0 ∨ (off + r.2) % bsize = 0) ∧
      (n ≤ src.readable → w = r.2 ∧ (r.2 < n → u.DiskFull sb ∧ (s.itable ip).din.size.toNat ≤ off + r.2)) := by
  induction fuel with
  | zero =>
    intro tot t hfuel htot hal ht
    exact .pure ⟨tot, rfl, htot, Nat.le_refl _, ht, hal, fun _ => ⟨rfl, fun hlt => absurd hlt (by omega)⟩⟩
  | succ fuel ih =>
    intro tot t hfuel htot hal ht
    refine .ite (fun hlt => ?_) fun hge =>
      Runs.pure ⟨tot, rfl, htot, Nat.le_refl _, ht, hal, fun _ => ⟨rfl, fun hlt => absurd hlt hge⟩⟩
    have hmod : (off + tot) % bsize < bsize := Nat.mod_lt _ (by decide)
    have hbn : (off + tot) / bsize < maxfile := by
      rw [Nat.div_lt_iff_lt_mul (by decide)]
      omega
    refine .seq (bmap_law ht.works (ht.mayLog hlog) fun hc => absurd hbn hc) fun a u ⟨hu, hg, ha, hfull⟩ => ?_
    have hw := ht.gained hu hg
    refine .ite (fun h0 => .pure ⟨tot, rfl, htot, Nat.le_refl _, hw, hal, fun _ =>
      ⟨rfl, fun _ => ⟨(hfull h0).1, ?_⟩⟩⟩) fun h0 => ?_
    · -- the block of a byte of the file is there
      by_contra hlow
      have hin := (ht.full.byte (x := off + tot) (by omega)).2
      rw [ht.inum] at hfull
      exact hin (hfull h0).2
    obtain ⟨-, hat⟩ := ha h0
    rw [ht.inum] at hat
    obtain ⟨m, hm⟩ : ∃ m, m = min (n - tot) (bsize - (off + tot) % bsize) := ⟨_, rfl⟩
    have hstore : ∀ tot', tot ≤ tot' → tot' ≤ tot + min m (src.readable - tot) → _ := fun tot' hle hle' =>
      hw.store (m := m) tot' (by omega) hle hle' hbn (by rw [hat]; exact h0) _ rfl
    rw [hat] at hstore
    refine .get_bind (store_runs (hw.mayLog hlog) ?_)
    rw [← hm]
    refine .ite (fun hshort => ?_) fun hread => ?_
    · refine .pure ⟨_, rfl, htot, Nat.le_add_right _ _, hstore tot (Nat.le_refl _) (Nat.le_add_right _ _),
        hal, fun hr => ?_⟩
      exact absurd hshort (by omega)
    · have hmin : min m (src.readable - tot) = m := by omega
      have hnext := hstore (tot + m) (Nat.le_add_right _ _) (by omega)
      rw [hmin] at hnext
      rw [Nat.add_assoc]
      refine ih (tot + m) _ (by omega) (by omega) ?_ hnext
      simp only [bsize] at *
      omega

end

/-- What `writei()` does in the end: the bytes up to `w` are in the file, and `tot` of them count. -/
structure Updated (sb : Superblock) (X : List Nat) (ip : Ip) (src : Src) (s : FsState) (off tot w : Nat) (t : FsState) :
    Prop extends Beside ip s t where
  holds : Holds sb X ip t
  others : Others sb (s.itable ip).inum (sb.view s.disk) (sb.view t.disk)
  din : (t.itable ip).din = { (s.itable ip).din with
    addrs := (t.itable ip).din.addrs, size := UInt32.ofNat (max (s.itable ip).din.size.toNat (off + tot)) }
  size : (t.itable ip).din.size.toNat = max (s.itable ip).din.size.toNat (off + tot)
  bytes : ∀ x < max (s.itable ip).din.size.toNat (off + tot), (sb.view t.disk).byteAt (s.itable ip).inum x =
    if off ≤ x ∧ x < off + w then src.byte (x - off) else (sb.view s.disk).byteAt (s.itable ip).inum x

section
variable {R : FsPanic → Prop} {src : Src} {t : FsState} {off tot w n : Nat}

/-- A change of the size leaves the blocks as they are. -/
theorem Law.resize {v : View} {i : Nat} {d : Dinode} (h : Law sb v X) (htype : d.type = (v.ino i).type)
    (haddrs : d.addrs = (v.ino i).addrs) : Law sb (v.setIno i d) X := by
  refine ⟨h.exact.congr_own (own_congr (fun j => ?_) fun j p _ _ => ?_), h.below⟩
  · by_cases hj : j = i
    · rw [hj, View.Live, View.Live, setIno_self, htype]
    · exact live_setIno_of_ne hj
  · by_cases hj : j = i
    · rw [hj, at_setIno_self haddrs]
    · exact at_setIno_of_ne hj p

/-- `if(off > ip->size) ip->size = off`, and `iupdate()`. -/
theorem Written.finish (h : Holds sb X ip s) (ht : Written sb X ip src s off tot w t) (hlt : off + tot < 2 ^ 32)
    (c : Dinode) (hc : c = if (t.itable ip).din.size.toNat < off + tot
      then { (t.itable ip).din with size := UInt32.ofNat (off + tot) } else (t.itable ip).din) :
    Updated sb X ip src s off tot w ((t.setInode ip { t.itable ip with din := c }).wrote (sb.iblock (t.itable ip).inum)
      (sb.setDinode t.disk (t.itable ip).inum c)) := by
  set i := (s.itable ip).inum with hi
  have hinum : (t.itable ip).inum = i := ht.inum
  have hold : (t.itable ip).din.size = (s.itable ip).din.size := by rw [ht.din]
  have hsize : c.size.toNat = max (s.itable ip).din.size.toNat (off + tot) := by
    rw [hc, hold]
    by_cases hgt : (s.itable ip).din.size.toNat < off + tot
    · rw [if_pos hgt]
      show (UInt32.ofNat (off + tot)).toNat = _
      rw [UInt32.toNat_ofNat', Nat.mod_eq_of_lt hlt]
      omega
    · rw [if_neg hgt, hold]
      omega
  have hc' : c = { (t.itable ip).din with size := c.size } := by
    rw [hc]
    split <;> rfl
  have htype : c.type = (t.itable ip).din.type := by rw [hc']
  have haddrs : c.addrs = (t.itable ip).din.addrs := by rw [hc']
  have hdin : c = { (s.itable ip).din with
      addrs := c.addrs, size := UInt32.ofNat (max (s.itable ip).din.size.toNat (off + tot)) } := by
    rw [← hsize, UInt32.ofNat_toNat, hc', ht.din]
  have hself : (t.seen sb (.copy ip)).ino i = (t.itable ip).din := by rw [← hinum, ino_seen_copy]
  have hview : sb.view (sb.setDinode t.disk i c) = (t.seen sb (.copy ip)).setIno i c := by
    have hlive := ht.live.1
    rw [view_setDinode hlive]
    show _ = ((sb.view t.disk).setIno (t.itable ip).inum _).setIno i c
    rw [hinum, setIno_setIno]
  have hat : ∀ p, ((t.seen sb (.copy ip)).setIno i c).at i p = (t.seen sb (.copy ip)).at i p :=
    at_setIno_self (by rw [hself, haddrs])
  have hcopy : ((t.setInode ip { t.itable ip with din := c }).wrote (sb.iblock i) (sb.setDinode t.disk i c)).itable ip =
      { t.itable ip with din := c } := itable_setInode ..
  rw [hinum]
  refine ⟨?_, ⟨?_, ?_, ?_, ?_⟩, ?_, ?_, ?_, fun x hx => ?_⟩
  · have hset : Beside ip s (t.setInode ip { t.itable ip with din := c }) := ht.toBeside.trans (.setDin c)
    exact hset.trans (.wrote fun b hb => update_of_ne hb ..)
  · show Law sb (sb.view (sb.setDinode t.disk i c)) X
    rw [hview]
    exact ht.works.law.resize (by rw [hself, htype]) (by rw [hself, haddrs])
  · show (sb.view (sb.setDinode t.disk i c)).Live sb ((t.setInode ip _).itable ip).inum
    rw [hview, itable_setInode, hinum]
    refine ⟨ht.live.1, ?_⟩
    rw [setIno_self, htype, ← hself]
    exact ht.live.2
  · show ((t.setInode ip _).itable ip).din = (sb.view (sb.setDinode t.disk i c)).ino ((t.setInode ip _).itable ip).inum
    rw [hview, itable_setInode, hinum, setIno_self]
  · show (sb.view (sb.setDinode t.disk i c)).Full ((t.setInode ip _).itable ip).inum
      ((t.setInode ip _).itable ip).din.size.toNat
    rw [hview, itable_setInode, hinum, hsize]
    intro bn hbn
    rw [hat]
    exact ht.full bn hbn
  · show Others sb i _ (sb.view (sb.setDinode t.disk i c))
    rw [hview, ← h.seen]
    exact ht.others.trans ⟨fun j hj => ino_setIno_of_ne hj, fun j p hj _ _ => at_setIno_of_ne hj p,
    fun _ _ _ _ _ _ _ => rfl⟩
  · rw [hcopy]
    exact hdin
  · show ((t.setInode ip _).itable ip).din.size.toNat = _
    rw [itable_setInode]
    exact hsize
  · show (sb.view (sb.setDinode t.disk i c)).byteAt i x = _
    rw [hview, View.byteAt, hat, ← h.seen]
    exact ht.bytes x hx

/-- **`writei()`** refuses a write that does not fit, and otherwise writes the bytes that it can read, and counts those
of whole blocks. -/
theorem writei_law (src : Src) (off : Nat) (h : Holds sb X ip s) (hlog : MayLog R s) (hn : n < 2 ^ 32) :
    Runs R (writei sb ip src off n) s fun r t =>
      ((s.itable ip).din.size.toNat < off ∨ 2 ^ 32 ≤ off + n ∨ maxfile * bsize < off + n) ∧ r = none ∧ t = s ∨
      ¬ ((s.itable ip).din.size.toNat < off ∨ 2 ^ 32 ≤ off + n ∨ maxfile * bsize < off + n) ∧
        ∃ tot w, r = some tot ∧ tot ≤ n ∧ tot ≤ w ∧ Updated sb X ip src s off tot w t ∧
          (tot = n ∨ tot = 0 ∨ (off + tot) % bsize = 0) ∧ (n ≤ src.readable → w = tot ∧
            (tot < n → t.DiskFull sb ∧ (s.itable ip).din.size.toNat ≤ off + tot)) := by
  have hsize := (s.itable ip).din.size.toNat_lt
  have hbound : maxfile * bsize < 2 ^ 32 := by decide
  refine .get_bind (.ite (fun hc => .pure (.inl ⟨by omega, rfl, rfl⟩)) fun hc =>
    Runs.ite (fun hmax => .pure (.inl ⟨by omega, rfl, rfl⟩)) fun hmax => ?_)
  have hstart : Written sb X ip src s off 0 0 s := by
    refine ⟨.refl, h.works, .refl, rfl, ?_, fun x _ => by rw [if_neg (by omega)]⟩
    rw [h.seen, Nat.add_zero, Nat.max_eq_left (by omega)]
    exact h.full
  have hloop := writeLoop_law (n := n) hlog (by omega) n 0 s (by omega) (by omega) (.inr (.inl rfl)) hstart
  refine .seq hloop fun r t ⟨w, hoff, hle, hwle, ht, hal, hread⟩ => ?_
  have hupd := ht.finish h (by omega) _ rfl
  rw [← hoff] at hupd
  refine .modify_bind (.seq (iupdate_runs (ht.mayLog hlog)) fun _ u hu => ?_)
  rw [itable_setInode] at hu
  subst hu
  refine .pure (.inr ⟨by omega, r.2, w, rfl, hle, hwle, hupd, hal, fun hr => ?_⟩)
  · refine ⟨(hread hr).1, fun hlt => ⟨fun b hb => ?_, ((hread hr).2 hlt).2⟩⟩
    have hbit := ((hread hr).2 hlt).1 b hb
    show sb.bit (sb.setDinode t.disk (t.itable ip).inum _) b = true
    rw [← view_bit hb, view_setDinode (by rw [ht.inum]; exact ht.live.1)]
    show (sb.view t.disk).bit b = true
    rw [view_bit hb, hbit]

end

/-! ## What the calls keep -/

/-- What is written into a directory is one entry, in its place, for an inode that exists. -/
def WriteOk (sb : Superblock) (src : Src) (off n : Nat) : Prop :=
  off % direntSize = 0 ∧ n = direntSize ∧ direntSize ≤ src.readable ∧ le src.byte 2 < sb.ninodes

/-- An entry is inside one block. -/
theorem entry_room (halign : off % direntSize = 0) : direntSize ≤ bsize - off % bsize := by
  simp only [direntSize, bsize] at *
  omega

/-- The inode number of an entry, as bytes of the directory. -/
theorem entry_eq (v : View) (i k : Nat) : v.entry i k = le (fun o => v.byteAt i (direntSize * k + o)) 2 := by
  refine le_congr fun o ho => ?_
  have hroom := entry_room (Nat.mul_mod_right direntSize k)
  have hd : direntSize = 16 := rfl
  rw [byteAt_add (by omega)]

/-- The entries of a directory into which an entry has been written. -/
theorem Updated.entries {src : Src} {t : FsState} {tot w : Nat} (h : Updated sb X ip src s off tot w t)
    (hoff : off ≤ (s.itable ip).din.size.toNat) (hsrc : WriteOk sb src off direntSize)
    (htot : tot = direntSize ∨ tot = 0) (hw : w = tot)
    (hold : (sb.view s.disk).Entries sb (s.itable ip).inum (s.itable ip).din.size.toNat) :
    (sb.view t.disk).Entries sb (s.itable ip).inum (t.itable ip).din.size.toNat := by
  obtain ⟨halign, -, -, hinum⟩ := hsrc
  have hd : direntSize = 16 := rfl
  intro k hk
  rw [h.size] at hk
  rw [entry_eq]
  by_cases hnew : direntSize * k = off ∧ tot = direntSize
  · have hbytes : ∀ o < 2, (sb.view t.disk).byteAt (s.itable ip).inum (direntSize * k + o) =
        src.byte o := fun o ho => by
      rw [h.bytes _ (by omega), if_pos (by omega)]
      congr 1
      omega
    rw [le_congr hbytes]
    exact hinum
  · have hbytes : ∀ o < 2, (sb.view t.disk).byteAt (s.itable ip).inum (direntSize * k + o) =
        (sb.view s.disk).byteAt (s.itable ip).inum (direntSize * k + o) := fun o ho => by
      rw [h.bytes _ (by omega)]
      refine if_neg fun hin => ?_
      simp only [direntSize] at *
      omega
    rw [le_congr hbytes, ← entry_eq]
    refine hold k ?_
    simp only [direntSize] at *
    omega

theorem writei_spec {src : Src} (h : Ok sb w X .clean s) (hl : w.locks ip = true) (hn : n < 2 ^ 32)
    (hdir : (s.itable ip).din.type = tDir → WriteOk sb src off n) :
    Safe (writei sb ip src off n) s fun _ t => Ok sb w X .clean t := by
  obtain ⟨hino, hlive⟩ := h.ino_locked hl
  refine (writei_law src off (h.holds hl) mayLog_safe hn).mono fun r t hr => ?_
  rcases hr with ⟨-, -, rfl⟩ | ⟨hin, tot, wr, -, hle, -, ht, hal, hread⟩
  · exact h
  have htype : (t.itable ip).din.type = (s.itable ip).din.type := by rw [ht.din]
  refine (h.pend hl).beside hl ht.toBeside htype ht.others.ino ?_ fun _ => ?_
  · refine ⟨ht.holds.law, fun j hj => ?_, fun j hj hd => ?_⟩
    · by_cases hji : j = (s.itable ip).inum
      · have hfull := ht.holds.full
        rw [ht.holds.synced, ht.inum] at hfull
        rw [hji]
        exact hfull
      · have hj' := (ht.others.live hji).mp hj
        show (sb.view t.disk).Full j ((sb.view t.disk).ino j).size.toNat
        rw [ht.others.ino j hji]
        intro bn hbn
        obtain ⟨hlt, h0⟩ := h.sound.full j hj' bn hbn
        exact ⟨hlt, by rwa [ht.others.places j _ hji hj' (place_lt hlt)]⟩
    · by_cases hji : j = (s.itable ip).inum
      · have hsync := ht.holds.synced
        rw [ht.inum] at hsync
        have hd' : (s.itable ip).din.type = tDir := by
          rw [← htype, hsync, ← hji]
          exact hd
        obtain ⟨halign, rfl, hrd, hnum⟩ := hdir hd'
        have hroom := entry_room halign
        obtain ⟨hw, -⟩ := hread hrd
        have htot : tot = direntSize ∨ tot = 0 := by
          simp only [direntSize, bsize] at *
          omega
        have hold : (sb.view s.disk).Entries sb (s.itable ip).inum (s.itable ip).din.size.toNat := by
          rw [← hino]
          exact h.sound.dirs _ hlive (by
            show ((sb.view s.disk).ino _).type = _
            rw [hino, hd'])
        have hent := ht.entries (by omega) ⟨halign, rfl, hrd, hnum⟩ htot hw hold
        rw [hsync] at hent
        rw [hji]
        exact hent
      · have hj' := (ht.others.live hji).mp hj
        have hino' := ht.others.ino j hji
        change ((sb.view t.disk).ino j).type = tDir at hd
        show (sb.view t.disk).Entries sb j ((sb.view t.disk).ino j).size.toNat
        rw [hino'] at hd ⊢
        intro k hk
        obtain ⟨hlt, h0⟩ := (h.sound.full j hj').byte (x := direntSize * k) (by
          have hd16 : direntSize = 16 := rfl
          exact Nat.lt_of_lt_of_le (by omega) hk)
        have hold := h.sound.dirs j hj' hd k hk
        rw [View.entry, ht.others.places j _ hji hj' (place_lt hlt),
        ht.others.blk j _ hji hj' (place_lt hlt) (place_ne _) h0]
        exact hold
  · rw [ht.holds.synced, ht.inum]

end

end Xv6.Fs
