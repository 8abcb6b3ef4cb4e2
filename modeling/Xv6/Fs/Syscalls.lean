import Xv6.Fs.Paths

/-!
# Creating, linking and unlinking

What `create()`, `sys_link()`, `sys_unlink()` and the first half of `sys_open()` do inside their transactions.

* `Locked w plain r t` : the inode that a call has found or made is locked and has a reference;
* `update_bind`, `unlockput_bind` : the two steps that these calls are made of.
-/

namespace Xv6.Fs
open Hoare

section
variable {sb : Superblock} {w : World} {X : List Nat} {s : FsState} {ip dp : Ip} {major minor : Int16} {p : Fin nproc}

/-! ## Creating -/

/-- A change of a locked inode that leaves its type, its size and its addresses, written at once. -/
theorem update_bind {f : Dinode → Dinode} {A : Type} {rest : Unit → FsM A} {Q : A → FsState → Prop}
    (h : Ok sb w X .clean s) (hl : w.locks ip = true)
    (hf : ∀ c, (f c).type = c.type ∧ (f c).size = c.size ∧ (f c).addrs = c.addrs)
    (hrest : ∀ t, Ok sb w X .clean t → t.itable ip = { s.itable ip with din := f (s.itable ip).din } →
      Safe (rest ⟨⟩) t Q) :
    Safe (modDin ip f >>= fun _ => iupdate sb ip >>= rest) s Q :=
  Runs.modify_bind (.seq (iupdate_spec ((h.pend hl).modDin hl hf) hl) fun _ t ht => hrest t ht.1 (by
    rw [ht.2.1]
    exact itable_setInode ..))

theorem update_spec {f : Dinode → Dinode} (h : Ok sb w X .clean s) (hl : w.locks ip = true)
    (hf : ∀ c, (f c).type = c.type ∧ (f c).size = c.size ∧ (f c).addrs = c.addrs) :
    Safe (do modDin ip f; iupdate sb ip) s fun _ t => Ok sb w X .clean t :=
  Runs.modify_bind ((iupdate_spec ((h.pend hl).modDin hl hf) hl).mono fun _ _ ht => ht.1)

theorem linkNew_spec {name : List UInt8} {type : Int16} (h : Ok sb w X .clean s) (hdp : w.locks dp = true)
    (hip : w.locks ip = true) : Safe (linkNew sb dp ip name type) s fun _ t => Ok sb w X .clean t := by
  have hdn := (h.entry dp).inum ((h.entry dp).valid hdp).1
  have hin := (h.entry ip).inum ((h.entry ip).valid hip).1
  refine .get_bind (.ite (fun _ => ?_) fun _ => dirlink_spec h hdp hin)
  refine .seq (dirlink_spec h hip hin) fun _ t ht => .ite (fun _ => ?_) fun _ => .pure ht
  exact .seq (dirlink_spec ht hip hdn) fun _ u hu => .ite (fun _ => dirlink_spec hu hdp hin) fun _ => .pure hu

/-- The state after `create()`: with a reference to the inode that it returns, which is locked; `plain` says that it is
no directory. -/
def Locked (sb : Superblock) (w : World) (X : List Nat) (plain : Prop) (r : Option Ip) (t : FsState) : Prop :=
  match r with
  | none => Ok sb w X .clean t
  | some ip => w.locks ip = false ∧ Ok sb ((w.take ip).lock ip) X .clean t ∧ (plain → (t.itable ip).din.type ≠ tDir)

theorem unlockput_bind {A : Type} {rest : Unit → FsM A} {Q : A → FsState → Prop}
    (h : Ok sb ((w.take ip).lock ip) X .clean s) (hl : w.locks ip = false)
    (hrest : ∀ t, Ok sb w X .clean t → Safe (rest ⟨⟩) t Q) : Safe (iunlockput sb ip >>= rest) s Q :=
  Runs.seq (iunlockput_spec h hl) fun _ t ht => hrest t ht

/-- The end of `create()`, when the new inode `ip` has its entry in `dp`. -/
theorem createDone {type : Int16} (h : Ok sb ((((w.take dp).lock dp).take ip).lock ip) X .clean s)
    (htype : type ≠ tDir → (s.itable ip).din.type ≠ tDir) (hne : ip ≠ dp) (hip : w.locks ip = false)
    (hdp : w.locks dp = false) :
    Safe (do
      onlyIf (type = tDir) do
        modDin dp fun d => { d with nlink := d.nlink + 1 }
        iupdate sb dp
      iunlockput sb dp
      return some ip) s fun r t => Locked sb w X (type ≠ tDir) r t := by
  have hdl : ((((w.take dp).lock dp).take ip).lock ip).locks dp = true := by
    rw [World.lock_of_ne _ (Ne.symm hne)]
    exact (w.take dp).lock_self dp
  have hil := (((w.take dp).lock dp).take ip).lock_self ip
  have hworld := w.lock_pair (Ne.symm hne)
  have hdfree : ((w.take ip).lock ip).locks dp = false := by
    rw [World.lock_of_ne _ (Ne.symm hne)]
    exact hdp
  by_cases hdir : type = tDir
  · refine .seq (onlyIf_spec (fun _ => update_spec h hdl fun _ => ⟨rfl, rfl, rfl⟩) fun _ => h) fun _ t ht => ?_
    rw [hworld] at ht
    exact unlockput_bind ht hdfree fun u hu => .pure ⟨hip, hu, fun hc => absurd hdir hc⟩
  · have hhold : 0 < ((w.take ip).lock ip).hold ip := by
      show 0 < (w.take ip).hold ip
      rw [w.hold_take_self]
      exact Nat.succ_pos _
    refine .seq (Q := fun _ t => t = s) (onlyIf_spec (fun hc => absurd hc hdir) fun _ => rfl) fun _ t ht => ?_
    subst ht
    have hv := ((h.entry ip).valid hil).2
    rw [hworld] at h
    have hmark : Ok sb (((((w.take ip).lock ip).mark ip hhold).take dp).lock dp) X .clean t :=
      { h with
        entry := fun jp => { h.entry jp with
          plain := fun hp => by
            rcases hp with rfl | hp
            · exact ⟨hv, htype hdir⟩
            · exact (h.entry jp).plain hp } }
    refine unlockput_bind hmark hdfree fun u hu => .pure ⟨hip, hu.unmark, fun _ => ?_⟩
    exact ((hu.entry ip).plain (.inl rfl)).2

/-- The second half of `create()`: the directory `dp` is locked and `name` is not in it. -/
theorem createNew_spec {name : List UInt8} {type : Int16} (h : Ok sb ((w.take dp).lock dp) X .clean s)
    (hdp : w.locks dp = false) :
    Safe (do
      match ← ialloc sb type with
      | none =>
        iunlockput sb dp
        return none
      | some ip =>
        ilock sb ip
        modDin ip fun d => { d with major := major, minor := minor, nlink := 1 }
        iupdate sb ip
        if ← linkNew sb dp ip name type then
          onlyIf (type = tDir) do
            modDin dp fun d => { d with nlink := d.nlink + 1 }
            iupdate sb dp
          iunlockput sb dp
          return some ip
        else
          modDin ip fun d => { d with nlink := 0 }
          iupdate sb ip
          iunlockput sb ip
          iunlockput sb dp
          return none) s fun r t => Locked sb w X (type ≠ tDir) r t := by
  refine .seq (ialloc_spec h) fun r t ht => ?_
  cases r with
  | none =>
    obtain rfl := ht
    exact unlockput_bind h hdp fun u hu => .pure hu
  | some ip =>
    have hhold : 0 < (((w.take dp).lock dp).take ip).hold ip := by
      rw [World.hold_take_self]
      exact Nat.succ_pos _
    refine .seq (ilock_spec ht.1 hhold) fun _ u ⟨hfree, hu, hdisk, hinum, _⟩ => ?_
    -- the new inode is not the directory, which is locked
    have hne : ip ≠ dp := by
      rintro rfl
      exact Bool.noConfusion (((w.take ip).lock_self ip).symm.trans hfree)
    have hipfree : w.locks ip = false := ((w.take dp).lock_of_ne hne).symm.trans hfree
    have hdl : ((((w.take dp).lock dp).take ip).lock ip).locks dp = true := by
      rw [World.lock_of_ne _ (Ne.symm hne)]
      exact (w.take dp).lock_self dp
    have hil := (((w.take dp).lock dp).take ip).lock_self ip
    have htype : (u.itable ip).din.type = type := by
      rw [← (hu.ino_locked hil).1, hdisk, hinum, ht.2]
    refine update_bind hu hil (fun _ => ⟨rfl, rfl, rfl⟩) fun v hv hvt => ?_
    have hvtype : (v.itable ip).din.type = type := by
      rw [hvt]
      exact htype
    refine .seq (Q := fun _ x => Ok sb ((((w.take dp).lock dp).take ip).lock ip) X .clean x ∧
      (type ≠ tDir → (x.itable ip).din.type ≠ tDir)) ?_ fun linked x ⟨hx, hxt⟩ => ?_
    · by_cases hdir : type = tDir
      · exact (linkNew_spec hv hdl hil).mono fun _ x hx => ⟨hx, fun hc => absurd hdir hc⟩
      · have hmark := hv.mark hhold ((hv.entry ip).valid hil).2 (by rw [hvtype]; exact hdir)
        exact (linkNew_spec hmark hdl hil).mono fun _ x hx => ⟨hx.unmark, fun _ => ((hx.entry ip).plain (.inl rfl)).2⟩
    refine .ite (fun _ => createDone hx hxt hne hipfree hdp) fun _ => ?_
    refine update_bind hx hil (fun _ => ⟨rfl, rfl, rfl⟩) fun y hy _ => ?_
    exact unlockput_bind hy hfree fun z hz => unlockput_bind hz hdp fun z' hz' => .pure hz'

theorem create_spec {path : List UInt8} {type : Int16} (h : Ok sb w X .clean s)
    (hw : ∀ jp, w.locks jp = true → 0 < w.hold jp) (hcwd : ∀ jp, w.cwd p = some jp → 0 < w.hold jp) :
    Safe (create sb p path type major minor) s fun r t => Locked sb w X (type ≠ tDir) r t := by
  refine .seq (namex_spec h hw hcwd) fun r t ht => ?_
  cases r with
  | none => exact .pure ht
  | some q =>
    obtain ⟨dp, name⟩ := q
    have ht' : Ok sb (w.take dp) X .clean t := ht
    refine .seq (ilock_spec ht' (by rw [w.hold_take_self]; exact Nat.succ_pos _)) fun _ u ⟨hfree, hu, _⟩ =>
      Runs.get_bind ?_
    have hfree' : w.locks dp = false := hfree
    refine .ite (fun _ => unlockput_bind hu hfree' fun v hv => .pure hv) fun _ =>
      Runs.ite (fun _ => unlockput_bind hu hfree' fun v hv => .pure hv) fun _ => ?_
    refine .seq (dirlookup_spec hu ((w.take dp).lock_self dp)) fun r v hv => ?_
    cases r with
    | none =>
      obtain ⟨rfl, -⟩ := hv
      exact createNew_spec hu hfree'
    | some q =>
      obtain ⟨ip, off⟩ := q
      have hip := hv.1
      rw [w.take_lock_take] at hip
      refine unlockput_bind hip hfree fun x hx => ?_
      refine .seq (ilock_spec hx (by rw [w.hold_take_self]; exact Nat.succ_pos _)) fun _ y ⟨hif, hy, _⟩ =>
        Runs.get_bind ?_
      refine .ite (fun hc => .pure ⟨hif, hy, fun _ hd => ?_⟩) fun _ =>
        unlockput_bind hy hif fun z hz => .pure hz
      rcases hc.2 with htype | htype
      · exact absurd (htype.symm.trans hd) (by decide)
      · exact absurd (htype.symm.trans hd) (by decide)

/-! ## Linking and unlinking -/

theorem unbump_spec (h : Ok sb (w.take ip) X .clean s) : Safe (unbump sb ip) s fun _ t => Ok sb w X .clean t := by
  refine .seq (ilock_spec h (by rw [w.hold_take_self]; exact Nat.succ_pos _)) fun _ t ⟨hfree, ht, _⟩ => ?_
  refine update_bind ht ((w.take ip).lock_self ip) (fun _ => ⟨rfl, rfl, rfl⟩) fun u hu _ => ?_
  exact unlockput_bind hu hfree fun v hv => .pure hv

theorem sysLink_spec {old new : List UInt8} (h : Ok sb w X .clean s) (hw : ∀ jp, w.locks jp = true → 0 < w.hold jp)
    (hcwd : ∀ jp, w.cwd p = some jp → 0 < w.hold jp) :
    Safe (sysLink sb p old new) s fun _ t => Ok sb w X .clean t := by
  refine .seq (namex_spec h hw hcwd) fun r t ht => ?_
  cases r with
  | none => exact .pure ht
  | some q =>
    obtain ⟨ip, name⟩ := q
    have ht' : Ok sb (w.take ip) X .clean t := ht
    have htake : ∀ jp, 0 < w.hold jp → 0 < (w.take ip).hold jp := fun jp hj =>
      Nat.lt_of_lt_of_le hj (w.hold_le_update ip jp)
    refine .seq (ilock_spec ht' (by rw [w.hold_take_self]; exact Nat.succ_pos _)) fun _ u ⟨hfree, hu, _⟩ =>
      Runs.get_bind ?_
    refine .ite (fun _ => unlockput_bind hu hfree fun v hv => .pure hv) fun _ => ?_
    refine update_bind hu ((w.take ip).lock_self ip) (fun _ => ⟨rfl, rfl, rfl⟩) fun v hv _ => ?_
    refine .seq (iunlock_spec hv hfree) fun _ x hx => ?_
    -- the second lookup runs with the reference to `ip`
    refine .seq (namex_spec hx (fun jp hj => htake jp (hw jp hj)) fun jp hj => htake jp (hcwd jp hj)) fun r y hy => ?_
    cases r with
    | none => exact unbump_spec hy
    | some q =>
      obtain ⟨dp, name⟩ := q
      have hy' : Ok sb ((w.take ip).take dp) X .clean y := hy
      refine .seq (ilock_spec hy' (by rw [World.hold_take_self]; exact Nat.succ_pos _)) fun _ z ⟨hdf, hz, _⟩ =>
        Runs.get_bind ?_
      have hip : 0 < (((w.take ip).take dp).lock dp).hold ip := by
        refine Nat.lt_of_lt_of_le ?_ ((w.take ip).hold_le_update dp ip)
        rw [w.hold_take_self]
        exact Nat.succ_pos _
      have hinum := (hz.entry ip).inum hip
      refine .ite (fun _ => unlockput_bind hz hdf fun z' hz' => unbump_spec hz') fun _ => ?_
      refine .seq (dirlink_spec hz (((w.take ip).take dp).lock_self dp) hinum) fun b z' hz' => ?_
      refine .ite (fun _ => unlockput_bind hz' hdf fun t' ht' => ?_) fun _ =>
        unlockput_bind hz' hdf fun t' ht' => unbump_spec ht'
      exact .seq (iput_spec ht' (hw ip)) fun _ u' hu' => .pure hu'

/-- The entry that `sys_unlink()` clears. -/
theorem writeOk_zero {off : Nat} (hoff : off % direntSize = 0) :
    WriteOk sb ⟨fun _ => 0, direntSize⟩ off direntSize := by
  refine ⟨hoff, rfl, Nat.le_refl _, ?_⟩
  have hzero : Bytes.le (fun _ : Nat => (0 : UInt8)) 2 = 0 := by decide
  rw [hzero]
  exact Nat.lt_of_le_of_lt (Nat.zero_le _) sb.root_lt

theorem sysUnlink_spec {path : List UInt8} (h : Ok sb w X .clean s) (hw : ∀ jp, w.locks jp = true → 0 < w.hold jp)
    (hcwd : ∀ jp, w.cwd p = some jp → 0 < w.hold jp) :
    Safe (sysUnlink sb p path) s fun _ t => Ok sb w X .clean t := by
  refine .seq (namex_spec h hw hcwd) fun r t ht => ?_
  cases r with
  | none => exact .pure ht
  | some q =>
    obtain ⟨dp, name⟩ := q
    have ht' : Ok sb (w.take dp) X .clean t := ht
    refine .seq (ilock_spec ht' (by rw [w.hold_take_self]; exact Nat.succ_pos _)) fun _ u ⟨hdp, hu, _⟩ => ?_
    have hdp' : w.locks dp = false := hdp
    refine .ite (fun _ => unlockput_bind hu hdp' fun v hv => .pure hv) fun _ => ?_
    refine .seq (dirlookup_spec hu ((w.take dp).lock_self dp)) fun r v hv => ?_
    cases r with
    | none =>
      obtain ⟨rfl, -⟩ := hv
      exact unlockput_bind hu hdp' fun x hx => .pure hx
    | some q =>
      obtain ⟨ip, off⟩ := q
      obtain ⟨hip, hoff⟩ := hv
      refine .seq (ilock_spec hip (by rw [World.hold_take_self]; exact Nat.succ_pos _)) fun _ x ⟨hfree, hx, _⟩ =>
        Runs.get_bind (panic_spec (by decide) fun _ => ?_)
      have hne : ip ≠ dp := by
        rintro rfl
        exact Bool.noConfusion (((w.take ip).lock_self ip).symm.trans hfree)
      have hdl : ((((w.take dp).lock dp).take ip).lock ip).locks dp = true := by
        rw [World.lock_of_ne _ (Ne.symm hne)]
        exact (w.take dp).lock_self dp
      refine .seq (mayUnlink_spec hx ((((w.take dp).lock dp).take ip).lock_self ip)) ?_
      rintro empty _ rfl
      refine .ite (fun _ => ?_) fun _ =>
        unlockput_bind hx hfree fun y hy => unlockput_bind hy hdp' fun z hz => .pure hz
      refine .seq (writei_spec hx hdl (by decide) fun _ => writeOk_zero hoff) fun r y hy =>
        panic_spec (by decide) fun _ => ?_
      refine .seq (onlyIf_spec (fun _ => update_spec hy hdl fun _ => ⟨rfl, rfl, rfl⟩) fun _ => hy) fun _ z hz => ?_
      rw [w.lock_pair (Ne.symm hne)] at hz
      have hdfree : ((w.take ip).lock ip).locks dp = false := by
        rw [World.lock_of_ne _ (Ne.symm hne)]
        exact hdp
      refine unlockput_bind hz hdfree fun t' ht' => ?_
      refine update_bind ht' ((w.take ip).lock_self ip) (fun _ => ⟨rfl, rfl, rfl⟩) fun u' hu' _ => ?_
      have hip' : w.locks ip = false := ((w.take dp).lock_of_ne hne).symm.trans hfree
      exact unlockput_bind hu' hip' fun v' hv' => .pure hv'

/-! ## Opening -/

theorem openInode_spec {path : List UInt8} {omode : Nat} (h : Ok sb w X .clean s)
    (hw : ∀ jp, w.locks jp = true → 0 < w.hold jp) (hcwd : ∀ jp, w.cwd p = some jp → 0 < w.hold jp) :
    Safe (openInode sb p path omode) s fun r t => Locked sb w X (omode ≠ 0) r t := by
  refine .ite (fun _ => ?_) fun _ => ?_
  · refine (create_spec h hw hcwd).mono fun r t ht => ?_
    cases r with
    | none => exact ht
    | some ip => exact ⟨ht.1, ht.2.1, fun _ => ht.2.2 (by decide)⟩
  · refine .seq (namex_spec h hw hcwd) fun r t ht => ?_
    cases r with
    | none => exact .pure ht
    | some q =>
      obtain ⟨ip, name⟩ := q
      have ht' : Ok sb (w.take ip) X .clean t := ht
      refine .seq (ilock_spec ht' (by rw [w.hold_take_self]; exact Nat.succ_pos _)) fun _ u ⟨hfree, hu, _⟩ =>
        Runs.get_bind ?_
      refine .ite (fun _ => unlockput_bind hu hfree fun v hv => .pure hv) fun hc =>
        Runs.pure ⟨hfree, hu, fun hm hd => hc ⟨hd, hm⟩⟩

theorem sysMake_spec {path : List UInt8} {type : Int16} (h : Ok sb w X .clean s)
    (hw : ∀ jp, w.locks jp = true → 0 < w.hold jp) (hcwd : ∀ jp, w.cwd p = some jp → 0 < w.hold jp) :
    Safe (sysMake sb p path type major minor) s fun _ t => Ok sb w X .clean t := by
  refine .seq (create_spec h hw hcwd) fun r t ht => ?_
  cases r with
  | none => exact .pure ht
  | some ip => exact unlockput_bind ht.2.1 ht.1 fun u hu => .pure hu

end

end Xv6.Fs
