import Xv6.Fs.Law
import Xv6.Lib.Hoare

/-!
# What the calls keep

* `World` : the references and locks of the calls in progress, the files and working directories, and the image at the
  start of the transaction;
* `Pending` : an inode whose copy in the table has been changed and not yet been written with `iupdate()`;
* `Ok` : the image, with the pending copy in the place of the inode, is sound; the table agrees with the image and with
  the references; only blocks in the log have changed.

The specifications of the calls on the inode table follow. All of them exclude the panic `freeing free block` and no
other.
-/

namespace Xv6.Fs
open Hoare Alloc Function

structure World where
  hold : Ip → Nat
  locks : Ip → Bool
  files : Fin nfile → File
  cwd : Fin nproc → Option Ip
  base : Image
  outstanding : Nat
  /-- Entries that are known to be no directories: a file is open for writing on them. -/
  plain : Ip → Prop
  plain_held : ∀ ip, plain ip → 0 < hold ip

namespace World

variable {jp : Ip}

theorem hold_le_update (w : World) (ip jp : Ip) : w.hold jp ≤ update w.hold ip (w.hold ip + 1) jp := by
  by_cases h : jp = ip
  · rw [h, update_self]
    exact Nat.le_succ _
  · rw [update_of_ne h]

def take (w : World) (ip : Ip) : World :=
  { w with
    hold := update w.hold ip (w.hold ip + 1)
    plain_held := fun jp h => Nat.lt_of_lt_of_le (w.plain_held jp h) (w.hold_le_update ip jp) }

def lock (w : World) (ip : Ip) : World := { w with locks := update w.locks ip true }

theorem take_comm (w : World) (ip jp : Ip) : (w.take ip).take jp = (w.take jp).take ip := by
  by_cases h : ip = jp
  · rw [h]
  · simp only [take, update_of_ne (Ne.symm h), update_of_ne h]
    congr 1
    exact update_comm h ..

/-- `ip`, which the call has a reference to, is known to be no directory. -/
def mark (w : World) (ip : Ip) (h : 0 < w.hold ip) : World :=
  { w with
    plain := fun jp => jp = ip ∨ w.plain jp
    plain_held := fun jp hj => by
      rcases hj with rfl | hj
      · exact h
      · exact w.plain_held jp hj }

/-- The order in which a reference is taken, beside a locked one. -/
theorem take_lock_take (w : World) (ip jp : Ip) : ((w.take ip).lock ip).take jp = ((w.take jp).take ip).lock ip := by
  rw [take_comm w jp ip]
  rfl

theorem hold_take_self (w : World) (ip : Ip) : (w.take ip).hold ip = w.hold ip + 1 := update_self ..

theorem hold_take_of_ne (w : World) {ip : Ip} (h : jp ≠ ip) : (w.take ip).hold jp = w.hold jp :=
  update_of_ne h ..

theorem lock_comm (w : World) {ip : Ip} (h : ip ≠ jp) : (w.lock ip).lock jp = (w.lock jp).lock ip := by
  simp only [lock]
  congr 1
  exact update_comm h ..

theorem lock_self (w : World) (ip : Ip) : (w.lock ip).locks ip = true := update_self ..

theorem lock_of_ne (w : World) {ip : Ip} (h : jp ≠ ip) : (w.lock ip).locks jp = w.locks jp :=
  update_of_ne h ..

/-- The order in which two inodes are locked. -/
theorem lock_pair (w : World) {ip : Ip} (h : ip ≠ jp) :
    (((w.take ip).lock ip).take jp).lock jp = (((w.take jp).lock jp).take ip).lock ip := by
  rw [w.take_lock_take, lock_comm _ h]
  rfl

/-- The worlds differ at most in what they say of the entry `ip`. -/
structure Near (w w' : World) (ip : Ip) : Prop where
  hold : ∀ jp, jp ≠ ip → w'.hold jp = w.hold jp
  locks : ∀ jp, jp ≠ ip → w'.locks jp = w.locks jp
  files : w'.files = w.files
  cwd : w'.cwd = w.cwd
  base : w'.base = w.base
  outstanding : w'.outstanding = w.outstanding
  plain : w'.plain = w.plain

theorem near_self (w : World) (ip : Ip) : w.Near w ip := ⟨fun _ _ => rfl, fun _ _ => rfl, rfl, rfl, rfl, rfl, rfl⟩

theorem near_take (w : World) (ip : Ip) : w.Near (w.take ip) ip :=
  ⟨fun _ h => w.hold_take_of_ne h, fun _ _ => rfl, rfl, rfl, rfl, rfl, rfl⟩

theorem take_near (w : World) (ip : Ip) : (w.take ip).Near w ip :=
  ⟨fun _ h => (w.hold_take_of_ne h).symm, fun _ _ => rfl, rfl, rfl, rfl, rfl, rfl⟩

theorem near_lock (w : World) (ip : Ip) : w.Near (w.lock ip) ip :=
  ⟨fun _ _ => rfl, fun _ h => w.lock_of_ne h, rfl, rfl, rfl, rfl, rfl⟩

theorem lock_near (w : World) (ip : Ip) : (w.lock ip).Near w ip :=
  ⟨fun _ _ => rfl, fun _ h => (w.lock_of_ne h).symm, rfl, rfl, rfl, rfl, rfl⟩

end World

inductive Pending
  | clean
  /-- The copy of `ip` counts. -/
  | copy (ip : Ip)
  /-- The copy of `ip` counts, as if its size were zero already. -/
  | trunc (ip : Ip)

def Pending.ip : Pending → Option Ip
  | clean => none
  | copy ip => some ip
  | trunc ip => some ip

theorem Pending.clean_ip (ip : Ip) : clean.ip ≠ some ip := by
  intro h
  cases h

/-- The image with the pending copy. -/
def FsState.seen (sb : Superblock) (s : FsState) : Pending → View
  | .clean => sb.view s.disk
  | .copy ip => (sb.view s.disk).setIno (s.itable ip).inum (s.itable ip).din
  | .trunc ip => (sb.view s.disk).setIno (s.itable ip).inum { (s.itable ip).din with size := 0 }

/-- What holds of the table entry `n` at `ip`; `v` is the image. -/
structure Entry (sb : Superblock) (w : World) (d : Pending) (v : View) (ip : Ip) (n : Inode) : Prop where
  ref : n.ref = w.hold ip
  locked : n.locked = w.locks ip
  inum : 0 < w.hold ip → n.inum < sb.ninodes
  synced : 0 < w.hold ip → n.valid = true → d.ip ≠ some ip → n.din = v.ino n.inum
  live : 0 < w.hold ip → n.valid = true → n.din.type ≠ 0
  valid : w.locks ip = true → 0 < w.hold ip ∧ n.valid = true
  plain : w.plain ip → n.valid = true ∧ n.din.type ≠ tDir

structure Ok (sb : Superblock) (w : World) (held : List Nat) (d : Pending) (s : FsState) : Prop where
  sound : Sound sb (s.seen sb d) held
  entry : ∀ ip, Entry sb w d (sb.view s.disk) ip (s.itable ip)
  unique : ∀ ip jp, 0 < w.hold ip → 0 < w.hold jp → (s.itable ip).inum = (s.itable jp).inum → ip = jp
  files : s.ftable = w.files
  cwd : s.cwd = w.cwd
  outstanding : s.outstanding = w.outstanding
  logged : ∀ b, b ∉ s.lh → s.disk b = w.base b

/-- Programs that do not free a free block. -/
abbrev Safe {A : Type} (m : FsM A) (s : FsState) (Q : A → FsState → Prop) : Prop :=
  Runs (fun e : FsPanic => e ≠ .freeingFree) m s Q

section
variable {sb : Superblock} {w : World} {X Y : List Nat} {d : Pending} {s : FsState} {ip : Ip} {b : Nat} {img : Image}

theorem onlyIf_spec {c : Prop} [Decidable c] {m : FsM Unit} {Q : Unit → FsState → Prop} (ht : c → Safe m s Q)
    (hf : ¬ c → Q ⟨⟩ s) : Safe (onlyIf c m) s Q :=
  Runs.ite ht fun hc => .pure (hf hc)

/-- `if(c) panic(e);` -/
theorem panic_spec {c : Prop} [Decidable c] {e : FsPanic} {A : Type} {f : Unit → FsM A} {Q : A → FsState → Prop}
    (he : e ≠ .freeingFree) (hf : ¬ c → Safe (f ⟨⟩) s Q) : Safe (onlyIf c (throw e) >>= f) s Q := by
  refine .seq (Q := fun _ t => ¬ c ∧ t = s) (onlyIf_spec (fun _ => .throw he) fun hc => ⟨hc, rfl⟩) ?_
  rintro _ _ ⟨hc, rfl⟩
  exact hf hc

/-! ## Writes -/

/-- `log_write()` may panic for a reason of its own. -/
theorem modDisk_spec {g : Image → Image} {Q : Unit → FsState → Prop} (h : Q ⟨⟩ (s.wrote b (g s.disk))) :
    Safe (modDisk b g) s Q :=
  Runs.get_bind (panic_spec (by decide) fun _ => panic_spec (by decide) fun _ => .of_modify h)

theorem modDisk_bind {g : Image → Image} {A : Type} {f : Unit → FsM A} {Q : A → FsState → Prop}
    (h : Safe (f ⟨⟩) (s.wrote b (g s.disk)) Q) : Safe (modDisk b g >>= f) s Q :=
  Runs.seq (Q := fun _ t => t = s.wrote b (g s.disk)) (modDisk_spec rfl) fun _ t ht => by
    subst ht
    exact h

theorem Ok.wrote (h : Ok sb w X d s) (hb : ∀ c, c ≠ b → img c = s.disk c)
    (hsound : Sound sb ((s.wrote b img).seen sb d) Y)
    (hino : ∀ ip, 0 < w.hold ip → (s.itable ip).valid = true → d.ip ≠ some ip →
      (sb.view img).ino (s.itable ip).inum = (sb.view s.disk).ino (s.itable ip).inum) : Ok sb w Y d (s.wrote b img) where
  sound := hsound
  entry ip := { h.entry ip with
    synced := fun hi hv hd => ((h.entry ip).synced hi hv hd).trans (hino ip hi hv hd).symm }
  unique := h.unique
  files := h.files
  cwd := h.cwd
  outstanding := h.outstanding
  logged c hc := by
    have hmem : c ∉ s.lh ∧ c ≠ b := by
      by_cases hbl : b ∈ s.lh
      · have hc' : c ∉ s.lh := by simpa [FsState.wrote, hbl] using hc
        exact ⟨hc', fun he => hc' (he ▸ hbl)⟩
      · simpa [FsState.wrote, hbl] using hc
    exact (hb c hmem.2).trans (h.logged c hmem.1)

theorem seen_setBit {c : Nat} {x : Bool} (hv : sb.view img = (sb.view s.disk).setBit b x) :
    (s.wrote c img).seen sb d = (s.seen sb d).setBit b x := by
  cases d with
  | clean => exact hv
  | copy ip =>
    show (sb.view img).setIno _ _ = _
    rw [hv]
    rfl
  | trunc ip =>
    show (sb.view img).setIno _ _ = _
    rw [hv]
    rfl

theorem seen_setBlk {c : Nat} {f : Nat → UInt8} (hv : sb.view img = (sb.view s.disk).setBlk b f) :
    (s.wrote c img).seen sb d = (s.seen sb d).setBlk b f := by
  cases d with
  | clean => exact hv
  | copy ip =>
    show (sb.view img).setIno _ _ = _
    rw [hv]
    rfl
  | trunc ip =>
    show (sb.view img).setIno _ _ = _
    rw [hv]
    rfl

theorem seen_bit : (s.seen sb d).bit = (sb.view s.disk).bit := by
  cases d <;> rfl

theorem seen_blk : (s.seen sb d).blk = (sb.view s.disk).blk := by
  cases d <;> rfl

/-- A write to the bitmap. -/
theorem Ok.setBit {x : Bool} (h : Ok sb w X d s) (hv : sb.view img = (sb.view s.disk).setBit b x)
    (himg : ∀ c, c ≠ sb.bblock b → img c = s.disk c) (hsound : Sound sb ((s.seen sb d).setBit b x) Y) :
    Ok sb w Y d (s.wrote (sb.bblock b) img) := by
  refine h.wrote himg (by rwa [seen_setBit hv]) fun i _ _ _ => ?_
  rw [hv]
  rfl

/-! ## The inode table -/

/-- One entry of the table changes. -/
theorem Ok.setInode {w' : World} {n : Inode} (h : Ok sb w X d s) (hw : w.Near w' ip)
    (hn : Entry sb w' d (sb.view s.disk) ip n) (hsound : Sound sb ((s.setInode ip n).seen sb d) Y)
    (huniq : 0 < w'.hold ip → ∀ jp, jp ≠ ip → 0 < w.hold jp → (s.itable jp).inum ≠ n.inum) :
    Ok sb w' Y d (s.setInode ip n) where
  sound := hsound
  entry jp := by
    by_cases hj : jp = ip
    · subst hj
      show Entry sb w' d _ jp (update s.itable jp n jp)
      rw [update_self]
      exact hn
    · show Entry sb w' d _ jp (update s.itable ip n jp)
      rw [update_of_ne hj]
      have he := h.entry jp
      constructor
      · rw [hw.hold jp hj]
        exact he.ref
      · rw [hw.locks jp hj]
        exact he.locked
      · rw [hw.hold jp hj]
        exact he.inum
      · rw [hw.hold jp hj]
        exact he.synced
      · rw [hw.hold jp hj]
        exact he.live
      · rw [hw.hold jp hj, hw.locks jp hj]
        exact he.valid
      · rw [hw.plain]
        exact he.plain
  unique jp kp hj hk he := by
    have hne : ∀ qp, qp ≠ ip → ((s.setInode ip n).itable qp).inum = (s.itable qp).inum := fun qp hq => by
      show (update s.itable ip n qp).inum = _
      rw [update_of_ne hq]
    have hself : ((s.setInode ip n).itable ip).inum = n.inum := by
      show (update s.itable ip n ip).inum = _
      rw [update_self]
    by_cases hji : jp = ip
    · by_cases hki : kp = ip
      · rw [hji, hki]
      · rw [hji, hself, hne kp hki] at he
        rw [hw.hold kp hki] at hk
        exact absurd he.symm (huniq (hji ▸ hj) kp hki hk)
    · by_cases hki : kp = ip
      · rw [hki, hself, hne jp hji] at he
        rw [hw.hold jp hji] at hj
        exact absurd he (huniq (hki ▸ hk) jp hji hj)
      · rw [hne jp hji, hne kp hki] at he
        rw [hw.hold jp hji] at hj
        rw [hw.hold kp hki] at hk
        exact h.unique jp kp hj hk he
  files := h.files.trans hw.files.symm
  cwd := h.cwd.trans hw.cwd.symm
  outstanding := h.outstanding.trans hw.outstanding.symm
  logged b hb := (h.logged b hb).trans (congrFun hw.base b).symm

theorem iget_spec {inum : Nat} (h : Ok sb w X .clean s) (hinum : inum < sb.ninodes) :
    Safe (iget inum) s fun ip t => Ok sb (w.take ip) X .clean t ∧ (t.itable ip).inum = inum ∧
      t.disk = s.disk ∧ t.lh = s.lh := by
  refine .get_bind ?_
  cases hfind : (List.finRange ninode).find? fun i => decide (0 < (s.itable i).ref ∧ (s.itable i).inum = inum) with
  | some ip =>
    obtain ⟨href, hin⟩ : 0 < (s.itable ip).ref ∧ (s.itable ip).inum = inum := by simpa using List.find?_some hfind
    have he := h.entry ip
    have hhold : 0 < w.hold ip := by
      rw [he.ref] at href
      exact Int.natCast_pos.mp href
    refine .modify_bind (.pure ⟨?_, ?_, rfl, rfl⟩)
    · refine h.setInode (w.near_take ip) ?_ h.sound fun _ jp hj hjh hc => hj (h.unique jp ip hjh hhold hc)
      refine ⟨?_, he.locked, fun _ => he.inum hhold, fun _ => he.synced hhold, fun _ => he.live hhold, fun hl => ?_,
        he.plain⟩
      · show (s.itable ip).ref + 1 = _
        rw [he.ref, w.hold_take_self]
        rfl
      · exact ⟨by rw [w.hold_take_self]; exact Nat.succ_pos _, (he.valid hl).2⟩
    · show (update s.itable ip _ ip).inum = inum
      rw [update_self]
      exact hin
  | none =>
    dsimp only
    cases hfree : (List.finRange ninode).find? fun i => decide ((s.itable i).ref = 0) with
    | none => exact .throw (by decide)
    | some ip =>
      have href : (s.itable ip).ref = 0 := by simpa using List.find?_some hfree
      have he := h.entry ip
      have hhold : w.hold ip = 0 := by
        rw [he.ref] at href
        exact Int.natCast_eq_zero.mp href
      have hlock : w.locks ip ≠ true := fun hl => by
        have := (he.valid hl).1
        omega
      refine .modify_bind (.pure ⟨?_, ?_, rfl, rfl⟩)
      · refine h.setInode (w.near_take ip) ?_ h.sound fun _ jp hj hjh hc => ?_
        · refine ⟨?_, he.locked, fun _ => hinum, fun _ hv => Bool.noConfusion hv, fun _ hv => Bool.noConfusion hv,
            fun hl => absurd hl hlock, fun hp => ?_⟩
          · rw [w.hold_take_self, hhold]
            rfl
          · have := w.plain_held ip hp
            omega
        · have hnone := List.find?_eq_none.mp hfind jp (List.mem_finRange jp)
          have hjref : 0 < (s.itable jp).ref := by
            rw [(h.entry jp).ref]
            exact Int.natCast_pos.mpr hjh
          simp only [decide_eq_true_eq] at hnone
          exact hnone ⟨hjref, hc⟩
      · show (update s.itable ip _ ip).inum = inum
        rw [update_self]

theorem idup_spec (h : Ok sb w X .clean s) (hip : 0 < w.hold ip) :
    Safe (idup ip) s fun jp t => jp = ip ∧ Ok sb (w.take ip) X .clean t := by
  have he := h.entry ip
  refine .modify_bind (.pure ⟨rfl, ?_⟩)
  refine h.setInode (w.near_take ip) ?_ h.sound fun _ jp hj hjh hc => hj (h.unique jp ip hjh hip hc)
  refine ⟨?_, he.locked, fun _ => he.inum hip, fun _ => he.synced hip, fun _ => he.live hip, fun hl => ?_, he.plain⟩
  · show (s.itable ip).ref + 1 = _
    rw [he.ref, w.hold_take_self]
    rfl
  · exact ⟨by rw [w.hold_take_self]; exact Nat.succ_pos _, (he.valid hl).2⟩

theorem setInode_setInode (s : FsState) (ip : Ip) (n m : Inode) :
    (s.setInode ip n).setInode ip m = s.setInode ip m := by
  rw [FsState.setInode, FsState.setInode, FsState.setInode, update_idem]

theorem itable_setInode (s : FsState) (ip : Ip) (n : Inode) : (s.setInode ip n).itable ip = n := update_self ..

theorem ilock_spec (h : Ok sb w X .clean s) (hip : 0 < w.hold ip) :
    Safe (ilock sb ip) s fun _ t => w.locks ip = false ∧ Ok sb (w.lock ip) X .clean t ∧ t.disk = s.disk ∧
      (t.itable ip).inum = (s.itable ip).inum ∧ t.lh = s.lh := by
  have he := h.entry ip
  refine .get_bind (.ite (fun _ => .throw (by decide)) fun _ => ?_)
  refine .ite (fun _ => .throw (by decide)) fun hl => ?_
  have hfree : w.locks ip = false := by
    rw [← he.locked]
    simpa using hl
  have huniq : ∀ jp, jp ≠ ip → 0 < w.hold jp → (s.itable jp).inum ≠ (s.itable ip).inum := fun jp hj hjh hc =>
    hj (h.unique jp ip hjh hip hc)
  refine .modify_bind (.ite (fun hv => .pure ⟨hfree, ?_, rfl, by rw [itable_setInode], rfl⟩) fun hv => ?_)
  · refine h.setInode (w.near_lock ip) ?_ h.sound fun _ => huniq
    exact ⟨he.ref, (w.lock_self ip).symm, he.inum, he.synced, he.live, fun _ => ⟨hip, hv⟩, he.plain⟩
  · refine .modify_bind (.ite (fun _ => .throw (by decide)) fun htype =>
      Runs.pure ⟨hfree, ?_, rfl, by rw [itable_setInode, itable_setInode], rfl⟩)
    rw [itable_setInode, setInode_setInode]
    have hview : (sb.view s.disk).ino (s.itable ip).inum = sb.dinode s.disk (s.itable ip).inum := view_ino (he.inum hip)
    refine h.setInode (w.near_lock ip) ?_ h.sound fun _ => huniq
    refine ⟨he.ref, (w.lock_self ip).symm, he.inum, fun _ _ _ => hview.symm, fun _ _ => htype, fun _ => ⟨hip, rfl⟩,
      fun hp => ?_⟩
    exact absurd (he.plain hp).1 hv

theorem iunlock_spec (h : Ok sb (w.lock ip) X .clean s) (hl : w.locks ip = false) :
    Safe (iunlock ip) s fun _ t => Ok sb w X .clean t := by
  have he := h.entry ip
  have hip : 0 < w.hold ip := (he.valid (w.lock_self ip)).1
  refine .get_bind (.ite (fun _ => .throw (by decide)) fun _ => .of_modify ?_)
  refine h.setInode (w.lock_near ip) ?_ h.sound fun _ jp hj hjh hc => hj (h.unique jp ip hjh hip hc)
  exact ⟨he.ref, hl.symm, he.inum, he.synced, he.live, fun hc => Bool.noConfusion (hl.symm.trans hc), he.plain⟩

/-- What is known of an inode in the table besides is added. -/
theorem Ok.mark (h : Ok sb w X d s) (hip : 0 < w.hold ip) (hv : (s.itable ip).valid = true)
    (htype : (s.itable ip).din.type ≠ tDir) : Ok sb (w.mark ip hip) X d s :=
  { h with
    entry := fun jp => { h.entry jp with
      plain := fun hp => by
        rcases hp with rfl | hp
        · exact ⟨hv, htype⟩
        · exact (h.entry jp).plain hp } }

theorem Ok.unmark {hip : 0 < w.hold ip} (h : Ok sb (w.mark ip hip) X d s) : Ok sb w X d s :=
  { h with entry := fun jp => { h.entry jp with plain := fun hp => (h.entry jp).plain (.inr hp) } }

/-! ## Changing an inode -/

theorem setIno_eq_self {v : View} {i : Nat} {c : Dinode} (h : c = v.ino i) : v.setIno i c = v := by
  rw [h, View.setIno, update_eq_self]

theorem setIno_setIno (v : View) (i : Nat) (c c' : Dinode) : (v.setIno i c).setIno i c' = v.setIno i c' := by
  rw [View.setIno, View.setIno, View.setIno, update_idem]

/-- The copy of a locked inode is the inode. -/
theorem Ok.pend (h : Ok sb w X .clean s) (hl : w.locks ip = true) : Ok sb w X (.copy ip) s where
  sound := by
    have he := h.entry ip
    obtain ⟨hip, hv⟩ := he.valid hl
    show Sound sb ((sb.view s.disk).setIno _ _) X
    rw [setIno_eq_self (he.synced hip hv (Pending.clean_ip ip))]
    exact h.sound
  entry jp := { h.entry jp with synced := fun hj hv _ => (h.entry jp).synced hj hv (Pending.clean_ip jp) }
  unique := h.unique
  files := h.files
  cwd := h.cwd
  outstanding := h.outstanding
  logged := h.logged

theorem ino_seen_copy : (s.seen sb (.copy ip)).ino (s.itable ip).inum = (s.itable ip).din := setIno_self

theorem ino_seen_trunc : (s.seen sb (.trunc ip)).ino (s.itable ip).inum = { (s.itable ip).din with size := 0 } :=
  setIno_self

/-- A pending inode is in use. -/
theorem Ok.live_seen (h : Ok sb w X d s) (hd : d.ip = some ip) (hl : w.locks ip = true) :
    (s.seen sb d).Live sb (s.itable ip).inum := by
  have he := h.entry ip
  obtain ⟨hip, hv⟩ := he.valid hl
  refine ⟨he.inum hip, ?_⟩
  cases d with
  | clean => cases hd
  | copy jp =>
    obtain rfl := Option.some.inj hd
    rw [ino_seen_copy]
    exact he.live hip hv
  | trunc jp =>
    obtain rfl := Option.some.inj hd
    rw [ino_seen_trunc]
    exact he.live hip hv

/-- The pending copy changes, but not its type. -/
theorem Ok.setDin {c : Dinode} (h : Ok sb w X d s) (hd : d.ip = some ip) (hl : w.locks ip = true)
    (htype : c.type = (s.itable ip).din.type)
    (hsound : Sound sb ((s.setInode ip { s.itable ip with din := c }).seen sb d) Y) :
    Ok sb w Y d (s.setInode ip { s.itable ip with din := c }) := by
  have he := h.entry ip
  obtain ⟨hip, hv⟩ := he.valid hl
  refine h.setInode (w.near_self ip) ?_ hsound fun _ jp hj hjh hc => hj (h.unique jp ip hjh hip hc)
  refine ⟨he.ref, he.locked, he.inum, fun _ _ hne => absurd hd hne, fun hh hv => ?_, he.valid, fun hp => ?_⟩
  · show c.type ≠ 0
    rw [htype]
    exact he.live hh hv
  · show _ ∧ c.type ≠ tDir
    rw [htype]
    exact he.plain hp

/-- What is seen after a change of the pending copy. -/
theorem seen_setDin (s : FsState) (ip : Ip) (c : Dinode) :
    (s.setInode ip { s.itable ip with din := c }).seen sb (.copy ip) =
      (s.seen sb (.copy ip)).setIno (s.itable ip).inum c := by
  show (sb.view s.disk).setIno ((s.setInode ip _).itable ip).inum ((s.setInode ip _).itable ip).din =
    ((sb.view s.disk).setIno _ _).setIno _ _
  rw [itable_setInode, setIno_setIno]

/-- A change of the copy of a locked inode that leaves its type, its size and its addresses. -/
theorem Ok.modDin {f : Dinode → Dinode} (h : Ok sb w X (.copy ip) s) (hl : w.locks ip = true)
    (hf : ∀ c, (f c).type = c.type ∧ (f c).size = c.size ∧ (f c).addrs = c.addrs) :
    Ok sb w X (.copy ip) (s.setInode ip { s.itable ip with din := f (s.itable ip).din }) := by
  refine h.setDin rfl hl (hf _).1 ?_
  rw [seen_setDin]
  refine h.sound.setIno_of_eq ?_ ?_ ?_
  · rw [ino_seen_copy, (hf _).1]
  · rw [ino_seen_copy, (hf _).2.1]
  · rw [ino_seen_copy, (hf _).2.2]

theorem iupdate_spec (h : Ok sb w X (.copy ip) s) (hl : w.locks ip = true) :
    Safe (iupdate sb ip) s fun _ t => Ok sb w X .clean t ∧ t.itable = s.itable ∧
      sb.view t.disk = (sb.view s.disk).setIno (s.itable ip).inum (s.itable ip).din := by
  have he := h.entry ip
  obtain ⟨hip, hv⟩ := he.valid hl
  have hview : sb.view (sb.setDinode s.disk (s.itable ip).inum (s.itable ip).din) =
      (sb.view s.disk).setIno (s.itable ip).inum (s.itable ip).din := view_setDinode (he.inum hip)
  refine .get_bind (modDisk_spec ⟨?_, rfl, hview⟩)
  have hw : Ok sb w X (.copy ip) (s.wrote (sb.iblock (s.itable ip).inum)
      (sb.setDinode s.disk (s.itable ip).inum (s.itable ip).din)) := by
    refine h.wrote (fun c hc => update_of_ne hc ..) ?_ fun jp hj _ hd => ?_
    · have hseen : ((sb.view (sb.setDinode s.disk (s.itable ip).inum (s.itable ip).din)).setIno (s.itable ip).inum
          (s.itable ip).din) = s.seen sb (.copy ip) := by
        rw [hview, setIno_setIno]
        rfl
      show Sound sb ((sb.view (sb.setDinode s.disk _ _)).setIno (s.itable ip).inum (s.itable ip).din) X
      rw [hseen]
      exact h.sound
    · rw [hview]
      exact ino_setIno_of_ne fun hc => hd (congrArg some (h.unique ip jp hip hj hc.symm))
  refine { hw with sound := ?_, entry := fun jp => { hw.entry jp with synced := fun hj hvj _ => ?_ } }
  · show Sound sb (sb.view (sb.setDinode s.disk _ _)) X
    rw [hview]
    exact h.sound
  · by_cases hji : jp = ip
    · subst hji
      show (s.itable jp).din = (sb.view (sb.setDinode s.disk _ _)).ino (s.itable jp).inum
      rw [hview, setIno_self]
    · exact (hw.entry jp).synced hj hvj fun hc => hji (Option.some.inj hc).symm

theorem ialloc_spec {type : Int16} (h : Ok sb w X .clean s) :
    Safe (ialloc sb type) s fun r t => match r with
      | none => t = s
      | some ip => Ok sb (w.take ip) X .clean t ∧ ((sb.view t.disk).ino (t.itable ip).inum).type = type := by
  refine .get_bind ?_
  cases hfind : (List.range' 1 (sb.ninodes - 1)).find? fun inum => decide ((sb.dinode s.disk inum).type = 0) with
  | none => exact .pure rfl
  | some inum =>
    have hlt : inum < sb.ninodes := by
      have := List.mem_range'_1.mp (List.mem_of_find?_eq_some hfind)
      have := sb.root_lt
      omega
    have htype : ((sb.view s.disk).ino inum).type = 0 := by
      rw [view_ino hlt]
      simpa using List.find?_some hfind
    have hview : sb.view (sb.setDinode s.disk inum { Dinode.zero with type := type }) =
        (sb.view s.disk).setIno inum { Dinode.zero with type := type } := view_setDinode hlt
    have hset : Ok sb w X .clean (s.wrote (sb.iblock inum)
        (sb.setDinode s.disk inum { Dinode.zero with type := type })) := by
      refine h.wrote (fun c hc => update_of_ne hc ..) ?_ fun ip hip hv _ => ?_
      · show Sound sb (sb.view (sb.setDinode s.disk inum _)) X
        rw [hview]
        exact h.sound.ialloc htype
      · -- an inode in the table with a valid copy is in use
        rw [hview]
        refine ino_setIno_of_ne fun hc => (h.entry ip).live hip hv ?_
        rw [(h.entry ip).synced hip hv (Pending.clean_ip ip), hc, htype]
    refine modDisk_bind (.seq (iget_spec hset hlt) fun ip t ⟨ht, hin, hdisk, _⟩ => .pure ⟨ht, ?_⟩)
    rw [hin, hdisk]
    show ((sb.view (sb.setDinode s.disk inum _)).ino inum).type = type
    rw [hview, setIno_self]

end

end Xv6.Fs
